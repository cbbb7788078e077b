import FdcSds.Fdc.Carrier

/-! What becomes of a detach (`fdc_tcp_detach`, `tcp_service`).

    The kick flag says that the client is to be dropped. Both the adoption of a client and the end of a
    drop take it down; a detach that comes before an adoption is through is forgotten.

        kick up ─▶ next test ─▶ close ─▶ UART
        adopt ─▶ … kick up … ─▶ kick down        -/

namespace FdcSds
open Schemes Schemes.Runs

namespace Carrier

/-- A detach raises the kick flag when no socket is pending, and no adoption has still to lower it. -/
def Timely (x : Carrier × CarrierLog) : CarrierAct → Prop
  | .kick => x.1.pending = none ∧ x.1.fdc ≠ .fresh ∧ x.1.fdc ≠ .settle
  | _ => True

instance (x : Carrier × CarrierLog) : (a : CarrierAct) → Decidable (Timely x a)
  | .kick => inferInstanceAs (Decidable (_ ∧ _ ∧ _))
  | .linkUp | .linkDown | .listen | .accept | .attach | .refuse | .leave | .detach | .service | .close
  | .unset | .revive | .unkick | .release | .look | .adopt | .fresh | .settle | .poll _ _ | .transfer _
  | .finish =>
    inferInstanceAs (Decidable True)

/-- The socket is still there, and the flag up, before the test of the next `tcp_service` at the latest. -/
def Waiting (x : Carrier × CarrierLog) (i a : ℕ) : Prop :=
  x.1.fd = some i ∧ x.1.kick = true ∧
    (x.1.fdc = .service ∨ x.1.fdc = .close ∨ x.1.fdc = .idle ∨ x.1.fdc = .command ∨
      x.1.fdc = .look ∧ x.2.services = a) ∧
    x.2.services ≤ a + 1

/-- The socket is closed, and the link given back to the UART but for a step. -/
def Gone (x : Carrier × CarrierLog) (i a : ℕ) : Prop :=
  (i, .fdc) ∈ x.2.closed ∧ (x.1.fd = none ∨ x.1.fdc = .unset ∧ x.2.services ≤ a + 1)

/-- What was attached last is the only socket with the fdc task, and a detach of it is under way or done. -/
structure Asked (x : Carrier × CarrierLog) : Prop where
  latest : ∀ i, x.1.pending = some i ∨ x.1.fd = some i → x.2.attached = some i
  kept : ∀ i, x.2.attached = some i → x.1.pending = some i ∨ x.1.fd = some i ∧ x.1.fdc ≠ .unset ∨
    (i, .fdc) ∈ x.2.closed
  wish : ∀ i a, x.2.wish = some (i, a) → x.1.pending = none ∧ (Waiting x i a ∨ Gone x i a)

variable {s s' : Carrier} {n : CarrierLog} {x x' : Carrier × CarrierLog} {a : CarrierAct}

/-- Where the fdc task can be with a socket that it has not closed, its adoption being through. -/
theorem Flags.places (h : s.Flags) {i : ℕ} (hfd : s.fd = some i) (hunset : s.fdc ≠ .unset)
    (hfresh : s.fdc ≠ .fresh) (hsettle : s.fdc ≠ .settle) : s.fdc = .service ∨ s.fdc = .close ∨
      s.fdc = .idle ∨ s.fdc = .command ∨ s.fdc = .look := by
  have hletting : ¬s.Letting := fun hl => by
    rw [(h.letting hl).2] at hfd
    cases hfd
  have hadopt : s.fdc ≠ .adopt := fun ha => by
    rw [(h.adopting ha).2] at hfd
    cases hfd
  unfold Letting at hletting
  cases hpc : s.fdc <;> simp_all

/-- A detach is through. -/
theorem Asked.detached (h : Asked (s, n)) (hs : Sound (s, n)) (hpending : s.pending = none)
    (hfresh : s.fdc ≠ .fresh) (hsettle : s.fdc ≠ .settle) (kick : Bool)
    (hkick : s.fd.isSome = true → kick = true) (l : ListenerPc) :
    Asked ({ s with listener := l, kick := kick }, n.detached) := by
  refine ⟨h.latest, h.kept, fun i a hwish => ⟨hpending, ?_⟩⟩
  obtain ⟨i', hi, hpair⟩ := Option.map_eq_some_iff.mp hwish
  cases hpair
  rcases h.kept i hi with hp | ⟨hfd, hunset⟩ | hclosed
  · rw [hpending] at hp
    cases hp
  · refine .inl ⟨hfd, hkick (by rw [hfd]; rfl), ?_, Nat.le_succ _⟩
    rcases hs.flags.places hfd hunset hfresh hsettle with hpc | hpc | hpc | hpc | hpc
    · exact .inl hpc
    · exact .inr (.inl hpc)
    · exact .inr (.inr (.inl hpc))
    · exact .inr (.inr (.inr (.inl hpc)))
    · exact .inr (.inr (.inr (.inr ⟨hpc, rfl⟩)))
  · refine .inr ⟨hclosed, ?_⟩
    cases hfd : s.fd with
    | none => exact .inl rfl
    | some j =>
      have hj : j = i := Option.some.inj ((h.latest j (.inr hfd)).symm.trans hi)
      subst hj
      refine .inr ⟨?_, Nat.le_succ _⟩
      by_contra hunset
      have hplace := @Custody.unique _ _ _ hs.sockets.custody .fdc (.closed .fdc) j ⟨hfd, hunset⟩ hclosed
      cases hplace

/-- A step that leaves sockets, flag and log. -/
theorem Asked.congr (h : Asked (s, n)) {n' : CarrierLog} (hpending : s'.pending = s.pending)
    (hfd : s'.fd = s.fd) (hkick : s'.kick = s.kick) (hattached : n'.attached = n.attached)
    (hclosed : ∀ i, (i, .fdc) ∈ n'.closed ↔ (i, .fdc) ∈ n.closed) (hwish : n'.wish = n.wish)
    (hunset : s'.fdc = .unset ↔ s.fdc = .unset) (hservices : n'.services = n.services)
    (hpc : s'.fdc = s.fdc ∨ s'.fdc = .service ∨ s'.fdc = .idle ∨ s'.fdc = .command ∨ s.fd = none) :
    Asked (s', n') := by
  obtain ⟨hlatest, hkept, hasked⟩ := h
  constructor
  · simp only [hpending, hfd, hattached]
    exact hlatest
  · intro i hi
    simp only [hattached, hpending, hfd, hclosed, ne_eq, hunset] at hi ⊢
    exact hkept i hi
  · intro i a hi
    simp only [hwish] at hi
    obtain ⟨hnone, hcase⟩ := hasked i a hi
    refine ⟨by rw [hpending]; exact hnone, ?_⟩
    rcases hcase with ⟨hw₁, hw₂, hw₃, hw₄⟩ | ⟨hg₁, hg₂⟩
    · refine .inl ⟨by rw [hfd]; exact hw₁, by rw [hkick]; exact hw₂, ?_, by rw [hservices]; exact hw₄⟩
      simp only [hservices]
      rcases hpc with hpc | hpc | hpc | hpc | hpc
      · rw [hpc]
        exact hw₃
      · exact .inl hpc
      · exact .inr (.inr (.inl hpc))
      · exact .inr (.inr (.inr (.inl hpc)))
      · rw [hpc] at hw₁
        cases hw₁
    · refine .inr ⟨by rw [hclosed]; exact hg₁, ?_⟩
      simp only [hfd, hunset, hservices]
      exact hg₂

/-- A step without a socket at the fdc task. -/
theorem Asked.uart (h : Asked (s, n)) {n' : CarrierLog} (hfd : s.fd = none) (hfd' : s'.fd = none)
    (hpending : s'.pending = s.pending) (hattached : n'.attached = n.attached)
    (hclosed : n'.closed = n.closed) (hwish : n'.wish = n.wish) : Asked (s', n') := by
  obtain ⟨hlatest, hkept, hasked⟩ := h
  constructor
  · simp only [hpending, hfd', hattached]
    simpa only [hfd] using hlatest
  · intro i hi
    simp only [hattached] at hi
    have hold := hkept i hi
    simp only [hfd, reduceCtorEq, false_and, false_or] at hold
    simp only [hpending, hfd', hclosed, reduceCtorEq, false_and, false_or]
    exact hold
  · intro i a hi
    simp only [hwish] at hi
    obtain ⟨hnone, hcase⟩ := hasked i a hi
    refine ⟨by rw [hpending]; exact hnone, .inr ?_⟩
    rcases hcase with ⟨hw, -⟩ | ⟨hg, -⟩
    · rw [hfd] at hw
      cases hw
    · exact ⟨by rw [hclosed]; exact hg, .inl hfd'⟩

/-- While a socket is being adopted no detach is under way. -/
theorem Asked.no_wish (h : Asked (s, n)) (hs : s.Flags) (hpc : s.fdc = .fresh ∨ s.fdc = .settle) :
    n.wish = none := by
  have hsome : s.fd.isSome = true := hs.holding (.inr (.inr hpc))
  cases hwish : n.wish with
  | none => rfl
  | some w =>
    obtain ⟨-, hcase⟩ := h.wish w.1 w.2 hwish
    rcases hcase with ⟨-, -, hw, -⟩ | ⟨-, hg | ⟨hg, -⟩⟩
    · rcases hpc with hpc | hpc <;> simp [hpc] at hw
    · rw [show s.fd = none from hg] at hsome
      cases hsome
    · rcases hpc with hpc | hpc <;> simp [hpc] at hg

/-- A step of an adoption. -/
theorem Asked.adopting (h : Asked (s, n)) {n' : CarrierLog} (hno : n'.wish = none)
    (hpending : s'.pending = s.pending) (hfd : s'.fd = s.fd) (hunset : s'.fdc ≠ .unset)
    (hattached : n'.attached = n.attached) (hclosed : n'.closed = n.closed) : Asked (s', n') := by
  obtain ⟨hlatest, hkept, -⟩ := h
  constructor
  · simp only [hpending, hfd, hattached]
    exact hlatest
  · intro i hi
    simp only [hattached] at hi
    simp only [hpending, hfd, hclosed]
    rcases hkept i hi with hp | ⟨hf, -⟩ | hc
    · exact .inl hp
    · exact .inr (.inl ⟨hf, hunset⟩)
    · exact .inr (.inr hc)
  · intro i a hi
    rw [hno] at hi
    cases hi

theorem attach_asked (h : Asked (s, n)) (hs : s.Flags) (hstep : s.step .attach = some s') :
    Asked (s', note s .attach n) := by
  simp only [step] at hstep
  split at hstep
  · next i hl =>
    simp only [note, hl]
    split at hstep
    · next hok =>
      cases hstep
      simp only [hok, if_true]
      obtain ⟨-, hfd, -⟩ := hs.attachOk_iff.mp hok
      constructor
      · intro j hj
        simpa [hfd] using hj
      · intro j hj
        exact .inl hj
      · intro j a hj
        cases hj
    · next hno =>
      cases hstep
      simp only [hno, Bool.false_eq_true, if_false]
      exact h.congr rfl rfl rfl rfl (fun _ => Iff.rfl) rfl Iff.rfl rfl (.inl rfl)
  · cases hstep

theorem detach_asked (h : Asked (s, n)) (hs : Sound (s, n)) (hstep : s.step .detach = some s') :
    Asked (s', note s .detach n) := by
  obtain ⟨-, rfl⟩ := when_eq_some.mp hstep
  by_cases hactive : s.active = true
  · simp only [note, hactive, if_true]
    exact h.congr rfl rfl rfl rfl (fun _ => Iff.rfl) rfl Iff.rfl rfl (.inl rfl)
  · simp only [note, if_neg hactive]
    have hflags := hs.flags
    have hno := hflags.active.not.mp hactive
    simp only [not_or, Bool.not_eq_true, Option.isSome_eq_false_iff, Option.isNone_iff_eq_none] at hno
    obtain ⟨hpending, hfd, -⟩ := hno
    have hplace (hpc : s.fdc = .fresh ∨ s.fdc = .settle) : False := by
      have hsome : s.fd.isSome = true := hflags.holding (.inr (.inr hpc))
      rw [hfd] at hsome
      cases hsome
    exact h.detached hs hpending (fun hpc => hplace (.inl hpc)) (fun hpc => hplace (.inr hpc)) s.kick
      (by rw [hfd]; rintro ⟨⟩) .down

theorem service_asked (h : Asked (s, n)) (hstep : s.step .service = some s') : Asked (s', n) := by
  obtain ⟨hpc, rfl⟩ := when_eq_some.mp hstep
  have hunset (y : LinkPc) (hy : y = .close ∨ y = .look) : y = .unset ↔ s.fdc = .unset := by
    rcases hy with rfl | rfl <;> simp [hpc]
  obtain ⟨hlatest, hkept, hasked⟩ := h
  by_cases hdrop : (s.onTcp && (s.dead || s.kick)) = true
  · simp only [hdrop, if_true]
    refine ⟨hlatest, fun i hi => ?_, fun i a hi => ?_⟩
    · simpa [hpc] using hkept i hi
    · obtain ⟨hnone, ⟨hw₁, hw₂, -, hw₄⟩ | ⟨hg₁, hg₂⟩⟩ := hasked i a hi
      · exact ⟨hnone, .inl ⟨hw₁, hw₂, .inr (.inl rfl), hw₄⟩⟩
      · simp only [hpc, reduceCtorEq, false_and, or_false] at hg₂
        exact ⟨hnone, .inr ⟨hg₁, .inl hg₂⟩⟩
  · simp only [hdrop, Bool.false_eq_true, if_false]
    refine ⟨hlatest, fun i hi => ?_, fun i a hi => ?_⟩
    · simpa [hpc] using hkept i hi
    · obtain ⟨hnone, ⟨hw₁, hw₂, -, -⟩ | ⟨hg₁, hg₂⟩⟩ := hasked i a hi
      · -- the flag is up, and the test sees it
        have hw₁ : s.fd = some i := hw₁
        have hw₂ : s.kick = true := hw₂
        simp [onTcp, hw₁, hw₂] at hdrop
      · simp only [hpc, reduceCtorEq, false_and, or_false] at hg₂
        exact ⟨hnone, .inr ⟨hg₁, .inl hg₂⟩⟩

theorem close_asked (h : Asked (s, n)) (hs : s.Flags) (hstep : s.step .close = some s') :
    Asked (s', note s .close n) := by
  obtain ⟨hpc, rfl⟩ := when_eq_some.mp hstep
  obtain ⟨i, hi⟩ := Option.isSome_iff_exists.mp (hs.holding (.inl hpc))
  have hnote : note s .close n = { n with closed := (i, .fdc) :: n.closed } := by simp only [note, hi]
  rw [hnote]
  obtain ⟨hlatest, hkept, hasked⟩ := h
  refine ⟨hlatest, fun j hj => ?_, fun j a hj => ?_⟩
  · rcases hkept j hj with hp | ⟨hf, -⟩ | hc
    · exact .inl hp
    · have hij : i = j := Option.some.inj (hi.symm.trans hf)
      exact .inr (.inr (by rw [hij]; exact List.mem_cons_self))
    · exact .inr (.inr (List.mem_cons_of_mem _ hc))
  · obtain ⟨hnone, ⟨hw₁, -, -, hw₄⟩ | ⟨-, hg⟩⟩ := hasked j a hj
    · have hij : i = j := Option.some.inj (hi.symm.trans hw₁)
      exact ⟨hnone, .inr ⟨by rw [hij]; exact List.mem_cons_self, .inr ⟨rfl, hw₄⟩⟩⟩
    · simp only [hi, hpc, reduceCtorEq, false_and, or_self] at hg

theorem unset_asked (h : Asked (s, n)) (hs : s.Flags) (hstep : s.step .unset = some s') : Asked (s', n) := by
  obtain ⟨hpc, rfl⟩ := when_eq_some.mp hstep
  have hpending : s.pending = none := by
    have hsome : s.fd.isSome = true := hs.holding (.inr (.inl hpc))
    exact hs.one.resolve_right (Option.isSome_iff_ne_none.mp hsome)
  obtain ⟨hlatest, hkept, hasked⟩ := h
  have hclosed (i : ℕ) (hi : n.attached = some i) : (i, .fdc) ∈ n.closed := by
    rcases hkept i hi with hp | ⟨-, hu⟩ | hc
    · rw [show s.pending = some i from hp] at hpending
      cases hpending
    · exact absurd hpc hu
    · exact hc
  refine ⟨fun i hi => ?_, fun i hi => .inr (.inr (hclosed i hi)), fun i a hi => ?_⟩
  · simp [hpending] at hi
  · obtain ⟨hnone, ⟨-, -, hw, -⟩ | ⟨hg, -⟩⟩ := hasked i a hi
    · simp [hpc] at hw
    · exact ⟨hnone, .inr ⟨hg, .inl rfl⟩⟩

theorem look_asked (h : Asked (s, n)) (hstep : s.step .look = some s') : Asked (s', note s .look n) := by
  obtain ⟨hpc, rfl⟩ := when_eq_some.mp hstep
  cases hfd : s.fd with
  | none =>
    have hnote : (note s .look n).attached = n.attached ∧ (note s .look n).closed = n.closed ∧
        (note s .look n).wish = n.wish := by
      simp only [note]
      split <;> exact ⟨rfl, rfl, rfl⟩
    exact h.uart hfd rfl rfl hnote.1 hnote.2.1 hnote.2.2
  | some i =>
    have hno : ¬(!s.onTcp && s.pending.isSome) = true := by simp [onTcp, hfd]
    have hnote : note s .look n = n.served := by simp only [note, hno, Bool.false_eq_true, if_false]
    simp only [hnote, hfd, onTcp, Option.isSome_some, Bool.not_true, Bool.false_and,
      Bool.false_eq_true, if_false]
    obtain ⟨hlatest, hkept, hasked⟩ := h
    refine ⟨fun j hj => hlatest j (by simpa [hfd] using hj), fun j hj => ?_, fun j a hj => ?_⟩
    · have hold := hkept j hj
      simpa [hpc, hfd, CarrierLog.served] using hold
    · obtain ⟨hnone, ⟨hw₁, hw₂, hw₃, -⟩ | ⟨-, hg⟩⟩ := hasked j a hj
      · simp only [hpc, reduceCtorEq, true_and, false_or] at hw₃
        refine ⟨hnone, .inl ⟨by rw [← hfd]; exact hw₁, hw₂, .inr (.inr (.inl rfl)), ?_⟩⟩
        change n.services + 1 ≤ a + 1
        omega
      · simp [hfd, hpc] at hg

theorem step_asked (h : Asked x) (hs : Sound x) (hok : Timely x a) (hstep : logged.step x a = some x') :
    Asked x' := by
  obtain ⟨s, n⟩ := x
  obtain ⟨s', hs', rfl⟩ := Option.map_eq_some_iff.mp hstep
  have hflags : s.Flags := hs.flags
  cases a with
  | linkUp | linkDown =>
    cases hs'
    exact h.congr rfl rfl rfl rfl (fun _ => Iff.rfl) rfl Iff.rfl rfl (.inl rfl)
  | listen | accept | leave =>
    obtain ⟨-, rfl⟩ := when_eq_some.mp hs'
    exact h.congr rfl rfl rfl rfl (fun _ => Iff.rfl) rfl Iff.rfl rfl (.inl rfl)
  | attach => exact attach_asked h hflags hs'
  | refuse =>
    simp only [machine, step] at hs'
    split at hs'
    · next i hl =>
      cases hs'
      simp only [note, hl]
      exact h.congr rfl rfl rfl rfl (fun j => by simp) rfl Iff.rfl rfl (.inl rfl)
    · cases hs'
  | detach => exact detach_asked h hs hs'
  | kick =>
    obtain ⟨-, rfl⟩ := when_eq_some.mp hs'
    exact h.detached hs hok.1 hok.2.1 hok.2.2 true (fun _ => rfl) .down
  | service => exact service_asked h hs'
  | close => exact close_asked h hflags hs'
  | unset => exact unset_asked h hflags hs'
  | revive =>
    obtain ⟨hpc, rfl⟩ := when_eq_some.mp hs'
    have hfd := (hflags.letting (.inl hpc)).2
    exact h.uart hfd hfd rfl rfl rfl rfl
  | unkick =>
    obtain ⟨hpc, rfl⟩ := when_eq_some.mp hs'
    have hfd := (hflags.letting (.inr (.inl hpc))).2
    exact h.uart hfd hfd rfl rfl rfl rfl
  | release =>
    obtain ⟨hpc, rfl⟩ := when_eq_some.mp hs'
    have hfd := (hflags.letting (.inr (.inr hpc))).2
    exact h.uart hfd hfd rfl rfl rfl rfl
  | look => exact look_asked h hs'
  | adopt =>
    obtain ⟨hpc, rfl⟩ := when_eq_some.mp hs'
    obtain ⟨hsome, hfd⟩ := hflags.adopting hpc
    obtain ⟨hlatest, hkept, hasked⟩ := h
    refine ⟨fun i hi => hlatest i (.inl (by simpa using hi)), fun i hi => ?_, fun i a hi => ?_⟩
    · rcases hkept i hi with hp | ⟨hf, -⟩ | hc
      · exact .inr (.inl ⟨hp, by rintro ⟨⟩⟩)
      · rw [show s.fd = some i from hf] at hfd
        cases hfd
      · exact .inr (.inr hc)
    · rw [(hasked i a hi).1] at hsome
      cases hsome
  | fresh =>
    obtain ⟨hpc, rfl⟩ := when_eq_some.mp hs'
    exact h.adopting (h.no_wish hflags (.inl hpc)) rfl rfl (by rintro ⟨⟩) rfl rfl
  | settle =>
    obtain ⟨hpc, rfl⟩ := when_eq_some.mp hs'
    exact h.adopting (h.no_wish hflags (.inr hpc)) rfl rfl (by rintro ⟨⟩) rfl rfl
  | poll got fails =>
    obtain ⟨hpc, rfl⟩ := when_eq_some.mp hs'
    have hset : s.fdc ≠ .unset := by
      rw [show s.fdc = .idle from hpc]
      rintro ⟨⟩
    cases got with
    | true =>
      exact h.congr rfl rfl rfl rfl (fun _ => Iff.rfl) rfl (iff_of_false (by rintro ⟨⟩) hset) rfl
        (.inr (.inr (.inr (.inl rfl))))
    | false =>
      exact h.congr rfl rfl rfl rfl (fun _ => Iff.rfl) rfl (iff_of_false (by rintro ⟨⟩) hset)
        rfl (.inr (.inl rfl))
  | transfer fails =>
    obtain ⟨-, rfl⟩ := when_eq_some.mp hs'
    exact h.congr rfl rfl rfl rfl (fun _ => Iff.rfl) rfl Iff.rfl rfl (.inl rfl)
  | finish =>
    obtain ⟨hpc, rfl⟩ := when_eq_some.mp hs'
    have hset : s.fdc ≠ .unset := by
      rw [show s.fdc = .command from hpc]
      rintro ⟨⟩
    exact h.congr rfl rfl rfl rfl (fun _ => Iff.rfl) rfl (iff_of_false (by rintro ⟨⟩) hset)
      rfl (.inr (.inl rfl))

theorem start_asked (h : logged.start x) : Asked x := by
  obtain ⟨s, n⟩ := x
  obtain ⟨hs, rfl⟩ := h
  obtain ⟨hpending, -, -, hfd, -⟩ : s.Start := hs
  constructor
  · rintro i (hi | hi)
    · rw [show s.pending = some i from hi] at hpending
      cases hpending
    · rw [show s.fd = some i from hi] at hfd
      cases hfd
  · rintro i ⟨⟩
  · rintro i a ⟨⟩

theorem reach_asked (h : logged.Reach Timely x) : Sound x ∧ Asked x := by
  refine Machine.Reach.invariant (I := fun x => Sound x ∧ Asked x)
    (fun x hx => ⟨start_sound hx, start_asked hx⟩) ?_ h
  rintro x a x' ⟨hs, hx⟩ hok hstep
  exact ⟨step_sound hs hstep, step_asked hx hs hok hstep⟩

/-- CORRECT: two services after a detach is through, the socket it was about is closed and the UART is served,
    in every run where the flag is raised neither before nor during an adoption. -/
theorem detach_heeded (h : logged.Reach Timely x) {i a : ℕ} (hwish : x.2.wish = some (i, a))
    (hserved : a + 2 ≤ x.2.services) :
    (i, .fdc) ∈ x.2.closed ∧ x.1.onTcp = false := by
  obtain ⟨-, hasked⟩ := reach_asked h
  rcases (hasked.wish i a hwish).2 with ⟨-, -, -, hlate⟩ | ⟨hclosed, hfd | ⟨-, hlate⟩⟩
  · omega
  · exact ⟨hclosed, by rw [onTcp, hfd]; rfl⟩
  · omega

/-- The link goes down while client 0 is attached. -/
def hangUp : List CarrierAct :=
  [.listen, .accept, .attach, .service, .look, .adopt, .fresh, .settle, .poll true false, .linkDown,
    .leave, .detach, .kick,
    .transfer false, .finish, .service, .close, .unset, .revive, .unkick, .release, .look,
      .poll false false, .service,
    .look]

theorem detach_heeded_hangUp : (0, .fdc) ∈ ((after hangUp).get (by decide)).2.closed ∧
    ((after hangUp).get (by decide)).1.onTcp = false :=
  detach_heeded (a := 1) ⟨_, ⟨⟨rfl, rfl, rfl, rfl, rfl, rfl, rfl, rfl⟩, rfl⟩,
    Machine.exec_path (fun x a => decide (Timely x a)) (fun _ _ => of_decide_eq_true)
      (Option.some_get (by decide : (after hangUp).isSome = true)).symm (by decide)⟩ (by decide) (by decide)

/-- The link goes down before client 0 is adopted. -/
def hangUpEarly : List CarrierAct :=
  [.listen, .accept, .attach, .linkDown, .leave, .detach, .kick, .service, .look, .adopt, .fresh, .settle,
    .poll false false, .service, .look, .poll false false, .service, .look]

/-- The detach is forgotten: after three services the socket is attached, and open. -/
theorem hangUpEarly_forgotten : ∃ x, logged.Reach Machine.always x ∧
      x.2.wish = some (0, 0) ∧ 2 ≤ x.2.services ∧
    x.2.closed = [] ∧ x.1.fd = some 0 ∧ x.1.kick = false :=
  ⟨_, reach_after (l := hangUpEarly) (by decide), by decide, by decide, by decide, by decide, by decide⟩

end Carrier

end FdcSds
