import FdcSds.Schemes.Custody
import FdcSds.Schemes.Runs

/-! The TCP client of the drive link (`fdc_tcp_attach`, `tcp_service`, `fdc_tcp_task`).

    The listener accepts a socket and hands it over through four flags; the fdc task adopts it, serves
    commands on it, and drops it. Every access to a flag by one of the two tasks is a step of its own, but
    for the attach, which is a critical section. Sockets are numbered as they are accepted.

        listener:  accept ─▶ attach ─▶ pending            refused ─▶ close
        fdc:       pending ─▶ adopt ─▶ commands ─▶ close ─▶ … ─▶ active := false        -/

namespace FdcSds
open Schemes Schemes.Runs

/-- Where the fdc task is; from `service` to `settle` it is in `tcp_service`. -/
inductive LinkPc where
  | service
  -- `tcp_drop`
  | close
  | unset
  | revive
  | unkick
  | release
  -- the second half of `tcp_service`
  | look
  | adopt
  | fresh
  | settle
  -- the rest of the loop
  | idle
  | command
  deriving DecidableEq

/-- Where the listener task is. -/
inductive ListenerPc where
  | down
  | listening
  | accepted (n : ℕ)
  | refused (n : ℕ)
  | detach
  | kick
  deriving DecidableEq

/-- The listener has no socket. -/
def ListenerPc.free : ListenerPc → Bool
  | .accepted _ | .refused _ => false
  | .down | .listening | .detach | .kick => true

/-- The flags of the two tasks, and where they are. -/
structure Carrier where
  pending : Option ℕ
  active : Bool
  kick : Bool
  fd : Option ℕ
  dead : Bool
  fdc : LinkPc
  listener : ListenerPc
  linkUp : Bool
  /-- The number of the next socket. -/
  next : ℕ

inductive CarrierAct where
  -- the network
  | linkUp
  | linkDown
  -- the listener task
  | listen
  | accept
  | attach
  | refuse
  | leave
  | detach
  | kick
  -- the fdc task
  | service
  | close
  | unset
  | revive
  | unkick
  | release
  | look
  | adopt
  | fresh
  | settle
  | poll (got fails : Bool)
  | transfer (fails : Bool)
  | finish
  deriving DecidableEq

namespace Carrier

variable (s : Carrier)

/-- `on_tcp`. -/
def onTcp : Bool := s.fd.isSome

/-- The test of `fdc_tcp_attach`. -/
def attachOk : Bool := !s.active && s.pending.isNone

/-- A receive or a send; a failure on the socket marks the client dead. -/
def touch (fails : Bool) : Carrier := { s with dead := s.dead || (fails && s.onTcp) }

def step : CarrierAct → Option Carrier
  | .linkUp => some { s with linkUp := true }
  | .linkDown => some { s with linkUp := false }
  | .listen => when (s.listener = .down ∧ s.linkUp = true) { s with listener := .listening }
  -- the link may have gone down since it was looked at
  | .accept => when (s.listener = .listening) { s with listener := .accepted s.next, next := s.next + 1 }
  -- `fdc_tcp_attach`
  | .attach =>
    match s.listener with
    | .accepted n =>
      if s.attachOk then some { s with pending := some n, active := true, listener := .listening }
      else some { s with listener := .refused n }
    | _ => none
  | .refuse =>
    match s.listener with
    | .refused _ => some { s with listener := .listening }
    | _ => none
  -- the link is down: `fdc_tcp_detach`
  | .leave => when (s.listener = .listening ∧ s.linkUp = false) { s with listener := .detach }
  | .detach => when (s.listener = .detach) { s with listener := if s.active then .kick else .down }
  | .kick => when (s.listener = .kick) { s with kick := true, listener := .down }
  -- `tcp_service`
  | .service =>
    when (s.fdc = .service) { s with fdc := if s.onTcp && (s.dead || s.kick) then .close else .look }
  | .close => when (s.fdc = .close) { s with fdc := .unset }
  | .unset => when (s.fdc = .unset) { s with fd := none, fdc := .revive }
  | .revive => when (s.fdc = .revive) { s with dead := false, fdc := .unkick }
  | .unkick => when (s.fdc = .unkick) { s with kick := false, fdc := .release }
  | .release => when (s.fdc = .release) { s with active := false, fdc := .look }
  | .look => when (s.fdc = .look) { s with fdc := if !s.onTcp && s.pending.isSome then .adopt else .idle }
  | .adopt => when (s.fdc = .adopt) { s with fd := s.pending, pending := none, fdc := .fresh }
  | .fresh => when (s.fdc = .fresh) { s with dead := false, fdc := .settle }
  | .settle => when (s.fdc = .settle) { s with kick := false, fdc := .idle }
  -- the first byte of a command, or none
  | .poll got fails =>
    when (s.fdc = .idle) { s.touch fails with fdc := if got then .command else .service }
  | .transfer fails => when (s.fdc = .command) (s.touch fails)
  | .finish => when (s.fdc = .command) { s with fdc := .service }

/-- Nothing accepted yet. -/
def Start : Prop :=
  s.pending = none ∧ s.active = false ∧ s.kick = false ∧ s.fd = none ∧ s.dead = false ∧ s.fdc = .service ∧
    s.listener = .down ∧ s.next = 0

def machine : Machine Carrier CarrierAct := ⟨Start, step⟩

end Carrier

/-- The two tasks. -/
inductive LinkTask where
  | listener
  | fdc
  deriving DecidableEq

/-- What has happened: the sockets refused and attached, the closes with who did them, and of each byte or
    run of bytes the transaction it belongs to and the socket it went over, if not the UART. -/
structure CarrierLog where
  refused : List ℕ
  attached : Option ℕ
  closed : List (ℕ × LinkTask)
  command : ℕ
  bytes : List (ℕ × Option ℕ)
  services : ℕ
  /-- The socket a finished detach was about, and the services until then. -/
  wish : Option (ℕ × ℕ)

namespace CarrierLog

def empty : CarrierLog := ⟨[], none, [], 0, [], 0, none⟩

/-- `tcp_service` is through. -/
def served (n : CarrierLog) : CarrierLog := { n with services := n.services + 1 }

/-- A detach is through. -/
def detached (n : CarrierLog) : CarrierLog := { n with wish := n.attached.map fun a => (a, n.services) }

end CarrierLog

namespace Carrier

def note (s : Carrier) (a : CarrierAct) (n : CarrierLog) : CarrierLog :=
  match a with
  | .attach =>
    match s.listener with
    | .accepted i =>
      if s.attachOk then { n with attached := some i, wish := none } else { n with refused := i :: n.refused }
    | _ => n
  | .refuse => match s.listener with | .refused i => { n with closed := (i, .listener) :: n.closed } | _ => n
  | .close => match s.fd with | some i => { n with closed := (i, .fdc) :: n.closed } | none => n
  | .detach => if s.active then n else n.detached
  | .kick => n.detached
  | .look => if !s.onTcp && s.pending.isSome then n else n.served
  | .settle => n.served
  | .poll got _ =>
    if got then { n with command := n.command + 1, bytes := (n.command + 1, s.fd) :: n.bytes } else n
  | .transfer _ => { n with bytes := (n.command, s.fd) :: n.bytes }
  | _ => n

/-- The machine with its log. -/
def logged : Machine (Carrier × CarrierLog) CarrierAct where
  start x := x.1.Start ∧ x.2 = .empty
  step := (machine.annotate note).step

/-- Where a socket can be. -/
inductive Place where
  | listener
  | pending
  | fdc
  | closed (t : LinkTask)
  deriving DecidableEq

/-- The socket is there; the fdc task has it until it closes it. -/
def Held (x : Carrier × CarrierLog) : Place → ℕ → Prop
  | .listener, n => x.1.listener = .accepted n ∨ x.1.listener = .refused n
  | .pending, n => x.1.pending = some n
  | .fdc, n => x.1.fd = some n ∧ x.1.fdc ≠ .unset
  | .closed t, n => (n, t) ∈ x.2.closed

/-- `tcp_drop` has let go of the socket and has still to clear `s_tcp_active`. -/
def Letting (s : Carrier) : Prop := s.fdc = .revive ∨ s.fdc = .unkick ∨ s.fdc = .release

instance (s : Carrier) : Decidable s.Letting := inferInstanceAs (Decidable (_ ∨ _))

/-! ### The flags -/

/-- What the flags say of each other, by where the fdc task is. -/
structure Flags (s : Carrier) : Prop where
  one : s.pending = none ∨ s.fd = none
  active : s.active = true ↔ s.pending.isSome = true ∨ s.fd.isSome = true ∨ s.Letting
  holding : s.fdc = .close ∨ s.fdc = .unset ∨ s.fdc = .fresh ∨ s.fdc = .settle → s.fd.isSome = true
  letting : s.Letting → s.pending = none ∧ s.fd = none
  adopting : s.fdc = .adopt → s.pending.isSome = true ∧ s.fd = none

variable {s s' : Carrier} {a : CarrierAct} {n : CarrierLog} {x x' : Carrier × CarrierLog}

theorem flags_step (h : s.Flags) (hstep : s.step a = some s') : s'.Flags := by
  obtain ⟨hone, hactive, hholding, hletting, hadopting⟩ := h
  unfold Letting at hactive hletting
  cases a with
  | linkUp | linkDown =>
    cases hstep
    exact ⟨hone, hactive, hholding, hletting, hadopting⟩
  | listen | accept | leave | detach | kick | transfer fails =>
    obtain ⟨-, rfl⟩ := when_eq_some.mp hstep
    exact ⟨hone, hactive, hholding, hletting, hadopting⟩
  | refuse =>
    simp only [step] at hstep
    split at hstep
    · cases hstep
      exact ⟨hone, hactive, hholding, hletting, hadopting⟩
    · cases hstep
  | attach =>
    simp only [step] at hstep
    split at hstep
    · split at hstep
      · next hok =>
        cases hstep
        simp only [attachOk, Bool.and_eq_true, Bool.not_eq_true', Option.isNone_iff_eq_none] at hok
        constructor <;> simp_all [Letting]
      · cases hstep
        exact ⟨hone, hactive, hholding, hletting, hadopting⟩
    · cases hstep
  | service =>
    obtain ⟨hpc, rfl⟩ := when_eq_some.mp hstep
    by_cases hdrop : (s.onTcp && (s.dead || s.kick)) = true
    · simp only [hdrop, if_true]
      simp only [onTcp, Bool.and_eq_true] at hdrop
      constructor <;> simp_all [Letting]
    · simp only [hdrop, Bool.false_eq_true, if_false]
      constructor <;> simp_all [Letting]
  | look =>
    obtain ⟨hpc, rfl⟩ := when_eq_some.mp hstep
    by_cases hadopt : (!s.onTcp && s.pending.isSome) = true
    · simp only [hadopt, if_true]
      simp only [onTcp, Bool.and_eq_true, Bool.not_eq_true'] at hadopt
      constructor <;> simp_all [Letting]
    · simp only [hadopt, Bool.false_eq_true, if_false]
      constructor <;> simp_all [Letting]
  | poll got fails =>
    obtain ⟨hpc, rfl⟩ := when_eq_some.mp hstep
    cases got <;> constructor <;> simp_all [Letting, touch]
  | unset =>
    obtain ⟨hpc, rfl⟩ := when_eq_some.mp hstep
    have hheld : s.fd.isSome = true := hholding (.inr (.inl hpc))
    have hpending : s.pending = none := hone.resolve_right (Option.isSome_iff_ne_none.mp hheld)
    constructor <;> simp_all [Letting]
  | close | revive | unkick | release | adopt | fresh | settle | finish =>
    obtain ⟨hpc, rfl⟩ := when_eq_some.mp hstep
    constructor <;> simp_all [Letting]

/-! ### Sockets -/

/-- Each socket is in one place, and has been closed at most once, by the task whose it was. -/
structure Sockets (x : Carrier × CarrierLog) : Prop where
  custody : Custody x.1.next (Held x)
  once : (x.2.closed.map Prod.fst).Nodup
  refused : ∀ i, i ∈ x.2.refused ↔ x.1.listener = .refused i ∨ (i, .listener) ∈ x.2.closed

/-- A step that moves no socket. -/
theorem Sockets.congr {y : Carrier × CarrierLog} (h : Sockets x) (hnext : y.1.next = x.1.next)
    (hheld : ∀ p i, Held y p i ↔ Held x p i) (hclosed : y.2.closed = x.2.closed)
    (hrefused : y.2.refused = x.2.refused)
    (hlistener : ∀ i, y.1.listener = .refused i ↔ x.1.listener = .refused i) : Sockets y := by
  refine ⟨?_, by rw [hclosed]; exact h.once, fun i => ?_⟩
  · rw [hnext]
    exact h.custody.congr hheld
  · rw [hrefused, hlistener, hclosed]
    exact h.refused i

/-- A close by the task that has the socket. -/
theorem Sockets.close {y : Carrier × CarrierLog} (h : Sockets x) {t : LinkTask} {p : Place} {i : ℕ}
    (hp : Held x p i) (hopen : ∀ t, p ≠ .closed t) (hnext : y.1.next = x.1.next)
    (hclosed : y.2.closed = (i, t) :: x.2.closed) (hfrom : ∀ j, Held y p j ↔ Held x p j ∧ j ≠ i)
    (hother : ∀ q, q ≠ p → (∀ t, q ≠ .closed t) → ∀ j, Held y q j ↔ Held x q j) :
    Custody y.1.next (Held y) ∧ (y.2.closed.map Prod.fst).Nodup := by
  constructor
  · rw [hnext]
    refine h.custody.move (q := .closed t) hp (hopen t) hfrom (fun j => ?_) fun q hq hqt j => ?_
    · change (j, t) ∈ y.2.closed ↔ _
      rw [hclosed, List.mem_cons, Prod.mk.injEq, or_comm]
      exact or_congr Iff.rfl ⟨fun hj => hj.1, fun hj => ⟨hj, rfl⟩⟩
    · cases q with
      | closed u =>
        have hu : u ≠ t := fun hut => hqt (by rw [hut])
        change (j, u) ∈ y.2.closed ↔ (j, u) ∈ x.2.closed
        rw [hclosed, List.mem_cons, Prod.mk.injEq]
        exact or_iff_right fun hj => hu hj.2
      | _ => exact hother _ hq (by rintro t ⟨⟩) j
  · rw [hclosed, List.map_cons, List.nodup_cons]
    refine ⟨fun hmem => ?_, h.once⟩
    obtain ⟨⟨j, u⟩, hj, rfl⟩ := List.mem_map.mp hmem
    have hplace : _ = Place.closed u := h.custody.unique hp hj
    exact hopen u hplace

theorem free_iff {l : ListenerPc} : l.free = true ↔ ∀ i, l ≠ .accepted i ∧ l ≠ .refused i := by
  cases l <;> simp [ListenerPc.free]

/-- The listener goes on, without a socket before and after. -/
theorem Sockets.listening (h : Sockets (s, n)) {l : ListenerPc} {n' : CarrierLog} {kick : Bool}
    (hbefore : s.listener.free = true) (hafter : l.free = true) (hclosed : n'.closed = n.closed)
    (hrefused : n'.refused = n.refused) :
    Sockets ({ s with listener := l, kick := kick }, n') := by
  have hfree := free_iff.mp hbefore
  have hfree' := free_iff.mp hafter
  refine h.congr rfl (fun p i => ?_) hclosed hrefused fun i => iff_of_false (hfree' i).2 (hfree i).2
  cases p with
  | listener => exact iff_of_false (not_or.mpr (hfree' i)) (not_or.mpr (hfree i))
  | pending | fdc => exact Iff.rfl
  | closed t => simp only [Held, hclosed]

/-- The fdc task goes on, with the socket it had. -/
theorem Sockets.serving (h : Sockets (s, n)) {n' : CarrierLog} (hnext : s'.next = s.next)
    (hpending : s'.pending = s.pending) (hlistener : s'.listener = s.listener)
    (hfd : ∀ i, s'.fd = some i ∧ s'.fdc ≠ .unset ↔ s.fd = some i ∧ s.fdc ≠ .unset)
    (hclosed : n'.closed = n.closed) (hrefused : n'.refused = n.refused) : Sockets (s', n') := by
  refine h.congr hnext (fun p i => ?_) hclosed hrefused fun i => ?_
  · cases p with
    | listener =>
      change s'.listener = _ ∨ s'.listener = _ ↔ _
      rw [hlistener]
      exact Iff.rfl
    | pending =>
      change s'.pending = _ ↔ _
      rw [hpending]
      exact Iff.rfl
    | fdc => exact hfd i
    | closed t => simp only [Held, hclosed]
  · change s'.listener = _ ↔ _
    rw [hlistener]

theorem Sockets.accept (h : Sockets (s, n)) (hlistener : s.listener = .listening) :
    Sockets ({ s with listener := .accepted s.next, next := s.next + 1 }, n) := by
  refine ⟨h.custody.alloc .listener fun p i => ?_, h.once, fun i => ?_⟩
  · cases p with
    | listener => simp [Held, hlistener, eq_comm]
    | pending | fdc | closed t => simp [Held]
  · rw [h.refused i, hlistener]
    simp

theorem attach_sockets (h : Sockets (s, n)) (hstep : s.step .attach = some s') :
    Sockets (s', note s .attach n) := by
  simp only [step] at hstep
  split at hstep
  · next i hlistener =>
    have hmine : Held (s, n) .listener i := .inl hlistener
    split at hstep
    · next hok =>
      cases hstep
      simp only [note, hlistener, hok, if_true]
      simp only [attachOk, Bool.and_eq_true, Bool.not_eq_true', Option.isNone_iff_eq_none] at hok
      refine ⟨h.custody.move (q := .pending) hmine (by rintro ⟨⟩) (fun j => ?_) (fun j => ?_)
        fun q hq hq' j => ?_, h.once,
        fun j => ?_⟩
      · simp only [Held, hlistener, ListenerPc.accepted.injEq, reduceCtorEq, or_false,
          false_iff, not_and, not_not]
        exact Eq.symm
      · simp only [Held, hok.2, Option.some.injEq, reduceCtorEq, false_or]
        exact eq_comm
      · cases q with
        | listener => exact absurd rfl hq
        | pending => exact absurd rfl hq'
        | fdc | closed t => exact Iff.rfl
      · rw [h.refused j, hlistener]
        simp
    · next hno =>
      cases hstep
      simp only [note, hlistener, hno, Bool.false_eq_true, if_false]
      refine ⟨h.custody.congr fun p j => ?_, h.once, fun j => ?_⟩
      · cases p with
        | listener => simp [Held, hlistener]
        | pending | fdc | closed t => exact Iff.rfl
      · have hbefore := h.refused j
        rw [hlistener] at hbefore
        rw [List.mem_cons, hbefore]
        simp [eq_comm]
  · cases hstep

theorem refuse_sockets (h : Sockets (s, n)) (hstep : s.step .refuse = some s') :
    Sockets (s', note s .refuse n) := by
  simp only [step] at hstep
  split at hstep
  · next i hlistener =>
    cases hstep
    simp only [note, hlistener]
    have hmine : Held (s, n) .listener i := .inr hlistener
    have hclose := h.close (y := ({ s with listener := .listening },
      { n with closed := (i, .listener) :: n.closed }))
      (t := .listener) hmine (by rintro t ⟨⟩) rfl rfl (fun j => ?_) fun q hq hqt j => ?_
    · refine ⟨hclose.1, hclose.2, fun j => ?_⟩
      have hbefore := h.refused j
      rw [hlistener] at hbefore
      rw [hbefore, List.mem_cons]
      simp [eq_comm]
    · simp only [Held, hlistener, ListenerPc.refused.injEq, reduceCtorEq, false_or, or_self,
        false_iff, not_and, not_not]
      exact Eq.symm
    · cases q with
      | listener => exact absurd rfl hq
      | pending | fdc => exact Iff.rfl
      | closed t => exact absurd rfl (hqt t)
  · cases hstep

theorem adopt_sockets (h : Sockets (s, n)) (hs : s.Flags) (hstep : s.step .adopt = some s') :
    Sockets (s', n) := by
  obtain ⟨hpc, rfl⟩ := when_eq_some.mp hstep
  obtain ⟨hsome, hfd⟩ := hs.adopting hpc
  obtain ⟨i, hi⟩ := Option.isSome_iff_exists.mp hsome
  have hmine : Held (s, n) .pending i := hi
  refine ⟨h.custody.move (q := .fdc) hmine (by rintro ⟨⟩) (fun j => ?_) (fun j => ?_) fun q hq hq' j =>
    ?_, h.once, h.refused⟩
  · simp only [Held, hi, Option.some.injEq, reduceCtorEq, false_iff, not_and, not_not]
    exact Eq.symm
  · simp [Held, hfd, hi, eq_comm]
  · cases q with
    | pending => exact absurd rfl hq
    | fdc => exact absurd rfl hq'
    | listener | closed t => exact Iff.rfl

theorem close_sockets (h : Sockets (s, n)) (hs : s.Flags) (hstep : s.step .close = some s') :
    Sockets (s', note s .close n) := by
  obtain ⟨hpc, rfl⟩ := when_eq_some.mp hstep
  obtain ⟨i, hi⟩ := Option.isSome_iff_exists.mp (hs.holding (.inl hpc))
  have hnote : note s .close n = { n with closed := (i, .fdc) :: n.closed } := by simp only [note, hi]
  rw [hnote]
  have hmine : Held (s, n) .fdc i := ⟨hi, by rw [hpc]; rintro ⟨⟩⟩
  have hclose := h.close (y := ({ s with fdc := .unset }, { n with closed := (i, .fdc) :: n.closed }))
    (t := .fdc) hmine
    (by rintro t ⟨⟩) rfl rfl (fun j => ?_) fun q hq hqt j => ?_
  · refine ⟨hclose.1, hclose.2, fun j => ?_⟩
    rw [h.refused j, List.mem_cons]
    simp
  · simp only [Held, hi, Option.some.injEq, ne_eq, not_true_eq_false, and_false, false_iff, not_and, not_not]
    rintro ⟨rfl, -⟩
    rfl
  · cases q with
    | fdc => exact absurd rfl hq
    | listener | pending => exact Iff.rfl
    | closed t => exact absurd rfl (hqt t)

theorem step_sockets (h : Sockets (s, n)) (hs : s.Flags) (hstep : s.step a = some s') :
    Sockets (s', note s a n) := by
  cases a with
  | linkUp | linkDown =>
    cases hstep
    exact h.serving rfl rfl rfl (fun _ => Iff.rfl) rfl rfl
  | listen =>
    obtain ⟨⟨hl, -⟩, rfl⟩ := when_eq_some.mp hstep
    exact h.listening (by rw [hl]; rfl) rfl rfl rfl
  | leave =>
    obtain ⟨⟨hl, -⟩, rfl⟩ := when_eq_some.mp hstep
    exact h.listening (by rw [hl]; rfl) rfl rfl rfl
  | detach =>
    obtain ⟨hl, rfl⟩ := when_eq_some.mp hstep
    refine h.listening (by rw [hl]; rfl) (by split <;> rfl) ?_ ?_
    · simp only [note]
      split <;> rfl
    · simp only [note]
      split <;> rfl
  | kick =>
    obtain ⟨hl, rfl⟩ := when_eq_some.mp hstep
    exact h.listening (by rw [hl]; rfl) rfl rfl rfl
  | accept =>
    obtain ⟨hl, rfl⟩ := when_eq_some.mp hstep
    exact h.accept hl
  | attach => exact attach_sockets h hstep
  | refuse => exact refuse_sockets h hstep
  | adopt => exact adopt_sockets h hs hstep
  | close => exact close_sockets h hs hstep
  | service =>
    obtain ⟨hpc, rfl⟩ := when_eq_some.mp hstep
    refine h.serving rfl rfl rfl (fun i => and_congr_right fun _ => ?_) rfl rfl
    rw [hpc]
    split <;> simp
  | look =>
    obtain ⟨hpc, rfl⟩ := when_eq_some.mp hstep
    refine h.serving rfl rfl rfl (fun i => and_congr_right fun _ => ?_) ?_ ?_
    · rw [hpc]
      split <;> simp
    · simp only [note]
      split <;> rfl
    · simp only [note]
      split <;> rfl
  | unset =>
    obtain ⟨hpc, rfl⟩ := when_eq_some.mp hstep
    exact h.serving rfl rfl rfl (fun i => by simp [hpc]) rfl rfl
  | poll got fails =>
    obtain ⟨hpc, rfl⟩ := when_eq_some.mp hstep
    cases got <;> exact h.serving rfl rfl rfl (fun i => by simp [hpc, touch]) rfl rfl
  | revive | unkick | release | fresh | settle | transfer fails | finish =>
    obtain ⟨hpc, rfl⟩ := when_eq_some.mp hstep
    exact h.serving rfl rfl rfl (fun i => by simp [hpc, touch]) rfl rfl

/-! ### Commands -/

/-- The bytes of a command went one way, and those of the one in progress go that way. -/
structure Whole (x : Carrier × CarrierLog) : Prop where
  one : ∀ e ∈ x.2.bytes, ∀ e' ∈ x.2.bytes, e.1 = e'.1 → e.2 = e'.2
  past : ∀ e ∈ x.2.bytes, e.1 ≤ x.2.command
  now : x.1.fdc = .command → ∀ e ∈ x.2.bytes, e.1 = x.2.command → e.2 = x.1.fd

/-- A step without bytes. -/
theorem Whole.quiet (h : Whole (s, n)) {n' : CarrierLog} (hbytes : n'.bytes = n.bytes)
    (hcommand : n'.command = n.command) (hnow : s'.fdc = .command → s.fdc = .command ∧ s'.fd = s.fd) :
    Whole (s', n') := by
  obtain ⟨hone, hpast, hin⟩ := h
  constructor
  · rw [hbytes]
    exact hone
  · rw [hbytes, hcommand]
    exact hpast
  · intro hpc e he hcmd
    obtain ⟨hpc', hfd⟩ := hnow hpc
    simp only [hbytes, hcommand] at he hcmd
    rw [hfd]
    exact hin hpc' e he hcmd

/-- Bytes of a new command. -/
theorem Whole.begin (h : Whole (s, n)) (hfd : s'.fd = s.fd) :
    Whole (s', { n with command := n.command + 1, bytes := (n.command + 1, s.fd) :: n.bytes }) := by
  have hold (e : ℕ × Option ℕ) (he : e ∈ n.bytes) : e.1 ≠ n.command + 1 := by
    have hle : e.1 ≤ n.command := h.past e he
    omega
  constructor
  · intro e he e' he' hsame
    rcases List.mem_cons.mp he with rfl | he <;> rcases List.mem_cons.mp he' with rfl | he'
    · rfl
    · exact absurd hsame.symm (hold e' he')
    · exact absurd hsame (hold e he)
    · exact h.one e he e' he' hsame
  · intro e he
    rcases List.mem_cons.mp he with rfl | he
    · exact Nat.le_refl _
    · exact Nat.le_succ_of_le (h.past e he)
  · intro _ e he hcmd
    rcases List.mem_cons.mp he with rfl | he
    · exact hfd.symm
    · exact absurd hcmd (hold e he)

/-- More bytes of the command in progress. -/
theorem Whole.go (h : Whole (s, n)) (hpc : s.fdc = .command) (hfd : s'.fd = s.fd) :
    Whole (s', { n with bytes := (n.command, s.fd) :: n.bytes }) := by
  have hnow := h.now hpc
  constructor
  · intro e he e' he' hsame
    rcases List.mem_cons.mp he with rfl | he <;> rcases List.mem_cons.mp he' with rfl | he'
    · rfl
    · exact (hnow e' he' hsame.symm).symm
    · exact hnow e he hsame
    · exact h.one e he e' he' hsame
  · intro e he
    rcases List.mem_cons.mp he with rfl | he
    · exact Nat.le_refl _
    · exact h.past e he
  · intro _ e he hcmd
    rw [hfd]
    rcases List.mem_cons.mp he with rfl | he
    · rfl
    · exact hnow e he hcmd

theorem step_whole (h : Whole (s, n)) (hstep : s.step a = some s') : Whole (s', note s a n) := by
  cases a with
  | linkUp | linkDown =>
    cases hstep
    exact h.quiet rfl rfl fun hpc => ⟨hpc, rfl⟩
  | listen | accept | leave | kick =>
    obtain ⟨-, rfl⟩ := when_eq_some.mp hstep
    exact h.quiet rfl rfl fun hpc => ⟨hpc, rfl⟩
  | detach =>
    obtain ⟨-, rfl⟩ := when_eq_some.mp hstep
    simp only [note]
    split <;> exact h.quiet rfl rfl fun hpc => ⟨hpc, rfl⟩
  | attach =>
    simp only [step] at hstep
    split at hstep
    · next i hl =>
      simp only [note, hl]
      split at hstep <;> cases hstep
      · next hok =>
        simp only [hok, if_true]
        exact h.quiet rfl rfl fun hpc => ⟨hpc, rfl⟩
      · next hno =>
        simp only [hno, Bool.false_eq_true, if_false]
        exact h.quiet rfl rfl fun hpc => ⟨hpc, rfl⟩
    · cases hstep
  | refuse =>
    simp only [step] at hstep
    split at hstep
    · next i hl =>
      cases hstep
      simp only [note, hl]
      exact h.quiet rfl rfl fun hpc => ⟨hpc, rfl⟩
    · cases hstep
  | close =>
    obtain ⟨-, rfl⟩ := when_eq_some.mp hstep
    simp only [note]
    split <;> exact h.quiet rfl rfl (by rintro ⟨⟩)
  | service =>
    obtain ⟨-, rfl⟩ := when_eq_some.mp hstep
    exact h.quiet rfl rfl (by dsimp only; split <;> rintro ⟨⟩)
  | look =>
    obtain ⟨-, rfl⟩ := when_eq_some.mp hstep
    simp only [note]
    split <;> exact h.quiet rfl rfl (by rintro ⟨⟩)
  | poll got fails =>
    obtain ⟨-, rfl⟩ := when_eq_some.mp hstep
    cases got with
    | true => exact h.begin rfl
    | false => exact h.quiet rfl rfl (by rintro ⟨⟩)
  | transfer fails =>
    obtain ⟨hpc, rfl⟩ := when_eq_some.mp hstep
    exact h.go hpc rfl
  | unset | revive | unkick | release | adopt | fresh | settle | finish =>
    obtain ⟨-, rfl⟩ := when_eq_some.mp hstep
    exact h.quiet rfl rfl (by rintro ⟨⟩)

/-! ### One client -/

structure Sound (x : Carrier × CarrierLog) : Prop where
  flags : x.1.Flags
  sockets : Sockets x
  whole : Whole x

theorem start_sound (h : logged.start x) : Sound x := by
  obtain ⟨s, n⟩ := x
  obtain ⟨hs, rfl⟩ := h
  obtain ⟨hpending, hactive, -, hfd, -, hpc, hlistener, hnext⟩ : s.Start := hs
  refine ⟨?_, ⟨⟨fun _ => .listener, fun p i => ?_⟩, List.nodup_nil, fun i => ?_⟩, ?_⟩
  · constructor <;> simp [hpending, hactive, hfd, hpc, Letting]
  · cases p <;> simp [Held, hpending, hfd, hlistener, hnext, CarrierLog.empty]
  · simp [hlistener, CarrierLog.empty]
  · constructor <;> simp [CarrierLog.empty]

theorem step_sound (h : Sound x) (hstep : logged.step x a = some x') : Sound x' := by
  obtain ⟨s, n⟩ := x
  obtain ⟨s', hs', rfl⟩ := Option.map_eq_some_iff.mp hstep
  exact ⟨flags_step h.flags hs', step_sockets h.sockets h.flags hs', step_whole h.whole hs'⟩

theorem reach_sound {ok : Carrier × CarrierLog → CarrierAct → Prop} (h : logged.Reach ok x) : Sound x :=
  Machine.Reach.invariant (I := fun x => Sound x) (fun _ => start_sound) (fun _ _ _ hx _ => step_sound hx) h

/-- An attach succeeds when no socket is pending or attached and no drop is under way. -/
theorem Flags.attachOk_iff (h : s.Flags) : s.attachOk = true ↔ s.pending = none ∧
      s.fd = none ∧ ¬s.Letting := by
  have hactive := h.active
  unfold attachOk
  rw [Bool.and_eq_true, Bool.not_eq_true', Option.isNone_iff_eq_none]
  constructor
  · rintro ⟨hoff, hpending⟩
    rw [hoff] at hactive
    have hno := hactive.not.mp (by simp)
    simp only [not_or] at hno
    exact ⟨hpending, by simpa using hno.2.1, hno.2.2⟩
  · rintro ⟨hpending, hfd, hletting⟩
    refine ⟨?_, hpending⟩
    rw [← Bool.not_eq_true, hactive]
    simp [hpending, hfd, hletting]

/-- A socket is pending or attached, once; it has been closed at most once, by the listener iff it was
    refused; and a new client is taken while there is none. -/
structure OneClient (x : Carrier × CarrierLog) : Prop where
  one : x.1.pending = none ∨ x.1.fd = none
  custody : Custody x.1.next (Held x)
  once : (x.2.closed.map Prod.fst).Nodup
  closer : ∀ i t, (i, t) ∈ x.2.closed → (t = .listener ↔ i ∈ x.2.refused)
  welcome : x.1.pending = none → x.1.fd = none → ¬x.1.Letting → x.1.attachOk = true
  whole : ∀ e ∈ x.2.bytes, ∀ e' ∈ x.2.bytes, e.1 = e'.1 → e.2 = e'.2

/-- CORRECT: one client at a time, and no socket lost or closed twice, however the two tasks interleave; a new
    client is taken once the last one's drop is through. -/
theorem one_client (h : logged.Reach Machine.always x) : OneClient x := by
  obtain ⟨hflags, hsockets, hwhole⟩ := reach_sound h
  refine ⟨hflags.one, hsockets.custody, hsockets.once, fun i t hi => ?_, fun hpending hfd hletting =>
    hflags.attachOk_iff.mpr ⟨hpending, hfd, hletting⟩, hwhole.one⟩
  rw [hsockets.refused i]
  constructor
  · rintro rfl
    exact .inr hi
  · rintro (hl | hl)
    · have hplace := @Custody.unique _ _ _ hsockets.custody .listener (.closed t) i (.inr hl) hi
      cases hplace
    · have hplace := @Custody.unique _ _ _ hsockets.custody (.closed .listener) (.closed t) i hl hi
      injection hplace with ht
      exact ht.symm

/-- The state after these steps. -/
def after (as : List CarrierAct) : Option (Carrier × CarrierLog) :=
  logged.exec (⟨none, false, false, none, false, .service, .down, true, 0⟩, .empty) as

theorem reach_after {l : List CarrierAct} (h : (after l).isSome = true) :
    logged.Reach Machine.always ((after l).get h) :=
  ⟨_, ⟨⟨rfl, rfl, rfl, rfl, rfl, rfl, rfl, rfl⟩, rfl⟩, Machine.exec_always (Option.some_get h).symm⟩

/-- Client 0 is adopted, serves a command, goes away and is dropped, but for the last step; client 1 comes. -/
def tooSoon : List CarrierAct :=
  [.listen, .accept, .attach, .service, .look, .adopt, .fresh, .settle, .poll true false,
    .transfer false, .finish,
    .service, .look, .poll false true, .service, .close, .unset, .accept]

theorem one_client_tooSoon : OneClient ((after tooSoon).get (by decide)) :=
  one_client (reach_after (by decide))

/-- Neither pending nor attached is any socket, and yet the new client is refused. -/
theorem tooSoon_refused : ∃ x, logged.Reach Machine.always x ∧ x.1.pending = none ∧ x.1.fd = none ∧
    x.1.listener = .accepted 1 ∧ (x.1.step .attach).map (·.listener) = some (.refused 1) :=
  ⟨_, reach_after (l := tooSoon) (by decide), by decide, by decide, by decide, by decide⟩

end Carrier

end FdcSds
