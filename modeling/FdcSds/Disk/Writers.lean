import FdcSds.Disk.Changes

/-! One writer for each mounted image.

    The guard keeps the fronts from opening a mounted image for writing, and the lock keeps them from
    opening one that is being mounted. What `disk_mount` opens is not checked: a file may already be open
    for writing, by a front or as the image of another drive.

        no writer ──mountOpen──▶ the mount's handle ──mountSet──▶ the drive's handle -/

namespace FdcSds.Premises
open Schemes Schemes.Runs

variable {s s' : Premises} {f : Front}

/-- The handle `b` of the disk is open on file `n`, and no other handle writes it. -/
def SoleWriter (s : Premises) (n b : ℕ) : Prop :=
  s.handles .image b = some ⟨n, true⟩ ∧
    ∀ o fd x, s.handles o fd = some x → x.writes = true → x.file = n → o = .image ∧ fd = b

/-- A local image is mounted only while nothing has it open for writing. -/
def Unwritten (s : Premises) : PremisesAct → Prop
  | .mountOpen _ name _ => ∀ path ∈ sdPath name pathCap, ∀ l ∈ s.card.find path,
      ∀ o fd x, s.handles o fd = some x → x.writes = true → x.file ≠ s.card.file l
  | _ => True

def Considerate (s : Premises) (a : PremisesAct) : Prop := s.Prudent a ∧ s.Unwritten a

structure Exclusive (s : Premises) : Prop where
  drives : ∀ d, s.Local d → ∃ b, (s.disk.drv d).backing = some b ∧ s.SoleWriter (s.card.file (s.place d)) b
  opening : ∀ o ∈ s.opening, s.SoleWriter (s.card.file o.loc) o.backing

theorem SoleWriter.same {n b : ℕ} (h : s.SoleWriter n b) (hhandles : s'.handles = s.handles) :
    s'.SoleWriter n b := by
  unfold SoleWriter
  rwa [hhandles]

/-- Card, table and handles are as they were. -/
theorem Exclusive.same (h : s.Exclusive) (hcard : s'.card = s.card) (hdisk : s'.disk = s.disk)
    (hplace : s'.place = s.place) (hopening : s'.opening = s.opening)
    (hhandles : s'.handles = s.handles) : s'.Exclusive := by
  refine ⟨fun d hd => ?_, fun o ho => ?_⟩
  · rw [Local, hdisk] at hd
    obtain ⟨b, hb, hsole⟩ := h.drives d hd
    rw [hdisk, hcard, hplace]
    exact ⟨b, hb, hsole.same hhandles⟩
  · rw [hopening] at ho
    rw [hcard]
    exact (h.opening o ho).same hhandles

theorem setHandle_self (s : Premises) (o : Owner) (fd : ℕ) (x : Option OpenFile) :
    (s.setHandle o fd x).handles o fd = x := by
  simp [setHandle]

theorem setHandle_of_ne (s : Premises) {o o' : Owner} {fd fd' : ℕ} (x : Option OpenFile)
    (h : o' ≠ o ∨ fd' ≠ fd) :
    (s.setHandle o fd x).handles o' fd' = s.handles o' fd' := by
  by_cases ho : o' = o
  · subst ho
    simp [setHandle, Function.update_of_ne (h.resolve_left (fun hne => hne rfl))]
  · simp [setHandle, Function.update_of_ne ho]

/-- A handle on another file, or one that does not write, is opened; or one is closed. -/
theorem SoleWriter.set {n b : ℕ} (h : s.SoleWriter n b) {o : Owner} {fd : ℕ} {x : Option OpenFile}
    (hown : o ≠ .image ∨ fd ≠ b) (hx : ∀ y ∈ x, y.writes = true → y.file ≠ n) :
    (s.setHandle o fd x).SoleWriter n b := by
  refine ⟨?_, fun o' fd' y hy hwrites hfile => ?_⟩
  · rw [setHandle_of_ne s x (hown.imp Ne.symm Ne.symm)]
    exact h.1
  · by_cases hsame : o' = o ∧ fd' = fd
    · obtain ⟨rfl, rfl⟩ := hsame
      rw [setHandle_self] at hy
      exact absurd hfile (hx y hy hwrites)
    · rw [setHandle_of_ne s x (not_and_or.mp hsame)] at hy
      exact h.2 o' fd' y hy hwrites hfile

/-- A file of another place is another file. -/
theorem apart_of_has {card : Card} {l m : Loc} (hl : card.Has l) (hm : card.Has m) (hne : l ≠ m) :
    card.file l ≠ card.file m := by
  obtain ⟨xs, hxs⟩ := hl
  obtain ⟨ys, hys⟩ := hm
  exact fun heq => hne (card.apart xs ys l m hxs hys heq)

theorem has_of_find {card : Card} {p : CStr} {l : Loc} (h : card.find p = some l) : card.Has l := by
  unfold Card.find at h
  obtain ⟨rest, -, hwalk⟩ := Option.bind_eq_some_iff.mp h
  exact ⟨_, hwalk⟩

/-- A place that no call takes away keeps its file. -/
theorem Has.stays {card : Card} {c : SysCall} (e : Change c) {l : Loc} (h : card.Has l)
    (hkept : ¬ card.Removed c l) :
    (e.after card).Has l ∧ (e.after card).file l = card.file l := by
  obtain ⟨xs, hxs⟩ := h
  obtain ⟨hwalk, hfile⟩ := (e.stay card xs l hxs).resolve_right hkept
  exact ⟨⟨xs, hwalk⟩, hfile⟩

/-- What a front opens for writing is no mounted image. -/
theorem Kept.opens_other (h : s.Kept) {p : CStr} {of : OpenFlags} {e : Change (.open p of)} {l : Loc}
    (hnext : s.next f = some (.open p of)) (hwrites : of.writes = true)
    (hl : (e.after s.card).find p = some l) {d : ℕ} (hd : s.Local d) : l ≠ s.place d := by
  rintro rfl
  rcases find_after hl with hold | hnew | hremoved
  · have htarget : SysCall.target (.open p of) = some p := if_pos hwrites
    exact h.cleared hnext htarget hold hd (List.prefix_refl _)
  · exact hnew (h.named d hd).2.2
  · exact hremoved

/-- A handle of a front is opened or closed. -/
theorem Exclusive.set (h : s.Exclusive) {fd : ℕ} {x : Option OpenFile}
    (hdrives : ∀ d, s.Local d → ∀ y ∈ x, y.writes = true → y.file ≠ s.card.file (s.place d))
    (hopening : ∀ o ∈ s.opening, ∀ y ∈ x, y.writes = true → y.file ≠ s.card.file o.loc) :
    (s.setHandle (.front f) fd x).Exclusive := by
  have hne : Owner.front f ≠ .image := by rintro ⟨⟩
  refine ⟨fun d hd => ?_, fun o ho => (h.opening o ho).set (.inl hne) (hopening o ho)⟩
  obtain ⟨b, hb, hsole⟩ := h.drives d hd
  exact ⟨b, hb, hsole.set (.inl hne) (hdrives d hd)⟩

/-- The images stay where they are, and what they are, when the card changes. -/
theorem Exclusive.card (hk : s.Kept) (h : s.Exclusive) {c : SysCall} (hnext : s.next f = some c)
    (hcareful : s.Careful c) (e : Change c) : { s with card := e.after s.card }.Exclusive := by
  refine ⟨fun d hd => ?_, fun o ho => ?_⟩
  · obtain ⟨b, hb, hsole⟩ := h.drives d hd
    have hkept := hk.unremoved hnext hcareful hd (List.prefix_refl _)
    rw [← (Has.stays e (hk.named d hd).2.2 hkept).2] at hsole
    exact ⟨b, hb, hsole⟩
  · have hsole := h.opening o ho
    have hkept := hk.unremoved_opening hnext hcareful ho
    rw [← (Has.stays e (has_of_find (hk.opened o ho).2.1) hkept).2] at hsole
    exact hsole

/-- A call of a front leaves the images their writers. -/
theorem call_exclusive (hk : s.Kept) (h : s.Exclusive) {c : SysCall} {r : c.Answer} {e : Change c}
    {k : c.Answer → Sys Unit} (hcareful : s.Careful c) (hrest : s.rest f = some (.call c k)) :
    (s.called f c r e (k r)).Exclusive := by
  have hnext : s.next f = some c := by rw [next, hrest]
  have hk' := hk.card hnext hcareful e
  have h' := h.card hk hnext hcareful e
  have htouch : ({ s with card := e.after s.card }.touch f c r).Exclusive := by
    unfold Premises.touch
    split
    · next p of fd =>
      refine h'.set (fun d hd y hy hwrites => ?_) fun o ho y hy hwrites => ?_
      · obtain ⟨l, hl, rfl⟩ := Option.map_eq_some_iff.mp hy
        exact apart_of_has (has_of_find hl) (hk'.named d hd).2.2 (hk.opens_other hnext hwrites hl hd)
      · obtain ⟨l, hl, rfl⟩ := Option.map_eq_some_iff.mp hy
        have htarget : SysCall.target (.open p of) = some p := if_pos hwrites
        rw [hk.no_target hnext ho] at htarget
        cases htarget
    · exact h'.set (fun d hd y hy => by cases hy) fun o ho y hy => by cases hy
    · exact h'
  exact htouch.same rfl rfl rfl rfl rfl

/-- A mount opens a file nothing writes. -/
theorem mountOpen_exclusive (h : s.Exclusive) {o : Opening} (hnew : s.handles .image o.backing = none)
    (hunwritten : ∀ o' fd x, s.handles o' fd = some x → x.writes = true → x.file ≠ s.card.file o.loc) :
    { s.setHandle .image o.backing (some ⟨s.card.file o.loc, true⟩) with
      lock := some .mount, opening := some o }.Exclusive := by
  refine ⟨fun d hd => ?_, ?_⟩
  · obtain ⟨b, hb, hsole⟩ := h.drives d hd
    have hne : o.backing ≠ b := by
      rintro rfl
      rw [hsole.1] at hnew
      cases hnew
    have hfile := hunwritten .image b _ hsole.1 rfl
    exact ⟨b, hb, (hsole.set (.inr hne) (by rintro y ⟨⟩ -; exact hfile.symm)).same rfl⟩
  · rintro _ ⟨⟩
    have hsole : (s.setHandle .image o.backing (some ⟨s.card.file o.loc, true⟩)).SoleWriter
      (s.card.file o.loc) o.backing := by
      refine ⟨setHandle_self .., fun o' fd x hx hwrites hfile => ?_⟩
      by_cases hsame : o' = .image ∧ fd = o.backing
      · exact hsame
      · rw [setHandle_of_ne s _ (not_and_or.mp hsame)] at hx
        exact absurd hfile (hunwritten o' fd x hx hwrites)
    exact hsole.same rfl

theorem mountSet_exclusive (h : s.Exclusive) {canon : CStr} {o : Opening} (ho : s.opening = some o) :
    { s with
      disk := s.disk.mountLocal o.drive o.name canon o.backing
      place := Function.update s.place o.drive o.loc
      lock := none, opening := none }.Exclusive := by
  refine ⟨fun d hd => ?_, by rintro o' ⟨⟩⟩
  by_cases hdrive : d = o.drive
  · subst hdrive
    refine ⟨o.backing, ?_, ?_⟩
    · simp only [Disk.mountLocal, Disk.setDrive_drv, Function.update_self]
    · simp only [Function.update_self]
      exact (h.opening o (by rw [ho]; rfl)).same rfl
  · obtain ⟨hlt, hmounted, hremote⟩ := hd
    simp only [Disk.mountLocal, Disk.setDrive_drv, Function.update_of_ne hdrive] at hmounted hremote ⊢
    obtain ⟨b, hb, hsole⟩ := h.drives d ⟨hlt, hmounted, hremote⟩
    exact ⟨b, hb, hsole.same rfl⟩

/-- A drive loses its image. -/
theorem Exclusive.dropped (h : s.Exclusive) {disk : Disk} {e : ℕ}
    (hother : ∀ d ≠ e, disk.drv d = s.disk.drv d) (hgone : (disk.drv e).mounted = false) :
    { s with disk := disk }.Exclusive := by
  refine ⟨fun d hd => ?_, h.opening⟩
  obtain ⟨hlt, hmounted, hremote⟩ := hd
  have hde : d ≠ e := by
    rintro rfl
    rw [hgone] at hmounted
    cases hmounted
  rw [hother d hde] at hmounted hremote ⊢
  exact h.drives d ⟨hlt, hmounted, hremote⟩

theorem dispose_exclusive (h : s.Exclusive) {b : ℕ} (hb : ¬ s.Backed b) :
    (s.setHandle .image b none).Exclusive := by
  refine ⟨fun d hd => ?_, fun o ho => ?_⟩
  · obtain ⟨b', hb', hsole⟩ := h.drives d hd
    have hne : b ≠ b' := by
      rintro rfl
      exact hb (.inl ⟨d, hd.1, hb'⟩)
    exact ⟨b', hb', hsole.set (.inr hne) (by rintro y ⟨⟩)⟩
  · have hne : b ≠ o.backing := by
      rintro rfl
      exact hb (.inr ⟨o, ho, rfl⟩)
    exact (h.opening o ho).set (.inr hne) (by rintro y ⟨⟩)

theorem step_exclusive {a : PremisesAct} (hk : s.Kept) (h : s.Exclusive) (hok : s.Considerate a)
    (hstep : s.step a = some s') : s'.Exclusive := by
  cases a with
  | start f r =>
    obtain ⟨-, rfl⟩ := when_eq_some.mp hstep
    exact h.same rfl rfl rfl rfl rfl
  | begin f mem =>
    simp only [step] at hstep
    split at hstep
    · next p k hrest =>
      obtain ⟨-, rfl⟩ := when_eq_some.mp hstep
      unfold checkedAs
      split <;> exact h.same rfl rfl rfl rfl rfl
    · cases hstep
  | finish f | ended f =>
    simp only [step] at hstep
    split at hstep
    · cases hstep
      exact h.same rfl rfl rfl rfl rfl
    · cases hstep
  | call f c r e =>
    simp only [step] at hstep
    split at hstep
    · next c' k hrest =>
      split at hstep
      · next heq =>
        subst heq
        obtain ⟨-, rfl⟩ := when_eq_some.mp hstep
        exact call_exclusive hk h hok.1 hrest
      · cases hstep
    · cases hstep
  | mountOpen drive name b =>
    simp only [step] at hstep
    split at hstep
    · cases hstep
    · next path hpath =>
      split at hstep
      · cases hstep
      · next l hl =>
        obtain ⟨⟨-, -, -, hnew, -⟩, rfl⟩ := when_eq_some.mp hstep
        exact mountOpen_exclusive h (o := ⟨drive, name, path, l, b⟩) (Option.isNone_iff_eq_none.mp hnew)
          (hok.2 path hpath l hl)
  | mountSet mem =>
    simp only [step] at hstep
    split at hstep
    · cases hstep
    · next o ho =>
      cases hstep
      exact mountSet_exclusive h ho
  | unmount drive =>
    obtain ⟨-, rfl⟩ := when_eq_some.mp hstep
    refine h.dropped (e := drive) (fun d hd => ?_) ?_
    · simp only [Disk.unmount, Disk.setDrive_drv, Function.update_of_ne hd]
    · simp only [Disk.unmount, Disk.setDrive_drv, Function.update_self]
      rfl
  | configure drive url =>
    obtain ⟨-, rfl⟩ := when_eq_some.mp hstep
    refine h.dropped (e := drive) (fun d hd => ?_) ?_
    · simp only [Disk.configure, Disk.setDrive_drv, Function.update_of_ne hd]
    · simp only [Disk.configure, Disk.setDrive_drv, Function.update_self]
  | dispose b =>
    obtain ⟨hb, rfl⟩ := when_eq_some.mp hstep
    exact dispose_exclusive h hb

theorem Start.exclusive (h : s.Start) : s.Exclusive := by
  obtain ⟨hdrv, -, hopening, -⟩ := h
  refine ⟨fun d hd => ?_, fun o ho => ?_⟩
  · have hmounted := hd.2.1
    rw [hdrv d] at hmounted
    cases hmounted
  · rw [hopening] at ho
    cases ho

/-- CORRECT: in every run of prudent steps in which an image is mounted only while nothing has it open
    for writing, the drive's own handle is the only one that can write a mounted image. -/
theorem sole_writer (h : machine.Reach Considerate s) {d : ℕ} (hd : s.Local d) :
    ∃ b, (s.disk.drv d).backing = some b ∧ s.handles .image b = some ⟨s.card.file (s.place d), true⟩ ∧
      ∀ o fd x, s.handles o fd = some x → x.writes = true → x.file = s.card.file (s.place d) →
        o = .image ∧ fd = b := by
  have hinv : s.Kept ∧ s.Exclusive := h.invariant (I := fun s => s.Kept ∧ s.Exclusive)
    (fun _ hs => ⟨Start.kept hs, Start.exclusive hs⟩) fun _ _ _ hs hok hstep =>
      ⟨step_kept hs.1 hok.1 hstep, step_exclusive hs.1 hs.2 hok hstep⟩
  exact hinv.2.drives d hd

/-- A check that a step is considerate, for steps that open no image. -/
def considerate (s : Premises) (a : PremisesAct) : Bool :=
  s.prudent a && match a with
    | .mountOpen .. => false
    | _ => true

theorem considerate_sound (s : Premises) (a : PremisesAct) (h : s.considerate a = true) :
    s.Considerate a := by
  simp only [considerate, Bool.and_eq_true] at h
  refine ⟨prudent_sound s a h.1, ?_⟩
  cases a with
  | mountOpen drive name b => cases h.2
  | _ => trivial

theorem step_openA : (machine.step fresh (.mountOpen 0 ['A'] 0)).isSome = true := by decide +kernel

/-- `A` is open for drive 0. -/
def openA : Premises := (machine.step fresh (.mountOpen 0 ['A'] 0)).get step_openA

theorem reach_openA : machine.Reach Considerate openA := by
  have hok : fresh.Considerate (.mountOpen 0 ['A'] 0) := ⟨trivial, by rintro _ - _ - o fd x ⟨⟩⟩
  exact (Machine.Reach.of_start (m := machine) fresh_start).step hok (Option.some_get step_openA).symm

/-- `A` is mounted, and an upload to `C` begins. -/
def uploadOther : List PremisesAct :=
  [.mountSet true, .start .ftp (.stor ['/', 's', 'd', '/', 'C'] false), .begin .ftp true,
    .call .ftp (.open ['/', 's', 'd', '/', 'C'] (Shell.fopenFlags false)) (.ok 3) (Change.none _),
      .finish .ftp, .ended .ftp]

theorem exec_uploadOther : (machine.exec openA uploadOther).isSome = true := by decide +kernel

def uploadsOther : Premises := (machine.exec openA uploadOther).get exec_uploadOther

theorem reach_uploadsOther : machine.Reach Considerate uploadsOther :=
  reach_openA.path (Machine.exec_path considerate considerate_sound
    (Option.some_get exec_uploadOther).symm (by decide +kernel))

theorem sole_writer_uploadsOther : ∃ b, (uploadsOther.disk.drv 0).backing = some b ∧
    uploadsOther.handles .image b = some ⟨uploadsOther.card.file (uploadsOther.place 0), true⟩ ∧
    ∀ o fd x, uploadsOther.handles o fd = some x → x.writes = true →
      x.file = uploadsOther.card.file (uploadsOther.place 0) → o = .image ∧ fd = b :=
  sole_writer reach_uploadsOther (by unfold Local; decide +kernel)

/-- An upload to `A` that is still under way when `A` is mounted, and `A` mounted on two drives. -/
theorem mounted_while_written :
    (∃ s, machine.Reach Machine.always s ∧ s.Local 0 ∧
      s.handles (.front .ftp) 3 = some ⟨s.card.file (s.place 0), true⟩) ∧
    ∃ s, machine.Reach Machine.always s ∧ s.Local 0 ∧ (s.disk.drv 0).backing = some 0 ∧
      s.handles .image 1 = some ⟨s.card.file (s.place 0), true⟩ := by
  refine ⟨⟨_, reach_after (l := [.start .ftp (.stor ['/', 's', 'd', '/', 'A'] false), .begin .ftp true,
      .call .ftp (.open ['/', 's', 'd', '/', 'A'] (Shell.fopenFlags false)) (.ok 3)
        (Change.none _), .finish .ftp,
      .ended .ftp, .mountOpen 0 ['A'] 0, .mountSet true]) (by decide +kernel), ?_⟩,
    ⟨_, reach_after (l := [.mountOpen 0 ['A'] 0, .mountSet true, .mountOpen 1 ['A'] 1, .mountSet true])
      (by decide +kernel), ?_⟩⟩
  · exact ⟨by unfold Local; decide +kernel, by decide +kernel⟩
  · exact ⟨by unfold Local; decide +kernel, by decide +kernel, by decide +kernel⟩

end FdcSds.Premises
