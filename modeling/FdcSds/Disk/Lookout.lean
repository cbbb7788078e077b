import FdcSds.Config.Unmounts
import FdcSds.Disk.Changes
import FdcSds.Sd.Volume

/-! What `disk_change_begin` sees of the mounted images.

    A mount records the canonical name of its image, or the name as typed where `sd_canonical` failed. A
    change is allowed when `sd_canonical` fails on its path, or when no record begins with what it found.

        mount:   name ──sd_canonical──▶ record         (fails: the name)
        change:  path ──sd_canonical──▶ pieces ──▶ in front of a record?   (fails: allowed) -/

namespace FdcSds
open Schemes Schemes.Runs

/-- `disk_change_begin`: the drive in the way, and whether the caller is left with the mount lock. -/
def Disk.diskChangeBegin (w : Disk) (card : Card) (mem : Bool) (abs : CStr) : Option ℕ × Bool :=
  let drive := w.changeBegin (card.sdCanonical mem abs Premises.canonCap)
  (drive, drive.isNone)

/-- The tables `disk_mount` and the rest build, from an empty one. -/
def Desk.tables : Machine Desk DeskAct := ⟨fun s => ∀ d, s.disk.drv d = .empty, step⟩

namespace Volume
open Premises (canonCap)

variable (v : Volume)

/-- What the disk module sees is this card; whether memory could be had is up to the moment. -/
def Shown (o : Outside) : Prop :=
  (∀ p, o.file p = (v.card.find p).bind fun l => if v.regular l then some (v.file l) else none) ∧
    ∃ mem : CStr → Bool, ∀ p, o.canon p = v.card.sdCanonical (mem p) p canonCap

/-- The drive serves the file at this place. -/
structure ImageAt (w : Disk) (d : ℕ) (m : Loc) : Prop where
  onCard : (w.drv d).remote = false
  served : w.served d = some (.sd (v.file m))
  place : v.card.Has m

/-- A local image is where its recorded name leads. -/
def Recorded (w : Disk) (d : ℕ) : Prop := (w.drv d).mounted = true → (w.drv d).remote = false →
  ∃ m, v.ImageAt w d m ∧ m ≠ [] ∧ v.card.walk [] (components (w.drv d).canon) = some m

/-- The place is a drive's image, or on the way to it. -/
def InUse (w : Disk) (l : Loc) (d : ℕ) : Prop := d < diskMaxDrive ∧ ∃ m, v.ImageAt w d m ∧ l <+: m

/-- The card is there, and stays as it is. -/
def OnCard (_ : Desk) : DeskAct → Prop
  | .mount _ o _ _ _ _ _ _ | .restart o | .install o _ _ _ => v.Shown o
  | _ => True

variable {v} {o : Outside} {w w' : Disk} {d e : ℕ} {q : CStr} {b : ℕ} {fate : Option EspErr}

/-! ### The record of a mount -/

theorem components_slash (s : CStr) : components ('/' :: s) = components s := by
  simp [components, segments]

theorem find_under {name : CStr} (hback : '\\' ∉ name) :
    v.card.find (sdMountPoint ++ '/' :: name) = v.card.walk [] (components name) := by
  have hrest : underSd (sdMountPoint ++ '/' :: name) = some ('/' :: name) := by simp [underSd, sdMountPoint]
  have hplain : '\\' ∉ '/' :: name := by
    rw [List.mem_cons, not_or]
    exact ⟨by decide, hback⟩
  rw [Card.find, hrest, Option.bind_some, Card.fatPieces_eq hplain, components_slash]

theorem localOpen_cases (hfile : ∀ p, o.file p = (v.card.find p).bind fun l =>
      if v.regular l then some (v.file l) else none) {n : ℕ} (hopen : o.localOpen q = .ok n) :
    ∃ path m, sdPath q (16 + configFileCap) = some path ∧
      v.card.find path = some m ∧ v.regular m = true ∧ n = v.file m := by
  unfold Outside.localOpen at hopen
  cases hpath : sdPath q (16 + configFileCap) with
  | none =>
    rw [hpath] at hopen
    cases hopen
  | some path =>
    simp only [hpath, hfile] at hopen
    cases hfind : v.card.find path with
    | none =>
      rw [hfind] at hopen
      cases hopen
    | some m =>
      simp only [hfind, Option.bind_some] at hopen
      cases hregular : v.regular m with
      | false =>
        simp only [hregular] at hopen
        cases hopen
      | true =>
        simp only [hregular, if_true] at hopen
        cases hopen
        exact ⟨path, m, rfl, hfind, hregular, rfl⟩

/-- The canonical name of a place leads there. -/
theorem joinSlash_leads {m : Loc} (hm : v.card.Has m) (hne : m ≠ []) :
    v.card.walk [] (components (joinSlash m)) = some m := by
  obtain ⟨xs, hxs⟩ := hm
  obtain ⟨hshort, hplain⟩ := Volume.walk_short (d := []) hxs
  have hpieces : components (joinSlash m) = m := by
    rw [components, segments_joinSlash hne fun x hx => (hplain x hx).slash, List.filter_eq_self]
    exact fun x hx => decide_eq_true (hplain x hx).ne_nil
  rw [hpieces]
  exact hshort

/-- What `disk_mount` records leads to the file it opened. -/
theorem canonOf_leads (ho : v.Shown o) {n : ℕ} (hopen : o.localOpen q = .ok n) :
    ∃ m, v.card.Has m ∧ m ≠ [] ∧ n = v.file m ∧ (o.canonOf q).length < canonCap ∧
      v.card.walk [] (components (o.canonOf q)) = some m := by
  obtain ⟨hfile, mem, hcanon⟩ := ho
  obtain ⟨path, m, hpath, hfind, hregular, rfl⟩ := localOpen_cases hfile hopen
  have hback := Premises.sdPath_noBackslash hpath
  obtain ⟨rfl, hlen⟩ := Shell.sdPath_eq hpath
  have hne : m ≠ [] := by
    rintro rfl
    rw [v.root] at hregular
    cases hregular
  have hwalk : v.card.walk [] (components q) = some m := by
    rw [← hfind, find_under]
    intro hmem
    exact hback (by simp [hmem])
  have hof : o.canonOf q =
      (v.card.sdCanonical (mem (sdMountPoint ++ '/' :: q)) (sdMountPoint ++ '/' :: q) canonCap).getD
        (strlcpy canonCap q) := by
    rw [Outside.canonOf, hpath, Option.bind_some, hcanon]
    rfl
  refine ⟨m, ⟨_, hwalk⟩, hne, rfl, ?_⟩
  rw [hof]
  cases hc : v.card.sdCanonical (mem (sdMountPoint ++ '/' :: q)) (sdMountPoint ++ '/' :: q) canonCap with
  | some canon =>
    obtain ⟨rfl, hfits⟩ := Card.sdCanonical_eq (by decide) hback hc hfind
    exact ⟨hfits, joinSlash_leads ⟨_, hwalk⟩ hne⟩
  | none =>
    have hshorter : q.length < canonCap := by
      have hcap : 16 + configFileCap ≤ canonCap := by decide
      rw [List.length_append, List.length_cons] at hlen
      omega
    rw [Option.getD_none, strlcpy_of_lt hshorter]
    exact ⟨hshorter, hwalk⟩

/-! ### Every table records its images -/

theorem Recorded.congr (h : v.Recorded w d) (hdrv : w'.drv d = w.drv d)
    (hheap : ∀ b, (w.drv d).backing = some b → w'.heap b = w.heap b) : v.Recorded w' d := by
  intro hmounted hlocal
  rw [hdrv] at hmounted hlocal
  obtain ⟨m, ⟨honCard, hserved, hplace⟩, hne, hleads⟩ := h hmounted hlocal
  refine ⟨m, ⟨by rwa [hdrv], ?_, hplace⟩, hne, by rwa [hdrv]⟩
  rwa [Outside.served_congr hdrv hheap]

theorem recorded_of_off (h : (w.drv d).mounted = false ∨ (w.drv d).remote = true) : v.Recorded w d := by
  intro hmounted hlocal
  rcases h with h | h
  · rw [h] at hmounted
    cases hmounted
  · rw [h] at hlocal
    cases hlocal

/-- Slots that change hands. -/
theorem Recorded.setDrive (h : v.Recorded w d) {new : Drive}
    (hnew : d = e → new.mounted = false ∨ new.remote = true) :
    v.Recorded (w.setDrive e new) d := by
  by_cases hd : d = e
  · refine recorded_of_off ?_
    rw [Disk.setDrive_drv, ← hd, Function.update_self]
    exact hnew hd
  · exact h.congr (by rw [Disk.setDrive_drv, Function.update_of_ne hd]) fun b _ => by rw [Disk.setDrive_heap]

theorem Recorded.opened (h : v.Recorded w d) (hfree : (w.drv d).backing ≠ some b) (i : ImageId) :
    v.Recorded (o.opened w b i) d := by
  refine h.congr rfl fun c hc => Function.update_of_ne ?_ ..
  rintro rfl
  exact hfree hc

/-- A local image is recorded as it is mounted. -/
theorem recorded_mountLocal (ho : v.Shown o) {n : ℕ} (hopen : o.localOpen q = .ok n) (w : Disk) (d b : ℕ) :
    v.Recorded ((o.opened w b (.sd n)).mountLocal d q (o.canonOf q) b) d := by
  obtain ⟨m, hhas, hne, rfl, hlen, hleads⟩ := canonOf_leads ho hopen
  have hdrv : ((o.opened w b (.sd (v.file m))).mountLocal d q (o.canonOf q) b).drv d =
      ⟨true, false, false, strlcpy configFileCap q, o.canonOf q, some b⟩ := by
    rw [Disk.mountLocal, Disk.setDrive_drv, Function.update_self]
    exact congrArg (Drive.mk _ _ _ _ · _) (strlcpy_of_lt hlen)
  intro _ _
  refine ⟨m, ⟨by rw [hdrv], ?_, hhas⟩, hne, by rwa [hdrv]⟩
  rw [Disk.served, hdrv]
  simp [Disk.mountLocal, Outside.opened]

theorem Recorded.diskMount (h : v.Recorded w d) (ho : v.Shown o)
    (hfree : d = e ∨ (w.drv d).backing ≠ some b) :
    v.Recorded (o.diskMount w e q b fate).1 d := by
  unfold Outside.diskMount
  split
  · exact h
  split
  · exact h.setDrive fun _ => .inr rfl
  split
  · exact h.setDrive fun _ => .inl rfl
  split
  · exact h.setDrive fun _ => .inl rfl
  · exact h.setDrive fun _ => .inl rfl
  · next n hopen =>
    by_cases hd : d = e
    · subst hd
      exact recorded_mountLocal ho hopen w d b
    · exact (h.opened (hfree.resolve_left hd) _).setDrive fun heq => absurd heq hd

theorem Recorded.mountTable {d e : Fin configMaxDrive} {cwd name : CStr} (h : v.Recorded w d) (ho : v.Shown o)
    (hfree : (w.drv d).backing ≠ some b) : v.Recorded (o.mountTable w e cwd name b fate).1 d := by
  unfold Outside.mountTable
  split
  · exact h.diskMount ho (.inr hfree)
  split
  · exact h
  · next q _ =>
    have hmount : v.Recorded (o.diskMount w e q b fate).1 d := h.diskMount ho (.inr hfree)
    cases hr : o.diskMount w e q b fate with
    | mk w' r =>
      rw [hr] at hmount
      cases r <;> exact hmount

theorem diskMount_backing {c : ℕ} (h : ((o.diskMount w d q b fate).1.drv d).backing = some c) :
    c = b ∨ (w.drv d).backing = some c := by
  unfold Outside.diskMount at h
  split at h
  · exact .inr h
  split at h
  · rw [Disk.configure, Disk.setDrive_drv, Function.update_self] at h
    cases h
  split at h
  · rw [Disk.unmount, Disk.setDrive_drv, Function.update_self] at h
    cases h
  split at h
  · rw [Disk.unmount, Disk.setDrive_drv, Function.update_self] at h
    cases h
  · rw [Disk.unmount, Disk.setDrive_drv, Function.update_self] at h
    cases h
  · rw [Disk.mountLocal, Disk.setDrive_drv, Function.update_self] at h
    exact .inl (Option.some.inj h).symm

/-- One drive of `disk_automount`: its image is recorded, in the backing of its own number. -/
theorem recorded_automountOne (ho : v.Shown o) {cfg : Config} {i : Fin configMaxDrive}
    (h : w.drv i = .empty) :
    v.Recorded (o.automountOne cfg w i) i ∧ ∀ b, ((o.automountOne cfg w i).drv i).backing = some b →
      b = i := by
  have hoff : v.Recorded w i := recorded_of_off (.inl (by rw [h]; rfl))
  have hnone : (w.drv i).backing = none := by rw [h]; rfl
  unfold Outside.automountOne
  dsimp only
  split
  · refine ⟨hoff, fun b hb => ?_⟩
    rw [hnone] at hb
    cases hb
  split
  · refine ⟨recorded_of_off (.inl (by simp only [Function.update_self])), fun b hb => ?_⟩
    simp only [Function.update_self, hnone] at hb
    cases hb
  · refine ⟨hoff.diskMount ho (.inl rfl), fun b hb => ?_⟩
    rcases diskMount_backing hb with hb | hb
    · exact hb
    · rw [hnone] at hb
      cases hb

theorem recorded_automount (ho : v.Shown o) (cfg : Config) (w : Disk) (d : Fin configMaxDrive) :
    v.Recorded (o.diskAutomount cfg (Outside.coldStart w)) d := by
  refine (Outside.foldl_drives (l := Outside.drives) (f := o.automountOne cfg)
    (P := fun i w => w.drv i = .empty)
    (Q := fun i w => v.Recorded w i ∧ ∀ b, (w.drv i).backing = some b → b = i)
    (fun w i _ j hne => Outside.automountOne_alike cfg w hne) (fun j w w' hsame hw => hsame.1.trans hw) ?_
    (fun w i hw => recorded_automountOne ho hw) (by decide) fun j _ => rfl).1 d (Outside.mem_drives d) |>.1
  rintro j w w' ⟨hdrv, hheap⟩ ⟨hrec, hown⟩
  refine ⟨hrec.congr hdrv fun b hb => ?_, by rwa [hdrv]⟩
  rw [hown b hb, hheap]

theorem Recorded.sweep (h : v.Recorded w d) : v.Recorded w.sweep.1 d := by
  have hheap : w.sweep.1.heap = w.heap := (State.sweep_keeps (List.range diskMaxDrive) w []).1
  rcases Outside.sweep_remote (List.range diskMaxDrive) w [] d with hsame | ⟨-, hcleared⟩
  · exact h.congr hsame fun b _ => by rw [hheap]
  · have hdrv : w.sweep.1.drv d = { w.drv
      d with backing := none, mounted := false, readonly := false } := hcleared
    exact recorded_of_off (.inl (by rw [hdrv]))

/-- The worker installs sessions on remote drives only. -/
theorem Recorded.install (h : v.Recorded w d) (hfree : (w.drv d).backing ≠ some b) {i : ImageId} {url : CStr}
    {readonly : Bool} : v.Recorded (((o.opened w b i).workerInstall e url b readonly).getD w) d := by
  unfold Disk.workerInstall
  dsimp only
  split
  · next hwants =>
    simp only [Bool.and_eq_true] at hwants
    rw [Option.getD_some]
    refine (h.opened hfree i).setDrive fun _ => .inr ?_
    exact hwants.1.1.2
  · exact h

theorem step_recorded {s s' : Desk} {a : DeskAct} (h : ∀ d : Fin configMaxDrive, v.Recorded s.disk d)
    (hok : v.OnCard s a) (hstep : s.step a = some s') (d : Fin configMaxDrive) : v.Recorded s'.disk d := by
  cases a with
  | mount t o e cwd name b fate posted =>
    obtain ⟨⟨-, hfree⟩, rfl⟩ := when_eq_some.mp hstep
    exact (h d).mountTable hok (hfree d)
  | unmount t e =>
    obtain ⟨-, rfl⟩ := when_eq_some.mp hstep
    split <;> exact h d
  | letGo t =>
    simp only [Desk.step] at hstep
    split at hstep
    · cases hstep
      exact (h d).setDrive fun _ => .inl rfl
    · cases hstep
  | setDrive t =>
    simp only [Desk.step] at hstep
    split at hstep
    · rw [Desk.configSetDrive_cases hstep]
      exact h d
    · rw [Desk.configSetDrive_cases hstep]
      exact h d
    · cases hstep
  | config k =>
    simp only [Desk.step] at hstep
    split at hstep
    · obtain ⟨c, -, rfl⟩ := Option.map_eq_some_iff.mp hstep
      exact h d
    · cases hstep
  | restart o =>
    cases hstep
    exact recorded_automount hok _ _ d
  | release e =>
    cases hstep
    exact (h d).setDrive fun _ => .inl rfl
  | gotIp | openFails =>
    obtain ⟨-, rfl⟩ := when_eq_some.mp hstep
    exact h d
  | hook posted =>
    simp only [Desk.step] at hstep
    split at hstep
    · cases hstep
      exact h d
    · cases hstep
  | lostIp =>
    obtain ⟨-, rfl⟩ := when_eq_some.mp hstep
    exact (h d).sweep
  | take =>
    simp only [Desk.step] at hstep
    split at hstep
    · obtain ⟨-, rfl⟩ := when_eq_some.mp hstep
      exact h d
    · cases hstep
  | install o i b readonly =>
    simp only [Desk.step] at hstep
    split at hstep
    · obtain ⟨hfree, rfl⟩ := when_eq_some.mp hstep
      exact (h d).install (hfree d)
    · cases hstep
  | io buf cache img =>
    cases hstep
    exact (h d).congr rfl fun _ _ => rfl

/-- In every table built on this card, a local image is where its recorded name leads. -/
theorem reach_recorded {s : Desk} (h : Desk.tables.Reach v.OnCard s) (d : Fin configMaxDrive) :
    v.Recorded s.disk d := by
  refine Machine.Reach.invariant (I := fun s => ∀ d : Fin configMaxDrive, v.Recorded s.disk d)
    (fun s hs d => ?_)
    (fun _ _ _ => step_recorded) h d
  exact recorded_of_off (.inl (by rw [hs]; rfl))

/-! ### The check of a change -/

/-- The answer is right: a drive that is given has the place, or one under it; and one is given if there is
    such a drive. Otherwise the mount lock is left to the caller. -/
structure Right (v : Volume) (w : Disk) (mem : Bool) (abs : CStr) : Prop where
  given : ∀ d, (w.diskChangeBegin v.card mem abs).1 = some d →
    ∃ l, v.card.denotes abs = some l ∧ v.InUse w l d
  found : ∀ l d, v.card.denotes abs = some l → v.InUse w l d →
    (w.diskChangeBegin v.card mem abs).1.isSome = true
  held : (w.diskChangeBegin v.card mem abs).2 = (w.diskChangeBegin v.card mem abs).1.isNone

/-- If the path denotes an image or a folder on the way to one, then there is memory, what is on its way
    is one name between slashes that the buffers hold, and the record of such a drive spells the place
    in short names. -/
def InSight (v : Volume) (w : Disk) (mem : Bool) (abs : CStr) : Prop :=
  ∀ l, v.card.denotes abs = some l → (∃ d, v.InUse w l d) →
    mem = true ∧ v.card.Roomy canonCap abs ∧ ∃ d, v.InUse w l d ∧ Spells (w.drv d).canon l

/-- Where a path leads is a place. -/
theorem resolve_has {d l : Loc} {xs : List CStr} (hd : v.card.Has d)
    (h : v.card.resolve d xs = some l) : v.card.Has l := by
  induction xs generalizing d with
  | nil =>
    cases h
    exact hd
  | cons x xs ih =>
    rw [Card.resolve] at h
    split at h
    · exact ih hd h
    split at h
    · exact ih (hd.above (List.dropLast_prefix d)) h
    split at h
    · cases h
    · next c hc =>
      refine ih ?_ h
      obtain ⟨ys, hys⟩ := hd
      refine ⟨ys ++ [x], ?_⟩
      rw [Card.walk, walkBy_append, Option.bind_eq_some_iff]
      exact ⟨d, hys, by simp [walkBy, hc]⟩

theorem denotes_has {abs : CStr} {l : Loc} (h : v.card.denotes abs = some l) : v.card.Has l := by
  obtain ⟨rest, -, hrest⟩ := Option.bind_eq_some_iff.mp h
  exact resolve_has ⟨[], rfl⟩ hrest

theorem has_plain {l : Loc} (h : v.card.Has l) : ∀ x ∈ l, x ≠ [] ∧ '/' ∉ x := by
  obtain ⟨xs, hxs⟩ := h
  intro x hx
  have hname := (Volume.walk_short (d := []) hxs).2 x hx
  exact ⟨hname.ne_nil, hname.slash⟩

/-- A record that spells a place is that of an image there or under it. -/
theorem inUse_of_spells (hrec : v.Recorded w d) (hd : d < diskMaxDrive) (hmounted : (w.drv d).mounted = true)
    (hlocal : (w.drv d).remote = false) {l : Loc} (hl : v.card.Has l) (hspell : Spells (w.drv d).canon l) :
    v.InUse w l d := by
  obtain ⟨m, hat, -, hleads⟩ := hrec hmounted hlocal
  refine ⟨hd, m, hat, ?_⟩
  have hwalk := has_iff.mp hl
  refine walk_prefix (d := []) hwalk hleads ?_
  -- the pieces of the place are not empty, so empty pieces of the record do not matter
  obtain ⟨r, hr⟩ := hspell
  obtain ⟨a, b, hab, ha, -⟩ := List.map_eq_append_iff.mp hr.symm
  have hfull : ∀ x ∈ a, decide (x ≠ []) = true := by
    intro x hx
    have hmem : foldCase x ∈ l.map foldCase := by
      rw [← ha]
      exact List.mem_map_of_mem hx
    obtain ⟨y, hy, hfold⟩ := List.mem_map.mp hmem
    refine decide_eq_true ?_
    rintro rfl
    exact (has_plain hl y hy).1 (by simpa [foldCase] using hfold)
  rw [components, hab, List.filter_append, List.filter_eq_self.mpr hfull, List.map_append, ha]
  exact List.prefix_append _ _

/-- What the loop of `disk_change_begin` looks for. -/
theorem inTheWay_cases {canon : CStr} (h : w.inTheWay canon = some d) :
    d < diskMaxDrive ∧ (w.drv d).mounted = true ∧
    (w.drv d).remote = false ∧ covers canon (w.drv d).canon = true := by
  have hfound := List.find?_some h
  have hmem := List.mem_of_find?_eq_some h
  simp only [Bool.and_eq_true, Bool.not_eq_true'] at hfound
  exact ⟨List.mem_range.mp hmem, hfound.1.1.1, hfound.1.1.2, hfound.2⟩

/-- A drive whose record spells the place is found. -/
theorem inTheWay_isSome (hrec : v.Recorded w d) {l : Loc} (hl : v.card.Has l) (hd : v.InUse w l d)
    (hspell : Spells (w.drv d).canon l) : (w.inTheWay (joinSlash l)).isSome = true := by
  obtain ⟨hlt, m, hat, -⟩ := hd
  have hmounted : (w.drv d).mounted = true := by
    have hserved := hat.served
    unfold Disk.served at hserved
    split at hserved
    · assumption
    · cases hserved
  have hne : (w.drv d).canon ≠ [] := by
    obtain ⟨m', -, hne, hleads⟩ := hrec hmounted hat.onCard
    intro hnil
    rw [hnil] at hleads
    exact hne (Option.some.inj hleads).symm
  rw [Disk.inTheWay, List.find?_isSome]
  refine ⟨d, List.mem_range.mpr hlt, ?_⟩
  simp [hmounted, hat.onCard, hne, (covers_iff (has_plain hl) _).mpr hspell]

/-- CORRECT: in every table built on this card, and for every path on which `sd_canonical` does not lose
    its folder, the answer is right exactly when every image the path may take away is in sight. -/
theorem change_begin_right {s : Desk} (h : Desk.tables.Reach v.OnCard s) {mem : Bool} {abs : CStr}
    (hstraight : mem = true → v.card.Straight canonCap abs) : v.Right s.disk mem abs ↔
      v.InSight s.disk mem abs := by
  have hrec (d : ℕ) (hd : d < diskMaxDrive) : v.Recorded s.disk d := reach_recorded h ⟨d, hd⟩
  have hcanon := Card.sdCanonical_denotes hstraight
  -- what is given has a record that spells the place
  have hgiven (d : ℕ) (hd : (s.disk.diskChangeBegin v.card mem abs).1 = some d) :
      mem = true ∧ v.card.Roomy canonCap abs ∧ ∃ l, v.card.denotes abs = some l ∧ v.InUse s.disk l d ∧
        Spells (s.disk.drv d).canon l := by
    simp only [Disk.diskChangeBegin, Disk.changeBegin, hcanon] at hd
    split at hd
    · next hroomy =>
      obtain ⟨canon, hname, hway⟩ := Option.bind_eq_some_iff.mp hd
      obtain ⟨l, hl, rfl⟩ := Option.map_eq_some_iff.mp hname
      obtain ⟨hlt, hmounted, hlocal, hcov⟩ := inTheWay_cases hway
      have hspell := (covers_iff (has_plain (denotes_has hl)) _).mp hcov
      exact ⟨hroomy.1, hroomy.2, l, hl, inUse_of_spells (hrec d hlt) hlt hmounted hlocal
        (denotes_has hl) hspell, hspell⟩
    · cases hd
  constructor
  · rintro ⟨-, hfound, -⟩ l hl ⟨d, hd⟩
    obtain ⟨e, he⟩ := Option.isSome_iff_exists.mp (hfound l d hl hd)
    obtain ⟨hmem, hroomy, l', hl', hin, hspell⟩ := hgiven e he
    rw [hl] at hl'
    cases hl'
    exact ⟨hmem, hroomy, e, hin, hspell⟩
  · intro hsight
    refine ⟨fun d hd => ?_, fun l d hl hd => ?_, rfl⟩
    · obtain ⟨-, -, l, hl, hin, -⟩ := hgiven d hd
      exact ⟨l, hl, hin⟩
    · obtain ⟨hmem, hroomy, e, hin, hspell⟩ := hsight l hl ⟨d, hd⟩
      have hname : v.card.sdCanonical mem abs canonCap = some (joinSlash l) := by
        rw [hcanon, if_pos ⟨hmem, hroomy⟩, hl]
        rfl
      rw [Disk.diskChangeBegin, Disk.changeBegin, hname, Option.bind_some]
      exact inTheWay_isSome (hrec e hin.1) (denotes_has hl) hin hspell

/-- A folder with an image that has a long name. -/
def arcade : Contents where
  entries := [([], ⟨"Games".toList, "GAMES".toList⟩),
    (["GAMES".toList], ⟨"LongName.dsk".toList, "LONGNA~1.DSK".toList⟩)]
  regular l := l == ["GAMES".toList, "LONGNA~1.DSK".toList]
  plain := by decide
  dots := by decide
  one := by decide
  root := by decide

/-- The card with the folder, when memory can be had and when it cannot. -/
def arcadeOutside (mem : Bool) : Outside where
  sdMounted := true
  file p := (arcade.volume.card.find p).bind fun l =>
    if arcade.volume.regular l then some (arcade.volume.file l) else none
  canon p := arcade.volume.card.sdCanonical mem p canonCap
  url _ := none
  size _ := 0

theorem shown_arcade (mem : Bool) : arcade.volume.Shown (arcadeOutside mem) :=
  ⟨fun _ => rfl, fun _ => mem, fun _ => rfl⟩

/-- The image is mounted as typed. -/
def playing (mem : Bool) : DeskAct :=
  .mount .serial (arcadeOutside mem) 0 [] "games/LongName.dsk".toList 0 none true

def played (mem : Bool) : Option Desk := Desk.fresh.step (playing mem)

theorem reach_played (mem : Bool) (h : (played mem).isSome = true) :
    Desk.tables.Reach arcade.volume.OnCard ((played mem).get h) :=
  ⟨Desk.fresh, fun _ => rfl, .single ⟨playing mem, shown_arcade mem, (Option.some_get h).symm⟩⟩

theorem played_some (mem : Bool) : (played mem).isSome = true := by cases mem <;> decide +kernel

/-- The table after it. -/
def board (mem : Bool) : Desk := (played mem).get (played_some mem)

/-- The place of the image. -/
def cabinet : Loc := ["GAMES".toList, "LONGNA~1.DSK".toList]

theorem inUse_board (mem : Bool) : arcade.volume.InUse (board mem).disk cabinet 0 := by
  refine ⟨by decide, cabinet, ⟨?_, ?_, ⟨cabinet, by decide⟩⟩, List.prefix_refl _⟩
  · cases mem <;> decide +kernel
  · cases mem <;> decide +kernel

/-- A path to it with dots, in other case. -/
def winding : CStr := "/sd/./GAMES//../games/LONGNAME.DSK".toList

theorem denotes_winding : arcade.volume.card.denotes winding = some cabinet := by decide +kernel

/-- Mounted with memory to be had, the image is seen along the winding path. -/
theorem change_begin_right_winding : arcade.volume.Right (board true).disk true winding := by
  refine (change_begin_right (reach_played true (played_some true)) (fun _ => by decide +kernel)).mpr
    fun l hl _ => ?_
  cases denotes_winding.symm.trans hl
  exact ⟨rfl, by decide +kernel, 0, inUse_board true, by decide +kernel⟩

/-- An answer of -1 for a path to the image. -/
theorem not_right {mem mem' : Bool} {abs : CStr} (hpath : arcade.volume.card.denotes abs = some cabinet)
    (hnone : ((board mem).disk.diskChangeBegin arcade.volume.card mem' abs).1 = none) :
    ¬arcade.volume.Right (board mem).disk mem' abs := by
  intro h
  have hsome := h.found cabinet 0 hpath (inUse_board mem)
  rw [hnone] at hsome
  cases hsome

/-- The mounted image may be changed: by any path when memory fails at the change; by its long name when
    memory failed at the mount and the name was recorded as typed there, so the short name is not seen
    to be it; and by a path with a backslash. -/
theorem change_begin_blind :
    Desk.tables.Reach arcade.volume.OnCard (board true) ∧
      ¬arcade.volume.Right (board true).disk false winding ∧
    ¬arcade.volume.Right (board true).disk true "/sd/games\\LongName.dsk".toList ∧
    Desk.tables.Reach arcade.volume.OnCard (board false) ∧
    ¬arcade.volume.Right (board false).disk true "/sd/games/LongName.dsk".toList :=
  ⟨reach_played true (played_some true), not_right denotes_winding (by decide +kernel),
    not_right (by decide +kernel) (by decide +kernel), reach_played false (played_some false),
    not_right (by decide +kernel) (by decide +kernel)⟩

end Volume

end FdcSds
