import FdcSds.Config.Store
import FdcSds.Disk.Installs
import FdcSds.Sd.Vfs

/-! Mounts from one console, saved and found again after a reboot (`cmd_mount`, `disk_mount`,
    `config_set_drive`, `disk_automount`).

    A name passes through the slot's and the configuration's buffers, and through NVS. The card and the
    servers stay what they are; a local open may still fail for want of memory. A command is one step,
    and so is the worker opening the session of a drive that wants one. A save is one that succeeds.

        mount  ──▶ slot and config ──save──▶ NVS ──reboot──▶ config ──disk_automount──▶ slot
                    (128 bytes each)                                   WiFi up: sessions       -/

namespace FdcSds
open Schemes Schemes.Runs

/-- What is outside the device: the card's files by path, the servers' files by URL. -/
structure Outside where
  sdMounted : Bool
  file : CStr → Option ℕ
  canon : CStr → Option CStr
  url : CStr → Option ℕ
  size : ImageId → UInt32

structure Station where
  disk : Disk
  live : LiveConfig
  flash : Nvs
  wifi : Bool

/-- What a console says about a drive. -/
inductive Report where
  | mounted (name : CStr)
  | empty
  | invalid
  | unmounted
  | quiet
  deriving DecidableEq

inductive StationAct where
  | mount (drive : Fin configMaxDrive) (cwd name : CStr) (b : ℕ) (fate : Option EspErr)
  | unmount (drive : Fin configMaxDrive)
  | save
  | reboot
  | linkUp
  | linkDown
  | attach (drive : Fin configMaxDrive) (b : ℕ) (readonly : Bool)

namespace Outside

variable (o : Outside)

/-- `local_open`: the file behind the name. -/
def localOpen (name : CStr) : Except EspErr ℕ :=
  match sdPath name (16 + configFileCap) with
  | none => .error .invalidArg
  | some path => match o.file path with | some n => .ok n | none => .error .notFound

/-- `sd_canonical`, or the name as typed. -/
def canonOf (name : CStr) : CStr :=
  ((sdPath name (16 + configFileCap)).bind o.canon).getD (strlcpy (2 * configFileCap) name)

/-- The image a name or a URL means. -/
def image (q : CStr) : Option ImageId :=
  if tnfsIsUrl q then (o.url q).map .tnfs
  else if o.sdMounted then (match o.localOpen q with | .ok n => some (.sd n) | .error _ => none) else none

/-- A new backing for this image. -/
def opened (w : Disk) (b : ℕ) (i : ImageId) : Disk :=
  { w with heap := Function.update w.heap b ⟨i, o.size i⟩ }

/-- `disk_mount`; `fate` is the error of an open that fails though the file is there, or of a remote
    mount that was tried and failed. -/
def diskMount (w : Disk) (drive : ℕ) (name : CStr) (b : ℕ) (fate : Option EspErr) :
    Disk × Except EspErr Unit :=
  if !driveOk drive || name.isEmpty then (w, .error .invalidArg)
  else if tnfsIsUrl name then (w.configure drive name, match fate with | some e => .error e | none => .ok ())
  else if !o.sdMounted then (w.unmount drive, .error .invalidState)
  else match fate, o.localOpen name with
    | some e, _ | none, .error e => (w.unmount drive, .error e)
    | none, .ok n => ((o.opened w b (.sd n)).mountLocal drive name (o.canonOf name) b, .ok ())

/-- `qualify`: the batch folder in front of the name. -/
def qualify (cwd name : CStr) : Option CStr :=
  let q := if cwd.isEmpty then name else cwd ++ '/' :: name
  if q.length < 2 * configFileCap then some q else none

/-- `cmd_mount` with its arguments. -/
def cmdMount (s : Station) (drive : Fin configMaxDrive) (cwd name : CStr) (b : ℕ) (fate : Option EspErr) :
    Station × Report :=
  if tnfsIsUrl name then
    ({ s with
      disk := (o.diskMount s.disk drive name b fate).1
      live := s.live.configSetDrive drive.1 (some name) }, .mounted name)
  else match qualify cwd name with
    | none => (s, .invalid)
    | some q =>
      match o.diskMount s.disk drive q b fate with
      | (w, .error _) => ({ s with disk := w, live := s.live.configSetDrive drive.1 none }, .empty)
      | (w, .ok ()) => ({ s with disk := w, live := s.live.configSetDrive drive.1 (some q) }, .mounted q)

/-- `cmd_unmount`: nothing to do, and nothing said, for a drive that is not mounted. -/
def cmdUnmount (s : Station) (drive : Fin configMaxDrive) : Station × Report :=
  if !s.disk.diskIsMounted drive then (s, .quiet)
  else ({ s with disk := s.disk.unmount drive, live := s.live.configSetDrive drive.1 none }, .unmounted)

/-- `config_save`. -/
def configSave (s : Station) : Station :=
  { s with live := { s.live with dirty := false }, flash := fun k => some (s.live.cfg.value k) }

/-- One iteration of `disk_automount`. -/
def automountOne (cfg : Config) (w : Disk) (i : Fin configMaxDrive) : Disk :=
  let name := (cfg.drive i).1
  let dr := w.drv i
  if name.isEmpty then w
  else if tnfsIsUrl name then
    let dr := { dr with
      remote := true
      mounted := false
      readonly := false
      name := strlcpy configFileCap name }
    { w with drv := Function.update w.drv i dr }
  else (o.diskMount w i name i none).1

def drives : List (Fin configMaxDrive) := [0, 1, 2, 3]

/-- `disk_automount`. -/
def diskAutomount (cfg : Config) (w : Disk) : Disk := drives.foldl (o.automountOne cfg) w

/-- The worker opens the session of a drive that wants one (`worker_mount`). -/
def attach (w : Disk) (drive : ℕ) (b : ℕ) (readonly : Bool) : Option Disk :=
  match w.workerWants drive with
  | some url =>
    match o.url url with
    | some n => (o.opened w b (.tnfs n)).workerInstall drive url b readonly
    | none => none
  | none => none

/-- `disk_remote_mount_all`, and the worker after it. -/
def remoteMountAll (w : Disk) : Disk := drives.foldl (fun w i => (o.attach w i i false).getD w) w

/-- Nothing in the table. -/
def coldStart (w : Disk) : Disk := { w with drv := fun _ => .empty, cache := ⟨false, 0, 0, 0⟩ }

/-- A reboot, up to WiFi. -/
def boot (s : Station) : Station :=
  { s with
    disk := o.diskAutomount (configInit s.flash).cfg (coldStart s.disk)
    live := configInit s.flash
    wifi := false }

/-- No drive uses this backing. -/
def Free (w : Disk) (b : ℕ) : Prop := ∀ d : Fin configMaxDrive, (w.drv d).backing ≠ some b

instance (w : Disk) (b : ℕ) : Decidable (Free w b) := by unfold Free; infer_instance

def step (s : Station) : StationAct → Option Station
  -- a folder's name on the card has no colon
  | .mount drive cwd name b fate => when (Free s.disk b ∧ ':' ∉ cwd) (o.cmdMount s drive cwd name b fate).1
  | .unmount drive => some (cmdUnmount s drive).1
  | .save => some (configSave s)
  | .reboot => some (o.boot s)
  | .linkUp => some { s with wifi := true }
  | .linkDown => some { s with disk := s.disk.sweep.1, wifi := false }
  | .attach drive b readonly =>
    if s.wifi ∧ Free s.disk b then (o.attach s.disk drive b readonly).map fun w =>
      { s with disk := w } else none

/-- A blank device, booted. -/
def Start (s : Station) : Prop :=
  (∀ d, s.disk.drv d = .empty) ∧ s.live = configInit s.flash ∧
    (∀ d, s.flash (.drive d) = none) ∧ s.wifi = false

def machine : Machine Station StationAct := ⟨Start, o.step⟩

end Outside

/-! ### What a drive shows -/

/-- The image a drive serves. -/
def Disk.served (w : Disk) (d : ℕ) : Option ImageId :=
  if (w.drv d).mounted then (w.drv d).backing.map fun b => (w.heap b).image else none

namespace Outside

variable (o : Outside)

/-- The drive has this name, and serves its image as soon as it is mounted; a file is mounted. -/
structure Holds (w : Disk) (d : ℕ) (q : CStr) : Prop where
  name : (w.drv d).name = q
  remote : (w.drv d).remote = tnfsIsUrl q
  ready : tnfsIsUrl q = false → (w.drv d).mounted = true
  image : (w.drv d).mounted = true → w.served d = o.image q ∧ (o.image q).isSome

/-- The drive is what the console said of it last. -/
def Shows (w : Disk) (d : ℕ) : Option CStr → Prop
  | none => (w.drv d).mounted = false ∧ (w.drv d).remote = false
  | some q => o.Holds w d q

variable {o} {w w' : Disk} {d b : ℕ} {m : Option CStr} {q : CStr}

theorem served_congr (hdrv : w'.drv d = w.drv d)
    (hheap : ∀ b, (w.drv d).backing = some b → w'.heap b = w.heap b) :
    w'.served d = w.served d := by
  unfold Disk.served
  rw [hdrv]
  cases hb : (w.drv d).backing with
  | none => rfl
  | some b => rw [Option.map_some, Option.map_some, hheap b hb]

/-- A change elsewhere leaves what the drive shows. -/
theorem Shows.congr (h : o.Shows w d m) (hdrv : w'.drv d = w.drv d)
    (hheap : ∀ b, (w.drv d).backing = some b → w'.heap b = w.heap b) : o.Shows w' d m := by
  cases m with
  | none =>
    unfold Shows at h ⊢
    rwa [hdrv]
  | some q =>
    obtain ⟨hname, hremote, hready, himage⟩ := h
    constructor
    · rwa [hdrv]
    · rwa [hdrv]
    · rwa [hdrv]
    · rwa [hdrv, served_congr hdrv hheap]

/-- A new backing that no drive uses. -/
theorem Shows.opened (h : o.Shows w d m) (hfree : (w.drv d).backing ≠ some b) (i : ImageId) :
    o.Shows (o.opened w b i) d m := by
  refine h.congr rfl fun c hc => Function.update_of_ne ?_ ..
  rintro rfl
  exact hfree hc

/-- The other drives do not see a slot set. -/
theorem Shows.setDrive (h : o.Shows w d m) {e : ℕ} (hne : d ≠ e) (new : Drive) :
    o.Shows (w.setDrive e new) d m := by
  refine h.congr ?_ fun _ _ => by rw [Disk.setDrive_heap]
  rw [Disk.setDrive_drv, Function.update_of_ne hne]

theorem shows_unmount (w : Disk) (d : ℕ) : o.Shows (w.unmount d) d none := by
  unfold Shows Disk.unmount
  rw [Disk.setDrive_drv, Function.update_self]
  exact ⟨rfl, rfl⟩

/-- A slot set up for a URL, with no session yet. -/
theorem shows_remote {c : CStr} (hurl : tnfsIsUrl q = true)
    (hdrv : w.drv d = ⟨false, true, false, q, c, none⟩) : o.Shows w d (some q) := by
  constructor
  · rw [hdrv]
  · rw [hdrv, hurl]
  · intro hno
    rw [hurl] at hno
    cases hno
  · rw [hdrv]
    rintro ⟨⟩

theorem shows_configure (hurl : tnfsIsUrl q = true) (hfit : q.length < configFileCap) (w : Disk) (d : ℕ) :
    o.Shows (w.configure d q) d (some q) := by
  refine shows_remote (c := []) hurl ?_
  rw [Disk.configure, Disk.setDrive_drv, Function.update_self, strlcpy_of_lt hfit]

theorem shows_mountLocal {n : ℕ} (hurl : tnfsIsUrl q = false) (hfit : q.length < configFileCap)
    (hsd : o.sdMounted = true) (hopen : o.localOpen q = .ok n) (w : Disk) (d : ℕ) (canon : CStr) (b : ℕ) :
    o.Shows ((o.opened w b (.sd n)).mountLocal d q canon b) d (some q) := by
  have hdrv : ((o.opened w b (.sd n)).mountLocal d q canon b).drv d =
      ⟨true, false, false, q, strlcpy (2 * configFileCap) canon, some b⟩ := by
    rw [Disk.mountLocal, Disk.setDrive_drv, Function.update_self, strlcpy_of_lt hfit]
  have himage : o.image q = some (.sd n) := by simp [image, hurl, hsd, hopen]
  constructor
  · rw [hdrv]
  · rw [hdrv, hurl]
  · intro _
    rw [hdrv]
  · intro _
    refine ⟨?_, by rw [himage]; rfl⟩
    rw [himage, Disk.served, hdrv]
    simp [Disk.mountLocal, opened]

/-! ### `disk_mount` -/

/-- The other drives do not see a mount. -/
theorem Shows.diskMount (h : o.Shows w d m) {e : ℕ} (hne : d ≠ e) (hfree : (w.drv d).backing ≠ some b)
    (q : CStr) (fate : Option EspErr) : o.Shows (o.diskMount w e q b fate).1 d m := by
  unfold Outside.diskMount
  repeat' split
  · exact h
  -- a new backing is opened only where the file is there
  all_goals first | exact h.setDrive hne _ | exact (h.opened hfree _).setDrive hne _

theorem diskMount_url (hd : driveOk d = true) (hurl : tnfsIsUrl q = true) (fate : Option EspErr) :
    (o.diskMount w d q b fate).1 = w.configure d q := by
  have hne : q.isEmpty = false := by
    cases q with
    | nil => cases hurl
    | cons => rfl
  simp [diskMount, hd, hne, hurl]

theorem image_of_file (hurl : tnfsIsUrl q = false) :
    (o.image q).isSome = true ↔ o.sdMounted = true ∧ ∃ n, o.localOpen q = .ok n := by
  cases hsd : o.sdMounted <;> cases hopen : o.localOpen q <;> simp [image, hurl, hsd, hopen]

theorem diskMount_file {n : ℕ} (hd : driveOk d = true) (hne : q ≠ []) (hurl : tnfsIsUrl q = false)
    (hsd : o.sdMounted = true) (hopen : o.localOpen q = .ok n) :
    o.diskMount w d q b none = ((o.opened w b (.sd n)).mountLocal d q (o.canonOf q) b, .ok ()) := by
  have hempty : q.isEmpty = false := by simpa using hne
  simp [diskMount, hd, hempty, hurl, hsd, hopen]

/-- A file: the drive shows it, or nothing. -/
theorem diskMount_local (hd : driveOk d = true) (hne : q ≠ []) (hurl : tnfsIsUrl q = false)
    (hfit : (sdPath q (16 + configFileCap)).isSome → q.length < configFileCap) (fate : Option EspErr) :
    (∃ e, o.diskMount w d q b fate = (w.unmount d, .error e)) ∨
      ((o.diskMount w d q b fate).2 = .ok () ∧ o.Shows (o.diskMount w d q b fate).1 d (some q) ∧
        q.length < configFileCap ∧ (o.image q).isSome) := by
  have hempty : q.isEmpty = false := by simpa using hne
  by_cases hfound : fate = none ∧ (o.image q).isSome = true
  · obtain ⟨rfl, himage⟩ := hfound
    obtain ⟨hsd, n, hopen⟩ := (image_of_file hurl).mp himage
    have hpath : (sdPath q (16 + configFileCap)).isSome := by
      unfold localOpen at hopen
      split at hopen
      · cases hopen
      · next hpath => rw [hpath]; rfl
    rw [diskMount_file hd hne hurl hsd hopen]
    exact .inr ⟨rfl, shows_mountLocal hurl (hfit hpath) hsd hopen w d _ b, hfit hpath, himage⟩
  · refine .inl ?_
    rw [image_of_file hurl] at hfound
    cases hsd : o.sdMounted with
    | false => exact ⟨.invalidState, by simp [diskMount, hd, hempty, hurl, hsd]⟩
    | true =>
      cases fate with
      | some e => exact ⟨e, by simp [diskMount, hd, hempty, hurl, hsd]⟩
      | none =>
        cases hopen : o.localOpen q with
        | error e => exact ⟨e, by simp [diskMount, hd, hempty, hurl, hsd, hopen]⟩
        | ok n => exact absurd ⟨rfl, hsd, n, hopen⟩ hfound

/-! ### The configured names -/

theorem configSetDrive_drive {live : LiveConfig} {v : Option CStr} (hfit : (v.getD []).length < configFileCap)
    (d e : Fin configMaxDrive) : ((live.configSetDrive d.1 v).cfg.drive e).1 =
      if e = d then v.getD [] else (live.cfg.drive e).1 := by
  have hbound : (0 : ℤ) ≤ d.1 ∧ (d.1 : ℤ).toNat < configMaxDrive := ⟨Int.natCast_nonneg _, by simp⟩
  have htake : (v.getD []).take configFileCap = v.getD [] := List.take_of_length_le (by omega)
  rw [LiveConfig.configSetDrive, dif_pos hbound]
  have hd : (⟨(d.1 : ℤ).toNat, hbound.2⟩ : Fin configMaxDrive) = d := by simp
  simp only [hd, LiveConfig.assignText, LiveConfig.assign, htake]
  by_cases hsame : (live.cfg.drive d).1 = v.getD []
  · rw [if_neg (by simpa using hsame)]
    by_cases he : e = d
    · rw [if_pos he, he, hsame]
    · rw [if_neg he]
  · rw [if_pos hsame]
    by_cases he : e = d
    · subst he
      simp [Text.copy, strlcpy_of_lt hfit]
    · simp [he]

/-! ### Folds over the drives -/

theorem mem_drives : ∀ i, i ∈ drives := by decide

/-- The slot and the backing of this number are as they were. -/
def Alike (j : Fin configMaxDrive) (w w' : Disk) : Prop := w'.drv j = w.drv j ∧ w'.heap j = w.heap j

/-- A pass over the drives that at each touches its slot and its backing only. -/
theorem foldl_drives {f : Disk → Fin configMaxDrive → Disk} {P Q : Fin configMaxDrive → Disk → Prop}
    (hframe : ∀ w i, P i w → ∀ j ≠ i, Alike j w (f w i)) (hpre : ∀ j w w', Alike j w w' → P j w → P j w')
    (hpost : ∀ j w w', Alike j w w' → Q j w → Q j w') (hstep : ∀ w i, P i w → Q i (f w i)) :
    ∀ {l : List (Fin configMaxDrive)} {w : Disk}, l.Nodup → (∀ j ∈ l, P j w) →
      (∀ j ∈ l, Q j (l.foldl f w)) ∧ ∀ j ∉ l, Alike j w (l.foldl f w)
  | [], w, _, _ => ⟨by rintro j ⟨⟩, fun _ _ => ⟨rfl, rfl⟩⟩
  | i :: l, w, hnodup, hall => by
    obtain ⟨hi, hl⟩ := List.nodup_cons.mp hnodup
    have hfirst := hframe w i (hall i List.mem_cons_self)
    have hrest : ∀ j ∈ l, P j (f w i) := by
      intro j hj
      have hne : j ≠ i := by
        rintro rfl
        exact hi hj
      exact hpre j w _ (hfirst j hne) (hall j (List.mem_cons_of_mem _ hj))
    obtain ⟨hdone, hleft⟩ := foldl_drives hframe hpre hpost hstep hl hrest
    refine ⟨fun j hj => ?_, fun j hj => ?_⟩
    · rcases List.mem_cons.mp hj with rfl | hj
      · exact hpost j _ _ (hleft j hi) (hstep w j (hall j List.mem_cons_self))
      · exact hdone j hj
    · rw [List.mem_cons, not_or] at hj
      obtain ⟨hdrv, hheap⟩ := hfirst j hj.1
      obtain ⟨hdrv', hheap'⟩ := hleft j hj.2
      exact ⟨hdrv'.trans hdrv, hheap'.trans hheap⟩

/-- The drive shows `m`, through no other backing than that of its own number. -/
structure Settled (o : Outside) (j : Fin configMaxDrive) (m : Option CStr) (w : Disk) : Prop where
  shows : o.Shows w j m
  own : ∀ b, (w.drv j).backing = some b → b = j

theorem Settled.alike {j : Fin configMaxDrive} (h : Settled o j m w) (hsame : Alike j w w') :
    Settled o j m w' := by
  obtain ⟨hdrv, hheap⟩ := hsame
  refine ⟨h.shows.congr hdrv fun b hb => ?_, fun b hb => ?_⟩
  · rw [h.own b hb, hheap]
  · rw [hdrv] at hb
    exact h.own b hb

/-- What a stored name has to be: whole, and a URL or the name of a file on the card. -/
def Fits (o : Outside) (q : CStr) : Prop :=
  q ≠ [] ∧ q.length < configFileCap ∧ (tnfsIsUrl q = false → (o.image q).isSome)

theorem driveOk_fin (d : Fin configMaxDrive) : driveOk d = true := decide_eq_true d.2

/-- `disk_automount` at a drive whose slot is empty. -/
theorem automountOne_settled {cfg : Config} {i : Fin configMaxDrive}
    (hcfg : (cfg.drive i).1 = m.getD []) (hm : ∀ q, m = some q → Fits o q) (hempty : w.drv i = .empty) :
    Settled o i m (o.automountOne cfg w i) := by
  cases m with
  | none =>
    have hsame : o.automountOne cfg w i = w := by
      rw [automountOne, if_pos (by simpa using hcfg)]
    rw [hsame]
    refine ⟨?_, fun b hb => ?_⟩
    · rw [Shows, hempty]
      exact ⟨rfl, rfl⟩
    · rw [hempty] at hb
      cases hb
  | some q =>
    obtain ⟨hne, hfit, himage⟩ := hm q rfl
    have hname : (cfg.drive i).1 = q := hcfg
    cases hurl : tnfsIsUrl q with
    | true =>
      have hdrv : (o.automountOne cfg w i).drv i = ⟨false, true, false, q, [], none⟩ := by
        simp [automountOne, hname, hne, hurl, hempty, strlcpy_of_lt hfit, Drive.empty]
      refine ⟨shows_remote hurl hdrv, fun b hb => ?_⟩
      rw [hdrv] at hb
      cases hb
    | false =>
      obtain ⟨hsd, n, hopen⟩ := (image_of_file hurl).mp (himage hurl)
      have hmounted : o.automountOne cfg w i = (o.opened w i (.sd n)).mountLocal i q (o.canonOf q) i := by
        simp [automountOne, hname, hne, hurl, diskMount_file (driveOk_fin i) hne hurl hsd hopen]
      rw [hmounted]
      refine ⟨shows_mountLocal hurl hfit hsd hopen w i _ i, fun b hb => ?_⟩
      rw [Disk.mountLocal, Disk.setDrive_drv, Function.update_self] at hb
      exact (Option.some.inj hb).symm

theorem alike_refl (j : Fin configMaxDrive) (w : Disk) : Alike j w w := ⟨rfl, rfl⟩

theorem alike_setDrive {i j : Fin configMaxDrive} (hne : j ≠ i) (w : Disk) (new : Drive) :
    Alike j w (w.setDrive i new) := by
  refine ⟨?_, by rw [Disk.setDrive_heap]⟩
  rw [Disk.setDrive_drv, Function.update_of_ne (fun h => hne (Fin.ext h))]

theorem alike_opened {i j : Fin configMaxDrive} (hne : j ≠ i) (w : Disk) (image : ImageId) :
    Alike j w (o.opened w i image) :=
  ⟨rfl, Function.update_of_ne (fun h => hne (Fin.ext h)) ..⟩

theorem Alike.trans {j : Fin configMaxDrive} {w₁ w₂ w₃ : Disk} (h : Alike j w₁ w₂)
    (h' : Alike j w₂ w₃) : Alike j w₁ w₃ :=
  ⟨h'.1.trans h.1, h'.2.trans h.2⟩

theorem automountOne_alike (cfg : Config) (w : Disk) {i j : Fin configMaxDrive} (hne : j ≠ i) :
    Alike j w (o.automountOne cfg w i) := by
  unfold automountOne
  dsimp only
  split
  · exact alike_refl j w
  split
  · exact ⟨Function.update_of_ne (fun h => hne (Fin.ext h)) .., rfl⟩
  · unfold Outside.diskMount
    repeat' split
    · exact alike_refl j w
    all_goals
      first
      | exact alike_setDrive hne w _
      | exact (alike_opened hne w _).trans (alike_setDrive hne _ _)

/-- After `disk_automount` every drive shows its configured name. -/
theorem diskAutomount_settled {cfg : Config} {named : Fin configMaxDrive → Option CStr}
    (hcfg : ∀ i, (cfg.drive i).1 = (named i).getD []) (hnamed : ∀ i q, named i = some q → Fits o q)
    (hempty : ∀ i : Fin configMaxDrive, w.drv i = .empty) (i : Fin configMaxDrive) :
    Settled o i (named i) (o.diskAutomount cfg w) := by
  refine (foldl_drives (l := drives) (P := fun i w => w.drv i = .empty)
    (Q := fun i w => Settled o i (named i) w)
    (fun w i _ j hne => automountOne_alike cfg w hne) (fun j w w' hsame hw => hsame.1.trans hw)
    (fun j w w' hsame h => h.alike hsame) (fun w i hw => automountOne_settled (hcfg i) (hnamed i) hw)
      (by decide)
    fun j _ => hempty j).1 i (mem_drives i)

/-! ### The worker and the WiFi hook -/

theorem served_of_unmounted (h : (w.drv d).mounted = false) : w.served d = none := by
  rw [Disk.served, h]
  rfl

/-- The session of a drive that wants one and whose server answers. -/
theorem attach_some {n : ℕ} {readonly : Bool} (hd : driveOk d = true) (h : o.Holds w d q) (hfit : Fits o q)
    (hmounted : (w.drv d).mounted = false) (hserver : o.url q = some n) :
    o.attach w d b readonly = some ((o.opened w b (.tnfs n)).setDrive d
      { w.drv d with backing := some b, mounted := true, readonly := readonly }) := by
  obtain ⟨hne, hlen, -⟩ := hfit
  have hurl : tnfsIsUrl q = true := by
    by_contra hno
    rw [h.ready (by simpa using hno)] at hmounted
    cases hmounted
  have hremote := h.remote.trans hurl
  have hwants : w.workerWants d = some q := by
    simp [Disk.workerWants, hd, hremote, hmounted, h.name, hne, strlcpy_of_lt hlen]
  simp [attach, hwants, hserver, Disk.workerInstall, opened, hd, hremote, hmounted, h.name]

/-- What else `attach` finds: nothing to do. -/
theorem attach_none {readonly : Bool} (h : o.Shows w d m) (hm : ∀ q, m = some q → Fits o q)
    (hno : ∀ q, m = some q → (w.drv d).mounted = false → o.url q = none) :
    o.attach w d b readonly = none := by
  cases m with
  | none =>
    have hwants : w.workerWants d = none := by simp [Disk.workerWants, h.2]
    simp [attach, hwants]
  | some q =>
    cases hmounted : (w.drv d).mounted with
    | true =>
      have hwants : w.workerWants d = none := by simp [Disk.workerWants, hmounted]
      simp [attach, hwants]
    | false =>
      have hname : strlcpy configFileCap (w.drv d).name = q := by
        rw [Holds.name h, strlcpy_of_lt (hm q rfl).2.1]
      unfold attach
      split
      · next url hwants =>
        have hurl : url = q := by
          simp only [Disk.workerWants] at hwants
          split at hwants
          · rw [← hname]
            exact (Option.some.inj hwants).symm
          · cases hwants
        rw [hurl, hno q rfl hmounted]
      · rfl

theorem holds_attached {n : ℕ} {r : Bool} (h : o.Holds w d q) (hurl : tnfsIsUrl q = true)
    (hserver : o.url q = some n) : o.Holds ((o.opened w b (.tnfs n)).setDrive d
      { w.drv d with backing := some b, mounted := true, readonly := r }) d q := by
  have himage : o.image q = some (.tnfs n) := by simp [image, hurl, hserver]
  constructor
  · rw [Disk.setDrive_drv, Function.update_self]
    exact h.name
  · rw [Disk.setDrive_drv, Function.update_self]
    exact h.remote
  · intro _
    rw [Disk.setDrive_drv, Function.update_self]
  · intro _
    rw [himage, Disk.served, Disk.setDrive_drv, Function.update_self]
    simp [opened]

/-- The drive serves what it was said to. -/
theorem served_of_shows (h : o.Shows w d m)
    (hdone : ∀ q, m = some q → (w.drv d).mounted = false → o.image q = none) :
    w.served d = m.bind o.image := by
  cases m with
  | none => exact served_of_unmounted h.1
  | some q =>
    cases hmounted : (w.drv d).mounted with
    | true => exact (Holds.image h hmounted).1
    | false => rw [served_of_unmounted hmounted, Option.bind_some, hdone q rfl hmounted]

theorem url_of_waiting (h : o.Holds w d q) (hmounted : (w.drv d).mounted = false) :
    tnfsIsUrl q = true ∧ (o.url q = none → o.image q = none) := by
  have hurl : tnfsIsUrl q = true := by
    by_contra hno
    rw [h.ready (by simpa using hno)] at hmounted
    cases hmounted
  exact ⟨hurl, fun hserver => by simp [image, hurl, hserver]⟩

/-- The worker at one drive. -/
theorem attach_settled {i : Fin configMaxDrive} (h : Settled o i m w) (hm : ∀ q, m = some q → Fits o q) :
    Settled o i m ((o.attach w i i false).getD w) ∧
      ((o.attach w i i false).getD w).served i = m.bind o.image := by
  by_cases hgain : ∃ q n, m = some q ∧ (w.drv i).mounted = false ∧ o.url q = some n
  · obtain ⟨q, n, rfl, hmounted, hserver⟩ := hgain
    have hholds : o.Holds w i q := h.shows
    have hnew := holds_attached (b := i) (r := false) hholds (url_of_waiting hholds hmounted).1 hserver
    rw [attach_some (driveOk_fin i) hholds (hm q rfl) hmounted hserver, Option.getD_some]
    refine ⟨⟨hnew, fun b hb => ?_⟩, ?_⟩
    · rw [Disk.setDrive_drv, Function.update_self] at hb
      exact (Option.some.inj hb).symm
    · exact (hnew.image (by rw [Disk.setDrive_drv, Function.update_self])).1
  · have hno : ∀ q, m = some q → (w.drv i).mounted = false → o.url q = none := by
      intro q hq hmounted
      by_contra hserver
      obtain ⟨n, hn⟩ := Option.ne_none_iff_exists'.mp hserver
      exact hgain ⟨q, n, hq, hmounted, hn⟩
    rw [attach_none h.shows hm hno, Option.getD_none]
    refine ⟨h, served_of_shows h.shows fun q hq hmounted => ?_⟩
    subst hq
    exact (url_of_waiting h.shows hmounted).2 (hno q rfl hmounted)

theorem attach_alike {i j : Fin configMaxDrive} (hne : j ≠ i) (w : Disk) :
    Alike j w ((o.attach w i i false).getD w) := by
  unfold attach
  split
  · split
    · unfold Disk.workerInstall
      dsimp only
      split
      · exact (alike_opened hne w _).trans (alike_setDrive hne _ _)
      · exact alike_refl j w
    · exact alike_refl j w
  · exact alike_refl j w

/-- After the WiFi hook every drive serves what it was said to. -/
theorem remoteMountAll_served {named : Fin configMaxDrive → Option CStr} (h : ∀ i, Settled o i (named i) w)
    (hnamed : ∀ i q, named i = some q → Fits o q) (i : Fin configMaxDrive) :
    (o.remoteMountAll w).served i = (named i).bind o.image := by
  refine (foldl_drives (l := drives) (P := fun i w => Settled o i (named i) w)
    (Q := fun i w => Settled o i (named i) w ∧ w.served i = (named i).bind o.image)
    (fun w i _ j hne => attach_alike hne w) (fun j w w' hsame h => h.alike hsame) (fun j w w' hsame h => ?_)
    (fun w i h => attach_settled h (hnamed i)) (by decide) fun j _ => h j).1 i (mem_drives i) |>.2
  refine ⟨h.1.alike hsame, (served_congr hsame.1 fun b hb => ?_).trans h.2⟩
  rw [h.1.own b hb, hsame.2]

/-! ### The run -/

/-- What the console said of each drive last, and what it had said when the configuration was saved. -/
structure Notes where
  named : Fin configMaxDrive → Option CStr
  saved : Fin configMaxDrive → Option CStr

def Notes.told (n : Notes) (drive : Fin configMaxDrive) : Report → Notes
  | .mounted q => { n with named := Function.update n.named drive (some q) }
  | .empty | .unmounted => { n with named := Function.update n.named drive none }
  | .invalid | .quiet => n

/-- A reboot goes back to what was saved. -/
def note (o : Outside) (s : Station) (a : StationAct) (n : Notes) : Notes :=
  match a with
  | .mount drive cwd name b fate => n.told drive (o.cmdMount s drive cwd name b fate).2
  | .unmount drive => n.told drive (cmdUnmount s drive).2
  | .save => { n with saved := n.named }
  | .reboot => { n with named := n.saved }
  | .linkUp | .linkDown | .attach _ _ _ => n

/-- The machine with the notes; on a blank device there is nothing to note. -/
def noted (o : Outside) : Machine (Station × Notes) StationAct where
  start x := Start x.1 ∧ x.2 = ⟨fun _ => none, fun _ => none⟩
  step := (o.machine.annotate o.note).step

/-- The name a mount command means: a name in a batch is in the batch's folder. -/
def asked (cwd name : CStr) : CStr := if tnfsIsUrl name || cwd.isEmpty then name else cwd ++ '/' :: name

/-- A mount names something, and a name that is not refused for its length fits the buffers. -/
def Storable (_ : Station × Notes) : StationAct → Prop
  | .mount _ cwd name _ _ =>
    asked cwd name ≠ [] ∧ ((asked cwd name).length < configFileCap ∨
      tnfsIsUrl (asked cwd name) = false ∧ sdPath (asked cwd name) (16 + configFileCap) = none)
  | _ => True

/-- A path in a folder is no URL: a folder's name has no colon. -/
theorem url_in_folder {cwd : CStr} (hne : cwd ≠ []) (hcolon : ':' ∉ cwd) (name : CStr) :
    tnfsIsUrl (cwd ++ '/' :: name) = false := by
  have hslash : '/'.toLower = '/' := by decide
  -- the colon of `tnfs:` would be in the folder, or its slash before the colon
  rcases cwd with _ | ⟨a, _ | ⟨b, _ | ⟨c, _ | ⟨d, _ | ⟨e, rest⟩⟩⟩⟩⟩
  · exact absurd rfl hne
  · simp [tnfsIsUrl, hslash]
  · simp [tnfsIsUrl, hslash]
  · simp [tnfsIsUrl, hslash]
  · simp [tnfsIsUrl, hslash]
  · have he : e.toLower ≠ ':' := by
      intro he
      rw [eq_of_toLower (by decide) he] at hcolon
      simp at hcolon
    simp [tnfsIsUrl, he]

/-- What `qualify` gives is the name the command means, unless that is longer than any path. -/
theorem qualify_asked {cwd name : CStr} (hurl : tnfsIsUrl name = false) (hcolon : ':' ∉ cwd) :
    tnfsIsUrl (asked cwd name) = false ∧
      (qualify cwd name = none ∨ qualify cwd name = some (asked cwd name)) := by
  have hasked : asked cwd name = if cwd.isEmpty then name else cwd ++ '/' :: name := by simp [asked, hurl]
  constructor
  · rw [hasked]
    by_cases hcwd : cwd = []
    · simpa [hcwd] using hurl
    · simpa [hcwd] using url_in_folder hcwd hcolon name
  · rw [qualify, ← hasked]
    by_cases hlen : (asked cwd name).length < 2 * configFileCap
    · exact .inr (if_pos hlen)
    · exact .inl (if_neg hlen)

structure Kept (o : Outside) (x : Station × Notes) : Prop where
  shows : ∀ d : Fin configMaxDrive, o.Shows x.1.disk d (x.2.named d)
  fits : ∀ d q, x.2.named d = some q → Fits o q
  fitsSaved : ∀ d q, x.2.saved d = some q → Fits o q
  cfg : ∀ d, (x.1.live.cfg.drive d).1 = (x.2.named d).getD []
  flash : ∀ d, ((configInit x.1.flash).cfg.drive d).1 = (x.2.saved d).getD []

variable {x x' : Station × Notes} {s : Station} {n : Notes}

/-- A command at one drive, and what it said of it. -/
theorem Kept.command (h : Kept o (s, n)) {drive : Fin configMaxDrive} (v : Option CStr)
    (hv : ∀ q, v = some q → Fits o q) (hmine : o.Shows w drive v)
    (hothers : ∀ d : Fin configMaxDrive, d ≠ drive → o.Shows w d (n.named d)) :
    Kept o ({ s with disk := w, live := s.live.configSetDrive drive.1 v },
      { n with named := Function.update n.named drive v }) := by
  have hlen : (v.getD []).length < configFileCap := by
    cases v with
    | none => decide
    | some q => exact (hv q rfl).2.1
  refine ⟨fun d => ?_, fun d q hq => ?_, h.fitsSaved, fun d => ?_, h.flash⟩
  · by_cases hd : d = drive
    · subst hd
      simpa using hmine
    · simpa [hd] using hothers d hd
  · by_cases hd : d = drive
    · subst hd
      exact hv q (by simpa using hq)
    · exact h.fits d q (by simpa [hd] using hq)
  · rw [configSetDrive_drive hlen]
    by_cases hd : d = drive
    · subst hd
      simp
    · simpa [hd] using h.cfg d

theorem mount_kept (h : Kept o (s, n)) {drive : Fin configMaxDrive} {cwd name : CStr} {b : ℕ}
    {fate : Option EspErr} (hfree : Free s.disk b) (hcolon : ':' ∉ cwd)
    (hok : Storable (s, n) (.mount drive cwd name b fate)) :
    Kept o ((o.cmdMount s drive cwd name b fate).1, n.told drive (o.cmdMount s drive cwd name b fate).2) := by
  obtain ⟨hne, hfit⟩ := hok
  have hothers (q : CStr) (d : Fin configMaxDrive) (hd : d ≠ drive) :
      o.Shows (o.diskMount s.disk drive q b fate).1 d (n.named d) :=
    (h.shows d).diskMount (fun heq => hd (Fin.ext heq)) (hfree d) q fate
  by_cases hurl : tnfsIsUrl name = true
  · have hasked : asked cwd name = name := by simp [asked, hurl]
    rw [hasked] at hne hfit
    have hlen : name.length < configFileCap := hfit.resolve_right fun hno => by
      rw [hurl] at hno
      cases hno.1
    rw [cmdMount, if_pos hurl]
    refine h.command (some name) (fun q hq => ?_) ?_ (hothers name)
    · cases hq
      refine ⟨hne, hlen, fun hno => ?_⟩
      rw [hurl] at hno
      cases hno
    · rw [diskMount_url (driveOk_fin drive) hurl]
      exact shows_configure hurl hlen s.disk drive
  · rw [cmdMount, if_neg hurl]
    obtain ⟨hlocal, hqualify⟩ := qualify_asked (by simpa using hurl) hcolon
    have hpath : (sdPath (asked cwd name) (16 + configFileCap)).isSome →
      (asked cwd name).length < configFileCap := by
      intro hsome
      refine hfit.resolve_right fun hno => ?_
      rw [hno.2] at hsome
      cases hsome
    rcases hqualify with hq | hq
    · rw [hq]
      exact h
    · rw [hq]
      rcases diskMount_local (o := o) (b := b) (w := s.disk) (driveOk_fin drive) hne hlocal hpath fate with
        ⟨e, hfailed⟩ | ⟨hdone, hshows, hlen, himage⟩
      · have hleft (d : Fin configMaxDrive) (hd : d ≠ drive) :
          o.Shows (s.disk.unmount drive) d (n.named d) := by
          have hother := hothers (asked cwd name) d hd
          rwa [hfailed] at hother
        simp only [hfailed]
        exact h.command none (by rintro q ⟨⟩) (shows_unmount ..) hleft
      · cases hmount : o.diskMount s.disk drive (asked cwd name) b fate with
        | mk w r =>
          rw [hmount] at hdone hshows
          simp only at hdone hshows
          subst hdone
          simp only [hmount]
          refine h.command (some (asked cwd name)) (fun q hq => ?_) hshows fun d hd => ?_
          · cases hq
            exact ⟨hne, hlen, fun _ => himage⟩
          · have hother := hothers (asked cwd name) d hd
            rwa [hmount] at hother

theorem sweepOne_drv (w : Disk) (i d : ℕ) : (w.sweepOne i).1.drv d = w.drv d ∨ (w.drv d).remote = true ∧
    (w.sweepOne i).1.drv d = { w.drv d with backing := none, mounted := false, readonly := false } := by
  unfold Disk.sweepOne
  dsimp only
  split
  · next hremote =>
    rw [Bool.and_eq_true] at hremote
    rw [Disk.setDrive_drv]
    by_cases hd : d = i
    · subst hd
      exact .inr ⟨hremote.1, Function.update_self ..⟩
    · exact .inl (Function.update_of_ne hd ..)
  · exact .inl rfl

/-- The sweep closes sessions, and leaves files alone. -/
theorem sweep_remote (ds : List ℕ) (w : Disk) (bs : List ℕ) (d : ℕ) :
    let r := ds.foldl (fun (acc : Disk × List ℕ) i => let q := acc.1.sweepOne i; (q.1, acc.2 ++ q.2)) (w, bs)
    r.1.drv d = w.drv d ∨ (w.drv d).remote = true ∧
      r.1.drv d = { w.drv d with backing := none, mounted := false, readonly := false } := by
  induction ds generalizing w bs with
  | nil => exact .inl rfl
  | cons i ds ih =>
    rw [List.foldl_cons]
    rcases ih (w.sweepOne i).1 (bs ++ (w.sweepOne i).2) with hrest | ⟨hremote, hrest⟩ <;>
      rcases sweepOne_drv w i d with hone | ⟨hremote', hone⟩ <;> rw [hone] at hrest
    · exact .inl hrest
    · exact .inr ⟨hremote', hrest⟩
    · exact .inr ⟨hone ▸ hremote, hrest⟩
    · exact .inr ⟨hremote', hrest⟩

theorem Shows.sweep (h : o.Shows w d m) : o.Shows w.sweep.1 d m := by
  have hheap : w.sweep.1.heap = w.heap := (State.sweep_keeps (List.range diskMaxDrive) w []).1
  rcases sweep_remote (List.range diskMaxDrive) w [] d with hsame | ⟨hremote, hcleared⟩
  · exact h.congr hsame fun b _ => by rw [hheap]
  · have hdrv : w.sweep.1.drv d = { w.drv
      d with backing := none, mounted := false, readonly := false } := hcleared
    cases m with
    | none =>
      rw [h.2] at hremote
      cases hremote
    | some q =>
      have hurl : tnfsIsUrl q = true := (Holds.remote h).symm.trans hremote
      constructor
      · rw [hdrv]
        exact Holds.name h
      · rw [hdrv]
        exact Holds.remote h
      · intro hno
        rw [hurl] at hno
        cases hno
      · rw [hdrv]
        rintro ⟨⟩

theorem attach_kept (h : Kept o (s, n)) {drive : Fin configMaxDrive} {b : ℕ} {readonly : Bool}
    (hfree : Free s.disk b) (hattach : o.attach s.disk drive b readonly = some w) :
    Kept o ({ s with disk := w }, n) := by
  refine ⟨fun d => ?_, h.fits, h.fitsSaved, h.cfg, h.flash⟩
  by_cases hgain : ∃ q i, n.named drive = some q ∧ (s.disk.drv drive).mounted = false ∧ o.url q = some i
  · obtain ⟨q, i, hq, hmounted, hserver⟩ := hgain
    have hholds : o.Holds s.disk drive q := by
      have hshows := h.shows drive
      rwa [show n.named drive = some q from hq] at hshows
    rw [attach_some (driveOk_fin drive) hholds (h.fits drive q hq) hmounted hserver] at hattach
    cases hattach
    by_cases hd : d = drive
    · subst hd
      rw [show n.named d = some q from hq]
      exact holds_attached hholds (url_of_waiting hholds hmounted).1 hserver
    · exact ((h.shows d).opened (hfree d) _).setDrive (fun heq => hd (Fin.ext heq)) _
  · rw [attach_none (h.shows drive) (h.fits drive)] at hattach
    · cases hattach
    · intro q hq hmounted
      by_contra hserver
      obtain ⟨i, hi⟩ := Option.ne_none_iff_exists'.mp hserver
      exact hgain ⟨q, i, hq, hmounted, hi⟩

theorem save_kept (h : Kept o (s, n)) : Kept o (configSave s, { n with saved := n.named }) := by
  refine ⟨h.shows, h.fits, h.fits, h.cfg, fun d => ?_⟩
  have hload : (configInit (configSave s).flash).cfg.drive d = s.live.cfg.drive d := loadStr_self _ _
  rw [hload]
  exact h.cfg d

theorem boot_kept (h : Kept o (s, n)) : Kept o (o.boot s, { n with named := n.saved }) :=
  ⟨fun d => (diskAutomount_settled h.flash h.fitsSaved (fun _ => rfl) d).shows, h.fitsSaved,
    h.fitsSaved, h.flash, h.flash⟩

theorem step_kept {a : StationAct} (h : Kept o x) (hok : Storable x a)
    (hstep : (noted o).step x a = some x') :
    Kept o x' := by
  obtain ⟨s, n⟩ := x
  obtain ⟨s', hs', rfl⟩ := Option.map_eq_some_iff.mp hstep
  cases a with
  | mount drive cwd name b fate =>
    obtain ⟨⟨hfree, hcolon⟩, rfl⟩ := when_eq_some.mp hs'
    exact mount_kept h hfree hcolon hok
  | unmount drive =>
    cases hs'
    simp only [note, cmdUnmount]
    split
    · exact h
    · refine h.command none (by rintro q ⟨⟩) (shows_unmount ..) fun d hd => ?_
      exact (h.shows d).setDrive (fun heq => hd (Fin.ext heq)) _
  | save =>
    cases hs'
    exact save_kept h
  | reboot =>
    cases hs'
    exact boot_kept h
  | linkUp =>
    cases hs'
    exact ⟨h.shows, h.fits, h.fitsSaved, h.cfg, h.flash⟩
  | linkDown =>
    cases hs'
    exact ⟨fun d => (h.shows d).sweep, h.fits, h.fitsSaved, h.cfg, h.flash⟩
  | attach drive b readonly =>
    simp only [machine, step] at hs'
    split at hs'
    · next hup =>
      obtain ⟨w, hw, rfl⟩ := Option.map_eq_some_iff.mp hs'
      exact attach_kept h hup.2 hw
    · cases hs'

theorem start_kept (h : (noted o).start x) : Kept o x := by
  obtain ⟨⟨hempty, hlive, hflash, -⟩, hnotes⟩ := h
  have hdrive (d : Fin configMaxDrive) : ((configInit x.1.flash).cfg.drive d).1 = [] := by
    simp [configInit, Config.loadFromNvs, hflash, loadStr, Config.defaults]
  refine ⟨fun d => ?_, fun d q hq => ?_, fun d q hq => ?_, fun d => ?_, fun d => ?_⟩
  · rw [hnotes, Shows, hempty]
    exact ⟨rfl, rfl⟩
  · rw [hnotes] at hq
    cases hq
  · rw [hnotes] at hq
    cases hq
  · rw [hlive, hnotes]
    exact hdrive d
  · rw [hnotes]
    exact hdrive d

/-- The drives after a reboot, once the WiFi hook has run. -/
def restarted (o : Outside) (s : Station) : Disk := o.remoteMountAll (o.boot s).disk

/-- CORRECT: a drive shows the file or URL the console last said of it, under its whole name; and after a
    save and a reboot it serves that image again. -/
theorem mounts_persist (h : (noted o).Reach Storable x) (d : Fin configMaxDrive) :
    o.Shows x.1.disk d (x.2.named d) ∧
      (x.2.saved = x.2.named → (o.restarted x.1).served d = (x.2.named d).bind o.image ∧
        ∀ i, x.1.disk.served d = some i → (o.restarted x.1).served d = some i) := by
  have hkept : Kept o x :=
    Machine.Reach.invariant (I := fun x => Kept o x) (fun _ => start_kept) (fun _ _ _ => step_kept) h
  refine ⟨hkept.shows d, fun hsaved => ?_⟩
  have hsettled := diskAutomount_settled (w := coldStart x.1.disk) hkept.flash hkept.fitsSaved fun _ => rfl
  have hserved := remoteMountAll_served hsettled hkept.fitsSaved d
  rw [hsaved] at hserved
  refine ⟨hserved, fun i hi => hserved.trans ?_⟩
  have hshows := hkept.shows d
  cases hnamed : x.2.named d with
  | none =>
    rw [hnamed] at hshows
    rw [served_of_unmounted hshows.1] at hi
    cases hi
  | some q =>
    rw [hnamed] at hshows
    cases hmounted : (x.1.disk.drv d).mounted with
    | false =>
      rw [served_of_unmounted hmounted] at hi
      cases hi
    | true =>
      rw [Option.bind_some, ← (Holds.image hshows hmounted).1]
      exact hi

instance (x : Station × Notes) : (a : StationAct) → Decidable (Storable x a)
  | .mount _ cwd name _ _ =>
    inferInstanceAs (Decidable (asked cwd name ≠ [] ∧ ((asked cwd name).length < configFileCap ∨
      tnfsIsUrl (asked cwd name) = false ∧ sdPath (asked cwd name) (16 + configFileCap) = none)))
  | .unmount _ | .save | .reboot | .linkUp | .linkDown | .attach _ _ _ => inferInstanceAs (Decidable True)

/-- One byte more than the slot holds. -/
def longName : CStr := List.replicate 129 'B'

/-- A URL of 130 bytes. -/
def longUrl : CStr := ['t', 'n', 'f', 's', ':', '/', '/', 'h', '/'] ++ List.replicate 121 'C'

/-- A card with `A` and the long name, and a server that has a file under any URL. -/
def shelf : Outside where
  sdMounted := true
  file p := if p = ['/', 's', 'd', '/', 'A'] then some 1 else if p = ['/', 's', 'd', '/'] ++
    longName then some 7 else none
  canon _ := none
  url u := some u.length
  size _ := 0

/-- A blank device with an empty table. -/
def blank : Station :=
  ⟨⟨fun _ => .empty, [], ⟨false, 0, 0, 0⟩, fun _ => ⟨.sd 0, 0⟩, fun _ => []⟩, configInit fun _ =>
    none, fun _ => none, false⟩

theorem blank_start : shelf.noted.start (blank, ⟨fun _ => none, fun _ => none⟩) :=
  ⟨⟨fun _ => rfl, rfl, fun _ => rfl, rfl⟩, rfl⟩

def mountTwo : List StationAct :=
  [.linkUp, .mount 0 [] ['A'] 0 none, .mount 1 [] ['t', 'n', 'f', 's', ':', '/', '/', 'h', '/', 'x'] 1 none,
    .attach 1 1 false, .save]

theorem exec_mountTwo :
    (shelf.noted.exec (blank, ⟨fun _ => none, fun _ => none⟩) mountTwo).isSome = true := by decide +kernel

def mountedTwo : Station × Notes :=
  (shelf.noted.exec (blank, ⟨fun _ => none, fun _ => none⟩) mountTwo).get exec_mountTwo

theorem reach_mountedTwo : shelf.noted.Reach Storable mountedTwo :=
  ⟨_, blank_start, Machine.exec_path (fun x a => decide (Storable x a)) (fun _ _ => of_decide_eq_true)
    (Option.some_get exec_mountTwo).symm (by decide +kernel)⟩

theorem mounts_persist_mountedTwo : mountedTwo.1.disk.served 1 = some (.tnfs 10) ∧
    (shelf.restarted mountedTwo.1).served 1 = some (.tnfs 10) := by
  have hserved : mountedTwo.1.disk.served 1 = some (.tnfs 10) := by decide +kernel
  exact ⟨hserved, ((mounts_persist reach_mountedTwo 1).2 (by decide +kernel)).2 _ hserved⟩

/-- The state after these steps. -/
def after (as : List StationAct) : Option (Station × Notes) :=
  shelf.noted.exec (blank, ⟨fun _ => none, fun _ => none⟩) as

theorem reach_after {l : List StationAct} (h : (after l).isSome = true) :
    shelf.noted.Reach Machine.always ((after l).get h) :=
  ⟨_, blank_start, Machine.exec_always (Option.some_get h).symm⟩

/-- A name of 129 bytes is mounted, saved short, and gone after the reboot; a URL of 130 bytes is
    configured short; and a drive said to be empty still serves its file. -/
theorem longName_lost :
    (∃ x, shelf.noted.Reach Machine.always x ∧ x.2.named 0 = some longName ∧ x.2.saved = x.2.named ∧
      x.1.disk.served 0 = some (.sd 7) ∧ (shelf.restarted x.1).served 0 = none) ∧
    (∃ x, shelf.noted.Reach Machine.always x ∧ x.2.named 0 = some longUrl ∧ (x.1.disk.drv 0).name ≠ longUrl) ∧
    ∃ x, shelf.noted.Reach Machine.always x ∧ x.2.named 0 = none ∧ x.1.disk.served 0 = some (.sd 1) := by
  refine ⟨⟨_, reach_after (l := [.mount 0 [] longName 0 none, .save]) (by decide +kernel), ?_⟩,
    ⟨_, reach_after (l := [.mount 0 [] longUrl 0 none]) (by decide +kernel), ?_⟩,
    ⟨_, reach_after (l := [.mount 0 [] ['A'] 0 none, .mount 0 [] [] 1 none]) (by decide +kernel), ?_⟩⟩
  · refine ⟨by decide +kernel, by decide +kernel, by decide +kernel, by decide +kernel⟩
  · exact ⟨by decide +kernel, by decide +kernel⟩
  · exact ⟨by decide +kernel, by decide +kernel⟩

end Outside

end FdcSds
