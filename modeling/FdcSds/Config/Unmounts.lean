import FdcSds.Config.Consoles
import FdcSds.Config.Vacancy

/-! Unmounts on either console, among mounts, saves, WiFi events and the worker (`cmd_unmount`).

    A mount and an unmount change the table in one step and the configuration in a later one. In between,
    and before the table, come the other console's steps, the WiFi hook that posts a job for every remote
    drive that is not ready, and the worker, which looks at the slot before and after it opens a session.

        unmount:  mounted? ─▶ table ─▶ config
        mount:    table ─▶ config
        worker:   wanted? ─▶ session ─▶ still wanted? ─▶ table        -/

namespace FdcSds
open Schemes Schemes.Runs

/-- Where a console is in a mount or an unmount. -/
inductive Deed where
  | idle
  | mounting (drive : Fin configMaxDrive) (value : Option CStr)
  | tested (drive : Fin configMaxDrive)
  | unmounted (drive : Fin configMaxDrive)
  deriving DecidableEq

structure Desk where
  disk : Disk
  config : Consoles
  deed : Terminal → Deed
  wifi : Bool
  /-- The drive `disk_remote_mount_all` looks at next. -/
  hook : Option ℕ
  /-- The drives of the queued mount jobs. -/
  jobs : List ℕ
  /-- The drive and the URL `worker_mount` has read. -/
  opening : Option (ℕ × CStr)

/-- `o` is the card and the servers at the time; `posted` says whether a job found room. -/
inductive DeskAct where
  | mount (t : Terminal) (o : Outside) (drive : Fin configMaxDrive) (cwd name : CStr) (b : ℕ)
      (fate : Option EspErr)
      (posted : Bool)
  | unmount (t : Terminal) (drive : Fin configMaxDrive)
  | letGo (t : Terminal)
  | setDrive (t : Terminal)
  | config (k : Keystroke)
  | restart (o : Outside)
  | release (drive : Fin configMaxDrive)
  | gotIp
  | hook (posted : Bool)
  | lostIp
  | take
  | install (o : Outside) (n b : ℕ) (readonly : Bool)
  | openFails
  | io (buf : Bytes) (cache : Cache) (img : ImageId → Bytes)

/-- The console a step of the configuration is taken on. -/
def Keystroke.console : Keystroke → Option Terminal
  | .set t _ | .saveOpen t | .put t | .putFails t | .saveCommit t | .saveCommitFails t | .saveClear t
  | .erase t | .wipeCommit t | .wipeCommitFails t | .setDefaults t | .wipeClear t => some t
  | .flush _ | .reboot => none

/-- No call of `config_set_drive`, and no reboot. -/
def Keystroke.ordinary : Keystroke → Bool
  | .set _ (.drive _ _) | .reboot => false
  | _ => true

/-- `cmd_mount`, up to `config_set_drive`: the table, and the value to configure. -/
def Outside.mountTable (o : Outside) (w : Disk) (drive : Fin configMaxDrive) (cwd name : CStr) (b : ℕ)
    (fate : Option EspErr) : Disk × Option (Option CStr) :=
  if tnfsIsUrl name then ((o.diskMount w drive name b fate).1, some (some name))
  else match Outside.qualify cwd name with
    | none => (w, none)
    | some q =>
      match o.diskMount w drive q b fate with
      | (w, .error _) => (w, some none)
      | (w, .ok ()) => (w, some (some q))

theorem Outside.cmdMount_eq (o : Outside) (s : Station) (drive : Fin configMaxDrive) (cwd name : CStr) (b : ℕ)
    (fate : Option EspErr) :
    (o.cmdMount s drive cwd name b fate).1 =
      let r := o.mountTable s.disk drive cwd name b fate
      { s with
        disk := r.1
        live := match r.2 with | some v => s.live.configSetDrive drive.1 v | none => s.live } := by
  unfold cmdMount mountTable
  by_cases hurl : tnfsIsUrl name = true
  · rw [if_pos hurl, if_pos hurl]
  · rw [if_neg hurl, if_neg hurl]
    cases Outside.qualify cwd name with
    | none => rfl
    | some q =>
      dsimp only
      rcases o.diskMount s.disk drive q b fate with ⟨w, _ | _⟩ <;> rfl

namespace Desk

def setDeed (s : Desk) (t : Terminal) (x : Deed) : Desk := { s with deed := Function.update s.deed t x }

/-- The console waits for a command. -/
def Ready (s : Desk) (t : Terminal) : Prop := s.deed t = .idle ∧ s.config.phase t = .idle

instance (s : Desk) (t : Terminal) : Decidable (s.Ready t) := inferInstanceAs (Decidable (_ ∧ _))

/-- `config_set_drive`, and the command is done. -/
def configSetDrive (s : Desk) (t : Terminal) (drive : Fin configMaxDrive) (v : Option CStr) : Option Desk :=
  (s.config.step (.set t (.drive drive.1 v))).map fun config => { s with config := config }.setDeed t .idle

/-- A job for this drive, if it wants one. -/
def want (s : Desk) (drive : ℕ) (posted : Bool) : List ℕ :=
  if posted && (s.disk.workerWants drive).isSome then s.jobs ++ [drive] else s.jobs

def step (s : Desk) : DeskAct → Option Desk
  | .mount t o drive cwd name b fate posted =>
    let r := o.mountTable s.disk drive cwd name b fate
    when (s.Ready t ∧ Outside.Free s.disk b)
      ({ s with
        disk := r.1
        jobs := if posted && s.wifi && tnfsIsUrl name then s.jobs ++ [drive.1] else s.jobs }.setDeed t
        (match r.2 with | some v => .mounting drive v | none => .idle))
  | .unmount t drive =>
    when (s.Ready t) (if !s.disk.diskIsMounted drive then s else s.setDeed t (.tested drive))
  | .letGo t =>
    match s.deed t with
    | .tested drive => some ({ s with disk := s.disk.unmount drive }.setDeed t (.unmounted drive))
    | _ => none
  | .setDrive t =>
    match s.deed t with
    | .mounting drive v => s.configSetDrive t drive v
    | .unmounted drive => s.configSetDrive t drive none
    | _ => none
  | .config k =>
    if k.ordinary = true ∧ ∀ t ∈ k.console, s.deed t = .idle then
      (s.config.step k).map fun config => { s with config := config }
    else none
  | .restart o =>
    some {
      disk := o.diskAutomount (configInit s.config.flash).cfg (Outside.coldStart s.disk)
      config := ⟨configInit s.config.flash, s.config.flash, s.config.flash, fun _ => .idle⟩
      deed := fun _ => .idle, wifi := false, hook := none, jobs := [], opening := none }
  -- one drive of `disk_unmount_all`
  | .release drive => some { s with disk := s.disk.unmount drive }
  | .gotIp => when (s.hook = none) { s with wifi := true, hook := some 0 }
  | .hook posted =>
    match s.hook with
    | some i =>
      some { s with hook := if i + 1 < diskMaxDrive then some (i + 1) else none, jobs := s.want i posted }
    | none => none
  | .lostIp => when (s.hook = none) { s with disk := s.disk.sweep.1, wifi := false }
  | .take =>
    match s.jobs with
    | drive :: jobs =>
      when (s.opening = none)
        { s with jobs := jobs, opening := if s.wifi then (s.disk.workerWants drive).map (drive, ·) else none }
    | [] => none
  | .install o n b readonly =>
    match s.opening with
    | some (drive, url) =>
      when (Outside.Free s.disk b)
        { s with
          disk := ((o.opened s.disk b (.tnfs n)).workerInstall drive url b readonly).getD s.disk
          opening := none }
    | none => none
  | .openFails => when (s.opening.isSome = true) { s with opening := none }
  -- track I/O leaves the slots
  | .io buf cache img => some { s with disk := { s.disk with buf := buf, cache := cache, img := img } }

/-- Just booted, from any configuration. -/
def Start (s : Desk) : Prop :=
  s.config.Booted ∧ (∃ (o : Outside) (w : Disk), s.disk = o.diskAutomount s.config.live.cfg
    (Outside.coldStart w)) ∧
    (∀ t, s.deed t = .idle) ∧ s.jobs = [] ∧ s.opening = none ∧ s.hook = none ∧ s.wifi = false

def machine : Machine Desk DeskAct := ⟨Start, step⟩

/-! ### What an unmount promises -/

/-- What was promised by unmounts that have finished. A mount of the drive ends the promise, and so does a
    reboot before a save begun after the unmount is through. -/
structure Vows where
  gone : Fin configMaxDrive → Bool
  /-- The save the console is in began after the unmount of the drive. -/
  fresh : Terminal → Fin configMaxDrive → Bool
  saved : Fin configMaxDrive → Bool

def Vows.none : Vows := ⟨fun _ => false, fun _ _ => false, fun _ => false⟩

/-- An unmount has finished. -/
def Vows.finish (n : Vows) (d : Fin configMaxDrive) : Vows := { n with gone := Function.update n.gone d true }

/-- A mount has begun. -/
def Vows.drop (n : Vows) (d : Fin configMaxDrive) : Vows where
  gone := Function.update n.gone d false
  fresh t := Function.update (n.fresh t) d false
  saved := Function.update n.saved d false

def note (s : Desk) (a : DeskAct) (n : Vows) : Vows :=
  match a with
  | .mount _ _ drive _ _ _ _ _ => n.drop drive
  | .unmount _ drive => if !s.disk.diskIsMounted drive then n.finish drive else n
  | .setDrive t => match s.deed t with | .unmounted drive => n.finish drive | _ => n
  | .config (.saveOpen t) => { n with fresh := Function.update n.fresh t n.gone }
  | .config (.saveCommit t) => { n with saved := fun d => n.saved d || n.fresh t d }
  | .restart _ => { gone := n.saved, fresh := fun _ _ => false, saved := n.saved }
  | _ => n

/-- The machine with the promises beside it. -/
def noted : Machine (Desk × Vows) DeskAct where
  start x := x.1.Start ∧ x.2 = .none
  step := (machine.annotate note).step

end Desk

/-- Neither mounted nor configured as remote, and without a name. -/
structure Disk.Vacant (w : Disk) (d : ℕ) : Prop where
  mounted : (w.drv d).mounted = false
  remote : (w.drv d).remote = false
  name : (w.drv d).name = []

namespace Desk

/-- The drive is empty in the table, and no name is configured for it. -/
structure Vacated (s : Desk) (d : Fin configMaxDrive) : Prop where
  slot : s.disk.Vacant d
  config : (s.config.live.cfg.drive d).1 = []

/-- A mount of the drive has changed the table and not yet the configuration. -/
def Halfway (s : Desk) (d : Fin configMaxDrive) : Prop := ∃ t v, s.deed t = .mounting d v

/-- An unmount finds its drive mounted, or empty with nothing configured; and between the table and the
    configuration neither a mount nor an unmount of a drive meets the other. -/
def Orderly (x : Desk × Vows) : DeskAct → Prop
  | .mount _ _ drive _ _ _ _ _ => ∀ t, x.1.deed t ≠ .unmounted drive
  | .unmount _ drive => x.1.disk.diskIsMounted drive = true ∨ x.1.Vacated drive ∧ ¬x.1.Halfway drive
  | .letGo t => ∀ drive, x.1.deed t = .tested drive → ¬x.1.Halfway drive
  | _ => True

end Desk

namespace Disk

variable {w w' : Disk} {d e : ℕ}

theorem Vacant.congr (h : w.Vacant d) (hdrv : w'.drv d = w.drv d) : w'.Vacant d :=
  ⟨by rw [hdrv, h.mounted], by rw [hdrv, h.remote], by rw [hdrv, h.name]⟩

theorem vacant_of_empty (h : w.drv d = .empty) : w.Vacant d := by
  constructor <;> rw [h] <;> rfl

theorem vacant_unmount (w : Disk) (d : ℕ) : (w.unmount d).Vacant d :=
  vacant_of_empty (by rw [unmount, setDrive_drv, Function.update_self])

theorem Vacant.unmount (h : w.Vacant d) (e : ℕ) : (w.unmount e).Vacant d := by
  by_cases hd : d = e
  · rw [hd]
    exact vacant_unmount w e
  · exact h.congr (by rw [Disk.unmount, setDrive_drv, Function.update_of_ne hd])

/-- The WiFi going down takes sessions only. -/
theorem Vacant.sweep (h : w.Vacant d) : w.sweep.1.Vacant d := by
  rcases Outside.sweep_remote (List.range diskMaxDrive) w [] d with hsame | ⟨hremote, -⟩
  · exact h.congr hsame
  · rw [h.remote] at hremote
    cases hremote

/-- The worker finds no remote drive there. -/
theorem Vacant.install (h : w.Vacant d) {i : ImageId} {o : Outside} {b : ℕ} {url : CStr} {readonly : Bool} :
    (((o.opened w b i).workerInstall e url b readonly).getD w).Vacant d := by
  unfold workerInstall
  dsimp only
  split
  · next hwants =>
    simp only [Bool.and_eq_true] at hwants
    have hne : d ≠ e := by
      rintro rfl
      exact absurd (h.remote.symm.trans hwants.1.1.2) (by simp)
    refine h.congr ?_
    rw [Option.getD_some, setDrive_drv, Function.update_of_ne hne]
    rfl
  · exact h

end Disk

namespace Outside

variable {o : Outside} {w : Disk} {d e : Fin configMaxDrive}

theorem diskMount_drv (h : d ≠ e) (q : CStr) (b : ℕ) (fate : Option EspErr) :
    (o.diskMount w e q b fate).1.drv d = w.drv d := by
  have hne : (d : ℕ) ≠ e := fun heq => h (Fin.ext heq)
  unfold diskMount
  repeat' split
  all_goals first
    | rfl
    | simp only [Disk.configure, Disk.unmount, Disk.mountLocal, Disk.setDrive_drv,
        Function.update_of_ne hne, opened]

theorem mountTable_drv (h : d ≠ e) (cwd name : CStr) (b : ℕ) (fate : Option EspErr) :
    (o.mountTable w e cwd name b fate).1.drv d = w.drv d := by
  unfold mountTable
  split
  · exact diskMount_drv h ..
  split
  · rfl
  · next q _ =>
    have hdrv := diskMount_drv (o := o) (w := w) h q b fate
    cases hmount : o.diskMount w e q b fate with
    | mk w' r =>
      rw [hmount] at hdrv
      cases r <;> exact hdrv

/-- A drive with nothing configured is empty after `disk_automount`. -/
theorem diskAutomount_vacant {cfg : Config} (h : (cfg.drive d).1 = []) (w : Disk) :
    (o.diskAutomount cfg (coldStart w)).Vacant d := by
  refine Disk.vacant_of_empty ?_
  refine (foldl_drives (l := drives) (f := o.automountOne cfg) (P := fun i w => w.drv i = .empty)
    (Q := fun i w => (cfg.drive i).1 = [] → w.drv i = .empty)
      (fun w i _ j hne => automountOne_alike cfg w hne)
    (fun j w w' hsame hw => hsame.1.trans hw) (fun j w w' hsame hw hcfg => hsame.1.trans (hw hcfg))
    (fun w i hw hcfg => ?_) (by decide) fun j _ => rfl).1 d (mem_drives d) h
  rw [automountOne, if_pos (by simpa using hcfg)]
  exact hw

end Outside

/-! ### The configuration under it -/

/-- A reboot finds no name for the drive. -/
abbrev Nvs.Blank (n : Nvs) (d : Fin configMaxDrive) : Prop := Config.defaults.Stored n (.drive d)

theorem Nvs.blank_iff {n : Nvs} {d : Fin configMaxDrive} :
    n.Blank d ↔ ((configInit n).cfg.drive d).1 = [] := by
  unfold Blank Config.Stored
  constructor
  · intro h
    exact NvsValue.str.inj h
  · intro h
    exact congrArg NvsValue.str h

namespace Consoles

variable {c c' : Consoles} {d : Fin configMaxDrive} {k : Keystroke}

/-- Only `config_set_drive` gives a drive a name. -/
theorem step_unnamed (hk : k.ordinary = true) (h : (c.live.cfg.drive d).1 = []) (hstep : c.step k = some c') :
    (c'.live.cfg.drive d).1 = [] := by
  cases k with
  | set t x =>
    obtain ⟨-, rfl⟩ := when_eq_some.mp hstep
    cases x with
    | drive n v => cases hk
    | str id v =>
      cases id <;>
        simp only [Setting.apply, LiveConfig.configSetStr, LiveConfig.assignText, LiveConfig.assign] <;>
        split <;> exact h
    | _ =>
      simp only [Setting.apply, LiveConfig.configSetBaud, LiveConfig.configSetWifiEnabled,
        LiveConfig.configSetTelnetEnabled, LiveConfig.configSetFtpEnabled, LiveConfig.configSetTnfsdEnabled,
        LiveConfig.configSetFdcTcpPort, LiveConfig.configSetLogLevel, LiveConfig.assign]
      split <;> exact h
  | put t =>
    simp only [step] at hstep
    split at hstep
    · cases hstep
      exact h
    · cases hstep
  | setDefaults t =>
    obtain ⟨-, rfl⟩ := when_eq_some.mp hstep
    rfl
  | reboot => cases hk
  | flush wrote =>
    cases hstep
    exact h
  | _ =>
    obtain ⟨-, rfl⟩ := when_eq_some.mp hstep
    exact h

/-- What is put is the live value. -/
theorem blank_put (h : (c.live.cfg.drive d).1 = []) {nvs : Nvs}
    (hnvs : nvs (.drive d) = some (c.live.cfg.value (.drive d))) : nvs.Blank d := by
  have hval : c.live.cfg.value (.drive d) = Config.defaults.value (.drive d) := congrArg NvsValue.str h
  exact Config.stored_of_value (hnvs.trans (congrArg some hval))

/-- An inversion of a put. -/
theorem put_cases {t : Terminal} (h : c.step (.put t) = some c') : ∃ i k, c.phase t = .saving i ∧
      saveKeys[i]? = some k ∧
    c' = { c with nvs := Function.update c.nvs k (some (c.live.cfg.value k)) }.setPhase t
      (.saving (i + 1)) := by
  simp only [step] at h
  split at h
  · next i k hphase hkey =>
    rw [hphase] at hkey
    cases h
    exact ⟨i, k, hphase, hkey, rfl⟩
  · cases h

theorem step_nvs (hk : k.ordinary = true) (hlive : (c.live.cfg.drive d).1 = []) (h : c.nvs.Blank d)
    (hstep : c.step k = some c') : c'.nvs.Blank d := by
  cases k with
  | put t =>
    obtain ⟨i, key, -, -, rfl⟩ := put_cases hstep
    by_cases hd : key = .drive d
    · subst hd
      exact blank_put hlive (Function.update_self ..)
    · exact h.congr (Function.update_of_ne (Ne.symm hd) ..)
  | erase t =>
    obtain ⟨-, rfl⟩ := when_eq_some.mp hstep
    exact Config.stored_of_none rfl
  | reboot => cases hk
  | flush wrote =>
    cases hstep
    exact h
  | _ =>
    obtain ⟨-, rfl⟩ := when_eq_some.mp hstep
    exact h

theorem step_flash (hk : k.ordinary = true) (hnvs : c.nvs.Blank d) (h : c.flash.Blank d)
    (hstep : c.step k = some c') :
    c'.flash.Blank d := by
  cases k with
  | put t =>
    obtain ⟨i, key, -, -, rfl⟩ := put_cases hstep
    exact h
  | saveCommit t | wipeCommit t =>
    obtain ⟨-, rfl⟩ := when_eq_some.mp hstep
    exact hnvs
  | reboot => cases hk
  | flush wrote =>
    cases hstep
    by_cases hw : wrote (.drive d) = true
    · exact hnvs.congr (if_pos hw)
    · exact h.congr (if_neg hw)
  | _ =>
    obtain ⟨-, rfl⟩ := when_eq_some.mp hstep
    exact h

/-- What a save has put of the drive since it began is empty. -/
def Clean (c : Consoles) (t : Terminal) (d : Fin configMaxDrive) : Prop :=
  ∀ i, c.phase t = .saving i → Key.drive d ∈ saveKeys.take i → c.nvs.Blank d

/-- A phase that is set on one console. -/
theorem Clean.setPhase {t u : Terminal} {p : Phase} (h : c.Clean u d)
    (hp : u = t → ∀ i, p = .saving i → Key.drive d ∈ saveKeys.take i → c.nvs.Blank d) :
    (c.setPhase t p).Clean u d := by
  intro i hphase hmem
  by_cases hu : u = t
  · subst hu
    have hset : (c.setPhase u p).phase u = p := Function.update_self ..
    exact hp rfl i (hset.symm.trans hphase) hmem
  · have hset : (c.setPhase t p).phase u = c.phase u := Function.update_of_ne hu ..
    exact h i (hset.symm.trans hphase) hmem

theorem step_clean {u : Terminal} (hk : k.ordinary = true) (hlive : (c.live.cfg.drive d).1 = [])
    (h : c.Clean u d) (hstep : c.step k = some c') : c'.Clean u d := by
  cases k with
  | set t x =>
    obtain ⟨-, rfl⟩ := when_eq_some.mp hstep
    exact h
  | saveOpen t =>
    obtain ⟨-, rfl⟩ := when_eq_some.mp hstep
    refine h.setPhase ?_
    rintro - i ⟨⟩ hmem
    cases hmem
  | put t =>
    have hnvs := fun hblank => step_nvs hk hlive hblank hstep
    obtain ⟨i, key, hphase, hkey, rfl⟩ := put_cases hstep
    intro j hj hmem
    by_cases hu : u = t
    · subst hu
      have hij : j = i + 1 := by
        have hself : Phase.saving (i + 1) = .saving j := (Function.update_self ..).symm.trans hj
        exact (Phase.saving.inj hself).symm
      subst hij
      rw [List.take_add_one, hkey, List.mem_append] at hmem
      rcases hmem with hold | hnew
      · exact hnvs (h i hphase hold)
      · rw [Option.toList_some, List.mem_singleton] at hnew
        subst hnew
        exact blank_put hlive (Function.update_self ..)
    · exact hnvs (h j ((Function.update_of_ne hu ..).symm.trans hj) hmem)
  | erase t =>
    obtain ⟨-, rfl⟩ := when_eq_some.mp hstep
    intro i _ _
    exact Config.stored_of_none rfl
  | reboot => cases hk
  | flush wrote =>
    cases hstep
    exact h
  | _ =>
    obtain ⟨-, rfl⟩ := when_eq_some.mp hstep
    refine Clean.setPhase (c := { c with .. }) h ?_
    rintro - i ⟨⟩

end Consoles

/-! ### The promise is kept -/

namespace Desk

/-- Every promise holds, and what a save or an unmount in progress needs for the next one. -/
structure Upheld (x : Desk × Vows) : Prop where
  gone : ∀ d, x.2.gone d = true → x.1.Vacated d ∧ ¬x.1.Halfway d
  window : ∀ t d, x.1.deed t = .unmounted d → x.1.disk.Vacant d ∧ ¬x.1.Halfway d
  fresh : ∀ t d, x.2.fresh t d = true → x.2.gone d = true ∧ x.1.config.Clean t d
  saved : ∀ d, x.2.saved d = true → x.2.gone d = true ∧ x.1.config.nvs.Blank d ∧ x.1.config.flash.Blank d

variable {s s' : Desk} {n : Vows} {x x' : Desk × Vows} {t : Terminal} {d e : Fin configMaxDrive} {w : Disk}

/-- A step of the table that leaves vacant drives vacant. -/
theorem Upheld.disk (h : Upheld (s, n)) (hdisk : ∀ d : Fin configMaxDrive,
      (n.gone d = true ∨ ∃ t, s.deed t = .unmounted d) → s.disk.Vacant d → s'.disk.Vacant d)
    (hconfig : s'.config = s.config) (hdeed : s'.deed = s.deed) : Upheld (s', n) := by
  have hhalfway : ∀ d, s'.Halfway d ↔ s.Halfway d := fun d => by rw [Halfway, Halfway, hdeed]
  constructor
  · intro d hd
    obtain ⟨⟨hslot, hcfg⟩, hwhole⟩ := h.gone d hd
    exact ⟨⟨hdisk d (.inl hd) hslot, by rwa [hconfig]⟩, by rwa [hhalfway]⟩
  · intro t d hd
    rw [hdeed] at hd
    obtain ⟨hslot, hwhole⟩ := h.window t d hd
    exact ⟨hdisk d (.inr ⟨t, hd⟩) hslot, by rwa [hhalfway]⟩
  · rw [hconfig]
    exact h.fresh
  · rw [hconfig]
    exact h.saved

/-- A console goes on, and is not halfway through a mount. -/
theorem halfway_setDeed {y : Deed} (hy : ∀ v, y ≠ .mounting d v) (h : (s.setDeed t y).Halfway d) :
    s.Halfway d := by
  obtain ⟨u, v, hu⟩ := h
  by_cases hut : u = t
  · subst hut
    have hset : (s.setDeed u y).deed u = y := Function.update_self ..
    exact absurd (hset.symm.trans hu) (hy v)
  · have hset : (s.setDeed t y).deed u = s.deed u := Function.update_of_ne hut ..
    exact ⟨u, v, hset.symm.trans hu⟩

/-- Who is between the table and the configuration of an unmount, after a console has gone on. -/
theorem unmounted_setDeed {y : Deed} {u : Terminal} (h : (s.setDeed t y).deed u = .unmounted d) :
    (u = t ∧ y = .unmounted d) ∨ s.deed u = .unmounted d := by
  by_cases hut : u = t
  · subst hut
    have hset : (s.setDeed u y).deed u = y := Function.update_self ..
    exact .inl ⟨rfl, hset.symm.trans h⟩
  · have hset : (s.setDeed t y).deed u = s.deed u := Function.update_of_ne hut ..
    exact .inr (hset.symm.trans h)

theorem Upheld.setDeed (h : Upheld (s, n)) {y : Deed} (hy : ∀ d v, y = .mounting d v → n.gone d = false ∧
      ∀ t, s.deed t ≠ .unmounted d)
    (hwindow : ∀ d, y = .unmounted d → s.disk.Vacant d ∧ ¬s.Halfway d) : Upheld (s.setDeed t y, n) := by
  constructor
  · intro d hd
    obtain ⟨hvacated, hwhole⟩ := h.gone d hd
    refine ⟨⟨hvacated.slot, hvacated.config⟩, fun hhalf => hwhole (halfway_setDeed (fun v hv => ?_) hhalf)⟩
    rw [(hy d v hv).1] at hd
    cases hd
  · intro u d hd
    have hfound : s.disk.Vacant d ∧ ¬s.Halfway d := by
      rcases unmounted_setDeed hd with ⟨-, hmine⟩ | hother
      · exact hwindow d hmine
      · exact h.window u d hother
    refine ⟨hfound.1, fun hhalf => hfound.2 (halfway_setDeed (fun v hv => ?_) hhalf)⟩
    rcases unmounted_setDeed hd with ⟨-, hmine⟩ | hother
    · rw [hv] at hmine
      cases hmine
    · exact (hy d v hv).2 u hother
  · exact h.fresh
  · exact h.saved

theorem Vows.finish_ne (n : Vows) (h : e ≠ d) : (n.finish d).gone e = n.gone e := Function.update_of_ne h ..

theorem Vows.drop_ne (n : Vows) (h : e ≠ d) : (n.drop d).gone e = n.gone e := Function.update_of_ne h ..

theorem Vows.drop_gone (n : Vows) (d : Fin configMaxDrive) : (n.drop d).gone d = false :=
  Function.update_self ..

/-- Fewer promises. -/
theorem Upheld.drop (h : Upheld (s, n)) (e : Fin configMaxDrive) : Upheld (s, n.drop e) := by
  have hne {f : Fin configMaxDrive → Bool} {d : Fin configMaxDrive}
    (hd : Function.update f e false d = true) :
      d ≠ e ∧ f d = true := by
    by_cases hde : d = e
    · subst hde
      rw [Function.update_self] at hd
      cases hd
    · rw [Function.update_of_ne hde] at hd
      exact ⟨hde, hd⟩
  have hgone {d : Fin configMaxDrive} (hd : d ≠ e) (h : n.gone d = true) : (n.drop e).gone d = true := by
    rwa [Vows.drop_ne n hd]
  constructor
  · intro d hd
    exact h.gone d (hne hd).2
  · exact h.window
  · intro t d hd
    obtain ⟨hde, hfresh⟩ := hne hd
    exact ⟨hgone hde (h.fresh t d hfresh).1, (h.fresh t d hfresh).2⟩
  · intro d hd
    obtain ⟨hde, hsaved⟩ := hne hd
    exact ⟨hgone hde (h.saved d hsaved).1, (h.saved d hsaved).2⟩

/-- An unmount has finished. -/
theorem Upheld.finish (h : Upheld (s, n)) (hd : s.Vacated d) (hwhole : ¬s.Halfway d) :
    Upheld (s, n.finish d) := by
  have hmono {e : Fin configMaxDrive} (he : n.gone e = true) : (n.finish d).gone e = true := by
    by_cases hed : e = d
    · subst hed
      exact Function.update_self ..
    · rwa [Vows.finish_ne n hed]
  constructor
  · intro e he
    by_cases hed : e = d
    · subst hed
      exact ⟨hd, hwhole⟩
    · change (n.finish d).gone e = true at he
      rw [Vows.finish_ne n hed] at he
      exact h.gone e he
  · exact h.window
  · exact fun t e he => ⟨hmono (h.fresh t e he).1, (h.fresh t e he).2⟩
  · exact fun e he => ⟨hmono (h.saved e he).1, (h.saved e he).2⟩

/-- A setter on the configuration. -/
theorem Upheld.live (h : Upheld (s, n)) {live : LiveConfig}
    (hlive : ∀ d, n.gone d = true → (live.cfg.drive d).1 = []) :
    Upheld ({ s with config := { s.config with live := live } }, n) := by
  constructor
  · intro d hd
    obtain ⟨hvacated, hwhole⟩ := h.gone d hd
    exact ⟨⟨hvacated.slot, hlive d hd⟩, hwhole⟩
  · exact h.window
  · exact h.fresh
  · exact h.saved

theorem mount_upheld (h : Upheld (s, n)) {o : Outside} {cwd name : CStr} {b : ℕ} {fate : Option EspErr}
    {posted : Bool} (hok : Orderly (s, n) (.mount t o d cwd name b fate posted))
    (hstep : s.step (.mount t o d cwd name b fate posted) = some s') : Upheld (s', n.drop d) := by
  obtain ⟨-, rfl⟩ := when_eq_some.mp hstep
  have htable (e : Fin configMaxDrive) (he : (n.drop d).gone e = true ∨ ∃ t, s.deed t = .unmounted e) :
      (o.mountTable s.disk d cwd name b fate).1.drv e = s.disk.drv e := by
    refine Outside.mountTable_drv ?_ ..
    rintro rfl
    rcases he with hgone | ⟨u, hu⟩
    · rw [Vows.drop_gone] at hgone
      cases hgone
    · exact hok u hu
  have hset : Upheld ({ s with
      disk := (o.mountTable s.disk d cwd name b fate).1
      jobs := if posted && s.wifi && tnfsIsUrl name then s.jobs ++ [d.1] else s.jobs }, n.drop d) :=
    (h.drop d).disk (fun e he hvacant => hvacant.congr (htable e he)) rfl rfl
  refine hset.setDeed (fun e v hv => ?_) ?_
  · split at hv
    · cases hv
      exact ⟨Vows.drop_gone n d, hok⟩
    · cases hv
  · intro e he
    split at he <;> cases he

theorem unmount_upheld (h : Upheld (s, n)) (hok : Orderly (s, n) (.unmount t d))
    (hstep : s.step (.unmount t d) = some s') : Upheld (s', note s (.unmount t d) n) := by
  obtain ⟨-, rfl⟩ := when_eq_some.mp hstep
  cases hmounted : s.disk.diskIsMounted d with
  | true =>
    simp only [note, hmounted, Bool.not_true, Bool.false_eq_true, if_false]
    exact h.setDeed (by rintro e v ⟨⟩) (by rintro e ⟨⟩)
  | false =>
    simp only [note, hmounted, Bool.not_false, if_true]
    have hempty := hok.resolve_left (by rw [hmounted]; exact Bool.false_ne_true)
    exact h.finish hempty.1 hempty.2

theorem letGo_upheld (h : Upheld (s, n)) (hok : Orderly (s, n) (.letGo t))
    (hstep : s.step (.letGo t) = some s') :
    Upheld (s', n) := by
  simp only [step] at hstep
  split at hstep
  · next d hdeed =>
    cases hstep
    have hset : Upheld ({ s with disk := s.disk.unmount d }, n) :=
      h.disk (fun e _ hvacant => hvacant.unmount d) rfl rfl
    refine hset.setDeed (by rintro e v ⟨⟩) ?_
    rintro e ⟨⟩
    exact ⟨Disk.vacant_unmount s.disk d, hok d hdeed⟩
  · cases hstep

/-- An inversion of `config_set_drive`. -/
theorem configSetDrive_cases {v : Option CStr} (h : s.configSetDrive t d v = some s') :
    s' = { s with config := { s.config with live := s.config.live.configSetDrive d.1 v } }.setDeed t
      .idle := by
  obtain ⟨c, hc, rfl⟩ := Option.map_eq_some_iff.mp h
  obtain ⟨-, rfl⟩ := when_eq_some.mp hc
  rfl

theorem setDrive_upheld (h : Upheld (s, n)) (hstep : s.step (.setDrive t) = some s') :
    Upheld (s', note s (.setDrive t) n) := by
  have hlive (e : Fin configMaxDrive) (v : Option CStr) (hv : v.getD [] = [] ∨ n.gone e = false)
    (d : Fin configMaxDrive)
      (hd : n.gone d = true) : ((s.config.live.configSetDrive e.1 v).cfg.drive d).1 = [] := by
    have hold := (h.gone d hd).1.config
    by_cases hde : d = e
    · subst hde
      rcases hv with hv | hv
      · have hlen : (v.getD []).length < configFileCap := by
          rw [hv]
          decide
        rw [Outside.configSetDrive_drive hlen, if_pos rfl, hv]
      · rw [hv] at hd
        cases hd
    · rwa [LiveConfig.configSetDrive_ne _ _ hde]
  simp only [step] at hstep
  cases hdeed : s.deed t with
  | mounting d v =>
    simp only [note, hdeed] at hstep ⊢
    rw [configSetDrive_cases hstep]
    refine (h.live (hlive d v (.inr ?_))).setDeed (by rintro e v ⟨⟩) (by rintro e ⟨⟩)
    by_contra hgone
    exact (h.gone d (by simpa using hgone)).2 ⟨t, v, hdeed⟩
  | unmounted d =>
    simp only [note, hdeed] at hstep ⊢
    rw [configSetDrive_cases hstep]
    obtain ⟨hslot, hwhole⟩ := h.window t d hdeed
    refine ((h.live (hlive d none (.inl rfl))).setDeed (by rintro e v ⟨⟩) (by rintro e ⟨⟩)).finish
      ⟨hslot, ?_⟩ ?_
    · exact Outside.configSetDrive_none ..
    · exact fun hhalf => hwhole (halfway_setDeed (by rintro v ⟨⟩) hhalf)
  | idle | tested d =>
    simp only [hdeed] at hstep
    cases hstep

theorem config_upheld (h : Upheld (s, n)) {k : Keystroke} (hstep : s.step (.config k) = some s') :
    Upheld (s', note s (.config k) n) := by
  simp only [step] at hstep
  split at hstep
  · next hk =>
    obtain ⟨c, hc, rfl⟩ := Option.map_eq_some_iff.mp hstep
    obtain ⟨hord, -⟩ := hk
    have hlive {d : Fin configMaxDrive} (hd : n.gone d = true) := (h.gone d hd).1.config
    have hkept : Upheld ({ s with config := c }, n) := by
      constructor
      · intro d hd
        exact ⟨⟨(h.gone d hd).1.slot, Consoles.step_unnamed hord (hlive hd) hc⟩, (h.gone d hd).2⟩
      · exact h.window
      · intro t d hd
        obtain ⟨hgone, hclean⟩ := h.fresh t d hd
        exact ⟨hgone, Consoles.step_clean hord (hlive hgone) hclean hc⟩
      · intro d hd
        obtain ⟨hgone, hnvs, hflash⟩ := h.saved d hd
        exact ⟨hgone, Consoles.step_nvs hord (hlive hgone) hnvs hc, Consoles.step_flash hord hnvs hflash hc⟩
    cases k with
    | saveOpen t =>
      refine ⟨hkept.gone, hkept.window, fun u d hd => ?_, hkept.saved⟩
      by_cases hut : u = t
      · subst hut
        have hgone : n.gone d = true := (congrFun (Function.update_self ..) d).symm.trans hd
        obtain ⟨-, rfl⟩ := when_eq_some.mp hc
        refine ⟨hgone, fun i hi hmem => ?_⟩
        have hset : Phase.saving 0 = .saving i := (Function.update_self ..).symm.trans hi
        cases hset
        cases hmem
      · refine hkept.fresh u d ?_
        rw [← hd]
        exact (congrFun (Function.update_of_ne hut ..) d).symm
    | saveCommit t =>
      refine ⟨hkept.gone, hkept.window, hkept.fresh, fun d hd => ?_⟩
      rcases Bool.or_eq_true_iff.mp hd with hsaved | hfresh
      · exact hkept.saved d hsaved
      · obtain ⟨hgone, hclean⟩ := h.fresh t d hfresh
        obtain ⟨hphase, rfl⟩ := when_eq_some.mp hc
        have hnvs : s.config.nvs.Blank d := hclean _ hphase (by rw [List.take_length]; exact mem_saveKeys _)
        exact ⟨hgone, hnvs, hnvs⟩
    | _ => exact hkept
  · cases hstep

theorem restart_upheld (h : Upheld (s, n)) {o : Outside} (hstep : s.step (.restart o) = some s') :
    Upheld (s', note s (.restart o) n) := by
  cases hstep
  constructor
  · intro d hd
    have hcfg := Nvs.blank_iff.mp (h.saved d hd).2.2
    refine ⟨⟨Outside.diskAutomount_vacant hcfg _, hcfg⟩, ?_⟩
    rintro ⟨u, v, ⟨⟩⟩
  · rintro u d ⟨⟩
  · rintro u d ⟨⟩
  · intro d hd
    have hflash := (h.saved d hd).2.2
    exact ⟨hd, hflash, hflash⟩

theorem step_upheld {a : DeskAct} (h : Upheld x) (hok : Orderly x a)
    (hstep : noted.step x a = some x') : Upheld x' := by
  obtain ⟨s, n⟩ := x
  obtain ⟨s', hs', rfl⟩ := Option.map_eq_some_iff.mp hstep
  cases a with
  | mount t o d cwd name b fate posted => exact mount_upheld h hok hs'
  | unmount t d => exact unmount_upheld h hok hs'
  | letGo t => exact letGo_upheld h hok hs'
  | setDrive t => exact setDrive_upheld h hs'
  | config k => exact config_upheld h hs'
  | restart o => exact restart_upheld h hs'
  | release e =>
    cases hs'
    exact h.disk (fun d _ hvacant => hvacant.unmount e) rfl rfl
  | gotIp | openFails =>
    obtain ⟨-, rfl⟩ := when_eq_some.mp hs'
    exact h.disk (fun d _ hvacant => hvacant) rfl rfl
  | hook posted =>
    simp only [machine, step] at hs'
    split at hs'
    · cases hs'
      exact h.disk (fun d _ hvacant => hvacant) rfl rfl
    · cases hs'
  | lostIp =>
    obtain ⟨-, rfl⟩ := when_eq_some.mp hs'
    exact h.disk (fun d _ hvacant => hvacant.sweep) rfl rfl
  | take =>
    simp only [machine, step] at hs'
    split at hs'
    · obtain ⟨-, rfl⟩ := when_eq_some.mp hs'
      exact h.disk (fun d _ hvacant => hvacant) rfl rfl
    · cases hs'
  | install o i b readonly =>
    simp only [machine, step] at hs'
    split at hs'
    · obtain ⟨-, rfl⟩ := when_eq_some.mp hs'
      exact h.disk (fun d _ hvacant => hvacant.install) rfl rfl
    · cases hs'
  | io buf cache img =>
    cases hs'
    exact h.disk (fun d _ hvacant => hvacant.congr rfl) rfl rfl

theorem start_upheld (h : noted.start x) : Upheld x := by
  obtain ⟨⟨-, -, hdeed, -⟩, hnote⟩ := h
  constructor
  · intro d hd
    rw [hnote] at hd
    cases hd
  · intro t d hd
    rw [hdeed] at hd
    cases hd
  · intro t d hd
    rw [hnote] at hd
    cases hd
  · intro d hd
    rw [hnote] at hd
    cases hd

/-- CORRECT: once an unmount has finished, the drive is neither mounted nor remote, without a name in the
    table and in the configuration, until a mount of it begins or a reboot comes before a save. -/
theorem unmount_lasts (h : noted.Reach Orderly x) (hgone : x.2.gone d = true) : x.1.Vacated d :=
  ((Machine.Reach.invariant (I := fun x => Upheld x) (fun _ => start_upheld)
    (fun _ _ _ => step_upheld) h).gone d hgone).1

/-- The drive a console has mounted in the table only. -/
def Deed.drive? : Deed → Option (Fin configMaxDrive)
  | .mounting drive _ => some drive
  | .idle | .tested _ | .unmounted _ => none

instance (s : Desk) (d : Fin configMaxDrive) : Decidable (s.Halfway d) :=
  decidable_of_iff (∃ t, Deed.drive? (s.deed t) = some d) (exists_congr fun t => by
    cases s.deed t <;> simp [Deed.drive?])

instance (s : Desk) (d : Fin configMaxDrive) : Decidable (s.Vacated d) :=
  decidable_of_iff ((s.disk.drv d).mounted = false ∧ (s.disk.drv d).remote = false ∧
    (s.disk.drv d).name = [] ∧
    (s.config.live.cfg.drive d).1 = []) ⟨fun ⟨hm, hr, hn, hc⟩ => ⟨⟨hm, hr, hn⟩, hc⟩,
      fun h => ⟨h.slot.mounted, h.slot.remote, h.slot.name, h.config⟩⟩

instance (x : Desk × Vows) : (a : DeskAct) → Decidable (Orderly x a)
  | .mount _ _ drive _ _ _ _ _ => inferInstanceAs (Decidable (∀ t, x.1.deed t ≠ .unmounted drive))
  | .unmount _ drive =>
    inferInstanceAs (Decidable (x.1.disk.diskIsMounted drive = true ∨ x.1.Vacated drive ∧ ¬x.1.Halfway drive))
  | .letGo t => inferInstanceAs (Decidable (∀ drive, x.1.deed t = .tested drive → ¬x.1.Halfway drive))
  | .setDrive _ | .config _ | .restart _ | .release _ | .gotIp | .hook _ | .lostIp | .take | .install _ _ _ _
  | .openFails | .io _ _ _ => inferInstanceAs (Decidable True)

/-- A blank device. -/
def fresh : Desk :=
  ⟨Outside.blank.disk, ⟨configInit fun _ => none, fun _ => none, fun _ => none, fun _ => .idle⟩,
    fun _ => .idle, false,
    none, [], none⟩

theorem fresh_start : noted.start (fresh, .none) := by
  refine ⟨⟨⟨rfl, rfl, fun _ => rfl⟩, ⟨Outside.shelf, Outside.blank.disk, ?_⟩, fun _ =>
    rfl, rfl, rfl, rfl, rfl⟩, rfl⟩
  rfl

/-- A remote drive is mounted, unmounted and saved. -/
def unmountSaved : List DeskAct :=
  [.gotIp, .mount .serial Outside.shelf 0 [] ['t', 'n', 'f', 's', ':', '/', '/', 'h', '/',
    'x'] 0 none true, .take,
    .install Outside.shelf 10 0 false, .setDrive .serial, .unmount .serial 0,
      .letGo .serial, .setDrive .serial,
    .config (.saveOpen .serial)]
  ++ List.replicate 18 (.config (.put .serial)) ++ [.config (.saveCommit .serial), .restart Outside.shelf]

/-- The drive waits for WiFi when it is unmounted. -/
def unmountWaiting : List DeskAct :=
  [.mount .serial Outside.shelf 0 [] ['t', 'n', 'f', 's', ':', '/', '/', 'h', '/', 'x'] 0 none true,
    .setDrive .serial,
    .unmount .serial 0, .gotIp, .hook true, .take, .install Outside.shelf 10 0 false]

theorem exec_unmountSaved : (noted.exec (fresh, .none) unmountSaved).isSome = true := by decide +kernel

theorem unmount_lasts_saved : ((noted.exec (fresh, .none) unmountSaved).get exec_unmountSaved).1.Vacated 0 :=
  unmount_lasts ⟨_, fresh_start, Machine.exec_path (fun x a => decide (Orderly x a))
    (fun _ _ => of_decide_eq_true)
    (Option.some_get exec_unmountSaved).symm (by decide +kernel)⟩ (by decide +kernel)

theorem exec_unmountWaiting : (noted.exec (fresh, .none) unmountWaiting).isSome = true := by decide +kernel

/-- The unmount of a drive that waits for WiFi does nothing, and the drive is mounted when WiFi comes. -/
theorem unmount_waiting_stays : ∃ x, noted.Reach Machine.always x ∧ x.2.gone 0 = true ∧ ¬x.1.Vacated 0 ∧
    x.1.disk.served 0 = some (.tnfs 10) ∧ (x.1.config.live.cfg.drive 0).1 = (x.1.disk.drv 0).name :=
  ⟨_, ⟨_, fresh_start, Machine.exec_always (Option.some_get exec_unmountWaiting).symm⟩, by decide +kernel,
    by decide +kernel, by decide +kernel, by decide +kernel⟩

end Desk

end FdcSds
