import FdcSds.Disk.Ownership

/-! What holds of every backing, and of a drive after its unmount.

    A local `disk_mount` holds the mount lock from its open to its table update, and `disk_unmount` takes
    it, so right after an unmount no local mount of the drive is under way; the worker only fills slots
    that are configured as remote drives, and the unmount took that away. -/

namespace FdcSds
open Schemes Runs

/-- The task is inside a local `disk_mount`, holding the mount lock. -/
def TaskPc.locks : TaskPc → Bool
  | .opening _ _ | .opened _ _ _ | .dispose _ _ .unlock | .unlock => true
  | _ => false

/-- The drive a local `disk_mount` is about to give an image. -/
def TaskPc.mounting : TaskPc → Option ℕ
  | .opening drive _ | .opened drive _ _ => some drive
  | _ => none

namespace State

variable {s s' : State}

/-! ### The mount lock -/

/-- Whoever is inside a local `disk_mount` is the holder of the mount lock. -/
def Locked (s : State) : Prop := ∀ t, (s.task t).locks = true → s.mountLock = some t

/-- A task's program point and the lock change together. -/
theorem Locked.update {pc : TaskPc} {t : ℕ} (hl : s.Locked) (htask : s'.task = Function.update s.task t pc)
    (h : (pc.locks = false ∧ s'.mountLock = s.mountLock) ∨ (pc.locks = true ∧ s'.mountLock = some t ∧
      (s.mountLock = none ∨ s.mountLock = some t)) ∨
      (pc.locks = false ∧ s'.mountLock = none ∧ (s.task t).locks = true)) : s'.Locked := by
  intro u hu
  rw [htask] at hu
  rcases eq_or_ne u t with rfl | hne
  · rw [Function.update_self] at hu
    rcases h with ⟨hpc, -⟩ | ⟨-, hlock, -⟩ | ⟨hpc, -⟩
    · rw [hpc] at hu; cases hu
    · exact hlock
    · rw [hpc] at hu; cases hu
  · rw [Function.update_of_ne hne] at hu
    have hold := hl u hu
    rcases h with ⟨-, hlock⟩ | ⟨-, -, hfree | hmine⟩ | ⟨-, -, hmine⟩
    · rw [hlock]; exact hold
    · rw [hfree] at hold; cases hold
    · rw [hmine] at hold; exact absurd (Option.some.inj hold).symm hne
    · rw [hl t hmine] at hold; exact absurd (Option.some.inj hold).symm hne

theorem locks_disposeOf (old : Drive) (k : After) : (disposeOf old k).locks = k.pc.locks := by
  unfold disposeOf
  cases old.backing <;> cases k <;> rfl

/-- A step of `backing_dispose` keeps the lock where the continuation expects it. -/
theorem Locked.dispose {t b : ℕ} {r : Bool} {k : After} (hl : s.Locked) (hpc : s.task t = .dispose b r k)
    (htask : s'.task = Function.update s.task t k.pc) (hlock : s'.mountLock = s.mountLock) :
    s'.Locked := by
  cases k with
  | unlock =>
    have hmine := hl t (by rw [hpc]; rfl)
    exact hl.update htask (.inr (.inl ⟨rfl, hlock.trans hmine, .inr hmine⟩))
  | ret => exact hl.update htask (.inl ⟨rfl, hlock⟩)
  | config d => exact hl.update htask (.inl ⟨rfl, hlock⟩)

theorem taskStep_locked {t : ℕ} {a : TaskAct} (hl : s.Locked) (h : s.taskStep t a = some s') :
    s'.Locked := by
  cases a <;> simp only [taskStep, when_eq_some] at h <;> obtain ⟨hg, rfl⟩ := h
  case read => split <;> first | exact hl | exact hl.update rfl (.inl ⟨rfl, rfl⟩)
  case copyOut => split <;> exact hl.update rfl (.inl ⟨rfl, rfl⟩)
  case wake => exact hl.update rfl (.inl ⟨by split <;> rfl, rfl⟩)
  case writCheck => split <;> first | exact hl | exact hl.update rfl (.inl ⟨rfl, rfl⟩)
  case writCheckRw => exact hl.update rfl (.inl ⟨by split <;> rfl, rfl⟩)
  case payload => exact hl.update rfl (.inl ⟨by split <;> rfl, rfl⟩)
  case write => split <;> split <;> exact hl.update rfl (.inl ⟨rfl, rfl⟩)
  case unmount => exact hl.update rfl (.inl ⟨locks_disposeOf .., rfl⟩)
  case config => exact hl.update rfl (.inl ⟨locks_disposeOf .., rfl⟩)
  case configNet => exact hl.update rfl (.inl ⟨by split <;> rfl, rfl⟩)
  case mountBegin => exact hl.update rfl (.inr (.inl ⟨rfl, rfl, .inl hg.2.2.2.2⟩))
  case mountOpen =>
    have hmine := hl t (by rw [hg.1]; rfl)
    split
    · exact hl.update rfl (.inr (.inl ⟨rfl, hmine, .inr hmine⟩))
    · exact hl.update rfl (.inr (.inl ⟨locks_disposeOf .., hmine, .inr hmine⟩))
  case mountSwap =>
    exact hl.update rfl (.inr (.inr ⟨locks_disposeOf .., rfl, by rw [hg]; rfl⟩))
  case unlock => exact hl.update rfl (.inr (.inr ⟨rfl, rfl, by rw [hg]; rfl⟩))
  case disposeLocal => exact hl.dispose hg rfl rfl
  case disposeSend => exact hl.dispose hg.1 rfl rfl
  case disposeLeak => exact hl.dispose hg rfl rfl
  case imageSize => exact hl
  all_goals exact hl.update rfl (.inl ⟨rfl, rfl⟩)

theorem step_locked (hl : s.Locked) {a : Act} (h : s.step a = some s') : s'.Locked := by
  cases a with
  | task t a => exact taskStep_locked hl h
  | worker a =>
    obtain ⟨htask, -, -, -, -, -, hlock, -⟩ := workerStep_frame h
    rw [Locked, htask, hlock]; exact hl
  | evt a =>
    obtain ⟨htask, -, -, hlock, -⟩ := evtStep_frame h
    rw [Locked, htask, hlock]; exact hl

theorem reach_locked {ok : State → Act → Prop} (h : diskMachine.Reach ok s) : s.Locked :=
  h.invariant (I := Locked) (fun s hs t ht => by
      have := (hs : s.Start).idle.1 t
      rw [this] at ht; cases ht)
    fun _ _ _ hl _ hstep => step_locked hl hstep

/-! ### After an unmount -/

/-- A new request to mount something on the drive. -/
def requestsMount (d : ℕ) : Act → Prop
  | .task _ (.mountBegin drive _) | .task _ (.config drive _) => drive = d
  | _ => False

/-- Nothing mounts the drive by itself: it is empty, not configured, and no `disk_mount` is under way. -/
structure Quiet (s : State) (d : ℕ) : Prop where
  mounted : (s.w.drv d).mounted = false
  remote : (s.w.drv d).remote = false
  mounting : ∀ t, (s.task t).mounting ≠ some d

variable {d : ℕ}

theorem Quiet.update {t : ℕ} {pc : TaskPc} (hq : s.Quiet d)
    (htask : s'.task = Function.update s.task t pc) (hpc : pc.mounting ≠ some d)
    (hdrv : s'.w.drv d = s.w.drv d ∨ s'.w.drv d = .empty) : s'.Quiet d := by
  refine ⟨?_, ?_, fun u => ?_⟩
  · rcases hdrv with h | h <;> rw [h]
    · exact hq.mounted
    · rfl
  · rcases hdrv with h | h <;> rw [h]
    · exact hq.remote
    · rfl
  · rw [htask]
    rcases eq_or_ne u t with rfl | hne
    · rwa [Function.update_self]
    · rw [Function.update_of_ne hne]; exact hq.mounting u

theorem mounting_disposeOf (old : Drive) (k : After) : (disposeOf old k).mounting = none := by
  unfold disposeOf
  cases old.backing <;> cases k <;> rfl

theorem mounting_after (k : After) : k.pc.mounting = none := by cases k <;> rfl

/-- Emptying a slot leaves every slot as it was or empty. -/
theorem drv_unmount (w : Disk) (drive d : ℕ) :
    (w.unmount drive).drv d = w.drv d ∨ (w.unmount drive).drv d = .empty := by
  rw [Disk.unmount, Disk.setDrive_drv]
  rcases eq_or_ne d drive with rfl | hne
  · exact .inr (Function.update_self ..)
  · exact .inl (Function.update_of_ne hne ..)

theorem taskStep_quiet {t : ℕ} {a : TaskAct} (hq : s.Quiet d) (ha : ¬requestsMount d (.task t a))
    (h : s.taskStep t a = some s') : s'.Quiet d := by
  cases a <;> simp only [taskStep, when_eq_some] at h <;> obtain ⟨hg, rfl⟩ := h
  case read drive track len io =>
    obtain ⟨hd, -⟩ := s.w.readEnter_keeps drive track len io
    have hdrv : (s.w.readEnter drive track len io).disk.drv d = s.w.drv d := by rw [hd]
    split
    · exact ⟨by rw [← hq.mounted, ← hdrv]; rfl, by rw [← hq.remote, ← hdrv]; rfl, hq.mounting⟩
    · exact ⟨by rw [← hq.mounted, ← hdrv]; rfl, by rw [← hq.remote, ← hdrv]; rfl, hq.mounting⟩
    · exact hq.update rfl (by rintro ⟨⟩) (.inl hdrv)
  case copyOut => split <;> exact hq.update rfl (by rintro ⟨⟩) (.inl rfl)
  case wake => exact hq.update rfl (by split <;> rintro ⟨⟩) (.inl rfl)
  case writCheck => split <;> first | exact hq | exact hq.update rfl (by rintro ⟨⟩) (.inl rfl)
  case writCheckRw => exact hq.update rfl (by split <;> rintro ⟨⟩) (.inl rfl)
  case payload => exact hq.update rfl (by split <;> rintro ⟨⟩) (.inl rfl)
  case write drive track len data ack io =>
    obtain ⟨hd, -⟩ := s.w.writeEnter_keeps drive track len data io
    have hdrv : (s.w.writeEnter drive track len data io).disk.drv d = s.w.drv d := by rw [hd]
    split <;> split <;> exact hq.update rfl (by rintro ⟨⟩) (.inl hdrv)
  case unmount drive =>
    exact hq.update rfl (by rw [mounting_disposeOf]; rintro ⟨⟩) (drv_unmount ..)
  case mountBegin drive name =>
    exact hq.update rfl (fun heq => ha (Option.some.inj heq)) (.inl rfl)
  case mountOpen drive name image =>
    have hne := hq.mounting t
    rw [hg.1] at hne
    split
    · exact hq.update rfl hne (.inl rfl)
    · exact hq.update rfl (by rw [mounting_disposeOf]; rintro ⟨⟩) (drv_unmount ..)
  case mountSwap drive name canon b =>
    have hne : d ≠ drive := by
      have := hq.mounting t
      rw [hg] at this
      exact fun heq => this (by rw [heq]; rfl)
    refine hq.update rfl (by rw [mounting_disposeOf]; rintro ⟨⟩) (.inl ?_)
    show (s.w.mountLocal drive name canon b).drv d = _
    rw [Disk.mountLocal, Disk.setDrive_drv, Function.update_of_ne hne]
  case config drive url =>
    have hne : d ≠ drive := fun heq => ha heq.symm
    refine hq.update rfl (by rw [mounting_disposeOf]; rintro ⟨⟩) (.inl ?_)
    show (s.w.configure drive url).drv d = _
    rw [Disk.configure, Disk.setDrive_drv, Function.update_of_ne hne]
  case configNet => exact hq.update rfl (by split <;> rintro ⟨⟩) (.inl rfl)
  case disposeLocal => exact hq.update rfl (by rw [mounting_after]; rintro ⟨⟩) (.inl rfl)
  case disposeSend => exact hq.update rfl (by rw [mounting_after]; rintro ⟨⟩) (.inl rfl)
  case disposeLeak => exact hq.update rfl (by rw [mounting_after]; rintro ⟨⟩) (.inl rfl)
  case imageSize => exact ⟨hq.mounted, hq.remote, hq.mounting⟩
  all_goals exact hq.update rfl (by rintro ⟨⟩) (.inl rfl)

/-- The worker changes a slot only by installing a session on a configured remote one. -/
theorem workerStep_drv {a : WorkerAct} (h : s.workerStep a = some s') (d : ℕ) :
    s'.w.drv d = s.w.drv d ∨ ((s.w.drv d).remote = true ∧ (s.w.drv d).mounted = false) := by
  cases a <;> simp only [workerStep, when_eq_some] at h <;> obtain ⟨-, rfl⟩ := h
  case install j drive url readonly b =>
    split
    · rename_i w hins
      unfold Disk.workerInstall at hins
      dsimp only at hins
      split at hins
      · rename_i hk
        obtain rfl := Option.some.inj hins
        simp only [Bool.and_eq_true, Bool.not_eq_true'] at hk
        rcases eq_or_ne d drive with rfl | hne
        · exact .inr ⟨hk.1.1.2, hk.1.2⟩
        · refine .inl ?_
          show (s.w.setDrive drive _).drv d = _
          rw [Disk.setDrive_drv, Function.update_of_ne hne]
      · cases hins
    · exact .inl rfl
  case publishRead j b data =>
    refine .inl ?_
    split
    · split
      · show (Disk.workerPublish ..).drv d = _
        unfold Disk.workerPublish; split <;> rfl
      · rfl
    · rfl
  case publishWrite j b r left =>
    refine .inl ?_
    split
    · split
      · show (Disk.workerPublish ..).drv d = _
        unfold Disk.workerPublish; split <;> rfl
      · show (Disk.cacheDropDrive ..).drv d = _
        rw [Disk.cacheDropDrive_drv]
    · rfl
  case finish => exact .inl (by unfold complete; split <;> rfl)
  all_goals
    refine .inl ?_
    repeat' split
  all_goals rfl

/-- The sweep takes the backing out of every mounted remote slot and touches no other slot. -/
theorem sweep_drv (ds : List ℕ) (w : Disk) (bs : List ℕ) (d : ℕ) :
    let r := ds.foldl (fun (acc : Disk × List ℕ) i =>
      let q := acc.1.sweepOne i; (q.1, acc.2 ++ q.2)) (w, bs)
    r.1.drv d = w.drv d ∨ r.1.drv d =
      { w.drv d with backing := none, mounted := false, readonly := false } := by
  induction ds generalizing w bs with
  | nil => exact .inl rfl
  | cons i ds ih =>
    simp only [List.foldl_cons]
    have hone : (w.sweepOne i).1.drv d = w.drv d ∨ (w.sweepOne i).1.drv d =
        { w.drv d with backing := none, mounted := false, readonly := false } := by
      unfold Disk.sweepOne
      dsimp only
      split
      · rw [Disk.setDrive_drv]
        rcases eq_or_ne d i with rfl | hne
        · exact .inr (Function.update_self ..)
        · exact .inl (Function.update_of_ne hne ..)
      · exact .inl rfl
    rcases ih (w.sweepOne i).1 (bs ++ (w.sweepOne i).2) with h | h <;> rcases hone with h₁ | h₁ <;>
      rw [h, h₁] <;> simp

theorem evtStep_drv {a : EventAct} (h : s.evtStep a = some s') (d : ℕ) :
    s'.w.drv d = s.w.drv d ∨ s'.w.drv d =
      { s.w.drv d with backing := none, mounted := false, readonly := false } := by
  cases a <;> simp only [evtStep, when_eq_some] at h <;> obtain ⟨-, rfl⟩ := h
  case sweep => exact sweep_drv (List.range diskMaxDrive) s.w [] d
  all_goals exact .inl rfl

theorem step_quiet {a : Act} (hq : s.Quiet d) (ha : ¬requestsMount d a) (h : s.step a = some s') :
    s'.Quiet d := by
  cases a with
  | task t a => exact taskStep_quiet hq ha h
  | worker a =>
    obtain ⟨htask, -⟩ := workerStep_frame h
    have hdrv : s'.w.drv d = s.w.drv d := by
      rcases workerStep_drv h d with hsame | ⟨hr, -⟩
      · exact hsame
      · rw [hq.remote] at hr; cases hr
    exact ⟨by rw [hdrv, hq.mounted], by rw [hdrv, hq.remote], by rw [htask]; exact hq.mounting⟩
  | evt a =>
    obtain ⟨htask, -⟩ := evtStep_frame h
    refine ⟨?_, ?_, by rw [htask]; exact hq.mounting⟩
    · rcases evtStep_drv h d with hsame | hswept
      · rw [hsame, hq.mounted]
      · rw [hswept]
    · rcases evtStep_drv h d with hsame | hswept
      · rw [hsame, hq.remote]
      · rw [hswept, ← hq.remote]

/-- Right after the table update of `disk_unmount`, with the lock free, the drive is quiet. -/
theorem unmount_quiet {t : ℕ} (hl : s.Locked) (h : s.step (.task t (.unmount d)) = some s') :
    s'.Quiet d := by
  simp only [step, taskStep, when_eq_some] at h
  obtain ⟨⟨hpc, -, hfree⟩, rfl⟩ := h
  have hdrv : (s.w.unmount d).drv d = .empty := by
    rw [Disk.unmount, Disk.setDrive_drv, Function.update_self]
  refine ⟨by show ((s.w.unmount d).drv d).mounted = _; rw [hdrv]; rfl,
    by show ((s.w.unmount d).drv d).remote = _; rw [hdrv]; rfl, fun u hu => ?_⟩
  have hlocks : (s.task u).locks = true ∨ u = t := by
    rcases eq_or_ne u t with rfl | hne
    · exact .inr rfl
    · refine .inl ?_
      have : (s.task u).mounting = some d := by
        rw [← hu]; exact congrArg TaskPc.mounting (Function.update_of_ne hne ..).symm
      revert this
      cases s.task u <;> simp [TaskPc.mounting, TaskPc.locks]
  rcases hlocks with hlocks | rfl
  · exact absurd (hl u hlocks) (by rw [hfree]; rintro ⟨⟩)
  · have : (Function.update s.task u (disposeOf (s.w.drv d) .ret) u).mounting = some d := hu
    rw [Function.update_self, mounting_disposeOf] at this
    cases this

/-! ### Backings are owned and closed once -/

/-- The step gives up on handing `b` to the worker: its CLOSE job was not allocated or not enqueued. -/
def failsToEnqueue (b : ℕ) : Act → Prop
  | .task _ (.disposeLeak b' _) | .evt (.disposeLeak b' _) => b' = b
  | _ => False

theorem step_leaked {a : Act} (h : s.step a = some s') {b : ℕ} (hb : b ∈ s'.leaked) :
    b ∈ s.leaked ∨ failsToEnqueue b a := by
  cases a with
  | worker a =>
    obtain ⟨-, -, -, -, -, -, -, hleaked, -⟩ := workerStep_frame h
    exact .inl (hleaked ▸ hb)
  | task t a =>
    cases a <;> simp only [step, taskStep, when_eq_some] at h <;> obtain ⟨-, rfl⟩ := h
    case disposeLeak =>
      rcases List.mem_cons.mp hb with rfl | hb
      · exact .inr rfl
      · exact .inl hb
    all_goals
      refine .inl ?_
      revert hb
      repeat' split
    all_goals exact id
  | evt a =>
    cases a <;> simp only [step, evtStep, when_eq_some] at h <;> obtain ⟨-, rfl⟩ := h
    case disposeLeak =>
      rcases List.mem_cons.mp hb with rfl | hb
      · exact .inr rfl
      · exact .inl hb
    all_goals exact .inl hb

/-- CORRECT: in every reachable state each backing ever opened is at exactly one place (a slot, a
    running call, a queued CLOSE job, the worker, closed, or leaked because its CLOSE job could not be
    enqueued); no call on a backing follows its close; transfers and closes of a remote backing are
    the worker's; the slot's flag is the kind of its backing. And once `disk_unmount` has updated the
    table, the drive stays unmounted until somebody asks to mount it. -/
theorem backings_owned_once {ok : State → Act → Prop} (h : diskMachine.Reach ok s) :
    (∀ b, b < s.next ↔ ∃ p, s.ledger.Held p b) ∧
    (∀ p q b, s.ledger.Held p b → s.ledger.Held q b → p = q) ∧
    (∀ d d' b, (s.w.drv d).backing = some b → (s.w.drv d').backing = some b → d = d') ∧
    (s.calls.Pairwise fun later earlier => earlier.method = .close → earlier.b ≠ later.b) ∧
    (∀ c ∈ s.calls, c.method ≠ .size → (s.w.heap c.b).image.remote = true → c.who = .worker) ∧
    (∀ d b, (s.w.drv d).backing = some b → (s.w.drv d).remote = (s.w.heap b).image.remote) ∧
    (∀ a s' b, s.step a = some s' → b ∈ s'.leaked → b ∈ s.leaked ∨ failsToEnqueue b a) ∧
    (∀ t d s' s'', s.step (.task t (.unmount d)) = some s' →
      diskMachine.Path (fun _ a => ¬requestsMount d a) s' s'' → (s''.w.drv d).mounted = false) := by
  have ho := reach_owned h
  refine ⟨fun b => ⟨ho.custody.exists_holder, fun ⟨p, hp⟩ => ho.custody.lt hp⟩,
    fun p q b => ho.custody.unique, fun d d' b hb hb' => ?_, ho.order, ho.onWorker, ho.slotKind,
    fun a s' b hstep => step_leaked hstep, fun t d s' s'' hstep hpath => ?_⟩
  · exact Place.slot.inj (ho.custody.unique (show s.ledger.Held (.slot d) b from hb)
      (show s.ledger.Held (.slot d') b from hb'))
  · have hq := unmount_quiet (reach_locked h) hstep
    exact (hpath.invariant (I := fun x : State => x.Quiet d)
      (fun _ _ _ hq ha hstep => step_quiet hq ha hstep) hq).mounted

/-- After one mount of a card image: its backing is in slot 0 and nowhere else. -/
theorem backings_owned_firstMounted :
    (∃ p, firstMounted.ledger.Held p 0) ∧ ∀ p, firstMounted.ledger.Held p 0 → p = .slot 0 := by
  have hreach : diskMachine.Reach Machine.always firstMounted :=
    ⟨boot, boot_start, Machine.exec_always (Option.some_get exec_mountFirst).symm⟩
  obtain ⟨hall, hone, -⟩ := backings_owned_once hreach
  exact ⟨(hall 0).mp (by decide), fun p hp => hone p (.slot 0) 0 hp (by
    show (firstMounted.w.drv 0).backing = some 0
    decide)⟩

end State

end FdcSds
