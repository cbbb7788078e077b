import FdcSds.Disk.Unmount

/-! How a slot gets a backing.

    Two steps put a backing into a slot: the table update of a local `disk_mount`, and `worker_mount`'s
    install of a session. Any other step leaves a slot its backing or takes it out. What a backing is
    (its image, its size, the connection it was opened under) never changes after it was opened. -/

namespace FdcSds
open Schemes Runs

namespace State

variable {s s' : State}

/-- The slot this step gives a backing, with that backing. -/
def installs (s : State) : Act → Option (ℕ × ℕ)
  | .task _ (.mountSwap drive _ _ b) => some (drive, b)
  | .worker (.install _ drive url readonly b) =>
    if (s.w.workerInstall drive url b readonly).isSome then some (drive, b) else none
  | _ => none

/-- A slot that is written has what was written, or is another slot. -/
theorem backing_setDrive {w : Disk} {drive d b : ℕ} {new : Drive}
    (hb : ((w.setDrive drive new).drv d).backing = some b) :
    (w.drv d).backing = some b ∨ (d = drive ∧ new.backing = some b) := by
  rw [Disk.setDrive_drv] at hb
  rcases eq_or_ne d drive with rfl | hne
  · rw [Function.update_self] at hb
    exact .inr ⟨rfl, hb⟩
  · rw [Function.update_of_ne hne] at hb
    exact .inl hb

theorem taskStep_backing {t : ℕ} {a : TaskAct} (hs : s.taskStep t a = some s') {d b : ℕ}
    (hb : (s'.w.drv d).backing = some b) :
    (s.w.drv d).backing = some b ∨ s.installs (.task t a) = some (d, b) := by
  have emptied : ∀ {drive : ℕ} {new : Drive}, new.backing = none →
      ((s.w.setDrive drive new).drv d).backing = some b → (s.w.drv d).backing = some b := by
    intro drive new hnew hb
    rcases backing_setDrive hb with hb | ⟨-, hb⟩
    · exact hb
    · rw [hnew] at hb; cases hb
  cases a <;> simp only [taskStep, when_eq_some] at hs <;> obtain ⟨hg, rfl⟩ := hs
  case read drive track len io =>
    obtain ⟨hd, -⟩ := s.w.readEnter_keeps drive track len io
    refine .inl ?_
    rw [← hd]
    revert hb
    split <;> exact id
  case write drive track len data ack io =>
    obtain ⟨hd, -⟩ := s.w.writeEnter_keeps drive track len data io
    refine .inl ?_
    rw [← hd]
    revert hb
    split <;> split <;> exact id
  case mountOpen =>
    revert hb
    split
    · exact .inl
    · exact fun hb => .inl (emptied rfl hb)
  case unmount | config => exact .inl (emptied rfl hb)
  case mountSwap drive name canon b' =>
    rcases backing_setDrive hb with hold | ⟨rfl, hnew⟩
    · exact .inl hold
    · cases hnew; exact .inr rfl
  all_goals
    refine .inl ?_
    revert hb
    repeat' split
  all_goals exact id

theorem workerStep_backing {a : WorkerAct} (hs : s.workerStep a = some s') {d b : ℕ}
    (hb : (s'.w.drv d).backing = some b) :
    (s.w.drv d).backing = some b ∨ s.installs (.worker a) = some (d, b) := by
  cases a <;> simp only [workerStep, when_eq_some] at hs <;> obtain ⟨hg, rfl⟩ := hs
  case install j drive url readonly b' =>
    revert hb
    split
    · rename_i w hins
      intro hb
      simp only [installs, hins, Option.isSome_some, if_true]
      unfold Disk.workerInstall at hins
      dsimp only at hins
      split at hins
      · obtain rfl := Option.some.inj hins
        rcases backing_setDrive hb with hb | ⟨rfl, hb⟩
        · exact .inl hb
        · cases hb; exact .inr rfl
      · cases hins
    · exact .inl
  case publishRead =>
    refine .inl ?_
    revert hb
    split
    · split
      · rename_i hstill
        rw [Disk.workerPublish, if_pos hstill]
        exact id
      · exact id
    · exact id
  case publishWrite j b' r left =>
    refine .inl ?_
    revert hb
    split
    · split
      · unfold Disk.workerPublish
        split <;> exact id
      · show ((Disk.cacheDropDrive ..).drv d).backing = _ → _
        rw [Disk.cacheDropDrive_drv]
        exact id
    · exact id
  case finish =>
    refine .inl ?_
    revert hb
    unfold complete
    split <;> exact id
  all_goals
    refine .inl ?_
    revert hb
    repeat' split
  all_goals exact id

/-- A slot holds what it held, or what this step installed. -/
theorem step_backing {a : Act} (hs : s.step a = some s') {d b : ℕ}
    (hb : (s'.w.drv d).backing = some b) :
    (s.w.drv d).backing = some b ∨ s.installs a = some (d, b) := by
  cases a with
  | task t a => exact taskStep_backing hs hb
  | worker a => exact workerStep_backing hs hb
  | evt a =>
    rcases evtStep_drv hs d with heq | heq <;> rw [heq] at hb
    · exact .inl hb
    · cases hb

/-- The sweep leaves backings and images alone. -/
theorem sweep_keeps (ds : List ℕ) (w : Disk) (bs : List ℕ) :
    let r := ds.foldl (fun (acc : Disk × List ℕ) i =>
      let q := acc.1.sweepOne i; (q.1, acc.2 ++ q.2)) (w, bs)
    r.1.heap = w.heap ∧ r.1.img = w.img := by
  induction ds generalizing w bs with
  | nil => exact ⟨rfl, rfl⟩
  | cons i ds ih =>
    have hone : (w.sweepOne i).1.heap = w.heap ∧ (w.sweepOne i).1.img = w.img := by
      unfold Disk.sweepOne
      dsimp only
      split
      · exact ⟨Disk.setDrive_heap, Disk.setDrive_img⟩
      · exact ⟨rfl, rfl⟩
    have hrest := ih (w.sweepOne i).1 (bs ++ (w.sweepOne i).2)
    rw [List.foldl_cons]
    exact ⟨hrest.1.trans hone.1, hrest.2.trans hone.2⟩

/-- An open backing stays what it is. -/
theorem step_heap {a : Act} (hs : s.step a = some s') :
    s.next ≤ s'.next ∧ ∀ b < s.next, s'.w.heap b = s.w.heap b ∧ s'.stamp b = s.stamp b := by
  have same : ∀ {x : State}, x.next = s.next → x.w.heap = s.w.heap → x.stamp = s.stamp →
      s.next ≤ x.next ∧ ∀ b < s.next, x.w.heap b = s.w.heap b ∧ x.stamp b = s.stamp b :=
    fun hn hh ht => ⟨hn.ge, fun b _ => ⟨by rw [hh], by rw [ht]⟩⟩
  have opened : ∀ {x : State} {i : ImageId} {k : ℕ}, x.next = s.next + 1 →
      x.w.heap = (s.alloc i k).w.heap → x.stamp = (s.alloc i k).stamp →
      s.next ≤ x.next ∧ ∀ b < s.next, x.w.heap b = s.w.heap b ∧ x.stamp b = s.stamp b := by
    refine fun hn hh ht => ⟨by rw [hn]; exact Nat.le_succ _, fun b hb => ⟨?_, ?_⟩⟩
    · rw [hh]; exact Function.update_of_ne (Nat.ne_of_lt hb) ..
    · rw [ht]; exact Function.update_of_ne (Nat.ne_of_lt hb) ..
  cases a with
  | task t a =>
    cases a <;> simp only [step, taskStep, when_eq_some] at hs <;> obtain ⟨hg, rfl⟩ := hs
    case read drive track len io =>
      obtain ⟨-, hh, -⟩ := s.w.readEnter_keeps drive track len io
      split <;> exact same rfl hh rfl
    case write drive track len data ack io =>
      obtain ⟨-, hh, -⟩ := s.w.writeEnter_keeps drive track len data io
      split <;> split <;> exact same rfl hh rfl
    case mountOpen =>
      split
      · exact opened rfl rfl rfl
      · exact same rfl Disk.setDrive_heap rfl
    case unmount | config | mountSwap => exact same rfl Disk.setDrive_heap rfl
    all_goals
      repeat' split
    all_goals exact same rfl rfl rfl
  | worker a =>
    cases a <;> simp only [step, workerStep, when_eq_some] at hs <;> obtain ⟨hg, rfl⟩ := hs
    case newBacking =>
      split
      · exact opened rfl rfl rfl
      · exact same rfl rfl rfl
    case install j drive url readonly b =>
      split
      · rename_i w hins
        refine same rfl ?_ rfl
        unfold Disk.workerInstall at hins
        dsimp only at hins
        split at hins
        · obtain rfl := Option.some.inj hins
          exact Disk.setDrive_heap
        · cases hins
      · exact same rfl rfl rfl
    case publishRead =>
      split
      · split
        · exact same rfl (by unfold Disk.workerPublish; split <;> rfl) rfl
        · exact same rfl rfl rfl
      · exact same rfl rfl rfl
    case publishWrite =>
      split
      · split
        · exact same rfl (by unfold Disk.workerPublish; split <;> rfl) rfl
        · exact same rfl Disk.cacheDropDrive_heap rfl
      · exact same rfl rfl rfl
    case finish => unfold complete; split <;> exact same rfl rfl rfl
    all_goals
      repeat' split
    all_goals exact same rfl rfl rfl
  | evt a =>
    cases a <;> simp only [step, evtStep, when_eq_some] at hs <;> obtain ⟨-, rfl⟩ := hs
    case sweep => exact same rfl (sweep_keeps _ s.w []).1 rfl
    all_goals exact same rfl rfl rfl

/-- What is installed was open. -/
theorem installs_lt (ho : s.ledger.Owned) {a : Act} (hs : s.step a = some s') {d b : ℕ}
    (hi : s.installs a = some (d, b)) : b < s.next := by
  unfold installs at hi
  split at hi
  · rename_i t drive name canon b'
    cases hi
    simp only [step, taskStep, when_eq_some] at hs
    refine ho.custody.lt (show s.ledger.Held (.task t) b from ⟨false, ?_⟩)
    show (s.task t).held = _
    rw [hs.1]; rfl
  · rename_i j drive url readonly b'
    split at hi
    · cases hi
      simp only [step, workerStep, when_eq_some] at hs
      refine ho.custody.lt (show s.ledger.Held .worker b from ?_)
      show s.worker.hand = _
      rw [hs.1]; rfl
    · cases hi
  · cases hi

end State

end FdcSds
