import FdcSds.Disk.Bounds
import FdcSds.Disk.Freshness

/-! Where a WRIT lands.

    A WRIT is acknowledged for the image on its drive when WRIT OK is sent. From there to the transfer
    the payload is addressed to a drive number, which is looked up again after the payload came in and
    once more when the worker takes the job. Whatever image the drive holds at those points gets it.

        WRIT OK ─▶ payload ─▶ disk_write_track ─▶ post ─▶ queue ─▶ worker lookup ─▶ transfer
           └──────────── outstanding: another image on the drive gets the payload ───┘       -/

namespace FdcSds
open Schemes Runs

/-- The drive and the acknowledged image of a WRIT between its OK and the transfer, on its task. -/
def TaskPc.acked : TaskPc → Option (ℕ × Option ImageId)
  | .writPayload drive _ _ ack | .writStore drive _ _ _ ack | .post (.write drive _ _ _ ack) =>
    some (drive, ack)
  | _ => none

/-- The drive and the acknowledged image of a WRITE job. -/
def JobKind.acked : JobKind → Option (ℕ × Option ImageId)
  | .request (.write drive _ _ _ ack) => some (drive, ack)
  | _ => none

/-- The acknowledged image of the write this step may change images for. -/
def Act.acked : Act → Option (Option ImageId)
  | .task _ (.write _ _ _ _ ack _) => some ack
  | .worker (.tear j _ _) | .worker (.writeEnd j _ _) => j.kind.acked.map (·.2)
  | _ => none

namespace State

variable {s s' : State} {d : ℕ} {ack : Option ImageId}

/-- A WRIT on this drive was acknowledged, and its payload is not yet bound to a backing. -/
def Outstanding (s : State) (d : ℕ) (ack : Option ImageId) : Prop :=
  (∃ t, (s.task t).acked = some (d, ack)) ∨ (∃ j ∈ s.queue, j.kind.acked = some (d, ack)) ∨
    ∃ j, s.worker = .lookup j ∧ j.kind.acked = some (d, ack)

/-- A step gives a drive no image but the one its outstanding WRITs were acknowledged for. -/
def keepsAcked (s : State) (a : Act) : Prop :=
  ∀ d b, s.installs a = some (d, b) → ∀ ack, s.Outstanding d ack → ack = some (s.w.heap b).image

/-- The invariant: an outstanding WRIT finds its image, and every write went where it belongs. -/
structure Acked (s : State) : Prop where
  slots : ∀ d ack, s.Outstanding d ack → ∀ b, (s.w.drv d).backing = some b →
    ack = some (s.w.heap b).image
  hand : ∀ j b d ack, s.worker.borrowing = some (j, b) → j.kind.acked = some (d, ack) →
    ack = some (s.w.heap b).image
  calls : ∀ c ∈ s.calls, c.method = .write → c.ack = some (s.w.heap c.b).image

/-! ### How a WRIT becomes outstanding -/

theorem acked_after (k : After) : k.pc.acked = none := by cases k <;> rfl

theorem acked_disposeOf (old : Drive) (k : After) : (disposeOf old k).acked = none := by
  unfold disposeOf
  cases old.backing with
  | none => exact acked_after k
  | some b => rfl

/-- A task moves to a program point; what was outstanding already, stays accounted for. -/
theorem Outstanding.setTask {P : Prop} {t : ℕ} {pc : TaskPc} {queue : List Job}
    (h : s'.Outstanding d ack) (htask : s'.task = Function.update s.task t pc)
    (hpc : pc.acked = some (d, ack) → s.Outstanding d ack ∨ P) (hqueue : s'.queue = s.queue ++ queue)
    (hnew : ∀ j ∈ queue, j.kind.acked = some (d, ack) → s.Outstanding d ack)
    (hworker : s'.worker = s.worker) : s.Outstanding d ack ∨ P := by
  rcases h with ⟨u, hu⟩ | ⟨j, hj, hk⟩ | ⟨j, hw, hk⟩
  · rw [htask] at hu
    rcases eq_or_ne u t with rfl | hne
    · rw [Function.update_self] at hu
      exact hpc hu
    · rw [Function.update_of_ne hne] at hu
      exact .inl (.inl ⟨u, hu⟩)
  · rw [hqueue] at hj
    rcases List.mem_append.mp hj with hj | hj
    · exact .inl (.inr (.inl ⟨j, hj, hk⟩))
    · exact .inl (hnew j hj hk)
  · exact .inl (.inr (.inr ⟨j, hworker ▸ hw, hk⟩))

theorem taskStep_outstanding {t : ℕ} {a : TaskAct} (hs : s.taskStep t a = some s')
    (h : s'.Outstanding d ack) :
    s.Outstanding d ack ∨ (ack = s.imageOn d ∧ s.installs (.task t a) = none) := by
  have other : ∀ {P : Prop} {x : State} {pc : TaskPc}, x.Outstanding d ack →
      x.task = Function.update s.task t pc → pc.acked = none → x.queue = s.queue →
      x.worker = s.worker → s.Outstanding d ack ∨ P :=
    fun hx htask hpc hqueue hworker => hx.setTask htask (by rw [hpc]; exact fun hno => by cases hno)
      (by rw [hqueue, List.append_nil]) (fun _ hj => by cases hj) hworker
  have carry : ∀ {P : Prop} {x : State} {pc : TaskPc}, x.Outstanding d ack →
      x.task = Function.update s.task t pc → pc.acked = (s.task t).acked → x.queue = s.queue →
      x.worker = s.worker → s.Outstanding d ack ∨ P :=
    fun hx htask hpc hqueue hworker => hx.setTask htask (by
      rw [hpc]
      exact fun hold => .inl (.inl ⟨t, hold⟩)) (by rw [hqueue, List.append_nil])
      (fun _ hj => by cases hj) hworker
  cases a <;> simp only [taskStep, when_eq_some] at hs <;> obtain ⟨hg, rfl⟩ := hs
  case read =>
    revert h
    split
    · exact .inl
    · exact .inl
    · exact fun h => other h rfl rfl rfl rfl
  case enqueue k =>
    refine h.setTask rfl (by rintro ⟨⟩) rfl (fun j hj hk => ?_) rfl
    obtain rfl := List.mem_singleton.mp hj
    refine .inl ⟨t, ?_⟩
    rw [hg.1]
    cases k <;> exact hk
  case writReply drive track len =>
    refine h.setTask rfl (fun hpc => ?_) (List.append_nil _).symm (by rintro _ ⟨⟩) rfl
    cases hpc
    exact .inr ⟨rfl, rfl⟩
  case payload drive track len ack data =>
    cases data with
    | none => exact other h rfl rfl rfl rfl
    | some x => exact carry h rfl (by rw [hg.1]; rfl) rfl rfl
  case write drive track len data ack' io =>
    revert h
    split <;> split <;> intro h
    · exact other h rfl rfl rfl rfl
    · exact other h rfl rfl rfl rfl
    · exact carry h rfl (by rw [hg.1]; rfl) rfl rfl
    · exact carry h rfl (by rw [hg.1]; rfl) rfl rfl
  case disposeSend b k =>
    refine h.setTask rfl (by rw [acked_after]; rintro ⟨⟩) rfl (fun j hj hk => ?_) rfl
    obtain rfl := List.mem_singleton.mp hj
    cases hk
  case copyOut => revert h; split <;> exact fun h => other h rfl rfl rfl rfl
  case writCheck =>
    revert h
    split
    · exact fun h => other h rfl rfl rfl rfl
    · exact .inl
  case mountOpen =>
    revert h
    split
    · exact fun h => other h rfl rfl rfl rfl
    · exact fun h => other h rfl (acked_disposeOf ..) rfl rfl
  case wake | writCheckRw | configNet => exact other h rfl (by split <;> rfl) rfl rfl
  case unmount | config | mountSwap => exact other h rfl (acked_disposeOf ..) rfl rfl
  case disposeLocal | disposeLeak => exact other h rfl (acked_after _) rfl rfl
  case imageSize => exact .inl h
  all_goals exact other h rfl rfl rfl rfl

/-- A WRIT becomes outstanding only with its OK, for the image on the drive at that moment. -/
theorem step_outstanding {a : Act} (hs : s.step a = some s') (h : s'.Outstanding d ack) :
    s.Outstanding d ack ∨ (ack = s.imageOn d ∧ s.installs a = none) := by
  cases a with
  | task t a => exact taskStep_outstanding hs h
  | evt a =>
    obtain ⟨htask, hworker, -⟩ := evtStep_frame hs
    refine .inl ?_
    rcases h with ⟨t, ht⟩ | ⟨j, hj, hk⟩ | ⟨j, hw, hk⟩
    · exact .inl ⟨t, htask ▸ ht⟩
    · refine .inr (.inl ?_)
      cases a <;> simp only [step, evtStep, when_eq_some] at hs <;> obtain ⟨-, rfl⟩ := hs
      case disposeSend | mountPost =>
        rcases List.mem_append.mp hj with hj | hj
        · exact ⟨j, hj, hk⟩
        · obtain rfl := List.mem_singleton.mp hj
          cases hk
      all_goals exact ⟨j, hj, hk⟩
    · exact .inr (.inr ⟨j, hworker ▸ hw, hk⟩)
  | worker a =>
    have htask := (workerStep_frame hs).1
    refine .inl ?_
    rcases h with ⟨t, ht⟩ | ⟨j, hj, hk⟩ | ⟨j, hw, hk⟩
    · exact .inl ⟨t, htask ▸ ht⟩
    · refine .inr (.inl ⟨j, ?_, hk⟩)
      cases a <;> simp only [step, workerStep, when_eq_some] at hs <;> obtain ⟨hg, rfl⟩ := hs
      case take => rw [hg.2]; exact List.mem_cons_of_mem _ hj
      case finish => revert hj; unfold complete; split <;> exact id
      all_goals
        revert hj
        repeat' split
      all_goals exact id
    · -- the worker looks up only what it took from the queue
      cases a <;> simp only [step, workerStep, when_eq_some] at hs <;> obtain ⟨hg, rfl⟩ := hs
      case take j' rest =>
        have hj : j' = j := by
          have : j'.begin = .lookup j := hw
          unfold Job.begin at this
          split at this <;> cases this
          rfl
        subst hj
        exact .inr (.inl ⟨j', by rw [hg.2]; exact List.mem_cons_self .., hk⟩)
      all_goals
        revert hw
        repeat' split
      all_goals
        intro hw
        first | exact .inr (.inr ⟨j, hw, hk⟩) | cases hw

/-! ### Where writes go -/

theorem transfer_of_acked {k : JobKind} (hk : k.acked = some (d, ack)) :
    ∃ track len, k.transfer = some (d, track, len, true) := by
  unfold JobKind.acked at hk
  split at hk <;> cases hk
  exact ⟨_, _, rfl⟩

/-- The worker binds a WRITE job to the backing on its drive at the lookup. -/
theorem step_hand {a : Act} (hs : s.step a = some s') {j : Job} {b : ℕ}
    (hb : s'.worker.borrowing = some (j, b)) (hk : j.kind.acked = some (d, ack)) :
    s.worker.borrowing = some (j, b) ∨ (s.worker = .lookup j ∧ (s.w.drv d).backing = some b) := by
  obtain ⟨track, len, htr⟩ := transfer_of_acked hk
  exact (step_bound hs hb htr).imp_right fun h => ⟨h.1, ((s.w.workerLookup_keeps _ _ _ _).2 _ h.2).1⟩

theorem readEnter_no_write (w : Disk) (drive : ℕ) (track : UInt32) (len : ℕ) (io : ReadIo) :
    ∀ m ∈ (w.readEnter drive track len io).calls, m.1 ≠ .write := by
  intro m hm
  rcases w.readEnter_cases drive track len io with ⟨e, hr, -⟩ | ⟨b, -, hcase⟩
  · rw [hr] at hm
    rw [(Disk.checkTrack_calls hm).1]
    exact nofun
  · rcases hcase with ⟨_, -, hr⟩ | ⟨-, -, hr⟩ | ⟨-, -, -, hr⟩ | ⟨-, -, _, -, hr⟩ <;> rw [hr] at hm <;>
      simp only [List.mem_cons, List.not_mem_nil, or_false] at hm
    · rw [hm]; exact nofun
    · rw [hm]; exact nofun
    · rcases hm with rfl | rfl <;> exact nofun
    · rcases hm with rfl | rfl <;> exact nofun

/-- A logged region adds its own calls. -/
theorem mem_log {who : Who} {ms : List (Method × ℕ)} {c : Call} (hc : c ∈ (s.log who ms ack).calls) :
    c ∈ s.calls ∨ (c.method, c.b) ∈ ms ∧ c.ack = ack := by
  rcases List.mem_append.mp hc with hc | hc
  · obtain ⟨m, hmem, rfl⟩ := List.mem_map.mp (List.mem_reverse.mp hc)
    exact .inr ⟨hmem, rfl⟩
  · exact .inl hc

/-- A new write call is a local write to the backing on the WRIT's drive, or the worker's to the
    backing it bound. -/
theorem step_calls {a : Act} (hs : s.step a = some s') {c : Call} (hc : c ∈ s'.calls)
    (hm : c.method = .write) : c ∈ s.calls ∨
      (∃ d, s.Outstanding d c.ack ∧ (s.w.drv d).backing = some c.b) ∨
      ∃ j d, s.worker.borrowing = some (j, c.b) ∧ j.kind.acked = some (d, c.ack) := by
  have quiet : ∀ (who : Who) (ms : List (Method × ℕ)), (∀ m ∈ ms, m.1 ≠ .write) →
      c ∈ (s.log who ms none).calls → c ∈ s.calls := by
    intro who ms hms hc
    rcases mem_log hc with hold | ⟨hmem, -⟩
    · exact hold
    · exact absurd hm (hms _ hmem)
  cases a with
  | evt a => exact .inl ((evtStep_frame hs).2.2.2.2.2.2.2 ▸ hc)
  | task t a =>
    cases a <;> simp only [step, taskStep, when_eq_some] at hs <;> obtain ⟨hg, rfl⟩ := hs
    case read drive track len io =>
      refine .inl (quiet (.task t) _ (readEnter_no_write s.w drive track len io) ?_)
      revert hc
      split <;> exact id
    case write drive track len data ack io =>
      obtain ⟨-, -, hcalls⟩ := s.w.writeEnter_keeps drive track len data io
      have hc' : c ∈ (s.log (.task t) (s.w.writeEnter drive track len data io).calls ack).calls := by
        revert hc
        split <;> split <;> exact id
      rcases mem_log hc' with hold | ⟨hmem, hack⟩
      · exact .inl hold
      · refine .inr (.inl ⟨drive, .inl ⟨t, ?_⟩, (hcalls _ hmem).2.1⟩)
        rw [hg.1, hack]; rfl
    case mountSwap drive name canon b => exact .inl (quiet (.task t) [(.size, b)] (by simp) hc)
    case disposeLocal b k => exact .inl (quiet (.task t) [(.close, b)] (by simp) hc)
    case imageSize => exact .inl (quiet (.task t) _ (by simp) hc)
    all_goals
      refine .inl ?_
      revert hc
      repeat' split
    all_goals exact id
  | worker a =>
    cases a <;> simp only [step, workerStep, when_eq_some] at hs <;> obtain ⟨hg, rfl⟩ := hs
    case lookup j =>
      revert hc
      split
      · rename_i drive track len write htr
        have hsize : ∀ m ∈ (s.w.workerLookup drive track len write).1, m.1 ≠ .write := fun m hm => by
          rw [((s.w.workerLookup_keeps drive track len write).1 m hm).1]; rintro ⟨⟩
        split <;> exact fun hc => .inl (quiet .worker _ hsize hc)
      · exact .inl
    case readEnd j b err =>
      revert hc
      split
      · split <;> exact fun hc => .inl (quiet .worker [(.read, b)] (by simp) hc)
      · exact .inl
    case writeEnd j b err =>
      have bound : ∀ {drive len : ℕ} {track : UInt32} {data : Bytes} {ack : Option ImageId},
          j.kind = .request (.write drive track len data ack) →
          c ∈ (s.log .worker [(.write, b)] ack).calls → c ∈ s.calls ∨
            ∃ j d, s.worker.borrowing = some (j, c.b) ∧ j.kind.acked = some (d, c.ack) := by
        intro drive len track data ack hk hc
        rcases mem_log hc with hold | ⟨hmem, hack⟩
        · exact .inl hold
        · obtain ⟨-, hb⟩ := Prod.mk.inj (List.mem_singleton.mp hmem)
          exact .inr ⟨j, drive, by rw [hg, hb]; rfl, by rw [hk, hack]; rfl⟩
      revert hc
      split
      · rename_i hk
        split
        · exact fun hc => (bound hk hc).imp_right .inr
        · split
          · exact fun hc => (bound hk hc).imp_right .inr
          · exact .inl
      · exact .inl
    case sizeLog j b => exact .inl (quiet .worker [(.size, b)] (by simp) hc)
    case discard j b | close j b => exact .inl (quiet .worker [(.close, b)] (by simp) hc)
    case finish => revert hc; unfold complete; split <;> exact .inl
    all_goals
      refine .inl ?_
      revert hc
      repeat' split
    all_goals exact id

/-! ### Every step keeps the invariant -/

theorem Acked.step {a : Act} (h : s.Acked) (ho : s.ledger.Owned) (hok : s.keepsAcked a)
    (hs : s.step a = some s') : s'.Acked := by
  have hheap := (step_heap hs).2
  refine ⟨fun d ack hout b hb => ?_, fun j b d ack hb hk => ?_, fun c hc hm => ?_⟩
  · rcases step_backing hs hb with hold | hinst
    · rw [(hheap b (backing_lt ho d b hold)).1]
      rcases step_outstanding hs hout with hout | ⟨hnow, -⟩
      · exact h.slots d ack hout b hold
      · rw [hnow, imageOn, hold]; rfl
    · rw [(hheap b (installs_lt ho hs hinst)).1]
      rcases step_outstanding hs hout with hout | ⟨-, hnone⟩
      · exact hok d b hinst ack hout
      · rw [hnone] at hinst; cases hinst
  · rcases step_hand hs hb hk with hold | ⟨hw, hslot⟩
    · rw [(hheap b (borrowing_lt ho hold)).1]
      exact h.hand j b d ack hold hk
    · rw [(hheap b (backing_lt ho d b hslot)).1]
      exact h.slots d ack (.inr (.inr ⟨j, hw, hk⟩)) b hslot
  · rcases step_calls hs hc hm with hold | ⟨d, hout, hslot⟩ | ⟨j, d, hb, hk⟩
    · rw [(hheap c.b (ho.called c hold)).1]
      exact h.calls c hold hm
    · rw [(hheap c.b (backing_lt ho d c.b hslot)).1]
      exact h.slots d c.ack hout c.b hslot
    · rw [(hheap c.b (borrowing_lt ho hb)).1]
      exact h.hand j c.b d c.ack hb hk

theorem Start.acked (h : s.Start) : s.Acked := by
  refine ⟨fun d ack _ b hb => ?_, fun j b d ack hb => ?_, fun c hc => ?_⟩
  · rw [(h.drv d).2.2] at hb; cases hb
  · rw [h.idle.2.1] at hb; cases hb
  · rw [h.empty.2.1] at hc; cases hc

theorem reach_acked (h : diskMachine.Reach keepsAcked s) : s.ledger.Owned ∧ s.Acked :=
  h.invariant (I := fun s => s.ledger.Owned ∧ s.Acked) (fun _ hs => ⟨Start.owned hs, Start.acked hs⟩)
    fun _ _ _ ⟨ho, ha⟩ hok hstep => ⟨ho.path (step_moves ho hstep), ha.step ho hok hstep⟩

/-- A write through `b` changes the image behind `b` only. -/
theorem writeAt_img {w : Disk} {b : ℕ} {off : UInt32} {data : Bytes} {i : ImageId}
    (hne : (w.writeAt b off data).img i ≠ w.img i) :
    (w.heap b).image = i := by
  by_contra hb
  exact hne (Function.update_of_ne (Ne.symm hb) ..)

/-- The caller's own write goes through the backing on its drive. -/
theorem write_img {t drive len : ℕ} {track : UInt32} {data : Bytes} {ack : Option ImageId}
    {io : WriteIo} {i : ImageId} (hs : s.taskStep t (.write drive track len data ack io) = some s')
    (hne : s'.w.img i ≠ s.w.img i) :
    ∃ b, (s.w.heap b).image = i ∧ s.Outstanding drive ack ∧ (s.w.drv drive).backing = some b := by
  simp only [taskStep, when_eq_some] at hs
  obtain ⟨hg, rfl⟩ := hs
  have hne' : (s.w.writeEnter drive track len data io).disk.img i ≠ s.w.img i := by
    revert hne
    split <;> split <;> exact id
  have hout : s.Outstanding drive ack := .inl ⟨t, by rw [hg.1]; rfl⟩
  rcases s.w.writeEnter_cases drive track len data io with ⟨e, hr, -⟩ | ⟨b, hb, hcase⟩
  · rw [hr] at hne'
    exact absurd rfl hne'
  · refine ⟨b, ?_, hout, hb.backing⟩
    rcases hcase with ⟨-, hr⟩ | ⟨-, -, hr⟩ | ⟨-, -, -, hr⟩ | ⟨-, -, junk, -, hr⟩ <;> rw [hr] at hne'
    · exact absurd rfl hne'
    · exact absurd rfl hne'
    · exact writeAt_img hne'
    · rw [Disk.cacheDropDrive_img] at hne'
      exact writeAt_img hne'

/-- The worker's write goes through the backing that it bound. -/
theorem worker_writes {j : Job} {b drive len : ℕ} {track off : UInt32} {data x : Bytes}
    {ack : Option ImageId} {i : ImageId} {a : WorkerAct}
    (hk : j.kind = .request (.write drive track len data ack))
    (hworker : s.worker.borrowing = some (j, b))
    (hacked : Act.acked (.worker a) = j.kind.acked.map Prod.snd)
    (hne : (s.w.writeAt b off x).img i ≠ s.w.img i) :
    ∃ ack b, Act.acked (.worker a) = some ack ∧ (s.w.heap b).image = i ∧
      ∃ j d, s.worker.borrowing = some (j, b) ∧ j.kind.acked = some (d, ack) :=
  ⟨ack, b, by rw [hacked, hk]; rfl, writeAt_img hne, j, drive, hworker, by rw [hk]; rfl⟩

theorem tear_img {j : Job} {b : ℕ} {junk : Bytes} {i : ImageId}
    (hs : s.workerStep (.tear j b junk) = some s') (hne : s'.w.img i ≠ s.w.img i) :
    ∃ ack b', Act.acked (.worker (.tear j b junk)) = some ack ∧ (s.w.heap b').image = i ∧
      ∃ j d, s.worker.borrowing = some (j, b') ∧ j.kind.acked = some (d, ack) := by
  simp only [workerStep, when_eq_some] at hs
  obtain ⟨hg, rfl⟩ := hs
  revert hne
  split
  · next hk =>
    split
    · exact worker_writes hk (by rw [hg]; rfl) rfl
    · exact absurd rfl
  · exact absurd rfl

theorem writeEnd_img {j : Job} {b : ℕ} {err : Option (EspErr × Bytes)} {i : ImageId}
    (hs : s.workerStep (.writeEnd j b err) = some s') (hne : s'.w.img i ≠ s.w.img i) :
    ∃ ack b', Act.acked (.worker (.writeEnd j b err)) = some ack ∧ (s.w.heap b').image = i ∧
      ∃ j d, s.worker.borrowing = some (j, b') ∧ j.kind.acked = some (d, ack) := by
  simp only [workerStep, when_eq_some] at hs
  obtain ⟨hg, rfl⟩ := hs
  revert hne
  split
  · next hk =>
    split
    · exact worker_writes hk (by rw [hg]; rfl) rfl
    · split
      · exact worker_writes hk (by rw [hg]; rfl) rfl
      · exact absurd rfl
  · exact absurd rfl

/-- An image changes only under the write of a WRIT, through the backing on its drive or the one the
    worker bound for it. -/
theorem step_img {a : Act} (hs : s.step a = some s') {i : ImageId} (hne : s'.w.img i ≠ s.w.img i) :
    ∃ ack b, a.acked = some ack ∧ (s.w.heap b).image = i ∧
      ((∃ d, s.Outstanding d ack ∧ (s.w.drv d).backing = some b) ∨
        ∃ j d, s.worker.borrowing = some (j, b) ∧ j.kind.acked = some (d, ack)) := by
  cases a with
  | evt a =>
    refine absurd ?_ hne
    cases a <;> simp only [step, evtStep, when_eq_some] at hs <;> obtain ⟨-, rfl⟩ := hs
    case sweep => exact congrFun (sweep_keeps _ s.w []).2 i
    all_goals rfl
  | task t a =>
    have hstep := hs
    cases a <;> simp only [step, taskStep, when_eq_some] at hs <;> obtain ⟨hg, rfl⟩ := hs
    case write drive track len data ack io =>
      obtain ⟨b, himg, hout, hslot⟩ := write_img hstep hne
      exact ⟨ack, b, rfl, himg, .inl ⟨drive, hout, hslot⟩⟩
    case read drive track len io =>
      refine absurd ?_ hne
      obtain ⟨-, -, himg, -⟩ := s.w.readEnter_keeps drive track len io
      split <;> exact congrFun himg i
    case mountOpen =>
      refine absurd ?_ hne
      split
      · rfl
      · exact congrFun Disk.setDrive_img i
    case unmount | config | mountSwap => exact absurd (congrFun Disk.setDrive_img i) hne
    all_goals
      refine absurd ?_ hne
      repeat' split
    all_goals rfl
  | worker a =>
    have hstep := hs
    cases a <;> simp only [step, workerStep, when_eq_some] at hs <;> obtain ⟨hg, rfl⟩ := hs
    case tear =>
      obtain ⟨ack, b, hacked, himg, hbound⟩ := tear_img hstep hne
      exact ⟨ack, b, hacked, himg, .inr hbound⟩
    case writeEnd =>
      obtain ⟨ack, b, hacked, himg, hbound⟩ := writeEnd_img hstep hne
      exact ⟨ack, b, hacked, himg, .inr hbound⟩
    case install j drive url readonly b =>
      refine absurd ?_ hne
      split
      · rename_i w hins
        unfold Disk.workerInstall at hins
        dsimp only at hins
        split at hins
        · obtain rfl := Option.some.inj hins
          exact congrFun Disk.setDrive_img i
        · cases hins
      · rfl
    case publishRead =>
      refine absurd ?_ hne
      split
      · split
        · exact congrFun (by unfold Disk.workerPublish; split <;> rfl) i
        · rfl
      · rfl
    case publishWrite =>
      refine absurd ?_ hne
      split
      · split
        · exact congrFun (by unfold Disk.workerPublish; split <;> rfl) i
        · exact congrFun Disk.cacheDropDrive_img i
      · rfl
    case finish =>
      refine absurd ?_ hne
      unfold complete
      split <;> rfl
    all_goals
      refine absurd ?_ hne
      repeat' split
    all_goals rfl

/-! ### WRIT lands in the image it was acknowledged for -/

/-- CORRECT on these runs: while no drive is given an image other than the one its outstanding WRITs
    were acknowledged for, every write goes to the image that was on the drive at WRIT OK, and no step
    changes any other image. -/
theorem writ_lands (h : diskMachine.Reach keepsAcked s) :
    (∀ c ∈ s.calls, c.method = .write → c.ack = some (s.w.heap c.b).image) ∧
      ∀ a s' i, s.step a = some s' → s'.w.img i ≠ s.w.img i → a.acked = some (some i) := by
  obtain ⟨-, ha⟩ := reach_acked h
  refine ⟨ha.calls, fun a s' i hs hne => ?_⟩
  obtain ⟨ack, b, hact, rfl, ⟨d, hout, hslot⟩ | ⟨j, d, hb, hk⟩⟩ := step_img hs hne
  · rw [hact, ha.slots d ack hout b hslot]
  · rw [hact, ha.hand j b d ack hb hk]

/-- WRIT OK on the first image, and the payload arrives. -/
def writFirst : List Act :=
  [.task 1 (.writCheck 0 1 2), .task 1 (.writCheckRw 0 1 2), .task 1 (.writReply 0 1 2),
    .task 1 (.payload 0 1 2 (some (.sd 0)) (some [9, 9]))]

/-- The disk write of that WRIT. -/
def storeFirst : Act := .task 1 (.write 0 1 2 [9, 9] (some (.sd 0)) .ok)

/-- A step that installs nothing keeps every acknowledgement. -/
theorem keepsAcked_of_isNone (s : State) (a : Act) (h : (s.installs a).isNone = true) :
    s.keepsAcked a := by
  intro d b hi
  rw [hi] at h; cases h

theorem exec_mountOpened : (diskMachine.exec boot (mountFirst.take 2)).isSome = true := by decide

theorem exec_writFirst : (diskMachine.exec firstMounted (writFirst ++ [storeFirst])).isSome = true := by
  decide

/-- A mount, a WRIT and its write, with no other mount in between. -/
def firstWritten : State :=
  (diskMachine.exec firstMounted (writFirst ++ [storeFirst])).get exec_writFirst

theorem reach_firstWritten : diskMachine.Reach keepsAcked firstWritten := by
  have hopened : diskMachine.Reach keepsAcked ((diskMachine.exec boot (mountFirst.take 2)).get
      exec_mountOpened) := ⟨boot, boot_start, Machine.exec_path _ keepsAcked_of_isNone
    (Option.some_get exec_mountOpened).symm (by decide)⟩
  have hmounted : diskMachine.Reach keepsAcked firstMounted := by
    refine hopened.step (a := .task 0 (.mountSwap 0 ['A'] ['A'] 0)) (fun d b _ ack hout => ?_) rfl
    -- nobody is in a WRIT yet
    rcases hout with ⟨t, ht⟩ | ⟨j, hj, -⟩ | ⟨j, hj, -⟩
    · rcases t with _ | t <;> cases ht
    · cases hj
    · cases hj
  exact hmounted.path (Machine.exec_path _ keepsAcked_of_isNone (Option.some_get exec_writFirst).symm
    (by decide))

/-- The payload is in the image the WRIT was acknowledged for. -/
theorem writ_lands_firstWritten : ∃ c ∈ firstWritten.calls, c.method = .write ∧
    c.ack = some (firstWritten.w.heap c.b).image := by
  have hwrites : ∃ c ∈ firstWritten.calls, c.method = .write := by decide
  obtain ⟨c, hc, hwrite⟩ := hwrites
  exact ⟨c, hc, hwrite, (writ_lands reach_firstWritten).1 c hc hwrite⟩

/-- Another image is mounted on the drive while the payload is on its way. -/
def swapFirst : List Act :=
  [.task 0 (.mountBegin 0 ['B']), .task 0 (.mountOpen 0 ['B'] (some 1)),
    .task 0 (.mountSwap 0 ['B'] ['B'] 1), .task 0 (.disposeLocal 0 .ret)]

theorem exec_swapFirst :
    (diskMachine.exec firstMounted (writFirst ++ swapFirst ++ [storeFirst])).isSome = true := by decide

/-- `disk_mount` swaps the disk between WRIT OK and the write, and the payload goes to the
    second image. -/
theorem writ_misplaced : ¬∀ s, diskMachine.Reach Machine.always s →
    ∀ c ∈ s.calls, c.method = .write → c.ack = some (s.w.heap c.b).image := by
  intro hall
  have hpath : diskMachine.Path Machine.always boot firstMounted :=
    Machine.exec_always (Option.some_get exec_mountFirst).symm
  have hreach := (Machine.Reach.of_start (m := diskMachine) boot_start).path
    (hpath.trans (Machine.exec_always (Option.some_get exec_swapFirst).symm))
  exact absurd (hall _ hreach ⟨.task 1, .write, 1, some (.sd 0)⟩ (by decide) rfl) (by decide)

end State

end FdcSds
