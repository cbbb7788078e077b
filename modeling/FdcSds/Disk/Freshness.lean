import FdcSds.Disk.Transfer

/-! Reads are fresh.

    Every step keeps the cache and the images in the relation of `Fresh` to the completed writes, as long
    as distinct drives hold distinct images. A `disk_read_track` that returns `ESP_OK` then hands out the
    bytes of the image mounted on its drive, as the completed writes left it. -/

namespace FdcSds
open Schemes Runs

/-- The call a task is in the middle of: a read it handed to the worker. -/
def TaskPc.reading : TaskPc → Option (ℕ × UInt32 × ℕ)
  | .post (.read drive track len) | .wait _ (.read drive track len) | .copyOut drive track len =>
    some (drive, track, len)
  | _ => none

/-! ### Every step keeps the invariant -/

namespace State

variable {s s' : State}

/-- Distinct drives hold distinct images. -/
def Distinct (s : State) : Prop :=
  ∀ d < diskMaxDrive, ∀ e < diskMaxDrive, ∀ i ∈ s.imageOn d, i ∈ s.imageOn e → d = e

instance : Decidable s.Distinct :=
  inferInstanceAs (Decidable (∀ d < diskMaxDrive, ∀ e < diskMaxDrive, ∀ i ∈ s.imageOn d,
    i ∈ s.imageOn e → d = e))

abbrev IsFresh (s : State) : Prop := Fresh s.w s.next s.worker s.settled

theorem backing_kind (ho : s.ledger.Owned) (e b : ℕ) (hb : (s.w.drv e).backing = some b) :
    (s.w.drv e).remote = (s.w.heap b).image.remote := ho.slotKind e b hb

theorem Distinct.same_drive (hd : s.Distinct) {d e b b' : ℕ} (hlt : d < diskMaxDrive)
    (hlt' : e < diskMaxDrive) (hb : (s.w.drv d).backing = some b) (hb' : (s.w.drv e).backing = some b')
    (heq : (s.w.heap b').image = (s.w.heap b).image) : e = d := by
  refine hd e hlt' d hlt _ (Option.mem_map_of_mem _ hb') ?_
  rw [heq]
  exact Option.mem_map_of_mem _ hb

theorem taskStep_fresh {t : ℕ} {a : TaskAct} (ho : s.ledger.Owned) (hd : s.Distinct) (hp : s.Polite)
    (h : s.IsFresh) (hs : s.taskStep t a = some s') : s'.IsFresh := by
  have hlt := backing_lt ho
  cases a <;> simp only [taskStep, when_eq_some] at hs <;> obtain ⟨hg, rfl⟩ := hs
  case read drive track len io =>
    have hread := (Fresh.readEnter track len io h hlt (backing_kind ho drive)).1
    split <;> exact hread
  case write drive track len data ack io =>
    have hdata : data.length = len := by
      have := hp.task t
      rw [hg.1] at this; exact this
    have hwrite := Fresh.writeEnter track h hlt (backing_kind ho drive)
      (fun e he b b' hb' hsrv heq => hd.same_drive hsrv.drive_lt he hsrv.backing hb' heq) hdata hg.2
    rcases hwrite with ⟨hw, hfresh⟩ | ⟨b, hw, -, -, hheap, hfresh⟩ <;> simp only [hw]
    · split <;> exact hfresh
    · rw [← hheap] at hfresh
      split <;> exact hfresh
  case mountOpen drive name image =>
    split
    · rename_i n
      -- the size is recorded at the open
      have hsize : (UInt32.ofNat (s.w.img (.sd n)).length).toNat = (s.settled (.sd n)).length := by
        rw [← h.length_img, UInt32.toNat_ofNat', Nat.mod_eq_of_lt (hg.2 n rfl)]
      refine h.table (Nat.le_succ _) (fun b hb => Function.update_of_ne (Nat.ne_of_lt hb) ..) rfl ?_
        (fun e b hb => .inl ⟨hb, hlt e b hb⟩) fun b hb hge => ?_
      · exact h.coherent.congr rfl rfl rfl fun e b hb =>
          Function.update_of_ne (Nat.ne_of_lt (hlt e b hb)) ..
      · obtain rfl : b = s.next := Nat.le_antisymm (Nat.lt_succ_iff.mp hb) hge
        simp only [setTask, alloc, Function.update_self]
        exact hsize
    · exact h.setDrive hlt (by rintro _ ⟨⟩)
  case mountSwap drive name canon b =>
    refine h.setDrive hlt fun b' hb' => ?_
    cases hb'
    have := ho.taskKind t b false (by show (s.task t).held = _; rw [hg]; rfl)
    exact this
  case unmount => exact h.setDrive hlt (by rintro _ ⟨⟩)
  case config => exact h.setDrive hlt (by rintro _ ⟨⟩)
  all_goals
    repeat' split
  all_goals exact h

/-- What the lookup finds is the one backing of its image, with the track inside. -/
theorem lookup_fresh {j : Job} (ho : s.ledger.Owned) (hd : s.Distinct) (hp : s.Polite) (h : s.IsFresh)
    (hs : s.workerStep (.lookup j) = some s') : s'.IsFresh := by
  have hlt := backing_lt ho
  have hfits := hp.worker
  unfold IsFresh at h
  simp only [workerStep, when_eq_some] at hs
  obtain ⟨hg, rfl⟩ := hs
  rw [hg] at h hfits
  split
  · rename_i drive track len write hk
    split
    · rename_i b hb
      refine h.found rfl fun d t l wr hk' => ?_
      cases hk.symm.trans hk'
      obtain ⟨hsrv, hrem, -⟩ := (Disk.workerLookup_some (Job.Fits.len_le hfits hk)).mp hb
      have hkind := backing_kind ho drive b hsrv.backing
      refine ⟨hsrv.drive_lt, hlt drive b hsrv.backing, by rw [← hkind, hrem], hsrv.len_pos,
        hsrv.len_le, hsrv.inside, fun e he b' hb' heq => ?_⟩
      obtain rfl := hd.same_drive hsrv.drive_lt he hsrv.backing hb' heq
      exact ⟨rfl, Option.some.inj (hb'.symm.trans hsrv.backing)⟩
    · exact h.idle rfl rfl
  · rw [IsFresh, hg]; exact h

/-- A torn write leaves what the worker is writing to it unsettled. -/
theorem tear_fresh {j : Job} {b : ℕ} {junk : Bytes} (h : s.IsFresh)
    (hs : s.workerStep (.tear j b junk) = some s') : s'.IsFresh := by
  unfold IsFresh at h
  simp only [workerStep, when_eq_some] at hs
  obtain ⟨hg, rfl⟩ := hs
  rw [hg] at h
  split
  · rename_i drive track len data ack hk
    split
    · rename_i hjunk
      have := h.tear hk hjunk
      rw [← hg] at this; exact this
    · rw [IsFresh, hg]; exact h
  · rw [IsFresh, hg]; exact h

theorem writeEnd_fresh {j : Job} {b : ℕ} {err : Option (EspErr × Bytes)} (hp : s.Polite) (h : s.IsFresh)
    (hs : s.workerStep (.writeEnd j b err) = some s') : s'.IsFresh := by
  have hfits := hp.worker
  unfold IsFresh at h
  simp only [workerStep, when_eq_some] at hs
  obtain ⟨hg, rfl⟩ := hs
  rw [hg] at h hfits
  split
  · rename_i drive track len data ack hk
    split
    · exact h.written hk (hfits _ hk).2
    · split
      · rename_i hjunk
        exact h.written hk hjunk
      · rw [IsFresh, hg]; exact h
  · rw [IsFresh, hg]; exact h

theorem publishRead_fresh {j : Job} {b : ℕ} {data : Bytes} (ho : s.ledger.Owned) (h : s.IsFresh)
    (hs : s.workerStep (.publishRead j b data) = some s') : s'.IsFresh := by
  have hlt := backing_lt ho
  unfold IsFresh at h
  simp only [workerStep, when_eq_some] at hs
  obtain ⟨hg, rfl⟩ := hs
  rw [hg] at h
  split
  · rename_i drive track len hk
    split
    · rename_i hstill
      exact h.publishRead hk hlt hstill
    · exact h.idle rfl rfl
  · rw [IsFresh, hg]; exact h

theorem publishWrite_fresh {j : Job} {b : ℕ} {r : Except EspErr Unit} {left : Bytes} (hp : s.Polite)
    (h : s.IsFresh) (hs : s.workerStep (.publishWrite j b r left) = some s') : s'.IsFresh := by
  have hfits := hp.worker
  unfold IsFresh at h
  simp only [workerStep, when_eq_some] at hs
  obtain ⟨hg, rfl⟩ := hs
  rw [hg] at h hfits
  split
  · rename_i drive track len data ack hk
    split
    · refine h.publishWrite hk hfits.2 ?_ ?_ (.inl ⟨rfl, rfl⟩) <;>
        (unfold Disk.workerPublish; split <;> rfl)
    · exact h.publishWrite hk hfits.2 Disk.cacheDropDrive_heap Disk.cacheDropDrive_img (.inr rfl)
  · rw [IsFresh, hg]; exact h

/-- The size is recorded at the open. -/
theorem newBacking_fresh {j : Job} {drive image stamp : ℕ} {url : CStr} {readonly ok : Bool}
    (ho : s.ledger.Owned) (h : s.IsFresh)
    (hs : s.workerStep (.newBacking j drive url readonly image stamp ok) = some s') : s'.IsFresh := by
  have hlt := backing_lt ho
  unfold IsFresh at h
  simp only [workerStep, when_eq_some] at hs
  obtain ⟨hg, rfl⟩ := hs
  rw [hg.1] at h
  split
  · have hsize : (UInt32.ofNat (s.w.img (.tnfs image)).length).toNat
        = (s.settled (.tnfs image)).length := by
      rw [← h.length_img, UInt32.toNat_ofNat', Nat.mod_eq_of_lt hg.2]
    refine (h.idle rfl rfl).table (Nat.le_succ _) (fun b hb => Function.update_of_ne (Nat.ne_of_lt hb) ..)
      rfl ?_ (fun e b hb => .inl ⟨hb, hlt e b hb⟩) fun b hb hge => ?_
    · exact h.coherent.congr rfl rfl rfl fun e b hb =>
        Function.update_of_ne (Nat.ne_of_lt (hlt e b hb)) ..
    · obtain rfl : b = s.next := Nat.le_antisymm (Nat.lt_succ_iff.mp hb) hge
      simp only [setWorker, alloc, Function.update_self]
      exact hsize
  · exact h.idle rfl rfl

theorem install_fresh {j : Job} {drive b : ℕ} {url : CStr} {readonly : Bool} (h : s.IsFresh)
    (hs : s.workerStep (.install j drive url readonly b) = some s') : s'.IsFresh := by
  unfold IsFresh at h
  simp only [workerStep, when_eq_some] at hs
  obtain ⟨hg, rfl⟩ := hs
  rw [hg] at h
  split
  · rename_i w hins
    unfold Disk.workerInstall at hins
    dsimp only at hins
    split at hins
    · obtain rfl := Option.some.inj hins
      exact h.install rfl rfl
    · cases hins
  · exact h.idle rfl rfl

theorem workerStep_fresh {a : WorkerAct} (ho : s.ledger.Owned) (hd : s.Distinct) (hp : s.Polite)
    (h : s.IsFresh) (hs : s.workerStep a = some s') : s'.IsFresh := by
  have hstep := hs
  have hfresh := h
  unfold IsFresh at h
  cases a <;> simp only [workerStep, when_eq_some] at hs <;> obtain ⟨hg, rfl⟩ := hs
  case take j rest =>
    rw [hg.1] at h
    refine h.idle rfl ?_
    show j.begin.borrowing = none
    unfold Job.begin
    split <;> rfl
  case lookup => exact lookup_fresh ho hd hp hfresh hstep
  case linkCheck j b =>
    rw [hg] at h
    split
    · exact h.startIo
    · exact h.idle rfl rfl
  case tear => exact tear_fresh hfresh hstep
  case readEnd j b err =>
    rw [hg] at h
    split
    · rename_i drive track len hk
      split
      · exact h.staged hk
      · refine h.idle ?_ rfl
        simp only [WorkerPc.writing, hk]
    · rw [IsFresh, hg]; exact h
  case writeEnd => exact writeEnd_fresh hp hfresh hstep
  case publishRead => exact publishRead_fresh ho hfresh hstep
  case publishWrite => exact publishWrite_fresh hp hfresh hstep
  case newBacking => exact newBacking_fresh ho hfresh hstep
  case install => exact install_fresh hfresh hstep
  case finish j r =>
    rw [hg] at h
    unfold complete
    split <;> exact h.idle rfl rfl
  case want | mountLink | openFail =>
    rw [hg] at h
    refine h.idle rfl ?_
    show WorkerPc.borrowing _ = none
    split <;> rfl
  case openOk => rw [hg.1] at h; exact h.idle rfl rfl
  all_goals rw [hg] at h; exact h.idle rfl rfl

theorem step_fresh {a : Act} (ho : s.ledger.Owned) (hd : s.Distinct) (hp : s.Polite) (h : s.IsFresh)
    (hs : s.step a = some s') : s'.IsFresh := by
  cases a with
  | task t a => exact taskStep_fresh ho hd hp h hs
  | worker a => exact workerStep_fresh ho hd hp h hs
  | evt a =>
    cases a <;> simp only [step, evtStep, when_eq_some] at hs <;> obtain ⟨-, rfl⟩ := hs
    case sweep => exact Fresh.sweep (List.range diskMaxDrive) [] h (backing_lt ho)
    all_goals exact h

/-- The step leads to a state where distinct drives hold distinct images. -/
def staysDistinct (s : State) (a : Act) : Prop := ∀ s' ∈ s.step a, s'.Distinct

instance (s : State) (a : Act) : Decidable (staysDistinct s a) :=
  inferInstanceAs (Decidable (∀ s' ∈ s.step a, s'.Distinct))

theorem Start.fresh (h : s.Start) : s.IsFresh := by
  have hsettled : s.settled = s.w.img := by
    rw [settled, h.empty.2.2.2.1, ← h.base]; rfl
  unfold IsFresh
  rw [hsettled, h.idle.2.1, h.counters.1]
  refine ⟨fun hv => ?_, fun b hb => absurd hb (Nat.not_lt_zero b), rfl, fun _ _ _ _ _ _ => nofun,
    fun _ _ _ _ _ _ _ => nofun⟩
  rw [h.cache] at hv; cases hv

theorem Start.distinct (h : s.Start) : s.Distinct := by
  intro d _ e _ i hi
  simp [imageOn, (h.drv d).2.2] at hi

/-- The invariant in every state of a run that keeps the drives' images distinct. -/
theorem reach_fresh (h : diskMachine.Reach staysDistinct s) :
    s.ledger.Owned ∧ s.Distinct ∧ s.Polite ∧ s.IsFresh :=
  h.invariant (I := fun s => s.ledger.Owned ∧ s.Distinct ∧ s.Polite ∧ s.IsFresh)
    (fun _ hs => ⟨Start.owned hs, Start.distinct hs, Start.polite hs, Start.fresh hs⟩)
    fun _ _ s' ⟨ho, hd, hp, hf⟩ hok hstep => ⟨ho.path (step_moves ho hstep), hok s' hstep,
      step_polite hp hstep, step_fresh ho hd hp hf hstep⟩

/-! ### What a read returns -/

/-- The step is the return of this read with `ESP_OK`. -/
def returns (s : State) (r : Read) : Act → Prop
  | .task t (.read drive track len io) => (t, drive, track, len) = (r.task, r.drive, r.track, r.len) ∧
      s.task t = .idle ∧ (s.w.readEnter drive track len io).ret = .done (.ok r.dst)
  | .task t (.copyOut drive track len) => (t, drive, track, len) = (r.task, r.drive, r.track, r.len) ∧
      s.task t = .copyOut drive track len ∧ s.w.readCopy drive track len = .ok r.dst
  | _ => False

/-- The step is the completion of this write: a local one, or the worker publishing a remote one. -/
def completes (s : State) (x : Write) : Act → Prop
  | .task t (.write drive track len data ack io) => s.task t = .writStore drive track len data ack ∧
      s.imageOn drive = some x.image ∧ x.off = track.toNat * len ∧ x.data = io.left data
  | .worker (.publishWrite j b r left) => s.worker = .written j b r left ∧
      ∃ drive track len data ack, j.kind = .request (.write drive track len data ack) ∧
        x = ⟨(s.w.heap b).image, track.toNat * len, left⟩ ∧ (r = .ok () → left = data)
  | _ => False

theorem step_reads {a : Act} (hs : s.step a = some s') :
    s'.reads = s.reads ∨ ∃ r, s'.reads = r :: s.reads ∧ s.returns r a := by
  cases a with
  | worker a => exact .inl (workerStep_frame hs).2.2.2.2.2.2.2.2
  | evt a => exact .inl (evtStep_frame hs).2.2.2.2.1
  | task t a =>
    cases a <;> simp only [step, taskStep, when_eq_some] at hs <;> obtain ⟨hg, rfl⟩ := hs
    case read drive track len io =>
      split
      · rename_i dst hret
        exact .inr ⟨⟨t, drive, track, len, dst⟩, rfl, rfl, hg, hret⟩
      · exact .inl rfl
      · exact .inl rfl
    case copyOut drive track len =>
      split
      · rename_i dst hret
        exact .inr ⟨⟨t, drive, track, len, dst⟩, rfl, rfl, hg, hret⟩
      · exact .inl rfl
    case write =>
      refine .inl ?_
      split <;> split <;> rfl
    all_goals
      refine .inl ?_
      repeat' split
    all_goals rfl

theorem mem_of_wrote {α : Type} {r : Region α} {b : ℕ} (h : r.wrote = some b) :
    (Method.write, b) ∈ r.calls := by
  obtain ⟨⟨m, b'⟩, hfind, rfl⟩ := Option.map_eq_some_iff.mp h
  have hm := List.find?_some hfind
  rw [beq_iff_eq] at hm
  obtain rfl : m = .write := hm
  exact List.mem_of_find?_eq_some hfind

theorem step_writes {a : Act} (hp : s.Polite) (hs : s.step a = some s') :
    s'.writes = s.writes ∨ ∃ x, s'.writes = x :: s.writes ∧ s.completes x a := by
  cases a with
  | evt a => exact .inl (evtStep_frame hs).2.2.2.2.2.1
  | worker a =>
    have hfits := hp.worker
    cases a <;> simp only [step, workerStep, when_eq_some] at hs <;> obtain ⟨hg, rfl⟩ := hs
    case publishWrite j b r left =>
      rw [hg] at hfits
      split
      · rename_i drive track len data ack hk
        split <;> exact .inr ⟨_, rfl, hg, drive, track, len, data, ack, hk, rfl,
          (hfits.2 drive track len data ack hk).2⟩
      · exact .inl rfl
    case finish => exact .inl (by unfold complete; split <;> rfl)
    all_goals
      refine .inl ?_
      repeat' split
    all_goals rfl
  | task t a =>
    cases a <;> simp only [step, taskStep, when_eq_some] at hs <;> obtain ⟨hg, rfl⟩ := hs
    case write drive track len data ack io =>
      obtain ⟨-, hheap, hcalls⟩ := s.w.writeEnter_keeps drive track len data io
      rcases hw : (s.w.writeEnter drive track len data io).wrote with _ | b
      · exact .inl (by split <;> rfl)
      · have hb := (hcalls _ (mem_of_wrote hw)).2.1
        refine .inr ⟨⟨(s.w.heap b).image, track.toNat * len, io.left data⟩, ?_, hg.1, ?_, rfl, rfl⟩
        · rw [← hheap]
          split <;> rfl
        · rw [imageOn, hb]; rfl
    all_goals
      refine .inl ?_
      repeat' split
    all_goals rfl

theorem reading_after (k : After) : k.pc.reading = none := by cases k <;> rfl

theorem reading_disposeOf (old : Drive) (k : After) : (disposeOf old k).reading = none := by
  unfold disposeOf
  cases old.backing with
  | none => exact reading_after k
  | some b => rfl

theorem taskStep_reading {t : ℕ} {a : TaskAct} (hs : s.taskStep t a = some s') {x : ℕ × UInt32 × ℕ}
    (hx : (s'.task t).reading = some x) :
    (s.task t).reading = some x ∨ ∃ io, Act.task t a = .task t (.read x.1 x.2.1 x.2.2 io) := by
  -- the new program point is in no read
  have other : ∀ {y : State} {pc : TaskPc}, y.task = Function.update s.task t pc → pc.reading = none →
      (y.task t).reading ≠ some x := by
    intro y pc hy hpc
    rw [hy, Function.update_self, hpc]
    exact nofun
  cases a <;> simp only [taskStep, when_eq_some] at hs <;> obtain ⟨hg, rfl⟩ := hs
  case read drive track len io =>
    revert hx
    split
    · exact .inl
    · exact .inl
    · intro hx
      simp only [setTask, Function.update_self, TaskPc.reading, Option.some.injEq] at hx
      exact .inr ⟨io, by rw [← hx]⟩
  case enqueue k =>
    simp only [setTask, push, Function.update_self] at hx
    rw [hg.1]
    cases k <;> exact .inl hx
  case wake id k r =>
    simp only [setTask, Function.update_self] at hx
    rw [hg.1]
    split at hx
    · exact .inl hx
    · cases hx
  case copyOut => revert hx; split <;> exact fun hx => absurd hx (other rfl rfl)
  case writCheck =>
    revert hx
    split
    · exact fun hx => absurd hx (other rfl rfl)
    · exact .inl
  case write => revert hx; split <;> split <;> exact fun hx => absurd hx (other rfl rfl)
  case mountOpen =>
    revert hx
    split <;> exact fun hx => absurd hx (other rfl (by first | rfl | exact reading_disposeOf ..))
  case writCheckRw | payload | configNet => exact absurd hx (other rfl (by split <;> rfl))
  case unmount | config | mountSwap => exact absurd hx (other rfl (reading_disposeOf ..))
  case disposeLocal | disposeSend | disposeLeak => exact absurd hx (other rfl (reading_after _))
  case imageSize => exact .inl hx
  all_goals exact absurd hx (other rfl rfl)

/-- A task gets into a read only by calling it, and keeps its arguments to the end. -/
theorem step_reading {a : Act} (hs : s.step a = some s') {t : ℕ} {x : ℕ × UInt32 × ℕ}
    (hx : (s'.task t).reading = some x) :
    (s.task t).reading = some x ∨ ∃ io, a = .task t (.read x.1 x.2.1 x.2.2 io) := by
  cases a with
  | worker a => exact .inl ((workerStep_frame hs).1 ▸ hx)
  | evt a => exact .inl ((evtStep_frame hs).1 ▸ hx)
  | task u a =>
    rcases eq_or_ne t u with rfl | hne
    · exact taskStep_reading hs hx
    · exact .inl ((taskStep_frame hs).2.2.2.2.2.2 t hne ▸ hx)

/-- The bytes of a read that returns with `ESP_OK`. -/
theorem IsFresh.returned (h : s.IsFresh) (ho : s.ledger.Owned) {r : Read} {a : Act}
    (hr : s.returns r a) : ∃ b, s.w.Serves r.drive r.track r.len b ∧
      r.dst = s.w.trackOf s.settled b r.track r.len := by
  unfold returns at hr
  split at hr
  · obtain ⟨heq, -, hret⟩ := hr
    cases heq
    exact (Fresh.readEnter _ _ _ h (backing_lt ho) (backing_kind ho _)).2 _ hret
  · obtain ⟨heq, -, hret⟩ := hr
    cases heq
    unfold Disk.readCopy at hret
    split at hret
    · rename_i hhit
      cases hret
      exact h.coherent.copyOut hhit
    · cases hret
  · exact hr.elim

/-- CORRECT: in every run that keeps the images of distinct drives distinct, a `disk_read_track` that
    returns `ESP_OK` gives exactly the bytes of the track it was called for, of the image mounted on its
    drive at the return, as the completed writes left it. An image differs from that only within the
    range of the write the worker has in progress; a write joins the completed ones when it completes. -/
theorem reads_fresh (h : diskMachine.Reach staysDistinct s) {a : Act} (hs : s.step a = some s') :
    (s'.reads = s.reads ∨ ∃ r b, s'.reads = r :: s.reads ∧ s.returns r a ∧
      s.w.Serves r.drive r.track r.len b ∧ r.dst.length = r.len ∧
      r.dst = slice (s.settled (s.w.heap b).image) (r.track.toNat * r.len) r.len) ∧
    (∀ t x, (s'.task t).reading = some x → (s.task t).reading = some x ∨
      ∃ io, a = .task t (.read x.1 x.2.1 x.2.2 io)) ∧
    (∀ i, s.w.img i = s.settled i ∨ ∃ b track len left bytes,
      s.worker.writing = some (b, track, len, left) ∧ (s.w.heap b).image = i ∧ bytes.length = len ∧
      s.w.img i = patch (s.settled i) (track.toNat * len) bytes) ∧
    s'.base = s.base ∧ (s'.writes = s.writes ∨ ∃ x, s'.writes = x :: s.writes ∧ s.completes x a) := by
  obtain ⟨ho, hd, hp, hf⟩ := reach_fresh h
  refine ⟨?_, fun t x hx => step_reading hs hx, fun i => ?_, ?_, step_writes hp hs⟩
  · rcases step_reads hs with heq | ⟨r, hreads, hret⟩
    · exact .inl heq
    · obtain ⟨b, hserves, hdst⟩ := hf.returned ho hret
      have hsize := hf.sized b (backing_lt ho _ _ hserves.backing)
      refine .inr ⟨r, b, hreads, hret, hserves, ?_, hdst⟩
      rw [hdst]
      exact hserves.length_trackOf hsize.le
  · have hagrees := hf.agrees
    rcases hw : s.worker.writing with _ | ⟨b, track, len, left⟩ <;> rw [hw] at hagrees
    · exact .inl (by rw [show s.w.img = s.settled from hagrees])
    · obtain ⟨bytes, hlen, -, himg⟩ := hagrees
      rcases eq_or_ne (s.w.heap b).image i with rfl | hne
      · exact .inr ⟨b, track, len, left, bytes, rfl, rfl, hlen, by rw [himg, Function.update_self]⟩
      · exact .inl (by rw [himg, Function.update_of_ne hne.symm])
  · cases a with
    | task t a => exact (taskStep_frame hs).2.2.2.2.2.1
    | worker a => exact (workerStep_frame hs).2.2.2.2.2.1
    | evt a => exact (evtStep_frame hs).2.2.1

theorem reach_firstMounted : diskMachine.Reach staysDistinct firstMounted :=
  ⟨boot, boot_start, Machine.exec_path (fun s a => decide (staysDistinct s a))
    (fun _ _ h => of_decide_eq_true h) (Option.some_get exec_mountFirst).symm (by decide +kernel)⟩

theorem step_firstMounted : (firstMounted.step (.task 0 (.read 0 1 2 .ok))).isSome = true := by decide

/-- Its second track, read through the table. -/
theorem reads_fresh_firstMounted :
    ∃ r b, firstMounted.returns r (.task 0 (.read 0 1 2 .ok)) ∧
      firstMounted.w.Serves r.drive r.track r.len b ∧ r.dst.length = r.len ∧
      r.dst = slice (firstMounted.settled (firstMounted.w.heap b).image) (r.track.toNat * r.len) r.len := by
  obtain ⟨hread, -⟩ := reads_fresh reach_firstMounted (Option.some_get step_firstMounted).symm
  rcases hread with heq | ⟨r, b, -, hr⟩
  · exact absurd (congrArg List.length heq) (by decide)
  · exact ⟨r, b, hr⟩

end State

end FdcSds
