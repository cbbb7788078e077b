import FdcSds.Disk.Ledger

/-! The disk module follows the ownership protocol.

    `State.ledger` reads the ledger off a state of the machine; every step of the machine is a short
    sequence of moves on it (most steps are none at all). The protocol's guarantees then hold in every
    reachable state, whatever the interleaving and whichever allocation or enqueue fails. -/

namespace FdcSds
open Schemes Runs

/-! ### The ledger of a state -/

def Drive.slot (dr : Drive) : Slot := ⟨dr.mounted, dr.remote, dr.backing⟩

def Backing.remote (b : Backing) : Bool := b.image.remote

/-- The backing a task holds, with the kind it took it for. -/
def TaskPc.held : TaskPc → Option (ℕ × Bool)
  | .opened _ _ b => some (b, false)
  | .dispose b remote _ => some (b, remote)
  | _ => none

def WorkerPc.hand : WorkerPc → Hand
  | .found _ b | .io _ b | .fetched _ b _ | .written _ b _ _ | .sizing _ b => .borrows b
  | .built _ _ _ _ b | .discard _ b | .closing _ b => .holds b
  | _ => .free

def EventPc.held : EventPc → List ℕ
  | .disposing bs => bs
  | _ => []

namespace State

def ledger (s : State) : Ledger where
  slot := Drive.slot ∘ s.w.drv
  remote := Backing.remote ∘ s.w.heap
  next := s.next
  task := TaskPc.held ∘ s.task
  evt := s.evt.held
  queue := s.queue.filterMap fun j => j.kind.closes
  worker := s.worker.hand
  calls := s.calls
  leaked := s.leaked

variable {s s' : State}

/-- A disk with the same slots and the same kinds of backings. -/
theorem ledger_setDisk {w : Disk} (hd : w.drv = s.w.drv) (hh : w.heap = s.w.heap) :
    (s.setDisk w).ledger = s.ledger := by
  simp only [ledger, setDisk, hd, hh]

@[simp] theorem ledger_setTask (t : ℕ) (pc : TaskPc) :
    (s.setTask t pc).ledger = { s.ledger with task := Function.update s.ledger.task t pc.held } := by
  simp only [ledger, setTask, Function.comp_update]

@[simp] theorem ledger_setWorker (pc : WorkerPc) :
    (s.setWorker pc).ledger = { s.ledger with worker := pc.hand } := rfl

@[simp] theorem ledger_setEvt (pc : EventPc) :
    (s.setEvt pc).ledger = { s.ledger with evt := pc.held } := rfl

@[simp] theorem ledger_logWrite (b off : ℕ) (data : Bytes) :
    (s.logWrite b off data).ledger = s.ledger := rfl

@[simp] theorem ledger_logRead (t d : ℕ) (track : UInt32) (len : ℕ) (dst : Bytes) :
    (s.logRead t d track len dst).ledger = s.ledger := rfl

@[simp] theorem ledger_complete (j : Job) (r : Except EspErr Unit) :
    (s.complete j r).ledger = s.ledger := by
  unfold complete; split <;> rfl

@[simp] theorem ledger_leak (b : ℕ) :
    (s.leak b).ledger = { s.ledger with leaked := b :: s.ledger.leaked } := rfl

@[simp] theorem ledger_push (sync : Bool) (k : JobKind) :
    (s.push sync k).ledger = { s.ledger with queue := s.ledger.queue ++ k.closes.toList } := by
  simp only [ledger, push, List.filterMap_append, List.filterMap_cons, List.filterMap_nil]
  cases k.closes <;> rfl

theorem ledger_log (who : Who) (ms : List (Method × ℕ)) (ack : Option ImageId) :
    (s.log who ms ack).ledger = { s.ledger with
      calls := (ms.map fun m => ⟨who, m.1, m.2, ack⟩).reverse ++ s.ledger.calls } := rfl

theorem ledger_alloc (image : ImageId) (stamp : ℕ) :
    (s.alloc image stamp).ledger = { s.ledger with
      next := s.ledger.next + 1
      remote := Function.update s.ledger.remote s.ledger.next image.remote } := by
  simp only [ledger, alloc, Function.comp_update]; rfl

/-- A task moves on without taking or giving anything. -/
theorem ledger_task {t : ℕ} {pc : TaskPc} (h : pc.held = (s.task t).held) :
    (s.setTask t pc).ledger = s.ledger := by
  rw [ledger_setTask, h]
  have : Function.update s.ledger.task t (s.task t).held = s.ledger.task :=
    Function.update_eq_self ..
  rw [this]

theorem ledger_worker {pc : WorkerPc} (h : pc.hand = s.worker.hand) :
    (s.setWorker pc).ledger = s.ledger := by
  rw [ledger_setWorker, h]; rfl

theorem ledger_evt {pc : EventPc} (h : pc.held = s.evt.held) : (s.setEvt pc).ledger = s.ledger := by
  rw [ledger_setEvt, h]; rfl

/-! ### Every step is a sequence of moves -/

open Ledger Relation

/-- Ownership-wise, `s` can become `s'`. -/
abbrev Moves (s s' : State) : Prop := ReflTransGen Ledger.Move s.ledger s'.ledger

theorem Moves.of_eq (h : s'.ledger = s.ledger) : Moves s s' := by rw [Moves, h]

theorem moves_log (who : Who) (ms : List (Method × ℕ)) (ack : Option ImageId)
    (h : ∀ m ∈ ms, s.ledger.Entitled ⟨who, m.1, m.2, ack⟩) : Moves s (s.log who ms ack) := by
  rw [Moves, ledger_log]
  refine moves_calls _ _ fun c hc => ?_
  obtain ⟨m, hm, rfl⟩ := List.mem_map.mp hc
  exact h m hm

/-- The calls of a track call's first region are made on the drive's own backing. -/
theorem entitled_region {who : Who} {ack : Option ImageId} (drive : ℕ) {m : Method × ℕ}
    (h : m.1 ≠ .close ∧ (s.w.drv drive).backing = some m.2 ∧
      (m.1 = .size ∨ (s.w.drv drive).remote = false)) : s.ledger.Entitled ⟨who, m.1, m.2, ack⟩ :=
  ⟨h.1, .inl ⟨drive, h.2.1, h.2.2⟩⟩

/-- A table update hands the task the old backing and the slot what the task held. -/
theorem move_exchange {t d : ℕ} {new : Drive} {pc : TaskPc}
    (hnew : new.slot = ⟨(s.task t).held.isSome, new.remote, (s.task t).held.map (·.1)⟩)
    (hkind : ∀ b k, (s.task t).held = some (b, k) → k = new.remote)
    (hpc : pc.held = (s.w.drv d).backing.map (·, (s.w.drv d).remote)) :
    Move s.ledger ((s.setDisk (s.w.setDrive d new)).setTask t pc).ledger := by
  have hslot : ((s.setDisk (s.w.setDrive d new)).setTask t pc).ledger = { s.ledger with
      slot := Function.update s.ledger.slot d new.slot
      task := Function.update s.ledger.task t pc.held } := by
    rw [ledger_setTask]
    simp only [ledger, setDisk, Disk.setDrive_drv, Disk.setDrive_heap, Function.comp_update]
  rw [hslot, hnew, hpc]
  exact Move.exchange s.ledger d t new.remote hkind

theorem held_disposeOf (old : Drive) (k : After) :
    (disposeOf old k).held = old.backing.map (·, old.remote) := by
  unfold disposeOf
  cases old.backing with
  | none => cases k <;> rfl
  | some b => rfl

theorem held_after (k : After) : k.pc.held = none := by cases k <;> rfl

theorem Moves.task (h : Moves s s') {t : ℕ} {pc : TaskPc} (hpc : pc.held = (s'.task t).held) :
    Moves s (s'.setTask t pc) := by
  rw [Moves, ledger_task hpc]; exact h

/-- From a program point that holds nothing to one that holds nothing. -/
theorem Moves.idle {t : ℕ} {pc₀ pc : TaskPc} {x : State} (h₀ : s.task t = pc₀) (hheld : pc₀.held = none)
    (hpc : pc.held = none) (hx : x.task = s.task) (hm : Moves s x) : Moves s (x.setTask t pc) :=
  hm.task (by rw [hx, h₀, hheld, hpc])

theorem read_moves {t : ℕ} {drive len : ℕ} {track : UInt32} {io : ReadIo}
    (h : s.taskStep t (.read drive track len io) = some s') : Moves s s' := by
  simp only [taskStep, when_eq_some] at h
  obtain ⟨hpc, rfl⟩ := h
  obtain ⟨hd, hh, -, hcalls⟩ := s.w.readEnter_keeps drive track len io
  have hlog := moves_log (s := s.setDisk (s.w.readEnter drive track len io).disk) (.task t)
    (s.w.readEnter drive track len io).calls none
  rw [Moves, ledger_setDisk hd hh] at hlog
  have hlog := hlog fun m hm => entitled_region drive (hcalls m hm)
  split
  · exact hlog
  · exact hlog
  · exact Moves.idle hpc rfl rfl rfl hlog

theorem write_moves {t : ℕ} {drive len : ℕ} {track : UInt32} {data : Bytes} {ack : Option ImageId}
    {io : WriteIo} (h : s.taskStep t (.write drive track len data ack io) = some s') : Moves s s' := by
  simp only [taskStep, when_eq_some] at h
  obtain ⟨⟨hpc, -⟩, rfl⟩ := h
  obtain ⟨hd, hh, hcalls⟩ := s.w.writeEnter_keeps drive track len data io
  have hlog := moves_log (s := s.setDisk (s.w.writeEnter drive track len data io).disk) (.task t)
    (s.w.writeEnter drive track len data io).calls ack
  rw [Moves, ledger_setDisk hd hh] at hlog
  have hlog := hlog fun m hm => entitled_region drive (hcalls m hm)
  split <;> split <;> exact Moves.idle hpc rfl rfl rfl hlog

/-- A file that was opened is the task's; without one the old disk goes. -/
theorem mountOpen_moves {t : ℕ} {drive : ℕ} {name : CStr} {image : Option ℕ}
    (h : s.taskStep t (.mountOpen drive name image) = some s') : Moves s s' := by
  simp only [taskStep, when_eq_some] at h
  obtain ⟨⟨hpc, -⟩, rfl⟩ := h
  have hnone : s.ledger.task t = none := by show (s.task t).held = none; rw [hpc]; rfl
  cases image with
  | some n =>
    refine .single ?_
    rw [ledger_setTask, ledger_alloc]
    exact Move.makeTask s.ledger t hnone
  | none =>
    refine .single (move_exchange ?_ ?_ (held_disposeOf ..)) <;> rw [hpc]
    · rfl
    · rintro _ _ ⟨⟩

/-- The drive and the task exchange what they have, and the size of the new backing is asked. -/
theorem mountSwap_moves {t : ℕ} {drive b : ℕ} {name canon : CStr}
    (h : s.taskStep t (.mountSwap drive name canon b) = some s') : Moves s s' := by
  simp only [taskStep, when_eq_some] at h
  obtain ⟨hpc, rfl⟩ := h
  have hswap : Moves s ((s.setDisk (s.w.mountLocal drive name canon b)).setTask t
      (disposeOf (s.w.drv drive) .ret)) := by
    refine .single (move_exchange ?_ ?_ (held_disposeOf ..)) <;> rw [hpc]
    · rfl
    · rintro _ k ⟨⟩; rfl
  refine hswap.trans (moves_log (.task t) [(.size, b)] none fun m hm => ?_)
  obtain rfl := List.mem_singleton.mp hm
  refine entitled_region drive ⟨by rintro ⟨⟩, ?_, .inl rfl⟩
  show ((s.w.mountLocal drive name canon b).drv drive).backing = some b
  rw [Disk.mountLocal, Disk.setDrive_drv, Function.update_self]

theorem taskStep_moves {t : ℕ} {a : TaskAct} (h : s.taskStep t a = some s') : Moves s s' := by
  cases a with
  | read drive track len io => exact read_moves h
  | copyOut drive track len =>
    simp only [taskStep, when_eq_some] at h
    obtain ⟨hpc, rfl⟩ := h
    split
    · exact Moves.idle hpc rfl rfl rfl (.of_eq rfl)
    · exact Moves.idle hpc rfl rfl rfl .refl
  | enqueue k =>
    simp only [taskStep, when_eq_some] at h
    obtain ⟨⟨hpc, -⟩, rfl⟩ := h
    refine Moves.idle hpc rfl rfl rfl (.of_eq ?_)
    rw [ledger_push]
    simp [JobKind.closes]
  | postFail k =>
    simp only [taskStep, when_eq_some] at h
    obtain ⟨hpc, rfl⟩ := h
    exact Moves.idle hpc rfl rfl rfl .refl
  | wake id k r =>
    simp only [taskStep, when_eq_some] at h
    obtain ⟨⟨hpc, -⟩, rfl⟩ := h
    exact Moves.idle hpc rfl (by split <;> rfl) rfl .refl
  | timeout id k =>
    simp only [taskStep, when_eq_some] at h
    obtain ⟨⟨hpc, -⟩, rfl⟩ := h
    exact Moves.idle hpc rfl rfl rfl (.of_eq rfl)
  | writCheck drive track len =>
    simp only [taskStep, when_eq_some] at h
    obtain ⟨hpc, rfl⟩ := h
    split
    · exact Moves.idle hpc rfl rfl rfl .refl
    · exact .refl
  | writCheckRw drive track len =>
    simp only [taskStep, when_eq_some] at h
    obtain ⟨hpc, rfl⟩ := h
    exact Moves.idle hpc rfl (by split <;> rfl) rfl .refl
  | writReply drive track len =>
    simp only [taskStep, when_eq_some] at h
    obtain ⟨hpc, rfl⟩ := h
    exact Moves.idle hpc rfl rfl rfl .refl
  | payload drive track len ack data =>
    simp only [taskStep, when_eq_some] at h
    obtain ⟨⟨hpc, -⟩, rfl⟩ := h
    exact Moves.idle hpc rfl (by split <;> rfl) rfl .refl
  | write drive track len data ack io => exact write_moves h
  | unmount drive =>
    simp only [taskStep, when_eq_some] at h
    obtain ⟨⟨hpc, -⟩, rfl⟩ := h
    refine .single (move_exchange ?_ ?_ (held_disposeOf ..)) <;> rw [hpc]
    · rfl
    · rintro _ _ ⟨⟩
  | mountBegin drive name =>
    simp only [taskStep, when_eq_some] at h
    obtain ⟨⟨hpc, -⟩, rfl⟩ := h
    exact Moves.idle hpc rfl rfl rfl (.of_eq rfl)
  | mountOpen drive name image => exact mountOpen_moves h
  | mountSwap drive name canon b => exact mountSwap_moves h
  | unlock =>
    simp only [taskStep, when_eq_some] at h
    obtain ⟨hpc, rfl⟩ := h
    exact Moves.idle hpc rfl rfl rfl (.of_eq rfl)
  | config drive url =>
    simp only [taskStep, when_eq_some] at h
    obtain ⟨⟨hpc, -⟩, rfl⟩ := h
    refine .single (move_exchange ?_ ?_ (held_disposeOf ..)) <;> rw [hpc]
    · rfl
    · rintro _ _ ⟨⟩
  | configNet drive =>
    simp only [taskStep, when_eq_some] at h
    obtain ⟨hpc, rfl⟩ := h
    exact Moves.idle hpc rfl (by split <;> rfl) rfl .refl
  | disposeLocal b k =>
    simp only [taskStep, when_eq_some] at h
    obtain ⟨hpc, rfl⟩ := h
    refine .single ?_
    rw [ledger_setTask, held_after]
    exact Move.closeTask s.ledger t b (by show (s.task t).held = _; rw [hpc]; rfl)
  | disposeSend b k =>
    simp only [taskStep, when_eq_some] at h
    obtain ⟨⟨hpc, -⟩, rfl⟩ := h
    refine .single ?_
    rw [ledger_setTask, ledger_push, held_after]
    exact Move.sendTask s.ledger t b (by show (s.task t).held = _; rw [hpc]; rfl)
  | disposeLeak b k =>
    simp only [taskStep, when_eq_some] at h
    obtain ⟨hpc, rfl⟩ := h
    refine .single ?_
    rw [ledger_setTask, ledger_leak, held_after]
    exact Move.leakTask s.ledger t b (by show (s.task t).held = _; rw [hpc]; rfl)
  | imageSize drive =>
    simp only [taskStep, when_eq_some] at h
    obtain ⟨-, rfl⟩ := h
    refine moves_log _ _ _ fun m hm => ?_
    simp only [List.mem_map, Option.mem_toList] at hm
    obtain ⟨b, hb, rfl⟩ := hm
    exact entitled_region drive ⟨by rintro ⟨⟩, hb, .inl rfl⟩

theorem Moves.hand (h : Moves s s') {pc : WorkerPc} (hpc : pc.hand = s'.worker.hand) :
    Moves s (s'.setWorker pc) := by
  rw [Moves, ledger_worker hpc]; exact h

/-- The worker is done with the backing it used. -/
theorem Moves.giveBack (h : Moves s s') {pc : WorkerPc} {b : ℕ} (hw : s'.worker.hand = .borrows b)
    (hpc : pc.hand = .free) : Moves s (s'.setWorker pc) := by
  refine h.tail ?_
  rw [ledger_setWorker, hpc]
  exact Move.giveBack s'.ledger b hw

/-- A call of the worker on the backing it is using. -/
theorem moves_use {b : ℕ} (m : Method) (ack : Option ImageId) (hm : m ≠ .close)
    (hw : s.worker.hand = .borrows b) : Moves s (s.log .worker [(m, b)] ack) := by
  refine moves_log _ _ _ fun x hx => ?_
  obtain rfl := List.mem_singleton.mp hx
  exact ⟨hm, .inr ⟨hw, rfl⟩⟩

/-- The worker closes the backing it owns. -/
theorem move_close {b : ℕ} {pc : WorkerPc} (hw : s.worker.hand = .holds b) (hpc : pc.hand = .free) :
    Moves s ((s.log .worker [(.close, b)] none).setWorker pc) := by
  refine .single ?_
  rw [ledger_setWorker, ledger_log, hpc]
  exact Move.closeWorker s.ledger b hw

/-- A CLOSE job hands its backing to the worker, the other jobs have none. -/
theorem take_moves {j : Job} {rest : List Job} (h : s.workerStep (.take j rest) = some s') :
    Moves s s' := by
  simp only [workerStep, when_eq_some] at h
  obtain ⟨⟨hpc, hq⟩, rfl⟩ := h
  have hqueue : s.ledger.queue = j.kind.closes.toList ++ rest.filterMap fun j => j.kind.closes := by
    simp only [ledger, hq, List.filterMap_cons]
    cases j.kind.closes <;> rfl
  have hfree : s.ledger.worker = .free := by show s.worker.hand = _; rw [hpc]; rfl
  obtain ⟨id, sync, kind⟩ := j
  cases kind with
  | close b =>
    refine .single ?_
    rw [ledger_setWorker]
    exact Move.take s.ledger b _ hqueue hfree
  | request k =>
    have hbegin : (Job.begin ⟨id, sync, .request k⟩).hand = .free := by cases k <;> rfl
    refine .of_eq ?_
    rw [ledger_setWorker, hbegin, ← hfree]
    simp only [ledger] at hqueue ⊢
    rw [hqueue]; rfl

/-- What the lookup finds on the drive is borrowed. -/
theorem lookup_moves {j : Job} (h : s.workerStep (.lookup j) = some s') :
    Moves s s' := by
  simp only [workerStep, when_eq_some] at h
  obtain ⟨hpc, rfl⟩ := h
  split
  · rename_i drive track len write _
    obtain ⟨hcalls, hfound⟩ := s.w.workerLookup_keeps drive track len write
    have hlog : Moves s (s.log .worker (s.w.workerLookup drive track len write).1 none) :=
      moves_log _ _ _ fun m hm => entitled_region drive
        ⟨by rw [(hcalls m hm).1]; rintro ⟨⟩, (hcalls m hm).2, .inl (hcalls m hm).1⟩
    split
    · rename_i b hb
      refine hlog.tail ?_
      rw [ledger_setWorker]
      refine Move.borrow _ drive b ?_ (hfound b hb).1 (hfound b hb).2
      show s.worker.hand = _
      rw [hpc]; rfl
    · exact hlog.hand (by show _ = s.worker.hand; rw [hpc]; rfl)
  · exact .refl

theorem writeEnd_moves {j : Job} {b : ℕ} {err : Option (EspErr × Bytes)}
    (h : s.workerStep (.writeEnd j b err) = some s') :
    Moves s s' := by
  simp only [workerStep, when_eq_some] at h
  obtain ⟨hpc, rfl⟩ := h
  have hw : s.worker.hand = .borrows b := by rw [hpc]; rfl
  split
  · rename_i ack _
    have huse := moves_use .write ack (by rintro ⟨⟩) hw
    have hdisk : ∀ off data, Moves s ((s.log .worker [(.write, b)] ack).setDisk
        (s.w.writeAt b off data)) := fun off data => by
      have heq : ((s.log .worker [(.write, b)] ack).setDisk (s.w.writeAt b off data)).ledger
          = (s.log .worker [(.write, b)] ack).ledger := ledger_setDisk rfl rfl
      rw [Moves, heq]; exact huse
    split
    · exact (hdisk _ _).hand hw.symm
    · split
      · exact (hdisk _ _).hand hw.symm
      · exact .refl
  · exact .refl

theorem publishRead_moves {j : Job} {b : ℕ} {data : Bytes}
    (h : s.workerStep (.publishRead j b data) = some s') :
    Moves s s' := by
  simp only [workerStep, when_eq_some] at h
  obtain ⟨hpc, rfl⟩ := h
  have hw : s.worker.hand = .borrows b := by rw [hpc]; rfl
  split
  · split
    · rename_i drive track len _ hstill
      have hdisk : Moves s (s.setDisk (s.w.workerPublish drive track len b data)) :=
        .of_eq (ledger_setDisk (by simp [Disk.workerPublish, hstill]) (by simp [Disk.workerPublish, hstill]))
      exact hdisk.giveBack hw rfl
    · exact Moves.giveBack .refl hw rfl
  · exact .refl

theorem publishWrite_moves {j : Job} {b : ℕ} {r : Except EspErr Unit} {left : Bytes}
    (h : s.workerStep (.publishWrite j b r left) = some s') :
    Moves s s' := by
  simp only [workerStep, when_eq_some] at h
  obtain ⟨hpc, rfl⟩ := h
  have hw : s.worker.hand = .borrows b := by rw [hpc]; rfl
  split
  · rename_i drive track len data _ _
    split
    · have hkeep : (s.w.workerPublish drive track len b data).drv = s.w.drv ∧
          (s.w.workerPublish drive track len b data).heap = s.w.heap := by
        unfold Disk.workerPublish; split <;> exact ⟨rfl, rfl⟩
      have hdisk : Moves s ((s.logWrite b (track.toNat * len) left).setDisk
          (s.w.workerPublish drive track len b data)) := .of_eq (ledger_setDisk hkeep.1 hkeep.2)
      exact hdisk.giveBack hw rfl
    · have hdisk : Moves s ((s.logWrite b (track.toNat * len) left).setDisk
          (s.w.cacheDropDrive drive)) := .of_eq (ledger_setDisk (by simp; rfl) (by simp; rfl))
      exact hdisk.giveBack hw rfl
  · exact .refl

/-- The new backing goes to the drive that is still without one, and is borrowed from it. -/
theorem install_moves (ho : s.ledger.Owned) {j : Job} {drive b : ℕ} {url : CStr} {readonly : Bool}
    (h : s.workerStep (.install j drive url readonly b) = some s') : Moves s s' := by
  simp only [workerStep, when_eq_some] at h
  obtain ⟨hpc, rfl⟩ := h
  have hw : s.worker.hand = .holds b := by rw [hpc]; rfl
  split
  · rename_i w hins
    unfold Disk.workerInstall at hins
    dsimp only at hins
    split at hins
    · rename_i hk
      obtain rfl := Option.some.inj hins
      simp only [Bool.and_eq_true, Bool.not_eq_true'] at hk
      have hslot : s.ledger.slot drive = ⟨false, true, none⟩ := by
        have hseat := ho.seated drive
        have hm : (s.ledger.slot drive).mounted = false := hk.1.2
        have hr : (s.ledger.slot drive).remote = true := hk.1.1.2
        rw [hm] at hseat
        have hb : (s.ledger.slot drive).backing = none := by simpa using hseat.symm
        rw [← hm, ← hr, ← hb]
      refine .single ?_
      have heq : ((s.setDisk (s.w.setDrive drive { s.w.drv drive with
          backing := some b, mounted := true, readonly := readonly })).setWorker (.sizing j b)).ledger
          = { s.ledger with slot := Function.update s.ledger.slot drive ⟨true, true, some b⟩,
                            worker := .borrows b } := by
        simp only [ledger, setDisk, setWorker, Disk.setDrive_drv, Disk.setDrive_heap,
          Function.comp_update, Drive.slot, hk.1.1.2]
        rfl
      rw [heq]
      exact Move.install s.ledger drive b hw hslot
    · cases hins
  · exact Moves.hand .refl hw.symm

theorem workerStep_moves (ho : s.ledger.Owned) {a : WorkerAct} (h : s.workerStep a = some s') :
    Moves s s' := by
  cases a with
  | take j rest => exact take_moves h
  | lookup j => exact lookup_moves h
  | linkCheck j b =>
    simp only [workerStep, when_eq_some] at h
    obtain ⟨hpc, rfl⟩ := h
    split
    · exact Moves.hand .refl (by rw [hpc]; rfl)
    · exact Moves.giveBack (b := b) .refl (by rw [hpc]; rfl) rfl
  | tear j b junk =>
    simp only [workerStep, when_eq_some] at h
    obtain ⟨hpc, rfl⟩ := h
    split
    · split
      · exact .of_eq (ledger_setDisk rfl rfl)
      · exact .refl
    · exact .refl
  | readEnd j b err =>
    simp only [workerStep, when_eq_some] at h
    obtain ⟨hpc, rfl⟩ := h
    have hw : s.worker.hand = .borrows b := by rw [hpc]; rfl
    have huse := moves_use .read none (by rintro ⟨⟩) hw
    split
    · split
      · exact huse.hand hw.symm
      · exact huse.giveBack hw rfl
    · exact .refl
  | writeEnd j b err => exact writeEnd_moves h
  | publishRead j b data => exact publishRead_moves h
  | publishWrite j b r left => exact publishWrite_moves h
  | want j drive =>
    simp only [workerStep, when_eq_some] at h
    obtain ⟨hpc, rfl⟩ := h
    exact Moves.hand .refl (by rw [hpc]; split <;> rfl)
  | mountLink j drive url =>
    simp only [workerStep, when_eq_some] at h
    obtain ⟨hpc, rfl⟩ := h
    exact Moves.hand .refl (by rw [hpc]; split <;> rfl)
  | sessionUp j drive url readonly up =>
    simp only [workerStep, when_eq_some] at h
    obtain ⟨hpc, rfl⟩ := h
    exact Moves.hand .refl (by rw [hpc]; rfl)
  | openOk j drive url readonly stamp image =>
    simp only [workerStep, when_eq_some] at h
    obtain ⟨⟨hpc, -⟩, rfl⟩ := h
    exact Moves.hand .refl (by rw [hpc]; rfl)
  | openFail j drive url readonly up err =>
    simp only [workerStep, when_eq_some] at h
    obtain ⟨hpc, rfl⟩ := h
    exact Moves.hand .refl (by rw [hpc]; split <;> rfl)
  | newBacking j drive url readonly image stamp ok =>
    simp only [workerStep, when_eq_some] at h
    obtain ⟨⟨hpc, -⟩, rfl⟩ := h
    have hfree : s.worker.hand = .free := by rw [hpc]; rfl
    split
    · refine .single ?_
      rw [ledger_setWorker, ledger_alloc]
      exact Move.makeWorker s.ledger hfree
    · exact Moves.hand .refl hfree.symm
  | install j drive url readonly b => exact install_moves ho h
  | sizeLog j b =>
    simp only [workerStep, when_eq_some] at h
    obtain ⟨hpc, rfl⟩ := h
    have hw : s.worker.hand = .borrows b := by rw [hpc]; rfl
    exact (moves_use .size none (by rintro ⟨⟩) hw).giveBack hw rfl
  | discard j b =>
    simp only [workerStep, when_eq_some] at h
    obtain ⟨hpc, rfl⟩ := h
    exact move_close (by rw [hpc]; rfl) rfl
  | close j b =>
    simp only [workerStep, when_eq_some] at h
    obtain ⟨hpc, rfl⟩ := h
    exact move_close (by rw [hpc]; rfl) rfl
  | finish j r =>
    simp only [workerStep, when_eq_some] at h
    obtain ⟨hpc, rfl⟩ := h
    have hcomplete : (s.complete j r).worker = s.worker := by unfold complete; split <;> rfl
    exact Moves.hand (.of_eq (ledger_complete ..)) (by rw [hcomplete, hpc]; rfl)

/-- The link-loss sweep, slot by slot, collects the remote backings for the event task. -/
theorem moves_sweep (v : Ledger) (ds : List ℕ) (w : Disk) (bs : List ℕ)
    (ho : Owned { v with slot := Drive.slot ∘ w.drv, evt := bs }) :
    let r := ds.foldl (fun (acc : Disk × List ℕ) i =>
      let q := acc.1.sweepOne i; (q.1, acc.2 ++ q.2)) (w, bs)
    r.1.heap = w.heap ∧ ReflTransGen Ledger.Move { v with slot := Drive.slot ∘ w.drv, evt := bs }
      { v with slot := Drive.slot ∘ r.1.drv, evt := r.2 } := by
  induction ds generalizing w bs with
  | nil => exact ⟨rfl, .refl⟩
  | cons d ds ih =>
    simp only [List.foldl_cons]
    by_cases hsw : (w.drv d).remote && (w.drv d).mounted
    · simp only [Bool.and_eq_true] at hsw
      have hseat : (w.drv d).mounted = (w.drv d).backing.isSome := ho.seated d
      obtain ⟨b, hb⟩ := Option.isSome_iff_exists.mp (hseat.symm.trans hsw.2)
      have hslot : Slot.mk (w.drv d).mounted (w.drv d).remote (w.drv d).backing = ⟨true, true, some b⟩ := by
        rw [hsw.1, hsw.2, hb]
      have hone : w.sweepOne d = (w.setDrive d { w.drv d with
          backing := none, mounted := false, readonly := false }, [b]) := by
        simp [Disk.sweepOne, hsw, hb]
      have hmove := Move.sweep { v with slot := Drive.slot ∘ w.drv, evt := bs } d b hslot
      have hcomp : Function.update (Drive.slot ∘ w.drv) d ⟨false, true, none⟩ =
          Drive.slot ∘ (w.setDrive d { w.drv d with
            backing := none, mounted := false, readonly := false }).drv := by
        simp only [Disk.setDrive_drv, Function.comp_update, Drive.slot, hsw.1]
      rw [hcomp] at hmove
      obtain ⟨hheap, hrest⟩ := ih _ _ (ho.step hmove)
      rw [hone]
      exact ⟨hheap.trans (by simp), .head hmove hrest⟩
    · have hone : w.sweepOne d = (w, []) := by simp [Disk.sweepOne, hsw]
      rw [hone, List.append_nil]
      exact ih w bs ho

theorem evtStep_moves (ho : s.ledger.Owned) {a : EventAct} (h : s.evtStep a = some s') :
    Moves s s' := by
  cases a with
  | disconnected =>
    simp only [evtStep, when_eq_some] at h
    obtain ⟨hpc, rfl⟩ := h
    exact .of_eq (ledger_evt (by show _ = s.evt.held; rw [hpc]; rfl))
  | sweep =>
    simp only [evtStep, when_eq_some] at h
    obtain ⟨hpc, rfl⟩ := h
    have hevt : s.ledger = { s.ledger with slot := Drive.slot ∘ s.w.drv, evt := [] } := by
      simp only [ledger, hpc, EventPc.held]
    rw [hevt] at ho
    obtain ⟨hheap, hmoves⟩ := moves_sweep s.ledger (List.range diskMaxDrive) s.w [] ho
    rw [← hevt] at hmoves
    have heq : ({ (s.setDisk s.w.sweep.1) with swept := true }.setEvt (.disposing s.w.sweep.2)).ledger
        = { s.ledger with slot := Drive.slot ∘ s.w.sweep.1.drv, evt := s.w.sweep.2 } := by
      have : s.w.sweep.1.heap = s.w.heap := hheap
      simp only [ledger, setEvt, setDisk, this, EventPc.held]
    rw [Moves, heq]
    exact hmoves
  | disposeSend b bs =>
    simp only [evtStep, when_eq_some] at h
    obtain ⟨⟨hpc, -⟩, rfl⟩ := h
    refine .single ?_
    rw [ledger_setEvt, ledger_push]
    exact Move.sendEvt s.ledger b bs (by show s.evt.held = _; rw [hpc]; rfl)
  | disposeLeak b bs =>
    simp only [evtStep, when_eq_some] at h
    obtain ⟨hpc, rfl⟩ := h
    refine .single ?_
    rw [ledger_setEvt, ledger_leak]
    exact Move.leakEvt s.ledger b bs (by show s.evt.held = _; rw [hpc]; rfl)
  | disposeDone =>
    simp only [evtStep, when_eq_some] at h
    obtain ⟨hpc, rfl⟩ := h
    exact .of_eq (ledger_evt (by rw [hpc]; rfl))
  | gotIp =>
    simp only [evtStep, when_eq_some] at h
    obtain ⟨hpc, rfl⟩ := h
    exact .of_eq (ledger_evt (by show _ = s.evt.held; rw [hpc]; rfl))
  | mountNext i =>
    simp only [evtStep, when_eq_some] at h
    obtain ⟨⟨hpc, -⟩, rfl⟩ := h
    exact .of_eq (ledger_evt (by rw [hpc]; split <;> rfl))
  | mountPost i =>
    simp only [evtStep, when_eq_some] at h
    obtain ⟨⟨hpc, -⟩, rfl⟩ := h
    refine .of_eq ?_
    rw [ledger_evt (by show _ = s.evt.held; rw [hpc]; rfl), ledger_push]
    simp [JobKind.closes]
  | mountPostFail i =>
    simp only [evtStep, when_eq_some] at h
    obtain ⟨hpc, rfl⟩ := h
    exact .of_eq (ledger_evt (by rw [hpc]; rfl))
  | mountDone =>
    simp only [evtStep, when_eq_some] at h
    obtain ⟨hpc, rfl⟩ := h
    exact .of_eq (ledger_evt (by rw [hpc]; rfl))

/-- CORRECT (simulation): a step of the machine is a sequence of moves of the protocol. -/
theorem step_moves (ho : s.ledger.Owned) {a : Act} (h : s.step a = some s') : Moves s s' := by
  cases a with
  | task t a => exact taskStep_moves h
  | worker a => exact workerStep_moves ho h
  | evt a => exact evtStep_moves ho h

theorem Start.owned (h : s.Start) : s.ledger.Owned := by
  have htask : ∀ t, s.ledger.task t = none := fun t => by
    show (s.task t).held = none
    rw [h.idle.1 t]; rfl
  have hevt : s.ledger.evt = [] := by show s.evt.held = []; rw [h.idle.2.2]; rfl
  have hqueue : s.ledger.queue = [] := by simp only [ledger, h.empty.1, List.filterMap_nil]
  have hworker : s.ledger.worker = .free := by show s.worker.hand = _; rw [h.idle.2.1]; rfl
  have hslot : ∀ d, (s.ledger.slot d).mounted = false ∧ (s.ledger.slot d).backing = none := fun d =>
    ⟨(h.drv d).1, (h.drv d).2.2⟩
  have hcalls : s.ledger.calls = [] := h.empty.2.1
  have hleaked : s.ledger.leaked = [] := h.empty.2.2.1
  have hnext : s.ledger.next = 0 := h.counters.1
  refine ⟨⟨fun _ => .evt, fun l x => ?_⟩, ?_, ?_, ?_, ?_, ?_, ?_, ?_, ?_, ?_, ?_, ?_, ?_⟩
  · cases l <;> simp [Held, htask, hevt, hqueue, hworker, hslot, hcalls, hleaked, hnext]
  all_goals simp [htask, hevt, hqueue, hworker, hslot, hcalls]

/-- Every reachable state keeps its ledger in order. -/
theorem reach_owned {ok : State → Act → Prop} (h : diskMachine.Reach ok s) : s.ledger.Owned :=
  h.invariant (I := fun s => s.ledger.Owned) (fun _ hs => Start.owned hs)
    fun _ _ _ ho _ hstep => ho.path (step_moves ho hstep)

theorem backing_lt (ho : s.ledger.Owned) (e b : ℕ) (hb : (s.w.drv e).backing = some b) :
    b < s.next := ho.custody.lt (show s.ledger.Held (.slot e) b from hb)

end State

end FdcSds
