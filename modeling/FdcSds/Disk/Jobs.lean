import FdcSds.Disk.Table
import FdcSds.Schemes.Runs

/-! Handing a job to the disk-I/O worker (`rjob_t` in `src/disk/disk.c`).

    A job is up to three allocations: the object, its semaphore and a copy of the data to write. The call
    that makes a job waits for it with a timeout, or does not wait at all. Who frees the job is settled
    under `s_job_mtx`: a caller that times out and finds it not completed abandons it to the worker.

        call:    new ─▶ copy ─▶ post ─▶ send ─▶ wait ─┬─ signalled ─▶ result ─▶ free
                                                       └─ timeout ─▶ lock ─┬─ completed ─▶ free
                                                                           └─ abandon
        worker:  receive ─▶ run ─▶ lock ─┬─ abandoned, or nobody waits ─▶ free
                                         └─ completed ─▶ signal ─▶ unlock

    A job is named by the call that made it. Each allocation counts how often it was freed, and `fault`
    goes up when a step uses or frees one that is not allocated. -/

namespace FdcSds
open Schemes Schemes.Runs

inductive RjobType where
  | read | write | mount | close
  deriving DecidableEq

/-- `rjob_t`; `done` is the semaphore's count, where there is a semaphore. -/
structure Rjob where
  type : RjobType
  drive : ℤ
  track : UInt32
  len : ℕ
  wdata : Option Bytes
  bclose : Option ℕ
  result : Except EspErr Unit
  completed : Bool
  abandoned : Bool
  done : Option Bool
  deriving DecidableEq

/-- What a caller asks for. -/
structure Order where
  type : RjobType
  drive : ℤ
  track : UInt32
  len : ℕ
  bclose : Option ℕ

/-- `calloc`, then the fields of the order; `ESP_OK` is 0. -/
def rjobNew (o : Order) : Rjob :=
  ⟨o.type, o.drive, o.track, o.len, none, o.bclose, .ok (), false, false, none⟩

/-- The allocations of a job, in the order `rjob_free` frees them. -/
inductive Part where
  | done | wdata | object
  deriving DecidableEq

def Part.rank : Part → ℕ
  | .done => 0
  | .wdata => 1
  | .object => 2

/-- The pointer to this allocation is not NULL. -/
def Rjob.holds (r : Rjob) : Part → Bool
  | .done => r.done.isSome
  | .wdata => r.wdata.isSome
  | .object => true

section

variable {r : Rjob}

@[simp] theorem Part.rank_done : Part.done.rank = 0 := rfl
@[simp] theorem Part.rank_wdata : Part.wdata.rank = 1 := rfl
@[simp] theorem Part.rank_object : Part.object.rank = 2 := rfl
@[simp] theorem Rjob.holds_done : r.holds .done = r.done.isSome := rfl
@[simp] theorem Rjob.holds_wdata : r.holds .wdata = r.wdata.isSome := rfl
@[simp] theorem Rjob.holds_object : r.holds .object = true := rfl

end

/-- Where the call that makes a job is. -/
inductive CallPc where
  | absent
  | copying (wait : Bool)
  | posting (wait : Bool)
  | sending (wait : Bool)
  | waiting
  | woken
  | timedOut
  | deciding
  | collected (r : Except EspErr Unit)
  | abandoning
  | freeing (p : Part) (r : Except EspErr Unit)
  | returned (r : Except EspErr Unit)
  deriving DecidableEq

inductive WorkerAt where
  | idle
  | running (j : ℕ)
  | finishing (j : ℕ) (r : Except EspErr Unit)
  | completing (j : ℕ) (r : Except EspErr Unit)
  | discarding (j : ℕ)
  | freeing (j : ℕ) (p : Part)
  | signalling (j : ℕ)
  | leaving
  deriving DecidableEq

/-- Who holds `s_job_mtx`. -/
inductive Holder where
  | call (j : ℕ)
  | worker
  deriving DecidableEq

/-- A job and the call that made it. `heap` has how often an allocation was freed, `buf` is the caller's
    data and `given` what it was when the call began; `tried` says the job was offered to the queue. -/
structure Cell where
  call : CallPc
  rjob : Rjob
  heap : Part → Option ℕ
  buf : Bytes
  given : Bytes
  tried : Bool

structure Jobs where
  cell : ℕ → Cell
  ready : Bool
  queue : List ℕ
  mutex : Option Holder
  worker : WorkerAt
  fault : Bool
  used : List (ℕ × Bytes)

inductive JobAct where
  | new (j : ℕ) (o : Order) (wait : Bool) (data : Bytes) (ok : Bool)
  | copy (j : ℕ) (ok : Bool)
  | post (j : ℕ) (ok : Bool)
  | send (j : ℕ) (ok : Bool)
  | take (j : ℕ)
  | collect (j : ℕ)
  | giveUp (j : ℕ)
  | lock (j : ℕ)
  | decide (j : ℕ)
  | unlock (j : ℕ)
  | free (j : ℕ)
  | reuse (j : ℕ) (data : Bytes)
  | receive
  | use
  | finish (r : Except EspErr Unit)
  | workerLock
  | complete
  | discard
  | workerFree
  | signal
  | leave

/-- A step of a hand-off that has begun: not a new call, nor a caller's use of its own buffer. -/
def JobAct.onward : JobAct → Bool
  | .new .. | .reuse .. => false
  | _ => true

/-- `s_rq` holds this many jobs (`REMOTE_QUEUE_LEN`). -/
def jobQueueLen : ℕ := 12

/-- An allocation is made. -/
def Cell.alloc (c : Cell) (p : Part) : Cell := { c with heap := Function.update c.heap p (some 0) }

/-- An allocation is freed once more. -/
def Cell.release (c : Cell) (p : Part) : Cell :=
  { c with heap := Function.update c.heap p ((c.heap p).map (· + 1)) }

/-- One of the three calls of `rjob_free`; a NULL pointer is not freed. -/
def Cell.freePart (c : Cell) (p : Part) : Cell := if c.rjob.holds p then c.release p else c

/-- What a call of `rjob_free` uses: the object it reads the pointer from, and what it frees. -/
def Cell.freeUses (c : Cell) (p : Part) : List Part := if c.rjob.holds p then [.object, p] else [.object]

section

variable {c : Cell} {p : Part}

@[simp] theorem Cell.freePart_rjob : (c.freePart p).rjob = c.rjob := by
  unfold freePart
  split <;> rfl

@[simp] theorem Cell.freePart_call : (c.freePart p).call = c.call := by
  unfold freePart
  split <;> rfl

@[simp] theorem Cell.freePart_given : (c.freePart p).given = c.given := by
  unfold freePart
  split <;> rfl

@[simp] theorem Cell.freePart_tried : (c.freePart p).tried = c.tried := by
  unfold freePart
  split <;> rfl

end

/-- The part freed after this one. -/
def Part.next : Part → Option Part
  | .done => some .wdata
  | .wdata => some .object
  | .object => none

namespace Jobs

/-- A step on job `j` that uses these allocations. -/
def put (s : Jobs) (j : ℕ) (uses : List Part) (c : Cell) : Jobs :=
  { s with
    cell := Function.update s.cell j c
    fault := s.fault || uses.any fun p => (s.cell j).heap p != some 0 }

def step (s : Jobs) : JobAct → Option Jobs
  | .new j o wait data ok =>
    let c : Cell := ⟨.returned (.error .noMem), rjobNew o, fun _ => none, data, data, false⟩
    when ((s.cell j).call = .absent) <| s.put j [] <|
      if ok then { c.alloc .object with call := if o.type = .write then .copying wait else .posting wait }
      else c
  | .copy j ok =>
    let c := s.cell j
    match c.call with
    | .copying wait =>
      some <| if ok then
        s.put j [.object] { c.alloc .wdata with rjob.wdata := some c.buf, call := .posting wait }
      else s.put j [.object] { c.release .object with call := .returned (.error .noMem) }
    | _ => none
  | .post j ok =>
    let c := s.cell j
    match c.call with
    | .posting wait =>
      some <| if !s.ready then s.put j [] { c with call := .freeing .done (.error .invalidState) }
      else if !wait then s.put j [] { c with call := .sending wait }
      else if ok then s.put j [.object] { c.alloc .done with rjob.done := some false, call := .sending wait }
      else s.put j [.object] { c with call := .freeing .done (.error .noMem) }
    | _ => none
  | .send j ok =>
    let c := { s.cell j with tried := true }
    match c.call with
    | .sending wait =>
      if ok then
        when (s.queue.length < jobQueueLen)
          { s.put j [] { c with call := if wait then .waiting else .returned (.ok ()) } with
            queue := s.queue ++ [j] }
      else some (s.put j [] { c with call := .freeing .done (.error .timeout) })
    | _ => none
  | .take j =>
    let c := s.cell j
    when (c.call = .waiting ∧ c.rjob.done = some true)
      (s.put j [.object, .done] { c with rjob.done := some false, call := .woken })
  | .collect j =>
    let c := s.cell j
    when (c.call = .woken) (s.put j [.object] { c with call := .freeing .done c.rjob.result })
  | .giveUp j =>
    let c := s.cell j
    when (c.call = .waiting) (s.put j [.object, .done] { c with call := .timedOut })
  | .lock j =>
    let c := s.cell j
    when (c.call = .timedOut ∧ s.mutex = none)
      { s.put j [] { c with call := .deciding } with mutex := some (.call j) }
  | .decide j =>
    let c := s.cell j
    when (c.call = .deciding) <| s.put j [.object] <|
      if c.rjob.completed then { c with call := .collected c.rjob.result }
      else { c with rjob.abandoned := true, call := .abandoning }
  | .unlock j =>
    let c := s.cell j
    match c.call with
    | .collected r => some { s.put j [] { c with call := .freeing .done r } with mutex := none }
    | .abandoning => some { s.put j [] { c with call := .returned (.error .timeout) } with mutex := none }
    | _ => none
  | .free j =>
    let c := s.cell j
    match c.call with
    | .freeing p r =>
      some (s.put j (c.freeUses p)
        { c.freePart p with call := match p.next with | some q => .freeing q r | none => .returned r })
    | _ => none
  | .reuse j data =>
    let c := s.cell j
    match c.call with
    | .returned _ => some (s.put j [] { c with buf := data })
    | _ => none
  | .receive =>
    match s.worker, s.queue with
    | .idle, j :: rest => some { s with queue := rest, worker := .running j }
    | _, _ => none
  | .use =>
    match s.worker with
    | .running j =>
      let c := s.cell j
      match c.rjob.wdata with
      | some d => some { s.put j [.object, .wdata] c with used := (j, d) :: s.used }
      | none => some (s.put j [.object] c)
    | _ => none
  | .finish r =>
    match s.worker with
    | .running j => some { s with worker := .finishing j r }
    | _ => none
  | .workerLock =>
    match s.worker with
    | .finishing j r => when (s.mutex = none) { s with worker := .completing j r, mutex := some .worker }
    | _ => none
  | .complete =>
    match s.worker with
    | .completing j r =>
      let c := s.cell j
      some <| if c.rjob.abandoned ||
        c.rjob.done.isNone then { s.put j [.object] c with worker := .discarding j }
        else { s.put j [.object] { c with rjob.result := r, rjob.completed := true } with
          worker := .signalling j }
    | _ => none
  | .discard =>
    match s.worker with
    | .discarding j => some { s with mutex := none, worker := .freeing j .done }
    | _ => none
  | .workerFree =>
    match s.worker with
    | .freeing j p =>
      let c := s.cell j
      some { s.put j (c.freeUses p) (c.freePart p) with
        worker := match p.next with | some q => .freeing j q | none => .idle }
    | _ => none
  | .signal =>
    match s.worker with
    | .signalling j =>
      let c := s.cell j
      some { s.put j [.object, .done] { c with rjob.done := some true } with worker := .leaving }
    | _ => none
  | .leave => when (s.worker = .leaving) { s with mutex := none, worker := .idle }

/-- No call yet; the queue and the worker may have come up or not. -/
def Start (s : Jobs) : Prop :=
  (∀ j, (s.cell j).call = .absent ∧ (s.cell j).heap = fun _ => none) ∧ s.queue = [] ∧ s.mutex = none ∧
    s.worker = .idle ∧ s.fault = false ∧ s.used = []

def machine : Machine Jobs JobAct := ⟨Start, step⟩

end Jobs

/-! ### Where a job is on the worker's side -/

inductive Stage where
  | away
  | pending
  | dropping (p : Part)
  | signalling
  deriving DecidableEq

namespace WorkerAt

def job : WorkerAt → Option ℕ
  | .idle | .leaving => none
  | .running j | .finishing j _ | .completing j _ | .discarding j | .freeing j _ | .signalling j => some j

/-- The worker holds `s_job_mtx`. -/
def locks : WorkerAt → Bool
  | .completing _ _ | .discarding _ | .signalling _ | .leaving => true
  | .idle | .running _ | .finishing _ _ | .freeing _ _ => false

/-- What the worker is doing with the job it has. -/
def doing : WorkerAt → Stage
  | .idle | .leaving => .away
  | .running _ | .finishing _ _ | .completing _ _ => .pending
  | .discarding _ => .dropping .done
  | .freeing _ p => .dropping p
  | .signalling _ => .signalling

end WorkerAt

/-- The call holds `s_job_mtx`. -/
def CallPc.locks : CallPc → Bool
  | .deciding | .collected _ | .abandoning => true
  | _ => false

/-- Queued, with the worker, or neither. -/
def stageOf (queue : List ℕ) (w : WorkerAt) (j : ℕ) : Stage :=
  if j ∈ queue then .pending else if w.job = some j then w.doing else .away

theorem stageOf_away {queue : List ℕ} {w : WorkerAt} {j : ℕ} (h : stageOf queue w j = .away) :
    j ∉ queue ∧ w.job ≠ some j := by
  unfold stageOf at h
  split at h
  · cases h
  · next hq =>
    refine ⟨hq, fun hj => ?_⟩
    rw [if_pos hj] at h
    cases w with
    | idle | leaving => cases hj
    | running _ | finishing _ _ | completing _ _ | discarding _ | freeing _ _ | signalling _ => cases h

theorem stageOf_worker {queue : List ℕ} {w : WorkerAt} {j : ℕ} (hnotin : j ∉ queue) (hjob : w.job = some j) :
    stageOf queue w j = w.doing := by
  rw [stageOf, if_neg hnotin, if_pos hjob]

theorem stageOf_signalling {queue : List ℕ} {w : WorkerAt} {j : ℕ} (h : stageOf queue w j = .signalling) :
    w.locks = true := by
  unfold stageOf at h
  repeat' split at h
  · cases h
  · cases w with
    | signalling _ => rfl
    | idle | leaving | running _ | finishing _ _ | completing _ _ | discarding _ | freeing _ _ => cases h
  · cases h

namespace Cell

variable (c : Cell)

/-- The allocations below rank `n` were freed once, the others not. -/
def FreedBelow (n : ℕ) : Prop :=
  ∀ p, c.heap p = if c.rjob.holds p then some (if p.rank < n then 1 else 0) else none

/-- Not offered to the worker yet. -/
def Fresh : Prop := c.rjob.completed = false ∧ c.rjob.abandoned = false ∧ c.tried = false

/-- The call's result is the worker's if the job was completed, and a timeout if it was offered, waited
    for and not completed. A call that could not offer its job says why. -/
def Verdict (r : Except EspErr Unit) : Prop :=
  (c.rjob.completed = true → r = c.rjob.result) ∧
    (c.rjob.completed = false → c.tried = true → c.rjob.done.isSome = true → r = .error .timeout) ∧
    (c.rjob.completed = false → c.tried = false → r = .error .noMem ∨ r = .error .invalidState)

/-- The job is waited for: pending, completed, or completed and signalled. -/
def Awaited (st : Stage) : Prop :=
  c.tried = true ∧
    ((st = .pending ∧ c.rjob.completed = false ∧ c.rjob.done = some false) ∨
      (st = .signalling ∧ c.rjob.completed = true ∧ c.rjob.done = some false) ∨
      (st = .away ∧ c.rjob.completed = true ∧ c.rjob.done = some true))

/-- Nobody waits any more: the worker has the job, or is freeing it, or nothing is left of it. -/
def Released (st : Stage) : Prop :=
  (st = .pending ∧ c.FreedBelow 0 ∧ c.rjob.completed = false ∧
    (c.rjob.abandoned || c.rjob.done.isNone) = true) ∨
    (∃ p, st = .dropping p ∧ c.FreedBelow p.rank ∧ c.rjob.completed = false) ∨
    (st = .away ∧ (c.FreedBelow 3 ∨ c.heap = fun _ => none))

/-- What a cell is like, by where its call is. -/
def OkAt (st : Stage) (pc : CallPc) : Prop :=
  match pc with
  | .absent => st = .away ∧ c.heap = fun _ => none
  | .copying _ =>
    st = .away ∧ c.FreedBelow 0 ∧ c.Fresh ∧ c.rjob.wdata = none ∧ c.rjob.done = none ∧ c.buf = c.given
  | .posting _ => st = .away ∧ c.FreedBelow 0 ∧ c.Fresh ∧ c.rjob.done = none
  | .sending wait => st = .away ∧ c.FreedBelow 0 ∧ c.Fresh ∧ c.rjob.done = if wait then some false else none
  | .waiting | .timedOut => c.FreedBelow 0 ∧ c.rjob.abandoned = false ∧ c.Awaited st
  | .deciding => c.FreedBelow 0 ∧ c.rjob.abandoned = false ∧ c.Awaited st ∧ st ≠ .signalling
  | .woken => st = .away ∧ c.FreedBelow 0 ∧ c.rjob.completed = true
  | .collected r => st = .away ∧ c.FreedBelow 0 ∧ c.rjob.completed = true ∧ r = c.rjob.result
  | .abandoning =>
    st = .pending ∧ c.FreedBelow 0 ∧ c.rjob.abandoned = true ∧ c.rjob.completed = false ∧ c.tried = true
  | .freeing p r => st = .away ∧ c.FreedBelow p.rank ∧ c.Verdict r
  | .returned r => c.Verdict r ∧ c.Released st

def Ok (st : Stage) : Prop := c.OkAt st c.call

variable {c} {n : ℕ} {p : Part}

/-- Nothing is ever freed twice. -/
theorem OkAt.heap {st : Stage} {pc : CallPc} (h : c.OkAt st pc) (p : Part) :
    c.heap p = none ∨ c.heap p = some 0 ∨ c.heap p = some 1 := by
  have freed : ∀ {n}, c.FreedBelow n → c.heap p = none ∨ c.heap p = some 0 ∨ c.heap p = some 1 := by
    intro n hfreed
    rw [hfreed p]
    repeat' split
    all_goals simp
  cases pc with
  | absent => exact .inl (congrFun h.2 p)
  | waiting | timedOut | deciding => exact freed h.1
  | copying | posting | sending | woken | collected | abandoning | freeing => exact freed h.2.1
  | returned =>
    obtain ⟨-, ⟨-, hfreed, -⟩ | ⟨q, -, hfreed, -⟩ | ⟨-, hfreed | hnone⟩⟩ := h
    · exact freed hfreed
    · exact freed hfreed
    · exact freed hfreed
    · exact .inl (congrFun hnone p)

/-- Only these calls have let the worker see the job. -/
theorem OkAt.shared {st : Stage} {pc : CallPc} (h : c.OkAt st pc) (hst : st ≠ .away) :
    pc = .waiting ∨ pc = .timedOut ∨ pc = .deciding ∨ pc = .abandoning ∨ ∃ r, pc = .returned r := by
  cases pc with
  | absent | copying | posting | sending | woken | collected | freeing => exact absurd h.1 hst
  | waiting | timedOut | deciding | abandoning | returned => simp

/-- While the worker has it to run, nothing of a job was freed. -/
theorem OkAt.pending {pc : CallPc} (h : c.OkAt .pending pc) : c.FreedBelow 0 ∧ c.rjob.completed = false := by
  rcases h.shared (by rintro ⟨⟩) with rfl | rfl | rfl | rfl | ⟨r, rfl⟩
  · obtain ⟨hfreed, -, -, ⟨-, hcompleted, -⟩ | ⟨⟨⟩, -⟩ | ⟨⟨⟩, -⟩⟩ := h
    exact ⟨hfreed, hcompleted⟩
  · obtain ⟨hfreed, -, -, ⟨-, hcompleted, -⟩ | ⟨⟨⟩, -⟩ | ⟨⟨⟩, -⟩⟩ := h
    exact ⟨hfreed, hcompleted⟩
  · obtain ⟨hfreed, -, ⟨-, ⟨-, hcompleted, -⟩ | ⟨⟨⟩, -⟩ | ⟨⟨⟩, -⟩⟩, -⟩ := h
    exact ⟨hfreed, hcompleted⟩
  · obtain ⟨-, hfreed, -, hcompleted, -⟩ := h
    exact ⟨hfreed, hcompleted⟩
  · obtain ⟨-, ⟨-, hfreed, hcompleted, -⟩ | ⟨p, ⟨⟩, -⟩ | ⟨⟨⟩, -⟩⟩ := h
    exact ⟨hfreed, hcompleted⟩

/-- What the worker frees belongs to a call that has returned. -/
theorem OkAt.dropping {pc : CallPc} (h : c.OkAt (.dropping p) pc) :
    ∃ r, pc = .returned r ∧ c.Verdict r ∧ c.FreedBelow p.rank ∧ c.rjob.completed = false := by
  rcases h.shared (by rintro ⟨⟩) with rfl | rfl | rfl | rfl | ⟨r, rfl⟩
  · obtain ⟨-, -, -, ⟨⟨⟩, -⟩ | ⟨⟨⟩, -⟩ | ⟨⟨⟩, -⟩⟩ := h
  · obtain ⟨-, -, -, ⟨⟨⟩, -⟩ | ⟨⟨⟩, -⟩ | ⟨⟨⟩, -⟩⟩ := h
  · obtain ⟨-, -, ⟨-, ⟨⟨⟩, -⟩ | ⟨⟨⟩, -⟩ | ⟨⟨⟩, -⟩⟩, -⟩ := h
  · cases h.1
  · obtain ⟨hverdict, ⟨⟨⟩, -⟩ | ⟨q, hq, hfreed, hcompleted⟩ | ⟨⟨⟩, -⟩⟩ := h
    cases hq
    exact ⟨r, rfl, hverdict, hfreed, hcompleted⟩

/-- What the worker is about to signal is waited for, by a call that has not got the mutex. -/
theorem OkAt.signalling {pc : CallPc} (h : c.OkAt .signalling pc) :
    (pc = .waiting ∨ pc = .timedOut) ∧ c.FreedBelow 0 ∧ c.rjob.abandoned = false ∧ c.tried = true ∧
      c.rjob.completed = true ∧ c.rjob.done = some false := by
  rcases h.shared (by rintro ⟨⟩) with rfl | rfl | rfl | rfl | ⟨r, rfl⟩
  · obtain ⟨hfreed, hkept, htried, ⟨⟨⟩, -⟩ | ⟨-, hcompleted, hdone⟩ | ⟨⟨⟩, -⟩⟩ := h
    exact ⟨.inl rfl, hfreed, hkept, htried, hcompleted, hdone⟩
  · obtain ⟨hfreed, hkept, htried, ⟨⟨⟩, -⟩ | ⟨-, hcompleted, hdone⟩ | ⟨⟨⟩, -⟩⟩ := h
    exact ⟨.inr rfl, hfreed, hkept, htried, hcompleted, hdone⟩
  · exact absurd rfl h.2.2.2
  · cases h.1
  · obtain ⟨-, ⟨⟨⟩, -⟩ | ⟨q, ⟨⟩, -⟩ | ⟨⟨⟩, -⟩⟩ := h

theorem FreedBelow.live (h : c.FreedBelow n) (hp : c.rjob.holds p = true) (hn : n ≤ p.rank) :
    c.heap p = some 0 := by
  rw [h p, if_pos hp, if_neg (by omega)]

theorem FreedBelow.object (h : c.FreedBelow n) (hn : n ≤ 2) : c.heap .object = some 0 := h.live rfl hn

/-- Nothing about the allocations changed. -/
theorem FreedBelow.congr {c' : Cell} (h : c.FreedBelow n) (hheap : c'.heap = c.heap)
    (hholds : c'.rjob.holds = c.rjob.holds) : c'.FreedBelow n := by
  intro p
  rw [hheap, hholds]
  exact h p

theorem Fresh.verdict (h : c.Fresh) {r : Except EspErr Unit}
    (hr : r = .error .noMem ∨ r = .error .invalidState) :
    c.Verdict r := by
  refine ⟨fun hc => ?_, fun _ ht => ?_, fun _ _ => hr⟩
  · rw [h.1] at hc
    cases hc
  · rw [h.2.2] at ht
    cases ht

/-- What was completed ends with the worker's result. -/
theorem verdict_of_completed (h : c.rjob.completed = true) {r : Except EspErr Unit} (hr : r = c.rjob.result) :
    c.Verdict r := by
  refine ⟨fun _ => hr, fun hno => ?_, fun hno => ?_⟩ <;>
  · rw [h] at hno
    cases hno

/-- One call of `rjob_free` uses what is still there, and frees the next part. -/
theorem FreedBelow.freePart (h : c.FreedBelow p.rank) :
    (∀ q ∈ c.freeUses p, c.heap q = some 0) ∧ (c.freePart p).FreedBelow (p.rank + 1) := by
  have hobject : c.heap .object = some 0 := h.object (by cases p <;> decide)
  constructor
  · intro q hq
    unfold freeUses at hq
    split at hq
    · next hp =>
      rcases List.mem_pair.mp hq with rfl | rfl
      · exact hobject
      · exact h.live hp le_rfl
    · rw [List.mem_singleton.mp hq]
      exact hobject
  · intro q
    unfold Cell.freePart
    split
    · next hp =>
      by_cases hqp : q = p
      · subst hqp
        simp [release, h q, hp]
      · have hrank : q.rank < p.rank + 1 ↔ q.rank < p.rank := by
          cases q <;> cases p <;> simp_all [Part.rank]
        simp only [release, Function.update_of_ne hqp, h q, hrank]
    · next hp =>
      by_cases hqp : q = p
      · subst hqp
        simp [h q, hp]
      · have hrank : q.rank < p.rank + 1 ↔ q.rank < p.rank := by
          cases q <;> cases p <;> simp_all [Part.rank]
        simp only [h q, hrank]

end Cell

namespace Jobs

structure Sound (s : Jobs) : Prop where
  fault : s.fault = false
  ok : ∀ j, (s.cell j).Ok (stageOf s.queue s.worker j)
  wdata : ∀ j d, (s.cell j).rjob.wdata = some d → (s.cell j).call ≠ .absent → d = (s.cell j).given
  used : ∀ u ∈ s.used, (s.cell u.1).call ≠ .absent ∧ u.2 = (s.cell u.1).given
  nodup : s.queue.Nodup
  apart : ∀ k, s.worker.job = some k → k ∉ s.queue
  callLock : ∀ k, s.mutex = some (.call k) ↔ (s.cell k).call.locks = true
  workerLock : s.mutex = some .worker ↔ s.worker.locks = true

theorem Start.sound {s : Jobs} (h : s.Start) : s.Sound := by
  obtain ⟨hcells, hqueue, hmutex, hworker, hfault, hused⟩ := h
  constructor
  · exact hfault
  · intro j
    obtain ⟨hcall, hheap⟩ := hcells j
    rw [Cell.Ok, hcall, hqueue, hworker]
    exact ⟨rfl, hheap⟩
  · exact fun j d _ hcall => absurd (hcells j).1 hcall
  · rw [hused]
    rintro u ⟨⟩
  · rw [hqueue]
    exact .nil
  · rw [hworker]
    rintro k ⟨⟩
  · intro k
    rw [hmutex, (hcells k).1]
    simp [CallPc.locks]
  · rw [hmutex, hworker]
    decide

variable {s s' : Jobs} {j : ℕ} {uses : List Part} {c : Cell}

/-- One cell changes, and maybe the queue, the mutex and the worker with it. -/
theorem Sound.move (h : s.Sound) {q : List ℕ} {m : Option Holder} {w : WorkerAt}
    (huses : ∀ p ∈ uses, (s.cell j).heap p = some 0)
    (hkeep : (s.cell j).call ≠ .absent → c.given = (s.cell j).given ∧ c.call ≠ .absent)
    (hwdata : ∀ d, c.rjob.wdata = some d → c.call ≠ .absent → d = c.given)
    (hok : c.Ok (stageOf q w j)) (hothers : ∀ k ≠ j, stageOf q w k = stageOf s.queue s.worker k)
    (hnodup : q.Nodup) (hapart : ∀ k, w.job = some k → k ∉ q)
    (hcall : ∀ k, m = some (.call k) ↔ (Function.update s.cell j c k).call.locks = true)
    (hworker : m = some .worker ↔ w.locks = true) :
    { s.put j uses c with queue := q, mutex := m, worker := w }.Sound where
  fault := by
    simp only [put, h.fault, Bool.false_or, List.any_eq_false]
    intro p hp
    rw [huses p hp]
    decide
  ok := by
    intro k
    by_cases hk : k = j
    · subst hk
      simpa [put] using hok
    · simpa [put, hk, hothers k hk] using h.ok k
  wdata := by
    intro k d
    by_cases hk : k = j
    · subst hk
      simpa [put] using hwdata d
    · simpa [put, hk] using h.wdata k d
  used := by
    intro u hu
    by_cases hk : u.1 = j
    · obtain ⟨hcalled, hgiven⟩ := h.used u hu
      rw [hk] at hcalled hgiven
      obtain ⟨hsame, hcall⟩ := hkeep hcalled
      simp [put, hk, hcall, hsame, hgiven]
    · simpa [put, hk] using h.used u hu
  nodup := hnodup
  apart := hapart
  callLock := hcall
  workerLock := hworker

/-- One cell changes, and neither takes nor gives back the mutex. -/
theorem Sound.put (h : s.Sound) (huses : ∀ p ∈ uses, (s.cell j).heap p = some 0)
    (hkeep : (s.cell j).call ≠ .absent → c.given = (s.cell j).given ∧ c.call ≠ .absent)
    (hwdata : ∀ d, c.rjob.wdata = some d → c.call ≠ .absent → d = c.given)
    (hok : c.Ok (stageOf s.queue s.worker j)) (hlocks : c.call.locks = (s.cell j).call.locks) :
    (s.put j uses c).Sound := by
  refine h.move huses hkeep hwdata hok (fun _ _ => rfl) h.nodup h.apart (fun k => ?_) h.workerLock
  by_cases hk : k = j
  · subst hk
    rw [Function.update_self, hlocks]
    exact h.callLock k
  · rw [Function.update_of_ne hk]
    exact h.callLock k

/-- A step of a call that has begun keeps its data. -/
theorem Sound.kept (h : s.Sound) (hcall : (s.cell j).call ≠ .absent)
    (hgiven : c.given = (s.cell j).given) (hdata : c.rjob.wdata = (s.cell j).rjob.wdata) :
    ∀ d, c.rjob.wdata = some d → c.call ≠ .absent → d = c.given := by
  intro d hd _
  rw [hgiven]
  exact h.wdata j d (hdata ▸ hd) hcall

/-- What the invariant says of a cell whose call is here. -/
theorem Sound.at (h : s.Sound) {pc : CallPc} (hpc : (s.cell j).call = pc) :
    (s.cell j).OkAt (stageOf s.queue s.worker j) pc := hpc ▸ h.ok j

/-! ### The call's steps -/

theorem new_sound (h : s.Sound) {o : Order} {wait : Bool} {data : Bytes} {ok : Bool}
    (hstep : s.step (.new j o wait data ok) = some s') : s'.Sound := by
  obtain ⟨hcall, rfl⟩ := when_eq_some.mp hstep
  obtain ⟨haway, -⟩ := h.at hcall
  have live : ({ Cell.alloc ⟨.returned (.error .noMem), rjobNew o, fun _ => none, data,
    data, false⟩ .object with
      call := .posting wait } : Cell).FreedBelow 0 := by
    intro p
    cases p <;> simp [Cell.alloc, rjobNew]
  refine h.put (by rintro p ⟨⟩) (fun hne => absurd hcall hne) ?_ ?_ ?_
  · rintro d hd -
    cases ok <;> cases hd
  · rw [haway]
    cases ok with
    | false => exact ⟨Cell.Fresh.verdict ⟨rfl, rfl, rfl⟩ (.inl rfl), .inr (.inr ⟨rfl, .inr rfl⟩)⟩
    | true =>
      by_cases hwrite : o.type = .write
      · simp only [if_true, hwrite]
        exact ⟨rfl, live, ⟨rfl, rfl, rfl⟩, rfl, rfl, rfl⟩
      · simp only [if_true, if_neg hwrite]
        exact ⟨rfl, live, ⟨rfl, rfl, rfl⟩, rfl⟩
  · rw [hcall]
    cases ok with
    | false => rfl
    | true =>
      simp only [if_true]
      split <;> rfl

theorem copy_sound (h : s.Sound) {ok : Bool} (hstep : s.step (.copy j ok) = some s') : s'.Sound := by
  simp only [step] at hstep
  split at hstep
  · next wait hpc =>
    cases hstep
    have hcalled : (s.cell j).call ≠ .absent := by rw [hpc]; rintro ⟨⟩
    obtain ⟨haway, hfreed, hfresh, hnull, hdone, hbuf⟩ := h.at hpc
    have huses : ∀ p ∈ [Part.object], (s.cell j).heap p = some 0 := by
      simpa using hfreed.object (by decide)
    cases ok with
    | true =>
      refine h.put huses (fun _ => ⟨rfl, by rintro ⟨⟩⟩) ?_ ?_ (by rw [hpc]; rfl)
      · rintro d ⟨⟩ -
        exact hbuf
      · refine ⟨haway, fun p => ?_, hfresh, hdone⟩
        have hheap := hfreed p
        cases p <;> simp_all [Cell.alloc]
    | false =>
      refine h.put huses (fun _ => ⟨rfl, by rintro ⟨⟩⟩) (h.kept hcalled rfl rfl) ?_ (by rw [hpc]; rfl)
      refine ⟨hfresh.verdict (.inl rfl), .inr (.inr ⟨haway, .inl fun p => ?_⟩)⟩
      have hheap := hfreed p
      cases p <;> simp_all [Cell.release]
  · cases hstep

theorem post_sound (h : s.Sound) {ok : Bool} (hstep : s.step (.post j ok) = some s') : s'.Sound := by
  simp only [step] at hstep
  split at hstep
  · next wait hpc =>
    cases hstep
    have hcalled : (s.cell j).call ≠ .absent := by rw [hpc]; rintro ⟨⟩
    obtain ⟨haway, hfreed, hfresh, hdone⟩ := h.at hpc
    have huses : ∀ p ∈ [Part.object], (s.cell j).heap p = some 0 := by
      simpa using hfreed.object (by decide)
    split
    · exact h.put (by rintro p ⟨⟩) (fun _ => ⟨rfl, by rintro ⟨⟩⟩) (h.kept hcalled rfl rfl)
        ⟨haway, hfreed, hfresh.verdict (.inr rfl)⟩ (by rw [hpc]; rfl)
    split
    · next hwait =>
      have hasync : wait = false := by simpa using hwait
      subst hasync
      exact h.put (by rintro p ⟨⟩) (fun _ => ⟨rfl, by rintro ⟨⟩⟩) (h.kept hcalled rfl rfl)
        ⟨haway, hfreed, hfresh, hdone⟩ (by rw [hpc]; rfl)
    split
    · next hwait _ =>
      have hsync : wait = true := by simpa using hwait
      subst hsync
      refine h.put huses (fun _ => ⟨rfl, by rintro ⟨⟩⟩) (h.kept hcalled rfl rfl) ?_ (by rw [hpc]; rfl)
      refine ⟨haway, fun p => ?_, hfresh, rfl⟩
      have hheap := hfreed p
      cases p <;> simp_all [Cell.alloc]
    · exact h.put huses (fun _ => ⟨rfl, by rintro ⟨⟩⟩) (h.kept hcalled rfl rfl)
        ⟨haway, hfreed, hfresh.verdict (.inl rfl)⟩ (by rw [hpc]; rfl)
  · cases hstep

theorem send_sound (h : s.Sound) {ok : Bool} (hstep : s.step (.send j ok) = some s') : s'.Sound := by
  simp only [step] at hstep
  split at hstep
  · next wait hpc =>
    have hcalled : (s.cell j).call ≠ .absent := by
      rw [show (s.cell j).call = .sending wait from hpc]
      rintro ⟨⟩
    obtain ⟨haway, hfreed, hfresh, hdone⟩ := h.at (show (s.cell j).call = .sending wait from hpc)
    cases ok with
    | false =>
      cases hstep
      refine h.put (by rintro p ⟨⟩) (fun _ => ⟨rfl, by rintro ⟨⟩⟩) (h.kept hcalled rfl rfl)
        ⟨haway, hfreed, fun hc => ?_, fun _ _ _ => rfl, by rintro - ⟨⟩⟩
        (by rw [show (s.cell j).call = .sending wait from hpc]; rfl)
      rw [show (s.cell j).rjob.completed = false from hfresh.1] at hc
      cases hc
    | true =>
      obtain ⟨-, rfl⟩ := when_eq_some.mp hstep
      obtain ⟨hnotin, hworker⟩ := stageOf_away haway
      have hnodup : (s.queue ++ [j]).Nodup := by
        refine List.nodup_append.mpr ⟨h.nodup, (by simp), fun a ha b hb hab => ?_⟩
        rw [hab, List.mem_singleton.mp hb] at ha
        exact hnotin ha
      have hpending : stageOf (s.queue ++ [j]) s.worker j = .pending := if_pos (by simp)
      refine h.move (q := s.queue ++ [j]) (m := s.mutex) (w := s.worker) (by rintro p ⟨⟩)
        (fun _ => ⟨rfl, by cases wait <;> rintro ⟨⟩⟩) (h.kept hcalled rfl rfl) ?_ (fun k hk => ?_) hnodup
        (fun k hk hmem => ?_) (fun k => ?_) h.workerLock
      · rw [hpending]
        cases wait with
        | true => exact ⟨hfreed, hfresh.2.1, rfl, .inl ⟨rfl, hfresh.1, hdone⟩⟩
        | false =>
          refine ⟨⟨fun hc => ?_, fun _ _ hsome => ?_, by rintro - ⟨⟩⟩, .inl ⟨rfl, hfreed, hfresh.1, ?_⟩⟩
          · rw [show (s.cell j).rjob.completed = false from hfresh.1] at hc
            cases hc
          · rw [show (s.cell j).rjob.done = none from hdone] at hsome
            cases hsome
          · simp [show (s.cell j).rjob.done = none from hdone]
      · simp [stageOf, hk]
      · rcases List.mem_append.mp hmem with hmem | hmem
        · exact h.apart k hk hmem
        · rw [List.mem_singleton.mp hmem] at hk
          exact hworker hk
      · by_cases hk : k = j
        · subst hk
          rw [Function.update_self, h.callLock k, show (s.cell k).call = .sending wait from hpc]
          cases wait <;> simp [CallPc.locks]
        · rw [Function.update_of_ne hk]
          exact h.callLock k
  · cases hstep

/-- The steps of a call that neither queue anything nor touch the mutex. -/
theorem take_sound (h : s.Sound) (hstep : s.step (.take j) = some s') : s'.Sound := by
  obtain ⟨⟨hpc, hdone⟩, rfl⟩ := when_eq_some.mp hstep
  have hcalled : (s.cell j).call ≠ .absent := by rw [hpc]; rintro ⟨⟩
  obtain ⟨hfreed, -, -, hawaited⟩ := h.at hpc
  have huses : ∀ p ∈ [Part.object, .done], (s.cell j).heap p = some 0 := by
    intro p hp
    rcases List.mem_pair.mp hp with rfl | rfl
    · exact hfreed.object (by decide)
    · exact hfreed.live (by simp [hdone]) le_rfl
  refine h.put huses (fun _ => ⟨rfl, by rintro ⟨⟩⟩) (h.kept hcalled rfl rfl) ?_ (by rw [hpc]; rfl)
  -- the semaphore is only ever given after the job was completed
  rcases hawaited with ⟨-, -, hno⟩ | ⟨-, -, hno⟩ | ⟨haway, hcompleted, -⟩
  · rw [hdone] at hno
    cases hno
  · rw [hdone] at hno
    cases hno
  · refine ⟨haway, hfreed.congr rfl (funext fun p => ?_), hcompleted⟩
    cases p <;> simp [hdone]

theorem collect_sound (h : s.Sound) (hstep : s.step (.collect j) = some s') : s'.Sound := by
  obtain ⟨hpc, rfl⟩ := when_eq_some.mp hstep
  have hcalled : (s.cell j).call ≠ .absent := by rw [hpc]; rintro ⟨⟩
  obtain ⟨haway, hfreed, hcompleted⟩ := h.at hpc
  refine h.put (by simpa using hfreed.object (by decide)) (fun _ => ⟨rfl, by rintro ⟨⟩⟩)
    (h.kept hcalled rfl rfl)
    ⟨haway, hfreed, Cell.verdict_of_completed hcompleted rfl⟩ (by rw [hpc]; rfl)

theorem giveUp_sound (h : s.Sound) (hstep : s.step (.giveUp j) = some s') : s'.Sound := by
  obtain ⟨hpc, rfl⟩ := when_eq_some.mp hstep
  have hcalled : (s.cell j).call ≠ .absent := by rw [hpc]; rintro ⟨⟩
  obtain ⟨hfreed, hkept, hawaited⟩ := h.at hpc
  have hdone : (s.cell j).rjob.done.isSome = true := by
    rcases hawaited.2 with ⟨-, -, hdone⟩ | ⟨-, -, hdone⟩ | ⟨-, -, hdone⟩ <;> rw [hdone] <;> rfl
  refine h.put (fun p hp => ?_) (fun _ => ⟨rfl, by rintro ⟨⟩⟩) (h.kept hcalled rfl rfl)
    ⟨hfreed, hkept, hawaited⟩ (by rw [hpc]; rfl)
  rcases List.mem_pair.mp hp with rfl | rfl
  · exact hfreed.object (by decide)
  · exact hfreed.live hdone le_rfl

theorem reuse_sound (h : s.Sound) {data : Bytes} (hstep : s.step (.reuse j data) = some s') : s'.Sound := by
  simp only [step] at hstep
  split at hstep
  · next r hpc =>
    cases hstep
    have hcalled : (s.cell j).call ≠ .absent := by rw [hpc]; rintro ⟨⟩
    have hok := h.at hpc
    refine h.put (by rintro p ⟨⟩) (fun _ => ⟨rfl, hcalled⟩) (h.kept hcalled rfl rfl) ?_ rfl
    change Cell.OkAt _ _ (s.cell j).call
    rw [hpc]
    exact hok
  · cases hstep

theorem free_sound (h : s.Sound) (hstep : s.step (.free j) = some s') : s'.Sound := by
  simp only [step] at hstep
  split at hstep
  · next p r hpc =>
    cases hstep
    have hcalled : (s.cell j).call ≠ .absent := by rw [hpc]; rintro ⟨⟩
    obtain ⟨haway, hfreed, hverdict⟩ := h.at hpc
    obtain ⟨huses, hnext⟩ := hfreed.freePart
    have hsame : ((s.cell j).freePart p).Verdict r := by
      unfold Cell.Verdict
      rw [Cell.freePart_rjob, Cell.freePart_tried]
      exact hverdict
    refine h.put huses (fun _ => ⟨Cell.freePart_given, by cases p <;> rintro ⟨⟩⟩)
      (h.kept hcalled Cell.freePart_given (congrArg Rjob.wdata Cell.freePart_rjob)) ?_
        (by rw [hpc]; cases p <;> rfl)
    cases p with
    | done | wdata => exact ⟨haway, hnext, hsame⟩
    | object => exact ⟨hsame, .inr (.inr ⟨haway, .inl hnext⟩)⟩
  · cases hstep

/-! ### The mutex -/

/-- Only one call is between taking the mutex and giving it back. -/
theorem Sound.alone (h : s.Sound) (hj : (s.cell j).call.locks = true) {k : ℕ} (hk : k ≠ j) :
    (s.cell k).call.locks = false := by
  by_contra hlocks
  have hsame := ((h.callLock j).mpr hj).symm.trans ((h.callLock k).mpr (by simpa using hlocks))
  cases hsame
  exact hk rfl

/-- A call inside keeps the worker out. -/
theorem Sound.workerOut (h : s.Sound) (hj : (s.cell j).call.locks = true) : s.worker.locks = false := by
  by_contra hlocks
  have hsame := ((h.callLock j).mpr hj).symm.trans (h.workerLock.mpr (by simpa using hlocks))
  cases hsame

/-- The worker inside keeps every call out. -/
theorem Sound.callOut (h : s.Sound) (hw : s.worker.locks = true) (k : ℕ) : (s.cell k).call.locks = false := by
  by_contra hlocks
  have hsame := (h.workerLock.mpr hw).symm.trans ((h.callLock k).mpr (by simpa using hlocks))
  cases hsame

theorem lock_sound (h : s.Sound) (hstep : s.step (.lock j) = some s') : s'.Sound := by
  obtain ⟨⟨hpc, hopen⟩, rfl⟩ := when_eq_some.mp hstep
  have hcalled : (s.cell j).call ≠ .absent := by rw [hpc]; rintro ⟨⟩
  obtain ⟨hfreed, hkept, hawaited⟩ := h.at hpc
  have hout : s.worker.locks = false := by
    by_contra hlocks
    rw [h.workerLock.mpr (by simpa using hlocks)] at hopen
    cases hopen
  have hnot : stageOf s.queue s.worker j ≠ .signalling := by
    intro hstage
    rw [stageOf_signalling hstage] at hout
    cases hout
  refine h.move (q := s.queue) (m := some (.call j)) (w := s.worker) (by rintro p ⟨⟩)
    (fun _ => ⟨rfl, by rintro ⟨⟩⟩) (h.kept hcalled rfl rfl) ⟨hfreed, hkept, hawaited, hnot⟩ (fun _ _ => rfl)
    h.nodup h.apart (fun k => ?_) ?_
  · by_cases hk : k = j
    · subst hk
      simp [CallPc.locks]
    · have hfree := h.callLock k
      rw [hopen] at hfree
      rw [Function.update_of_ne hk, ← hfree]
      simp [Ne.symm hk]
  · simp [hout]

theorem decide_sound (h : s.Sound) (hstep : s.step (.decide j) = some s') : s'.Sound := by
  obtain ⟨hpc, rfl⟩ := when_eq_some.mp hstep
  have hcalled : (s.cell j).call ≠ .absent := by rw [hpc]; rintro ⟨⟩
  obtain ⟨hfreed, hkept, ⟨htried, hawaited⟩, hnot⟩ := h.at hpc
  have huses : ∀ p ∈ [Part.object], (s.cell j).heap p = some 0 := by
    simpa using hfreed.object (by decide)
  rcases hawaited with ⟨hpending, hcompleted, -⟩ | ⟨hsignalling, -⟩ | ⟨haway, hcompleted, -⟩
  · rw [hcompleted, if_neg (by decide)]
    exact h.put huses (fun _ => ⟨rfl, by rintro ⟨⟩⟩) (h.kept hcalled rfl rfl)
      ⟨hpending, hfreed.congr rfl (by funext p; cases p <;> rfl), rfl, hcompleted, htried⟩ (by rw [hpc]; rfl)
  · exact absurd hsignalling hnot
  · rw [hcompleted, if_pos rfl]
    exact h.put huses (fun _ => ⟨rfl, by rintro ⟨⟩⟩) (h.kept hcalled rfl rfl)
      ⟨haway, hfreed, hcompleted, rfl⟩ (by rw [hpc]; rfl)

/-- The call gives the mutex back. -/
theorem Sound.giveBack (h : s.Sound) (hcalled : (s.cell j).call ≠ .absent)
    (hlocks : (s.cell j).call.locks = true) {pc : CallPc} (hpc : pc.locks = false ∧ pc ≠ .absent)
    (hok : Cell.Ok { s.cell j with call := pc } (stageOf s.queue s.worker j)) :
    { s.put j [] { s.cell j with call := pc } with mutex := none }.Sound := by
  refine h.move (q := s.queue) (m := none) (w := s.worker) (by rintro p ⟨⟩) (fun _ => ⟨rfl, hpc.2⟩)
    (h.kept hcalled rfl rfl) hok (fun _ _ => rfl) h.nodup h.apart (fun k => ?_) ?_
  · by_cases hk : k = j
    · subst hk
      simp [hpc.1]
    · simp [Function.update_of_ne hk, h.alone hlocks hk]
  · simp [h.workerOut hlocks]

theorem unlock_sound (h : s.Sound) (hstep : s.step (.unlock j) = some s') : s'.Sound := by
  simp only [step] at hstep
  split at hstep
  · next r hpc =>
    cases hstep
    obtain ⟨haway, hfreed, hcompleted, hr⟩ := h.at hpc
    refine h.giveBack (by rw [hpc]; rintro ⟨⟩) (by rw [hpc]; rfl) ⟨rfl, by rintro ⟨⟩⟩ ?_
    exact ⟨haway, hfreed, Cell.verdict_of_completed hcompleted hr⟩
  · next hpc =>
    cases hstep
    obtain ⟨hpending, hfreed, habandoned, hcompleted, htried⟩ := h.at hpc
    refine h.giveBack (by rw [hpc]; rintro ⟨⟩) (by rw [hpc]; rfl) ⟨rfl, by rintro ⟨⟩⟩ ?_
    refine ⟨⟨fun hyes => ?_, fun _ _ _ => rfl, fun _ hno => ?_⟩, .inl ⟨hpending, hfreed, hcompleted, ?_⟩⟩
    · rw [show (s.cell j).rjob.completed = false from hcompleted] at hyes
      cases hyes
    · rw [show (s.cell j).tried = true from htried] at hno
      cases hno
    · simp [show (s.cell j).rjob.abandoned = true from habandoned]
  · cases hstep

/-! ### The worker's steps -/

/-- Only the worker moves, and every job stays where it was. -/
theorem Sound.pass (h : s.Sound) {q : List ℕ} {m : Option Holder} {w : WorkerAt}
    (hstage : ∀ k, stageOf q w k = stageOf s.queue s.worker k) (hnodup : q.Nodup)
    (hapart : ∀ k, w.job = some k → k ∉ q) (hcall : ∀ k, m = some (.call k) ↔ s.mutex = some (.call k))
    (hworker : m = some .worker ↔ w.locks = true) : { s with queue := q, mutex := m, worker := w }.Sound where
  fault := h.fault
  ok := by
    intro k
    rw [hstage k]
    exact h.ok k
  wdata := h.wdata
  used := h.used
  nodup := hnodup
  apart := hapart
  callLock := fun k => (hcall k).trans (h.callLock k)
  workerLock := hworker

theorem receive_sound (h : s.Sound) (hstep : s.step .receive = some s') : s'.Sound := by
  simp only [step] at hstep
  split at hstep
  · next j rest hidle hqueue =>
    cases hstep
    obtain ⟨hnotin, hrest⟩ := List.nodup_cons.mp (hqueue ▸ h.nodup)
    refine h.pass (q := rest) (m := s.mutex) (w := .running j) (fun k => ?_) hrest ?_ (fun _ => Iff.rfl) ?_
    · rw [hqueue, hidle]
      by_cases hk : k = j
      · subst hk
        simp [stageOf, hnotin, WorkerAt.job, WorkerAt.doing]
      · simp [stageOf, hk, Ne.symm hk, WorkerAt.job]
    · rintro k ⟨⟩
      exact hnotin
    · rw [h.workerLock, hidle]
      rfl
  · cases hstep

theorem finish_sound (h : s.Sound) {r : Except EspErr Unit} (hstep : s.step (.finish r) = some s') :
    s'.Sound := by
  simp only [step] at hstep
  split at hstep
  · next j hrunning =>
    cases hstep
    refine h.pass (q := s.queue) (m := s.mutex) (w := .finishing j r) (fun k => ?_) h.nodup ?_
      (fun _ => Iff.rfl) ?_
    · rw [hrunning]
      rfl
    · rintro k ⟨⟩
      exact h.apart _ (by rw [hrunning]; rfl)
    · rw [h.workerLock, hrunning]
      rfl
  · cases hstep

theorem workerLock_sound (h : s.Sound) (hstep : s.step .workerLock = some s') : s'.Sound := by
  simp only [step] at hstep
  split at hstep
  · next j r hfinishing =>
    obtain ⟨hopen, rfl⟩ := when_eq_some.mp hstep
    refine h.pass (q := s.queue) (m := some .worker) (w := .completing j r) (fun k => ?_)
      h.nodup ?_ (fun k => ?_) ?_
    · rw [hfinishing]
      rfl
    · rintro k ⟨⟩
      exact h.apart _ (by rw [hfinishing]; rfl)
    · rw [hopen]
      simp
    · simp [WorkerAt.locks]
  · cases hstep

theorem discard_sound (h : s.Sound) (hstep : s.step .discard = some s') : s'.Sound := by
  simp only [step] at hstep
  split at hstep
  · next j hdiscarding =>
    cases hstep
    have hheld : s.mutex = some .worker := h.workerLock.mpr (by rw [hdiscarding]; rfl)
    refine h.pass (q := s.queue) (m := none) (w := .freeing j .done) (fun k => ?_) h.nodup ?_ (fun k => ?_) ?_
    · rw [hdiscarding]
      rfl
    · rintro k ⟨⟩
      exact h.apart _ (by rw [hdiscarding]; rfl)
    · rw [hheld]
      simp
    · simp [WorkerAt.locks]
  · cases hstep

theorem leave_sound (h : s.Sound) (hstep : s.step .leave = some s') : s'.Sound := by
  obtain ⟨hleaving, rfl⟩ := when_eq_some.mp hstep
  have hheld : s.mutex = some .worker := h.workerLock.mpr (by rw [hleaving]; rfl)
  refine h.pass (q := s.queue) (m := none) (w := .idle) (fun k => ?_) h.nodup
    (by rintro k ⟨⟩) (fun k => ?_) ?_
  · rw [hleaving]
    rfl
  · rw [hheld]
    simp
  · decide

/-- The job the worker has is in no queue, and at this stage. -/
theorem Sound.mine (h : s.Sound) (hjob : s.worker.job = some j) :
    j ∉ s.queue ∧ stageOf s.queue s.worker j = s.worker.doing := by
  have hnotin := h.apart j hjob
  exact ⟨hnotin, stageOf_worker hnotin hjob⟩

/-- The worker goes on with its job, or is done with it: the others stay where they were. -/
theorem stageOf_others {q : List ℕ} {w w' : WorkerAt} (hw : w.job = some j)
    (hw' : w'.job = some j ∨ w'.job = none) {k : ℕ} (hk : k ≠ j) : stageOf q w' k = stageOf q w k := by
  rcases hw' with hw' | hw' <;> simp [stageOf, hw, hw', Ne.symm hk]

/-- The worker's step on its own job: the call stays where it is, and so does the mutex. -/
theorem Sound.work (h : s.Sound) (hjob : s.worker.job = some j) {w : WorkerAt}
    (hw : w.job = some j ∨ w.job = none) (huses : ∀ p ∈ uses, (s.cell j).heap p = some 0)
    (hsame : c.call = (s.cell j).call ∧ c.given = (s.cell j).given ∧ c.rjob.wdata = (s.cell j).rjob.wdata)
    (hcalled : (s.cell j).call ≠ .absent) (hok : c.OkAt (stageOf s.queue w j) (s.cell j).call)
    (hlocks : w.locks = s.worker.locks) : { s.put j uses c with worker := w }.Sound := by
  obtain ⟨hcall, hgiven, hdata⟩ := hsame
  refine h.move (q := s.queue) (m := s.mutex) (w := w) huses (fun _ => ⟨hgiven, hcall ▸ hcalled⟩)
    (h.kept hcalled hgiven hdata) (by rw [Cell.Ok, hcall]; exact hok) (fun k hk => stageOf_others hjob hw hk)
    h.nodup (fun k hk => ?_) (fun k => ?_) (by rw [hlocks]; exact h.workerLock)
  · rcases hw with hw | hw
    · rw [hw] at hk
      cases hk
      exact h.apart j hjob
    · rw [hw] at hk
      cases hk
  · by_cases hk : k = j
    · subst hk
      rw [Function.update_self, hcall]
      exact h.callLock k
    · rw [Function.update_of_ne hk]
      exact h.callLock k

theorem use_sound (h : s.Sound) (hstep : s.step .use = some s') : s'.Sound := by
  simp only [step] at hstep
  split at hstep
  · next j hrunning =>
    have hjob : s.worker.job = some j := by rw [hrunning]; rfl
    obtain ⟨-, hstage⟩ := h.mine hjob
    have hok := h.ok j
    rw [hstage, hrunning] at hok
    obtain ⟨hfreed, -⟩ := Cell.OkAt.pending hok
    have hcalled : (s.cell j).call ≠ .absent := by
      intro hcall
      rw [Cell.Ok, hcall] at hok
      cases hok.1
    have hmoved := fun uses (huses : ∀ p ∈ uses, (s.cell j).heap p = some 0) =>
      h.work hjob (.inl hjob) huses ⟨rfl, rfl, rfl⟩ hcalled (h.ok j) rfl
    split at hstep
    · next d hdata =>
      cases hstep
      have hput := hmoved [.object, .wdata] fun p hp => by
        rcases List.mem_pair.mp hp with rfl | rfl
        · exact hfreed.object (by decide)
        · exact hfreed.live (by simp [hdata]) (by decide)
      refine ⟨hput.fault, hput.ok, hput.wdata, ?_, hput.nodup, hput.apart, hput.callLock, hput.workerLock⟩
      intro u hu
      rcases List.mem_cons.mp hu with rfl | hu
      · simpa [Jobs.put] using And.intro hcalled (h.wdata j d hdata hcalled)
      · exact hput.used u hu
    · cases hstep
      exact hmoved [.object] (by simpa using hfreed.object (by decide))
  · cases hstep

theorem complete_sound (h : s.Sound) (hstep : s.step .complete = some s') : s'.Sound := by
  simp only [step] at hstep
  split at hstep
  · next j r hcompleting =>
    cases hstep
    have hjob : s.worker.job = some j := by rw [hcompleting]; rfl
    obtain ⟨hnotin, hstage⟩ := h.mine hjob
    have hok := h.ok j
    rw [hstage, hcompleting] at hok
    obtain ⟨hfreed, hcompleted⟩ := Cell.OkAt.pending hok
    have hout : (s.cell j).call.locks = false := h.callOut (by rw [hcompleting]; rfl) j
    have huses : ∀ p ∈ [Part.object], (s.cell j).heap p = some 0 := by
      simpa using hfreed.object (by decide)
    have waited (hpc : (s.cell j).call = .waiting ∨ (s.cell j).call = .timedOut)
        (hwaited : (s.cell j).OkAt .pending .waiting) :
        (if (s.cell j).rjob.abandoned || (s.cell j).rjob.done.isNone then
          { s.put j [.object] (s.cell j) with worker := .discarding j }
        else { s.put j [.object] { s.cell j with rjob.result := r, rjob.completed := true } with
          worker := .signalling j } : Jobs).Sound := by
      obtain ⟨-, hkept, htried, ⟨-, -, hdone⟩ | ⟨⟨⟩, -⟩ | ⟨⟨⟩, -⟩⟩ := hwaited
      rw [hkept, hdone, if_neg (by decide)]
      refine h.work hjob (.inl rfl) huses ⟨rfl, rfl, rfl⟩
        (by rcases hpc with hpc | hpc <;> rw [hpc] <;> rintro ⟨⟩) ?_
        (by rw [hcompleting]; rfl)
      rw [stageOf_worker hnotin rfl]
      have hnow : Cell.OkAt { s.cell j with rjob.result := r, rjob.completed := true } .signalling .waiting :=
        ⟨hfreed.congr rfl (by funext p; cases p <;> rfl), hkept, htried, .inr (.inl ⟨rfl, rfl, hdone⟩)⟩
      rcases hpc with hpc | hpc <;> rw [hpc] <;> exact hnow
    -- a call that is deciding or abandoning would hold the mutex
    rcases Cell.OkAt.shared hok (by rintro ⟨⟩) with hpc | hpc | hpc | hpc | ⟨v, hpc⟩
    · exact waited (.inl hpc) (by rwa [Cell.Ok, hpc] at hok)
    · exact waited (.inr hpc) (by rwa [Cell.Ok, hpc] at hok)
    · rw [hpc] at hout
      cases hout
    · rw [hpc] at hout
      cases hout
    · rw [Cell.Ok, hpc] at hok
      obtain ⟨hverdict, ⟨-, -, -, hnobody⟩ | ⟨p, ⟨⟩, -⟩ | ⟨⟨⟩, -⟩⟩ := hok
      rw [if_pos hnobody]
      refine h.work hjob (.inl rfl) huses ⟨rfl, rfl, rfl⟩ (by rw [hpc]; rintro ⟨⟩) ?_
        (by rw [hcompleting]; rfl)
      rw [hpc, stageOf_worker hnotin rfl]
      exact ⟨hverdict, .inr (.inl ⟨.done, rfl, hfreed, hcompleted⟩)⟩
  · cases hstep

theorem workerFree_sound (h : s.Sound) (hstep : s.step .workerFree = some s') : s'.Sound := by
  simp only [step] at hstep
  split at hstep
  · next j p hfreeing =>
    cases hstep
    have hjob : s.worker.job = some j := by rw [hfreeing]; rfl
    obtain ⟨hnotin, hstage⟩ := h.mine hjob
    have hok := h.ok j
    rw [hstage, hfreeing] at hok
    obtain ⟨r, hpc, hverdict, hfreed, hcompleted⟩ := Cell.OkAt.dropping hok
    obtain ⟨huses, hnext⟩ := hfreed.freePart
    have hsame : ((s.cell j).freePart p).Verdict r := by
      unfold Cell.Verdict
      rw [Cell.freePart_rjob, Cell.freePart_tried]
      exact hverdict
    refine h.work hjob (by cases p <;> simp [Part.next, WorkerAt.job]) huses
      ⟨Cell.freePart_call, Cell.freePart_given, congrArg Rjob.wdata Cell.freePart_rjob⟩
        (by rw [hpc]; rintro ⟨⟩) ?_
      (by rw [hfreeing]; cases p <;> rfl)
    have hundone : ((s.cell j).freePart p).rjob.completed = false := by rw [Cell.freePart_rjob, hcompleted]
    rw [hpc]
    cases p with
    | done => exact ⟨hsame, .inr (.inl ⟨.wdata, stageOf_worker hnotin rfl, hnext, hundone⟩)⟩
    | wdata => exact ⟨hsame, .inr (.inl ⟨.object, stageOf_worker hnotin rfl, hnext, hundone⟩)⟩
    | object =>
      have haway : stageOf s.queue .idle j = .away := if_neg hnotin
      exact ⟨hsame, .inr (.inr ⟨haway, .inl hnext⟩)⟩
  · cases hstep

theorem signal_sound (h : s.Sound) (hstep : s.step .signal = some s') : s'.Sound := by
  simp only [step] at hstep
  split at hstep
  · next j hsignalling =>
    cases hstep
    have hjob : s.worker.job = some j := by rw [hsignalling]; rfl
    obtain ⟨hnotin, hstage⟩ := h.mine hjob
    have hok := h.ok j
    rw [hstage, hsignalling] at hok
    obtain ⟨hpc, hfreed, hkept, htried, hcompleted, hdone⟩ := Cell.OkAt.signalling hok
    have hthere : Cell.OkAt { s.cell j with rjob.done := some true }
      (stageOf s.queue .leaving j) .waiting := by
      rw [stageOf, if_neg hnotin]
      refine ⟨hfreed.congr rfl (funext fun p => ?_), hkept, htried, .inr (.inr ⟨rfl, hcompleted, rfl⟩)⟩
      cases p <;> simp [hdone]
    refine h.work hjob (.inr rfl) (fun p hp => ?_) ⟨rfl, rfl, rfl⟩
      (by rcases hpc with hpc | hpc <;> rw [hpc] <;> rintro ⟨⟩)
      ?_ (by rw [hsignalling]; rfl)
    · rcases List.mem_pair.mp hp with rfl | rfl
      · exact hfreed.object (by decide)
      · exact hfreed.live (by simp [hdone]) le_rfl
    · rcases hpc with hpc | hpc <;> rw [hpc] <;> exact hthere
  · cases hstep

theorem step_sound {a : JobAct} (h : s.Sound) (hstep : s.step a = some s') : s'.Sound := by
  cases a with
  | new j o wait data ok => exact new_sound h hstep
  | copy j ok => exact copy_sound h hstep
  | post j ok => exact post_sound h hstep
  | send j ok => exact send_sound h hstep
  | take j => exact take_sound h hstep
  | collect j => exact collect_sound h hstep
  | giveUp j => exact giveUp_sound h hstep
  | lock j => exact lock_sound h hstep
  | decide j => exact decide_sound h hstep
  | unlock j => exact unlock_sound h hstep
  | free j => exact free_sound h hstep
  | reuse j data => exact reuse_sound h hstep
  | receive => exact receive_sound h hstep
  | use => exact use_sound h hstep
  | finish r => exact finish_sound h hstep
  | workerLock => exact workerLock_sound h hstep
  | complete => exact complete_sound h hstep
  | discard => exact discard_sound h hstep
  | workerFree => exact workerFree_sound h hstep
  | signal => exact signal_sound h hstep
  | leave => exact leave_sound h hstep

theorem reach_sound (h : machine.Reach Machine.always s) : s.Sound :=
  Machine.Reach.invariant (I := fun s => s.Sound) (fun _ => Start.sound) (fun _ _ _ h _ => step_sound h) h

/-! ### The hand-off -/

/-- Nothing is left to do. -/
def AtRest (s : Jobs) : Prop := ∀ a, a.onward = true → s.step a = none

/-- `fault` is down: no step used or freed what was not allocated. -/
structure HandedOff (s : Jobs) : Prop where
  untouched : s.fault = false
  once : ∀ j p, (s.cell j).heap p = none ∨ (s.cell j).heap p = some 0 ∨ (s.cell j).heap p = some 1
  freed : ∀ j r, (s.cell j).call = .returned r → j ∉ s.queue → s.worker.job ≠ some j →
    ∀ p, (s.cell j).heap p = none ∨ (s.cell j).heap p = some 1
  rest : s.AtRest → ∀ j p, (s.cell j).heap p = none ∨ (s.cell j).heap p = some 1
  verdict : ∀ j r, (s.cell j).call = .returned r → (s.cell j).Verdict r
  ownCopy : ∀ u ∈ s.used, u.2 = (s.cell u.1).given

/-- A call that has returned, and that the worker has nothing of, has nothing left. -/
theorem Sound.released (h : s.Sound) {r : Except EspErr Unit} (hpc : (s.cell j).call = .returned r)
    (hqueue : j ∉ s.queue) (hworker : s.worker.job ≠ some j) (p : Part) :
    (s.cell j).heap p = none ∨ (s.cell j).heap p = some 1 := by
  have hok := h.at hpc
  rw [stageOf, if_neg hqueue, if_neg hworker] at hok
  obtain ⟨-, ⟨⟨⟩, -⟩ | ⟨q, ⟨⟩, -⟩ | ⟨-, hfreed | hnone⟩⟩ := hok
  · rw [hfreed p]
    have hbelow : p.rank < 3 := by cases p <;> decide
    rw [if_pos hbelow]
    split
    · exact .inr rfl
    · exact .inl rfl
  · exact .inl (congrFun hnone p)

/-- A call that has begun and not returned can go on, if it has the mutex or finds it free. -/
theorem call_moves (hbegun : (s.cell j).call ≠ .absent) (hgoing : ∀ r, (s.cell j).call ≠ .returned r)
    (hopen : s.mutex = none ∨ (s.cell j).call.locks = true) : ∃ a, a.onward = true ∧ (s.step a).isSome := by
  cases hpc : (s.cell j).call with
  | absent => exact absurd hpc hbegun
  | copying => exact ⟨.copy j true, rfl, by simp [step, hpc]⟩
  | posting => exact ⟨.post j true, rfl, by simp [step, hpc]⟩
  | sending => exact ⟨.send j false, rfl, by simp [step, hpc]⟩
  | waiting => exact ⟨.giveUp j, rfl, by simp [step, when, hpc]⟩
  | woken => exact ⟨.collect j, rfl, by simp [step, when, hpc]⟩
  | timedOut =>
    have hfree : s.mutex = none := hopen.resolve_right (by rw [hpc]; rintro ⟨⟩)
    exact ⟨.lock j, rfl, by simp [step, when, hpc, hfree]⟩
  | deciding => exact ⟨.decide j, rfl, by simp [step, when, hpc]⟩
  | collected => exact ⟨.unlock j, rfl, by simp [step, hpc]⟩
  | abandoning => exact ⟨.unlock j, rfl, by simp [step, hpc]⟩
  | freeing => exact ⟨.free j, rfl, by simp [step, hpc]⟩
  | returned r => exact absurd hpc (hgoing r)

/-- So can a worker with a job, on the same condition. -/
theorem worker_moves (hbusy : s.worker ≠ .idle) (hopen : s.mutex = none ∨ s.worker.locks = true) :
    ∃ a, a.onward = true ∧ (s.step a).isSome := by
  cases hw : s.worker with
  | idle => exact absurd hw hbusy
  | running => exact ⟨.finish (.ok ()), rfl, by simp [step, hw]⟩
  | finishing =>
    have hfree : s.mutex = none := hopen.resolve_right (by rw [hw]; rintro ⟨⟩)
    exact ⟨.workerLock, rfl, by simp [step, when, hw, hfree]⟩
  | completing => exact ⟨.complete, rfl, by simp [step, hw]⟩
  | discarding => exact ⟨.discard, rfl, by simp [step, hw]⟩
  | freeing => exact ⟨.workerFree, rfl, by simp [step, hw]⟩
  | signalling => exact ⟨.signal, rfl, by simp [step, hw]⟩
  | leaving => exact ⟨.leave, rfl, by simp [step, when, hw]⟩

theorem AtRest.stuck (hrest : s.AtRest) : ¬ ∃ a, a.onward = true ∧ (s.step a).isSome := by
  rintro ⟨a, honward, hsome⟩
  rw [hrest a honward] at hsome
  cases hsome

/-- At rest nobody holds the mutex, the worker is idle, no job is queued and no call is under way. -/
theorem Sound.quiet (h : s.Sound) (hrest : s.AtRest) :
    s.worker = .idle ∧ s.queue = [] ∧ ∀ j, (s.cell j).call = .absent ∨
      ∃ r, (s.cell j).call = .returned r := by
  have hopen : s.mutex = none := by
    cases hmutex : s.mutex with
    | none => rfl
    | some holder =>
      cases holder with
      | call k =>
        have hlocks := (h.callLock k).mp hmutex
        refine absurd (call_moves (j := k) ?_ (fun r => ?_) (.inr hlocks)) hrest.stuck
        · intro hpc
          rw [hpc] at hlocks
          cases hlocks
        · intro hpc
          rw [hpc] at hlocks
          cases hlocks
      | worker =>
        have hlocks := h.workerLock.mp hmutex
        refine absurd (worker_moves ?_ (.inr hlocks)) hrest.stuck
        intro hw
        rw [hw] at hlocks
        cases hlocks
  have hidle : s.worker = .idle := by
    by_contra hbusy
    exact hrest.stuck (worker_moves hbusy (.inl hopen))
  refine ⟨hidle, ?_, fun j => ?_⟩
  · cases hqueue : s.queue with
    | nil => rfl
    | cons j rest => exact absurd ⟨.receive, rfl, by simp [step, hidle, hqueue]⟩ hrest.stuck
  · by_contra hgoing
    rw [not_or, not_exists] at hgoing
    exact hrest.stuck (call_moves hgoing.1 hgoing.2 (.inl hopen))

/-- No call yet, and the worker up. -/
def fresh : Jobs :=
  ⟨fun _ => ⟨.absent, rjobNew ⟨.read, 0, 0, 0, none⟩, fun _ => none, [], [], false⟩, true, [],
    none, .idle, false, []⟩

theorem fresh_start : fresh.Start := ⟨fun _ => ⟨rfl, rfl⟩, rfl, rfl, rfl, rfl, rfl⟩

/-- A write whose caller gives up while the worker runs it, and then uses its own buffer again. -/
def abandonedWrite : List JobAct :=
  [.new 0 ⟨.write, 1, 7, 2, none⟩ true [0xAA, 0xBB] true, .copy 0 true, .post 0 true,
    .send 0 true, .receive, .giveUp 0,
    .lock 0, .decide 0, .unlock 0, .reuse 0 [0, 0], .use, .finish (.ok ()), .workerLock, .complete, .discard,
    .workerFree, .workerFree, .workerFree]

theorem exec_abandonedWrite : (machine.exec fresh abandonedWrite).isSome = true := by decide

def afterAbandoned : Jobs := (machine.exec fresh abandonedWrite).get exec_abandonedWrite

theorem reach_afterAbandoned : machine.Reach Machine.always afterAbandoned :=
  ⟨fresh, fresh_start, Machine.exec_always (Option.some_get exec_abandonedWrite).symm⟩

end Jobs

end FdcSds
