import FdcSds.Schemes.Runs
import FdcSds.Schemes.Bytes

/-! The loopback self-test (`fdc_loopback`, `run_loopback`).

    A caller sets the request and waits for the semaphore for three seconds; the fdc task looks at the
    request between commands, runs the test, clears the request and gives the semaphore. `s_lb_lock` lets
    in one call after the other; a call begins when it has that lock.

        call:  lock ─▶ req := true ─▶ take s_lb_done ──ok──▶ copy the result
                                          └─ 3 s ─▶ req := false
        task:  req? ─▶ run the test ─▶ req := false ─▶ give s_lb_done               -/

namespace FdcSds
open Schemes Runs

/-! ### The test -/

def fdcLoopbackLen : ℕ := 256

/-- `fdc_loopback_t`. -/
structure FdcLoopback where
  ran : Bool
  sent : ℕ
  received : ℕ
  mismatches : ℕ
  firstBad : ℕ
  deriving DecidableEq

/-- One position of the comparison: the mismatches so far, and the first one. -/
def loopbackCheck (rx : Bytes) (found : ℕ × ℕ) (i : ℕ) : ℕ × ℕ :=
  if rx.length ≤ i ∨ rx.getD i 0 ≠ UInt8.ofNat i then (found.1 + 1,
    if found.2 = fdcLoopbackLen then i else found.2) else found

/-- `run_loopback`, from what came back on the link. -/
def runLoopback (rx : Bytes) : FdcLoopback :=
  let found := (List.range fdcLoopbackLen).foldl (loopbackCheck rx) (0, fdcLoopbackLen)
  ⟨true, fdcLoopbackLen, rx.length, found.1, found.2⟩

namespace Loopback

/-! ### The calls and the task -/

/-- Where the call is that has the lock. -/
inductive CallPc where
  | out | asking | waiting | got | gaveUp
  deriving DecidableEq

/-- Where the fdc task is. -/
inductive FdcPc where
  | idle | testing | tested | cleared
  deriving DecidableEq

/-- A test run: how many calls had begun when it started, the call that had asked for it, and its result. -/
structure Run where
  begun : ℕ
  asker : ℕ
  outcome : Option FdcLoopback
  deriving DecidableEq

/-- A call that returned `ESP_OK`: its number, what it returned, and the run that is from. -/
structure Answer where
  call : ℕ
  out : FdcLoopback
  run : Option ℕ
  deriving DecidableEq

/-- `s_lb_req`, `s_lb_done` and `s_lb_result`; the call and the task; and what has happened so far. -/
structure State where
  req : Bool
  done : Bool
  result : FdcLoopback
  resultRun : Option ℕ
  call : CallPc
  task : FdcPc
  calls : ℕ
  asker : ℕ
  runs : List Run
  answers : List Answer
  deriving DecidableEq

/-- After `fdc_init`. -/
def boot : State := ⟨false, false, ⟨false, 0, 0, 0, 0⟩, none, .out, .idle, 0, 0, [], []⟩

inductive Act where
  | begin | ask | take | copy | timeout | withdraw
  | look | finish (rx : Bytes) | clear | give

/-- The result of the run that is under way. -/
def close (runs : List Run) (out : FdcLoopback) : List Run :=
  runs.dropLast ++ (runs.getLast?.map fun r => { r with outcome := some out }).toList

def step (s : State) : Act → Option State
  | .begin => when (s.call = .out) { s with call := .asking, calls := s.calls + 1 }
  | .ask => when (s.call = .asking) { s with call := .waiting, req := true, asker := s.calls }
  | .take => when (s.call = .waiting ∧ s.done = true) { s with call := .got, done := false }
  | .copy =>
    when (s.call = .got) { s with call := .out, answers := s.answers ++ [⟨s.calls, s.result, s.resultRun⟩] }
  | .timeout => when (s.call = .waiting ∧ s.done = false) { s with call := .gaveUp }
  | .withdraw => when (s.call = .gaveUp) { s with call := .out, req := false }
  | .look => when (s.task = .idle)
      (if s.req then { s with task := .testing, runs := s.runs ++ [⟨s.calls, s.asker, none⟩] } else s)
  | .finish rx => when (s.task = .testing ∧ rx.length ≤ fdcLoopbackLen)
      { s with
        task := .tested
        result := runLoopback rx
        resultRun := some (s.runs.length - 1)
        runs := close s.runs (runLoopback rx) }
  | .clear => when (s.task = .tested) { s with task := .cleared, req := false }
  | .give => when (s.task = .cleared) { s with task := .idle, done := true }

def machine : Machine State Act := ⟨(· = boot), step⟩

/-- A call that has timed out withdraws its request only when no run of it is under way or just done. -/
def clean (s : State) (a : Act) : Prop :=
  match a with
  | .withdraw => s.task = .idle ∧ s.done = false
  | _ => True

/-- The answer is of a run that the task started after the call began. -/
def State.Fresh (s : State) (a : Answer) : Prop :=
  ∃ n r, a.run = some n ∧ s.runs[n]? = some r ∧ a.call ≤ r.begun ∧ r.outcome = some a.out

/-! ### The invariant -/

/-- Nothing is asked for, nothing is to be taken. -/
def State.Quiet (s : State) : Prop := s.req = false ∧ s.done = false ∧ s.task = .idle

/-- No run was asked for by this call. -/
def State.New (s : State) : Prop := ∀ r ∈ s.runs, r.asker < s.calls

/-- The result is of this call's run. -/
def State.Tested (s : State) : Prop :=
  ∃ front, s.runs = front ++ [⟨s.calls, s.calls, some s.result⟩] ∧ s.resultRun = some front.length

/-- How far the task is with the request of this call. -/
def State.Progress (s : State) : Prop :=
  match s.task with
  | .idle => s.req = true ∧ s.done = false ∧ s.New ∨ s.req = false ∧ s.done = true ∧ s.Tested
  | .testing => s.done = false ∧ ∃ front, s.runs = front ++ [⟨s.calls, s.calls, none⟩]
  | .tested => s.done = false ∧ s.Tested
  | .cleared => s.req = false ∧ s.done = false ∧ s.Tested

def State.Phase (s : State) : Prop :=
  match s.call with
  | .out => s.Quiet
  | .asking => s.Quiet ∧ s.New
  | .waiting | .gaveUp => s.asker = s.calls ∧ s.Progress
  | .got => s.Quiet ∧ s.Tested

structure State.Inv (s : State) : Prop where
  fresh : ∀ a ∈ s.answers, s.Fresh a
  once : (s.runs.map Run.asker).Nodup
  asker_le : ∀ r ∈ s.runs, r.asker ≤ s.calls
  phase : s.Phase

variable {s s' : State} {a : Answer}

theorem State.Fresh.mono (h : s.Fresh a)
    (hruns : ∀ (n : ℕ) (r : Run), s.runs[n]? = some r → r.outcome ≠ none → s'.runs[n]? = some r) :
    s'.Fresh a := by
  obtain ⟨n, r, hn, hr, hle, hout⟩ := h
  exact ⟨n, r, hn, hruns n r hr (by simp [hout]), hle, hout⟩

theorem close_append (front : List Run) (r : Run) (out : FdcLoopback) :
    close (front ++ [r]) out = front ++ [{ r with outcome := some out }] := by
  simp [close]

/-- When the task does not idle, a call is waiting or has just given up. -/
theorem State.Phase.busy (h : s.Phase) (htask : s.task ≠ .idle) :
    (s.call = .waiting ∨ s.call = .gaveUp) ∧ s.asker = s.calls ∧ s.Progress := by
  rw [State.Phase] at h
  cases hcall : s.call <;> simp only [hcall] at h
  · exact absurd h.2.2 htask
  · exact absurd h.1.2.2 htask
  · exact ⟨.inl rfl, h⟩
  · exact absurd h.1.2.2 htask
  · exact ⟨.inr rfl, h⟩

/-- A phase in which a call is waiting, or has just given up. -/
theorem State.Phase.waits (hcall : s.call = .waiting ∨ s.call = .gaveUp) (hasker : s.asker = s.calls)
    (h : s.Progress) : s.Phase := by
  rw [State.Phase]
  rcases hcall with hcall | hcall <;> rw [hcall] <;> exact ⟨hasker, h⟩

/-! ### One step -/

theorem inv_begin (h : s.Inv) (hs : step s .begin = some s') : s'.Inv := by
  obtain ⟨hcall, rfl⟩ := when_eq_some.mp hs
  have hquiet : s.Quiet := by
    have hphase := h.phase
    rwa [State.Phase, hcall] at hphase
  refine ⟨h.fresh, h.once, fun r hr => Nat.le_succ_of_le (h.asker_le r hr), hquiet, ?_⟩
  exact fun r hr => Nat.lt_succ_of_le (h.asker_le r hr)

theorem inv_ask (h : s.Inv) (hs : step s .ask = some s') : s'.Inv := by
  obtain ⟨hcall, rfl⟩ := when_eq_some.mp hs
  obtain ⟨hquiet, hnew⟩ : s.Quiet ∧ s.New := by
    have hphase := h.phase
    rwa [State.Phase, hcall] at hphase
  refine ⟨h.fresh, h.once, h.asker_le, .waits (.inl rfl) rfl ?_⟩
  rw [State.Progress]
  simp only [hquiet.2.2]
  exact .inl ⟨trivial, hquiet.2.1, hnew⟩

theorem inv_take (h : s.Inv) (hs : step s .take = some s') : s'.Inv := by
  obtain ⟨⟨hcall, hdone⟩, rfl⟩ := when_eq_some.mp hs
  obtain ⟨hasker, hprogress⟩ : s.asker = s.calls ∧ s.Progress := by
    have hphase := h.phase
    rwa [State.Phase, hcall] at hphase
  -- the semaphore is there only after this call's run
  have hready : s.task = .idle ∧ s.req = false ∧ s.Tested := by
    rw [State.Progress] at hprogress
    cases htask : s.task <;> simp only [htask, hdone] at hprogress
    · rcases hprogress with ⟨_, hno, _⟩ | ⟨hreq, _, htested⟩
      · cases hno
      · exact ⟨rfl, hreq, htested⟩
    · cases hprogress.1
    · cases hprogress.1
    · cases hprogress.2.1
  exact ⟨h.fresh, h.once, h.asker_le, ⟨hready.2.1, rfl, hready.1⟩, hready.2.2⟩

theorem inv_copy (h : s.Inv) (hs : step s .copy = some s') : s'.Inv := by
  obtain ⟨hcall, rfl⟩ := when_eq_some.mp hs
  obtain ⟨hquiet, front, hruns, hrun⟩ : s.Quiet ∧ s.Tested := by
    have hphase := h.phase
    rwa [State.Phase, hcall] at hphase
  refine ⟨?_, h.once, h.asker_le, hquiet⟩
  intro a ha
  rcases List.mem_append.mp ha with ha | ha
  · exact h.fresh a ha
  · obtain rfl := List.mem_singleton.mp ha
    have hlast : s.runs[front.length]? = some ⟨s.calls, s.calls, some s.result⟩ := by
      rw [hruns, List.getElem?_concat_length]
    exact ⟨front.length, _, hrun, hlast, Nat.le_refl _, rfl⟩

theorem inv_timeout (h : s.Inv) (hs : step s .timeout = some s') : s'.Inv := by
  obtain ⟨⟨hcall, hdone⟩, rfl⟩ := when_eq_some.mp hs
  have hphase := h.phase
  rw [State.Phase, hcall] at hphase
  exact ⟨h.fresh, h.once, h.asker_le, hphase⟩

theorem inv_withdraw (h : s.Inv) (hclean : s.task = .idle ∧ s.done = false)
    (hs : step s .withdraw = some s') : s'.Inv := by
  obtain ⟨hcall, rfl⟩ := when_eq_some.mp hs
  exact ⟨h.fresh, h.once, h.asker_le, rfl, hclean.2, hclean.1⟩

theorem inv_look (h : s.Inv) (hs : step s .look = some s') : s'.Inv := by
  obtain ⟨htask, rfl⟩ := when_eq_some.mp hs
  by_cases hreq : s.req = true
  · -- only a call that waits has set the request
    obtain ⟨hcall, hasker, hdone, hnew⟩ :
        (s.call = .waiting ∨ s.call = .gaveUp) ∧ s.asker = s.calls ∧ s.done = false ∧ s.New := by
      have hphase := h.phase
      rw [State.Phase] at hphase
      have hwaits : s.Progress → s.done = false ∧ s.New := by
        intro hprogress
        rw [State.Progress] at hprogress
        simp only [htask, hreq] at hprogress
        simpa using hprogress
      cases hcall : s.call <;> simp only [hcall] at hphase
      · exact absurd hreq (by simp [hphase.1])
      · exact absurd hreq (by simp [hphase.1.1])
      · exact ⟨.inl rfl, hphase.1, hwaits hphase.2⟩
      · exact absurd hreq (by simp [hphase.1.1])
      · exact ⟨.inr rfl, hphase.1, hwaits hphase.2⟩
    rw [if_pos hreq]
    refine ⟨?_, ?_, ?_, .waits hcall hasker ⟨hdone, s.runs, by rw [hasker]⟩⟩
    · intro a ha
      refine (h.fresh a ha).mono fun n r hr _ => ?_
      have hn : n < s.runs.length := (List.getElem?_eq_some_iff.mp hr).1
      rwa [List.getElem?_append_left hn]
    · rw [List.map_append, List.map_singleton]
      refine List.nodup_append.mpr ⟨h.once, by simp, fun k hmem l hl => ?_⟩
      obtain rfl := List.mem_singleton.mp hl
      rintro rfl
      obtain ⟨r, hr, hsame⟩ := List.mem_map.mp hmem
      exact absurd (hnew r hr) (by rw [hsame, hasker]; exact Nat.lt_irrefl _)
    · intro r hr
      rcases List.mem_append.mp hr with hr | hr
      · exact h.asker_le r hr
      · obtain rfl := List.mem_singleton.mp hr
        exact Nat.le_of_eq hasker
  · rwa [if_neg hreq]

theorem inv_finish {rx : Bytes} (h : s.Inv) (hs : step s (.finish rx) = some s') : s'.Inv := by
  obtain ⟨⟨htask, -⟩, rfl⟩ := when_eq_some.mp hs
  obtain ⟨hcall, hasker, hprogress⟩ := h.phase.busy (by simp [htask])
  obtain ⟨hdone, front, hruns⟩ : s.done = false ∧ ∃ front, s.runs = front ++ [⟨s.calls, s.calls, none⟩] := by
    rwa [State.Progress, htask] at hprogress
  have hclose : close s.runs (runLoopback rx) = front ++ [⟨s.calls, s.calls, some (runLoopback rx)⟩] := by
    rw [hruns, close_append]
  refine ⟨?_, ?_, ?_, .waits hcall hasker ⟨hdone, front, hclose, ?_⟩⟩
  · intro a ha
    refine (h.fresh a ha).mono fun n r hr hout => ?_
    -- the run under way has no result, so no answer is of it
    rw [hruns] at hr
    rw [hclose]
    rcases Nat.lt_or_ge n front.length with hn | hn
    · rwa [List.getElem?_append_left hn] at hr ⊢
    · rw [List.getElem?_append_right hn] at hr
      have hlast : r = ⟨s.calls, s.calls, none⟩ := by
        obtain ⟨hn', hget⟩ := List.getElem?_eq_some_iff.mp hr
        simpa using hget.symm
      exact absurd (congrArg Run.outcome hlast) hout
  · have honce := h.once
    rw [hruns] at honce
    rw [hclose]
    simpa using honce
  · intro r hr
    rw [hclose] at hr
    rcases List.mem_append.mp hr with hr | hr
    · exact h.asker_le r (hruns ▸ List.mem_append_left _ hr)
    · obtain rfl := List.mem_singleton.mp hr
      exact Nat.le_refl _
  · simp [hruns]

theorem inv_clear (h : s.Inv) (hs : step s .clear = some s') : s'.Inv := by
  obtain ⟨htask, rfl⟩ := when_eq_some.mp hs
  obtain ⟨hcall, hasker, hprogress⟩ := h.phase.busy (by simp [htask])
  obtain ⟨hdone, htested⟩ : s.done = false ∧ s.Tested := by rwa [State.Progress, htask] at hprogress
  exact ⟨h.fresh, h.once, h.asker_le, .waits hcall hasker ⟨rfl, hdone, htested⟩⟩

theorem inv_give (h : s.Inv) (hs : step s .give = some s') : s'.Inv := by
  obtain ⟨htask, rfl⟩ := when_eq_some.mp hs
  obtain ⟨hcall, hasker, hprogress⟩ := h.phase.busy (by simp [htask])
  obtain ⟨hreq, -, htested⟩ : s.req = false ∧ s.done = false ∧ s.Tested := by
    rwa [State.Progress, htask] at hprogress
  exact ⟨h.fresh, h.once, h.asker_le, .waits hcall hasker (.inr ⟨hreq, rfl, htested⟩)⟩

theorem step_inv {a : Act} (h : s.Inv) (hclean : clean s a) (hs : step s a = some s') : s'.Inv := by
  cases a with
  | begin => exact inv_begin h hs
  | ask => exact inv_ask h hs
  | take => exact inv_take h hs
  | copy => exact inv_copy h hs
  | timeout => exact inv_timeout h hs
  | withdraw => exact inv_withdraw h hclean hs
  | look => exact inv_look h hs
  | finish rx => exact inv_finish h hs
  | clear => exact inv_clear h hs
  | give => exact inv_give h hs

theorem boot_inv : boot.Inv := ⟨by simp [boot], by simp [boot], by simp [boot], rfl, rfl, rfl⟩

/-- In a run in which no call gives up on a test run that is under way or just done, every `ESP_OK` is for a
    run that started after its call began, and no call causes two. -/
theorem loopback_fresh (h : machine.Reach clean s) : (∀ a ∈ s.answers, s.Fresh a) ∧
      (s.runs.map Run.asker).Nodup := by
  have hinv : s.Inv := h.invariant (fun s (hs : s = boot) => hs ▸ boot_inv) fun s a s' hi hok hs =>
    step_inv hi hok hs
  exact ⟨hinv.fresh, hinv.once⟩

/-- One call, and nothing came back on the link. -/
def oneCall : List Act := [.begin, .ask, .look, .finish [], .clear, .give, .take, .copy]

/-- The state after it. -/
def called : State :=
  ⟨false, false, runLoopback [], some 0, .out, .idle, 1, 1, [⟨1, 1, some (runLoopback [])⟩],
    [⟨1, runLoopback [], some 0⟩]⟩

theorem reach_called : machine.Reach clean called :=
  (Machine.Reach.of_start (rfl : machine.start boot)).path
    (Machine.exec_path (fun s a => match a with
      | .withdraw => s.task == .idle && s.done == false
      | _ =>
        true) (fun s a h => by cases a <;> simp_all [clean])
        (rfl : machine.exec boot oneCall = some called) rfl)

theorem loopback_fresh_called : called.Fresh ⟨1, runLoopback [], some 0⟩ :=
  (loopback_fresh reach_called).1 _ (by simp [called])

/-- A call that gives up while its test runs, and another call. -/
def lateTest : List Act :=
  [.begin, .ask, .look, .timeout, .withdraw, .finish [], .clear, .give, .begin, .ask, .take, .copy]

/-- The state after it: the second call has the first one's run, and its own request still stands. -/
def stale : State :=
  ⟨true, false, runLoopback [], some 0, .out, .idle, 2, 2, [⟨1, 1, some (runLoopback [])⟩],
    [⟨2, runLoopback [], some 0⟩]⟩

theorem loopback_stale : ¬∀ s, machine.Reach Machine.always s → (∀ a ∈ s.answers, s.Fresh a) ∧
      (s.runs.map Run.asker).Nodup := by
  intro h
  have hreach : machine.Reach Machine.always stale :=
    (Machine.Reach.of_start (rfl : machine.start boot)).path
      (Machine.exec_always (rfl : machine.exec boot lateTest = some stale))
  obtain ⟨n, r, hn, hr, hle, -⟩ := (h stale hreach).1 ⟨2, runLoopback [], some 0⟩ (by simp [stale])
  obtain rfl : 0 = n := Option.some.inj hn
  obtain rfl : ⟨1, 1, some (runLoopback [])⟩ = r := Option.some.inj hr
  exact absurd hle (by decide)

end Loopback

end FdcSds
