import FdcSds.Disk.Ownership

/-! Requests are well formed.

    A length that passed `check_track` fits the track buffer, and a WRITE job owns exactly as many bytes
    as its length says: whatever reaches the worker kept both. -/

namespace FdcSds
open Schemes Runs

/-- The length fits the track buffer; a write brings exactly that many bytes. -/
def Request.Fits : Request → Prop
  | .read _ _ len => len ≤ diskTrackBufSize
  | .write _ _ len data _ => len ≤ diskTrackBufSize ∧ data.length = len
  | .mount _ => True

def Job.Fits (j : Job) : Prop := ∀ k, j.kind = .request k → k.Fits

def TaskPc.Fits : TaskPc → Prop
  | .post k => k.Fits
  | .writStore _ _ len data _ => data.length = len
  | _ => True

/-- A transfer left bytes over the whole range of its write, the data if it went well. -/
def Job.Leaves (j : Job) (r : Except EspErr Unit) (left : Bytes) : Prop :=
  ∀ drive track len data ack, j.kind = .request (.write drive track len data ack) →
    left.length = len ∧ (r = .ok () → left = data)

def WorkerPc.Fits : WorkerPc → Prop
  | .lookup j | .found j _ | .io j _ | .fetched j _ _ => j.Fits
  | .written j _ r left => j.Fits ∧ j.Leaves r left
  | _ => True

namespace State

variable {s s' : State}

/-- Every request on its way to the worker is well formed. -/
structure Polite (s : State) : Prop where
  task : ∀ t, (s.task t).Fits
  queue : ∀ j ∈ s.queue, j.Fits
  worker : s.worker.Fits

theorem Polite.update (h : s.Polite) {t : ℕ} {pc : TaskPc}
    (htask : s'.task = Function.update s.task t pc) (hpc : pc.Fits)
    (hqueue : ∀ j ∈ s'.queue, j ∈ s.queue ∨ j.Fits) (hworker : s'.worker = s.worker) : s'.Polite := by
  refine ⟨fun u => ?_, fun j hj => (hqueue j hj).elim (h.queue j) id, hworker ▸ h.worker⟩
  rw [htask]
  rcases eq_or_ne u t with rfl | hne
  · rwa [Function.update_self]
  · rw [Function.update_of_ne hne]; exact h.task u

theorem fits_after (k : After) : k.pc.Fits := by cases k <;> trivial

theorem fits_disposeOf (old : Drive) (k : After) : (disposeOf old k).Fits := by
  unfold disposeOf
  cases old.backing with
  | none => exact fits_after k
  | some b => trivial

theorem taskStep_polite {t : ℕ} {a : TaskAct} (h : s.Polite) (hs : s.taskStep t a = some s') :
    s'.Polite := by
  have same : ∀ {x : State}, x.queue = s.queue → ∀ j ∈ x.queue, j ∈ s.queue ∨ j.Fits :=
    fun hx j hj => .inl (hx ▸ hj)
  cases a <;> simp only [taskStep, when_eq_some] at hs <;> obtain ⟨hg, rfl⟩ := hs
  case read drive track len io =>
    split
    · exact ⟨h.task, h.queue, h.worker⟩
    · exact ⟨h.task, h.queue, h.worker⟩
    · rename_i hret
      rcases s.w.readEnter_cases drive track len io with ⟨e, hr, -⟩ | ⟨b, hserves, -⟩
      · rw [hr] at hret; cases hret
      · exact h.update rfl hserves.len_le (same rfl) rfl
  case copyOut => split <;> exact h.update rfl trivial (same rfl) rfl
  case enqueue k =>
    refine h.update rfl trivial (fun j hj => ?_) rfl
    rcases List.mem_append.mp hj with hj | hj
    · exact .inl hj
    · obtain rfl := List.mem_singleton.mp hj
      have := h.task t
      rw [hg.1] at this
      exact .inr fun k' hk' => by cases hk'; exact this
  case wake => exact h.update rfl (by split <;> trivial) (same rfl) rfl
  case writCheck => split <;> first | exact h | exact h.update rfl trivial (same rfl) rfl
  case writCheckRw => exact h.update rfl (by split <;> trivial) (same rfl) rfl
  case payload drive track len ack data =>
    refine h.update rfl ?_ (same rfl) rfl
    cases data with
    | none => trivial
    | some x => exact hg.2 x rfl
  case write drive track len data ack io =>
    have hdata : data.length = len := by
      have := h.task t
      rw [hg.1] at this; exact this
    split
    · split <;> exact h.update rfl trivial (same rfl) rfl
    · rename_i hret
      have hlen : len ≤ diskTrackBufSize := by
        rcases s.w.writeEnter_cases drive track len data io with ⟨e, hr, -⟩ | ⟨b, hserves, -⟩
        · rw [hr] at hret; cases hret
        · exact hserves.len_le
      split <;> exact h.update rfl ⟨hlen, hdata⟩ (same rfl) rfl
  case unmount => exact h.update rfl (fits_disposeOf ..) (same rfl) rfl
  case config => exact h.update rfl (fits_disposeOf ..) (same rfl) rfl
  case configNet => exact h.update rfl (by split <;> trivial) (same rfl) rfl
  case mountOpen =>
    split
    · exact h.update rfl trivial (same rfl) rfl
    · exact h.update rfl (fits_disposeOf ..) (same rfl) rfl
  case mountSwap => exact h.update rfl (fits_disposeOf ..) (same rfl) rfl
  case disposeLocal => exact h.update rfl (fits_after _) (same rfl) rfl
  case disposeSend =>
    refine h.update rfl (fits_after _) (fun j hj => ?_) rfl
    rcases List.mem_append.mp hj with hj | hj
    · exact .inl hj
    · obtain rfl := List.mem_singleton.mp hj
      exact .inr (by rintro _ ⟨⟩)
  case disposeLeak => exact h.update rfl (fits_after _) (same rfl) rfl
  case imageSize => exact ⟨h.task, h.queue, h.worker⟩
  all_goals exact h.update rfl trivial (same rfl) rfl

theorem workerStep_polite {a : WorkerAct} (h : s.Polite) (hs : s.workerStep a = some s') :
    s'.Polite := by
  have keep : ∀ {x : State}, x.task = s.task → x.queue = s.queue → x.worker.Fits → x.Polite :=
    fun ht hq hw => ⟨by rw [ht]; exact h.task, by rw [hq]; exact h.queue, hw⟩
  have hw := h.worker
  cases a <;> simp only [workerStep, when_eq_some] at hs <;> obtain ⟨hg, rfl⟩ := hs
  case take j rest =>
    have hfits := h.queue j (by rw [hg.2]; exact List.mem_cons_self ..)
    refine ⟨h.task, fun j' hj' => h.queue j' (by rw [hg.2]; exact List.mem_cons_of_mem _ hj'), ?_⟩
    show j.begin.Fits
    unfold Job.begin
    split
    · trivial
    · exact hfits
    · trivial
  case finish j r =>
    refine keep ?_ ?_ trivial <;> (unfold complete; split <;> rfl)
  case writeEnd j b err =>
    rw [hg] at hw
    split
    · rename_i drive track len data ack hk
      split
      · refine keep rfl rfl ⟨hw, fun d t l x y hk' => ?_⟩
        cases hk.symm.trans hk'
        exact ⟨(hw _ hk).2, fun _ => rfl⟩
      · split
        · rename_i hjunk
          refine keep rfl rfl ⟨hw, fun d t l x y hk' => ?_⟩
          cases hk.symm.trans hk'
          exact ⟨hjunk, by rintro ⟨⟩⟩
        · exact h
    · exact h
  all_goals
    first | rw [hg] at hw | rw [hg.1] at hw
    repeat' split
  all_goals
    first | exact h | exact keep rfl rfl trivial | exact keep rfl rfl h.worker | exact keep rfl rfl hw

theorem step_polite {a : Act} (h : s.Polite) (hs : s.step a = some s') : s'.Polite := by
  cases a with
  | task t a => exact taskStep_polite h hs
  | worker a => exact workerStep_polite h hs
  | evt a =>
    obtain ⟨htask, hworker, -⟩ := evtStep_frame hs
    refine ⟨by rw [htask]; exact h.task, fun j hj => ?_, by rw [hworker]; exact h.worker⟩
    cases a <;> simp only [step, evtStep, when_eq_some] at hs <;> obtain ⟨-, rfl⟩ := hs
    case disposeSend | mountPost =>
      rcases List.mem_append.mp hj with hj | hj
      · exact h.queue j hj
      · obtain rfl := List.mem_singleton.mp hj
        exact fun k hk => by cases hk <;> trivial
    all_goals exact h.queue j hj

theorem Start.polite (h : s.Start) : s.Polite := by
  refine ⟨fun t => by rw [h.idle.1 t]; trivial, fun j hj => ?_, by rw [h.idle.2.1]; trivial⟩
  rw [h.empty.1] at hj; cases hj

end State

end FdcSds
