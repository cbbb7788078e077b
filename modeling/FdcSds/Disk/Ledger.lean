import FdcSds.Disk.Machine
import FdcSds.Schemes.Custody
import Mathlib.Data.List.Nodup

/-! Who owns which backing: the ownership protocol of `disk.c`, abstractly.

    A ledger forgets everything about the disk module except the backings: which slot, task, list or
    queue holds each one, which one the worker is using without owning it, and the calls made so far.
    A `Move` is one thing the protocol lets a party do with a backing. Whoever follows the moves keeps
    `Owned`: every backing in exactly one place, no call after its close, remote I/O on the worker.

        made ─▶ task / worker ─▶ slot ─▶ task / event list ─▶ queue ─▶ worker ─▶ closed
                                            │                  │
                                            └──── leaked ◀─────┘     (CLOSE job not enqueued) -/

namespace FdcSds
open Schemes

/-- What the worker has in its hands: nothing, a backing it uses, a backing it owns. -/
inductive Hand where
  | free
  | borrows (b : ℕ)
  | holds (b : ℕ)
  deriving DecidableEq

/-- What a slot says about its backing. -/
structure Slot where
  mounted : Bool
  remote : Bool
  backing : Option ℕ
  deriving DecidableEq

/-- The ledger: a task holds at most one backing, with the kind it took it for. -/
structure Ledger where
  slot : ℕ → Slot
  remote : ℕ → Bool
  next : ℕ
  task : ℕ → Option (ℕ × Bool)
  evt : List ℕ
  queue : List ℕ
  worker : Hand
  calls : List Call
  leaked : List ℕ

/-- Where a backing can be. -/
inductive Place where
  | slot (d : ℕ)
  | task (t : ℕ)
  | evt
  | queue
  | worker
  | closed
  | leaked
  deriving DecidableEq

namespace Ledger

/-- Backing `b` is at this place. -/
def Held (v : Ledger) : Place → ℕ → Prop
  | .slot d, b => (v.slot d).backing = some b
  | .task t, b => ∃ r, v.task t = some (b, r)
  | .evt, b => b ∈ v.evt
  | .queue, b => b ∈ v.queue
  | .worker, b => v.worker = .holds b
  | .closed, b => ∃ c ∈ v.calls, c.method = .close ∧ c.b = b
  | .leaked, b => b ∈ v.leaked

/-- A call other than `close` may be made on a backing in a slot (a transfer only if the slot is
    local), and by the worker on the backing it uses. -/
def Entitled (v : Ledger) (c : Call) : Prop :=
  c.method ≠ .close ∧
    ((∃ d, (v.slot d).backing = some c.b ∧ (c.method = .size ∨ (v.slot d).remote = false)) ∨
      (v.worker = .borrows c.b ∧ c.who = .worker))

/-- The moves of the protocol. -/
inductive Move : Ledger → Ledger → Prop
  | call (v : Ledger) (c : Call) (h : v.Entitled c) : Move v { v with calls := c :: v.calls }
  | makeTask (v : Ledger) (t : ℕ) (h : v.task t = none) :
      Move v { v with next := v.next + 1, remote := Function.update v.remote v.next false,
                      task := Function.update v.task t (some (v.next, false)) }
  | makeWorker (v : Ledger) (h : v.worker = .free) :
      Move v { v with next := v.next + 1, remote := Function.update v.remote v.next true,
                      worker := .holds v.next }
  | exchange (v : Ledger) (d t : ℕ) (r : Bool) (h : ∀ b k, v.task t = some (b, k) → k = r) :
      Move v { v with
        slot := Function.update v.slot d ⟨(v.task t).isSome, r, (v.task t).map (·.1)⟩
        task := Function.update v.task t ((v.slot d).backing.map (·, (v.slot d).remote)) }
  | closeTask (v : Ledger) (t b : ℕ) (h : v.task t = some (b, false)) :
      Move v { v with task := Function.update v.task t none,
                      calls := ⟨.task t, .close, b, none⟩ :: v.calls }
  | closeWorker (v : Ledger) (b : ℕ) (h : v.worker = .holds b) :
      Move v { v with worker := .free, calls := ⟨.worker, .close, b, none⟩ :: v.calls }
  | sendTask (v : Ledger) (t b : ℕ) (h : v.task t = some (b, true)) :
      Move v { v with task := Function.update v.task t none, queue := v.queue ++ [b] }
  | leakTask (v : Ledger) (t b : ℕ) (h : v.task t = some (b, true)) :
      Move v { v with task := Function.update v.task t none, leaked := b :: v.leaked }
  | sendEvt (v : Ledger) (b : ℕ) (bs : List ℕ) (h : v.evt = b :: bs) :
      Move v { v with evt := bs, queue := v.queue ++ [b] }
  | leakEvt (v : Ledger) (b : ℕ) (bs : List ℕ) (h : v.evt = b :: bs) :
      Move v { v with evt := bs, leaked := b :: v.leaked }
  | take (v : Ledger) (b : ℕ) (bs : List ℕ) (h : v.queue = b :: bs) (hw : v.worker = .free) :
      Move v { v with queue := bs, worker := .holds b }
  | install (v : Ledger) (d b : ℕ) (h : v.worker = .holds b) (hs : v.slot d = ⟨false, true, none⟩) :
      Move v { v with slot := Function.update v.slot d ⟨true, true, some b⟩, worker := .borrows b }
  | borrow (v : Ledger) (d b : ℕ) (h : v.worker = .free) (hs : (v.slot d).backing = some b)
      (hr : (v.slot d).remote = true) : Move v { v with worker := .borrows b }
  | giveBack (v : Ledger) (b : ℕ) (h : v.worker = .borrows b) : Move v { v with worker := .free }
  | sweep (v : Ledger) (d b : ℕ) (hs : v.slot d = ⟨true, true, some b⟩) :
      Move v { v with slot := Function.update v.slot d ⟨false, true, none⟩, evt := v.evt ++ [b] }

/-- What the protocol guarantees. -/
structure Owned (v : Ledger) : Prop where
  custody : Custody v.next v.Held
  evtNodup : v.evt.Nodup
  queueNodup : v.queue.Nodup
  seated : ∀ d, (v.slot d).mounted = (v.slot d).backing.isSome
  slotKind : ∀ d b, (v.slot d).backing = some b → (v.slot d).remote = v.remote b
  taskKind : ∀ t b r, v.task t = some (b, r) → v.remote b = r
  evtKind : ∀ b ∈ v.evt, v.remote b = true
  queueKind : ∀ b ∈ v.queue, v.remote b = true
  handKind : ∀ b, v.worker = .holds b ∨ v.worker = .borrows b → v.remote b = true
  borrowed : ∀ b, v.worker = .borrows b → b < v.next ∧ ¬v.Held .closed b
  called : ∀ c ∈ v.calls, c.b < v.next
  order : v.calls.Pairwise fun c c' => c'.method = .close → c'.b ≠ c.b
  onWorker : ∀ c ∈ v.calls, c.method ≠ .size → v.remote c.b = true → c.who = .worker

variable {v v' : Ledger} {b t d : ℕ}

/-! ### Consequences of custody -/

theorem Owned.not_closed (h : v.Owned) {l : Place} (hl : v.Held l b) (hne : l ≠ .closed) :
    ¬v.Held .closed b := fun hc => hne (h.custody.unique hl hc)

theorem Owned.order_cons (h : v.Owned) {c : Call} (hc : ¬v.Held .closed c.b) :
    (c :: v.calls).Pairwise fun c c' => c'.method = .close → c'.b ≠ c.b := by
  refine List.pairwise_cons.mpr ⟨fun c' hc' hclose heq => hc ⟨c', hc', hclose, heq⟩, h.order⟩

/-- A token just made is nowhere yet. -/
theorem Owned.fresh (h : v.Owned) {l : Place} : ¬v.Held l v.next := fun hl =>
  Nat.lt_irrefl _ (h.custody.lt hl)

/-- Calls that close nothing leave everything where it is. -/
theorem held_call {c : Call} (hc : c.method ≠ .close) (l : Place) (x : ℕ) :
    Held { v with calls := c :: v.calls } l x ↔ v.Held l x := by
  cases l <;> simp [Held, hc]

/-! ### Every move keeps the ledger in order -/

theorem Owned.call (h : v.Owned) {c : Call} (hc : v.Entitled c) :
    Owned { v with calls := c :: v.calls } := by
  have hopen : c.b < v.next ∧ ¬v.Held .closed c.b := by
    rcases hc.2 with ⟨d, hd, -⟩ | ⟨hw, -⟩
    · exact ⟨h.custody.lt (l := .slot d) hd, h.not_closed (l := .slot d) hd nofun⟩
    · exact h.borrowed _ hw
  refine { h with
    custody := h.custody.congr (held_call hc.1)
    borrowed := fun b hb => ⟨(h.borrowed b hb).1, (held_call hc.1 ..).not.mpr (h.borrowed b hb).2⟩
    called := ?_
    order := h.order_cons hopen.2
    onWorker := ?_ }
  · intro c' hc'
    rcases List.mem_cons.mp hc' with rfl | hc'
    · exact hopen.1
    · exact h.called c' hc'
  · intro c' hc' hm hr
    rcases List.mem_cons.mp hc' with rfl | hc'
    · rcases hc.2 with ⟨d, hd, hsize | hloc⟩ | ⟨-, hwho⟩
      · exact absurd hsize hm
      · rw [h.slotKind d _ hd] at hloc
        exact absurd hr (by rw [hloc]; decide)
      · exact hwho
    · exact h.onWorker c' hc' hm hr

/-- A new backing of kind `k` goes into the hands of a task or of the worker. -/
theorem Owned.make (h : v.Owned) (k : Bool) (task : ℕ → Option (ℕ × Bool)) (worker : Hand)
    (hcust : Custody (v.next + 1) (Held { v with
      next := v.next + 1, remote := Function.update v.remote v.next k, task, worker }))
    (htask : ∀ t b r, task t = some (b, r) → v.task t = some (b, r) ∨ (b = v.next ∧ r = k))
    (hand : worker = v.worker ∨ (worker = .holds v.next ∧ k = true)) :
    Owned { v with
      next := v.next + 1, remote := Function.update v.remote v.next k, task, worker } := by
  have hold : ∀ {b}, b < v.next → Function.update v.remote v.next k b = v.remote b := fun hb =>
    Function.update_of_ne (Nat.ne_of_lt hb) ..
  have hhand : ∀ b, v.worker = .holds b ∨ v.worker = .borrows b → b < v.next := fun b hb =>
    hb.elim (fun hb => h.custody.lt (l := .worker) hb) fun hb => (h.borrowed b hb).1
  refine ⟨hcust, h.evtNodup, h.queueNodup, h.seated, ?_, ?_, ?_, ?_, ?_, ?_, ?_, h.order, ?_⟩
  · intro d b hb
    exact (h.slotKind d b hb).trans (hold (h.custody.lt (l := .slot d) hb)).symm
  · intro t b r hb
    rcases htask t b r hb with hb | ⟨rfl, rfl⟩
    · exact (hold (h.custody.lt (l := .task t) ⟨r, hb⟩)).trans (h.taskKind t b r hb)
    · exact Function.update_self ..
  · exact fun b hb => (hold (h.custody.lt (l := .evt) hb)).trans (h.evtKind b hb)
  · exact fun b hb => (hold (h.custody.lt (l := .queue) hb)).trans (h.queueKind b hb)
  · intro b hb
    rcases hand with rfl | ⟨rfl, rfl⟩
    · exact (hold (hhand b hb)).trans (h.handKind b hb)
    · simp only [Hand.holds.injEq, reduceCtorEq, or_false] at hb
      subst hb
      exact Function.update_self ..
  · intro b hb
    rcases hand with rfl | ⟨rfl, -⟩
    · exact ⟨Nat.lt_succ_of_lt (h.borrowed b hb).1, (h.borrowed b hb).2⟩
    · cases hb
  · exact fun c hc => Nat.lt_succ_of_lt (h.called c hc)
  · exact fun c hc hm hr => h.onWorker c hc hm ((hold (h.called c hc)).symm.trans hr)

theorem Owned.makeTask (h : v.Owned) (ht : v.task t = none) :
    Owned { v with next := v.next + 1, remote := Function.update v.remote v.next false,
                   task := Function.update v.task t (some (v.next, false)) } := by
  refine h.make false _ v.worker (h.custody.alloc (.task t) fun l x => ?_) ?_ (.inl rfl)
  · cases l with
    | task u =>
      rcases eq_or_ne u t with rfl | hne
      · simp [Held, ht, eq_comm]
      · simp [Held, hne]
    | _ => simp [Held]
  · intro u b r hb
    rcases eq_or_ne u t with rfl | hne
    · simp only [Function.update_self, Option.some.injEq, Prod.mk.injEq] at hb
      exact .inr ⟨hb.1.symm, hb.2.symm⟩
    · exact .inl ((Function.update_of_ne hne ..).symm.trans hb)

theorem Owned.makeWorker (h : v.Owned) (hw : v.worker = .free) :
    Owned { v with next := v.next + 1, remote := Function.update v.remote v.next true,
                   worker := .holds v.next } := by
  refine h.make true v.task _ (h.custody.alloc .worker fun l x => ?_)
    (fun t b r hb => .inl hb) (.inr ⟨rfl, rfl⟩)
  cases l <;> simp [Held, hw, eq_comm]

/-- What a task holds and what a slot holds change places; the slot takes the task's kind. -/
theorem Owned.exchange (h : v.Owned) (d t : ℕ) (r : Bool)
    (hk : ∀ b k, v.task t = some (b, k) → k = r) :
    Owned { v with
      slot := Function.update v.slot d ⟨(v.task t).isSome, r, (v.task t).map (·.1)⟩
      task := Function.update v.task t ((v.slot d).backing.map (·, (v.slot d).remote)) } := by
  refine ⟨h.custody.swap (.slot d) (.task t) fun l x => ?_, h.evtNodup, h.queueNodup, ?_, ?_,
    ?_, h.evtKind, h.queueKind, h.handKind, h.borrowed, h.called, h.order, h.onWorker⟩
  · have hother : ∀ l : Place, l ≠ .slot d → l ≠ .task t → Equiv.swap (Place.slot d) (.task t) l = l :=
      fun l => Equiv.swap_apply_of_ne_of_ne
    cases l with
    | slot e =>
      rcases eq_or_ne e d with rfl | hne
      · simp [Held, Equiv.swap_apply_left]
      · simp [Held, hother, hne]
    | task u =>
      rcases eq_or_ne u t with rfl | hne
      · simp [Held, Equiv.swap_apply_right]
      · simp [Held, hother, hne]
    | _ => simp [Held, hother]
  · intro e
    rcases eq_or_ne e d with rfl | hne
    · simp
    · simpa [Function.update_of_ne hne] using h.seated e
  · intro e b hb
    rcases eq_or_ne e d with rfl | hne
    · simp only [Function.update_self, Option.map_eq_some_iff] at hb ⊢
      obtain ⟨⟨b', k⟩, hb', rfl⟩ := hb
      rw [← hk b' k hb', h.taskKind t b' k hb']
    · simp only [Function.update_of_ne hne] at hb ⊢
      exact h.slotKind e b hb
  · intro u b k hb
    rcases eq_or_ne u t with rfl | hne
    · simp only [Function.update_self, Option.map_eq_some_iff, Prod.mk.injEq] at hb
      obtain ⟨b', hb', rfl, rfl⟩ := hb
      exact (h.slotKind d b' hb').symm
    · exact h.taskKind u b k ((Function.update_of_ne hne ..).symm.trans hb)

/-- After a task let go of `b`, its hands are empty and no other task's changed. -/
theorem held_release (r : Bool) (ht : v.task t = some (b, r)) (x : ℕ) :
    (∃ k, Function.update v.task t none t = some (x, k)) ↔ v.Held (.task t) x ∧ x ≠ b := by
  simp only [Function.update_self, reduceCtorEq, exists_false, Held, ht, Option.some.injEq,
    Prod.mk.injEq, false_iff, not_and]
  rintro ⟨k, rfl, rfl⟩ hne
  exact hne rfl

theorem Owned.taskKind_release (h : v.Owned) (u b : ℕ) (k : Bool)
    (hb : Function.update v.task t none u = some (b, k)) : v.remote b = k := by
  rcases eq_or_ne u t with rfl | hne
  · simp at hb
  · exact h.taskKind u b k ((Function.update_of_ne hne ..).symm.trans hb)

/-- A close by `who`, the only party that may: what the calls still guarantee. -/
theorem Owned.calls_close (h : v.Owned) (who : Who) (hopen : ¬v.Held .closed b) (hlt : b < v.next)
    (hwho : v.remote b = true → who = .worker) :
    let calls : List Call := ⟨who, .close, b, none⟩ :: v.calls
    (∀ c ∈ calls, c.b < v.next) ∧
      (calls.Pairwise fun c c' => c'.method = .close → c'.b ≠ c.b) ∧
      (∀ c ∈ calls, c.method ≠ .size → v.remote c.b = true → c.who = .worker) := by
  refine ⟨?_, h.order_cons hopen, ?_⟩
  · intro c hc
    rcases List.mem_cons.mp hc with rfl | hc
    · exact hlt
    · exact h.called c hc
  · intro c hc hm hr
    rcases List.mem_cons.mp hc with rfl | hc
    · exact hwho hr
    · exact h.onWorker c hc hm hr

theorem held_closed_cons {who : Who} (x : ℕ) :
    (∃ c ∈ (⟨who, .close, b, none⟩ :: v.calls : List Call), c.method = .close ∧ c.b = x) ↔
      v.Held .closed x ∨ x = b := by
  simp only [Held, List.exists_mem_cons_iff, true_and]
  rw [or_comm, eq_comm]

theorem Owned.closeTask (h : v.Owned) (ht : v.task t = some (b, false)) :
    Owned { v with task := Function.update v.task t none,
                   calls := ⟨.task t, .close, b, none⟩ :: v.calls } := by
  have hb : v.Held (.task t) b := ⟨_, ht⟩
  have hkind := h.taskKind t b false ht
  obtain ⟨hcalled, horder, hworker⟩ := h.calls_close (.task t)
    (h.not_closed hb nofun) (h.custody.lt hb) (by rw [hkind]; exact nofun)
  refine ⟨h.custody.move hb (q := .closed) nofun (held_release false ht) held_closed_cons ?_,
    h.evtNodup, h.queueNodup, h.seated, h.slotKind, h.taskKind_release, h.evtKind, h.queueKind,
    h.handKind, fun b' hb' => ⟨(h.borrowed b' hb').1, ?_⟩, hcalled, horder, hworker⟩
  · intro l hl hl' x
    cases l with
    | task u =>
      have hne : u ≠ t := fun hu => hl (by rw [hu])
      simp [Held, hne]
    | _ => simp_all [Held]
  · -- the worker only ever uses remote backings
    refine (held_closed_cons b').not.mpr (not_or.mpr ⟨(h.borrowed b' hb').2, ?_⟩)
    rintro rfl
    exact absurd (h.handKind b' (.inr hb')) (by rw [hkind]; decide)

theorem Owned.closeWorker (h : v.Owned) (hw : v.worker = .holds b) :
    Owned { v with worker := .free, calls := ⟨.worker, .close, b, none⟩ :: v.calls } := by
  have hb : v.Held .worker b := hw
  obtain ⟨hcalled, horder, hworker⟩ := h.calls_close .worker
    (h.not_closed hb nofun) (h.custody.lt hb) fun _ => rfl
  refine ⟨h.custody.move hb (q := .closed) nofun (fun x => ?_) held_closed_cons ?_,
    h.evtNodup, h.queueNodup, h.seated, h.slotKind, h.taskKind, h.evtKind, h.queueKind,
    fun b' hb' => by simp at hb', fun b' hb' => by simp at hb', hcalled, horder, hworker⟩
  · simp only [Held, hw, reduceCtorEq, Hand.holds.injEq, false_iff, not_and]
    exact fun hx hne => hne hx.symm
  · intro l hl hl' x
    cases l <;> simp_all [Held]

/-- A task hands its remote backing to the queue. -/
theorem Owned.sendTask (h : v.Owned) (ht : v.task t = some (b, true)) :
    Owned { v with task := Function.update v.task t none, queue := v.queue ++ [b] } := by
  have hb : v.Held (.task t) b := ⟨_, ht⟩
  have hfresh : b ∉ v.queue := fun hq => nomatch h.custody.unique hb (show v.Held .queue b from hq)
  refine ⟨h.custody.move hb (q := .queue) nofun (held_release true ht) (fun x => ?_) ?_,
    h.evtNodup, ?_, h.seated, h.slotKind, h.taskKind_release, h.evtKind, ?_, h.handKind, h.borrowed,
    h.called, h.order, h.onWorker⟩
  · simp [Held]
  · intro l hl hl' x
    cases l with
    | task u =>
      have hne : u ≠ t := fun hu => hl (by rw [hu])
      simp [Held, hne]
    | _ => simp_all [Held]
  · simpa only [List.concat_eq_append] using h.queueNodup.concat hfresh
  · intro x hx
    rcases List.mem_append.mp hx with hx | hx
    · exact h.queueKind x hx
    · rw [List.mem_singleton.mp hx]; exact h.taskKind t b true ht

/-- A task could not hand its remote backing over. -/
theorem Owned.leakTask (h : v.Owned) (ht : v.task t = some (b, true)) :
    Owned { v with task := Function.update v.task t none, leaked := b :: v.leaked } := by
  have hb : v.Held (.task t) b := ⟨_, ht⟩
  refine ⟨h.custody.move hb (q := .leaked) nofun (held_release true ht) (fun x => ?_) ?_,
    h.evtNodup, h.queueNodup, h.seated, h.slotKind, h.taskKind_release, h.evtKind, h.queueKind,
    h.handKind, h.borrowed, h.called, h.order, h.onWorker⟩
  · simp [Held, or_comm]
  · intro l hl hl' x
    cases l with
    | task u =>
      have hne : u ≠ t := fun hu => hl (by rw [hu])
      simp [Held, hne]
    | _ => simp_all [Held]

theorem Owned.sendEvt (h : v.Owned) {bs : List ℕ} (he : v.evt = b :: bs) :
    Owned { v with evt := bs, queue := v.queue ++ [b] } := by
  have hb : v.Held .evt b := by simp [Held, he]
  have hnd := h.evtNodup
  rw [he, List.nodup_cons] at hnd
  have hfresh : b ∉ v.queue := fun hq => nomatch h.custody.unique hb (show v.Held .queue b from hq)
  refine ⟨h.custody.move hb (q := .queue) nofun (fun x => ?_) (fun x => ?_) ?_, hnd.2, ?_, h.seated,
    h.slotKind, h.taskKind, fun x hx => h.evtKind x (he ▸ List.mem_cons_of_mem b hx), ?_, h.handKind,
    h.borrowed, h.called, h.order, h.onWorker⟩
  · simp only [Held, he, List.mem_cons]
    exact ⟨fun hx => ⟨.inr hx, fun hxb => hnd.1 (hxb ▸ hx)⟩, fun hx => hx.1.resolve_left hx.2⟩
  · simp [Held]
  · intro l hl hl' x
    cases l <;> simp_all [Held]
  · simpa only [List.concat_eq_append] using h.queueNodup.concat hfresh
  · intro x hx
    rcases List.mem_append.mp hx with hx | hx
    · exact h.queueKind x hx
    · rw [List.mem_singleton.mp hx]; exact h.evtKind b hb

theorem Owned.leakEvt (h : v.Owned) {bs : List ℕ} (he : v.evt = b :: bs) :
    Owned { v with evt := bs, leaked := b :: v.leaked } := by
  have hb : v.Held .evt b := by simp [Held, he]
  have hnd := h.evtNodup
  rw [he, List.nodup_cons] at hnd
  refine ⟨h.custody.move hb (q := .leaked) nofun (fun x => ?_) (fun x => ?_) ?_, hnd.2, h.queueNodup,
    h.seated, h.slotKind, h.taskKind, fun x hx => h.evtKind x (he ▸ List.mem_cons_of_mem b hx),
    h.queueKind, h.handKind, h.borrowed, h.called, h.order, h.onWorker⟩
  · simp only [Held, he, List.mem_cons]
    exact ⟨fun hx => ⟨.inr hx, fun hxb => hnd.1 (hxb ▸ hx)⟩, fun hx => hx.1.resolve_left hx.2⟩
  · simp [Held, or_comm]
  · intro l hl hl' x
    cases l <;> simp_all [Held]

/-- The worker takes a CLOSE job off the queue. -/
theorem Owned.take (h : v.Owned) {bs : List ℕ} (hq : v.queue = b :: bs) (hw : v.worker = .free) :
    Owned { v with queue := bs, worker := .holds b } := by
  have hb : v.Held .queue b := by simp [Held, hq]
  have hnd := h.queueNodup
  rw [hq, List.nodup_cons] at hnd
  refine ⟨h.custody.move hb (q := .worker) nofun (fun x => ?_) (fun x => ?_) ?_, h.evtNodup, hnd.2,
    h.seated, h.slotKind, h.taskKind, h.evtKind, fun x hx => h.queueKind x (hq ▸ List.mem_cons_of_mem b hx),
    ?_, fun b' hb' => by simp at hb', h.called, h.order, h.onWorker⟩
  · simp only [Held, hq, List.mem_cons]
    exact ⟨fun hx => ⟨.inr hx, fun hxb => hnd.1 (hxb ▸ hx)⟩, fun hx => hx.1.resolve_left hx.2⟩
  · simp [Held, hw, eq_comm]
  · intro l hl hl' x
    cases l <;> simp_all [Held]
  · intro x hx
    simp only [Hand.holds.injEq, reduceCtorEq, or_false] at hx
    exact hx ▸ h.queueKind b hb

/-- The worker installs the session it opened and goes on using it. -/
theorem Owned.install (h : v.Owned) (hw : v.worker = .holds b) (hs : v.slot d = ⟨false, true, none⟩) :
    Owned { v with slot := Function.update v.slot d ⟨true, true, some b⟩, worker := .borrows b } := by
  have hb : v.Held .worker b := hw
  have hkind := h.handKind b (.inl hw)
  refine ⟨h.custody.move hb (q := .slot d) nofun (fun x => ?_) (fun x => ?_) ?_, h.evtNodup, h.queueNodup,
    ?_, ?_, h.taskKind, h.evtKind, h.queueKind, ?_, ?_, h.called, h.order, h.onWorker⟩
  · simp only [Held, hw, reduceCtorEq, Hand.holds.injEq, false_iff, not_and]
    exact fun hx hne => hne hx.symm
  · simp [Held, hs, eq_comm]
  · intro l hl hl' x
    cases l with
    | slot e =>
      have hne : e ≠ d := fun he => hl' (by rw [he])
      simp [Held, hne]
    | _ => simp_all [Held]
  · intro e
    rcases eq_or_ne e d with rfl | hne
    · simp
    · simpa [hne] using h.seated e
  · intro e x hx
    rcases eq_or_ne e d with rfl | hne
    · simp only [Function.update_self, Option.some.injEq] at hx ⊢
      exact hx ▸ hkind.symm
    · simp only [Function.update_of_ne hne] at hx ⊢
      exact h.slotKind e x hx
  · intro x hx
    simp only [reduceCtorEq, Hand.borrows.injEq, false_or] at hx
    exact hx ▸ hkind
  · intro x hx
    obtain rfl : b = x := by simpa using hx
    exact ⟨h.custody.lt hb, h.not_closed hb nofun⟩

/-- The worker starts or stops using a backing it does not own. -/
theorem Owned.setHand (h : v.Owned) (worker : Hand) (hw : ∀ b, v.worker ≠ .holds b)
    (hw' : ∀ b, worker ≠ .holds b)
    (huse : ∀ b, worker = .borrows b → b < v.next ∧ ¬v.Held .closed b ∧ v.remote b = true) :
    Owned { v with worker } := by
  refine ⟨h.custody.congr fun l x => ?_, h.evtNodup, h.queueNodup, h.seated, h.slotKind, h.taskKind,
    h.evtKind, h.queueKind, fun b hb => ?_, fun b hb => ⟨(huse b hb).1, (huse b hb).2.1⟩, h.called,
    h.order, h.onWorker⟩
  · cases l <;> simp [Held, hw, hw']
  · exact (huse b (hb.resolve_left (hw' b))).2.2

/-- One slot of the link-loss sweep. -/
theorem Owned.sweep (h : v.Owned) (hs : v.slot d = ⟨true, true, some b⟩) :
    Owned { v with slot := Function.update v.slot d ⟨false, true, none⟩, evt := v.evt ++ [b] } := by
  have hb : v.Held (.slot d) b := by simp [Held, hs]
  have hkind : v.remote b = true := by simpa [hs] using (h.slotKind d b (by rw [hs])).symm
  have hfresh : b ∉ v.evt := fun he => nomatch h.custody.unique hb (show v.Held .evt b from he)
  refine ⟨h.custody.move hb (q := .evt) nofun (fun x => ?_) (fun x => ?_) ?_, ?_, h.queueNodup, ?_, ?_,
    h.taskKind, ?_, h.queueKind, h.handKind, h.borrowed, h.called, h.order, h.onWorker⟩
  · simp only [Held, Function.update_self, hs, reduceCtorEq, Option.some.injEq, false_iff, not_and]
    exact fun hx hne => hne hx.symm
  · simp [Held]
  · intro l hl hl' x
    cases l with
    | slot e =>
      have hne : e ≠ d := fun he => hl (by rw [he])
      simp [Held, hne]
    | _ => simp_all [Held]
  · simpa only [List.concat_eq_append] using h.evtNodup.concat hfresh
  · intro e
    rcases eq_or_ne e d with rfl | hne
    · simp
    · simpa [hne] using h.seated e
  · intro e x hx
    rcases eq_or_ne e d with rfl | hne
    · simp at hx
    · simp only [Function.update_of_ne hne] at hx ⊢
      exact h.slotKind e x hx
  · intro x hx
    rcases List.mem_append.mp hx with hx | hx
    · exact h.evtKind x hx
    · rw [List.mem_singleton.mp hx]; exact hkind

/-- CORRECT: every move keeps the ledger in order. -/
theorem Owned.step (h : v.Owned) (hm : Move v v') : v'.Owned := by
  cases hm with
  | call c hc => exact h.call hc
  | makeTask t ht => exact h.makeTask ht
  | makeWorker hw => exact h.makeWorker hw
  | exchange d t r hk => exact h.exchange d t r hk
  | closeTask t b ht => exact h.closeTask ht
  | closeWorker b hw => exact h.closeWorker hw
  | sendTask t b ht => exact h.sendTask ht
  | leakTask t b ht => exact h.leakTask ht
  | sendEvt b bs he => exact h.sendEvt he
  | leakEvt b bs he => exact h.leakEvt he
  | take b bs hq hw => exact h.take hq hw
  | install d b hw hs => exact h.install hw hs
  | borrow d b hw hs hr =>
    have hb : v.Held (.slot d) b := hs
    refine h.setHand _ (by simp [hw]) (by simp) fun x hx => ?_
    obtain rfl : b = x := by simpa using hx
    exact ⟨h.custody.lt hb, h.not_closed hb nofun, (h.slotKind d b hs).symm.trans hr⟩
  | giveBack b hw => exact h.setHand _ (by simp [hw]) (by simp) (by simp)
  | sweep d b hs => exact h.sweep hs

/-- Several permitted calls in a row. -/
theorem moves_calls (v : Ledger) (cs : List Call) (h : ∀ c ∈ cs, v.Entitled c) :
    Relation.ReflTransGen Move v { v with calls := cs.reverse ++ v.calls } := by
  induction cs generalizing v with
  | nil => exact .refl
  | cons c cs ih =>
    have hfirst := Move.call v c (h c (List.mem_cons_self ..))
    have hrest := ih { v with calls := c :: v.calls } fun c' hc' => h c' (List.mem_cons_of_mem c hc')
    rw [List.reverse_cons, List.append_assoc]
    exact .head hfirst hrest

theorem Owned.path (h : v.Owned) (hm : Relation.ReflTransGen Move v v') : v'.Owned := by
  induction hm with
  | refl => exact h
  | tail _ hm ih => exact ih.step hm

end Ledger

end FdcSds
