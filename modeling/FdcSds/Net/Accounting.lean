import FdcSds.Net.Handles

/-! Descriptor accounting of the TNFS server.

    A ledger holds, slot by slot, what the session in that slot opened and has not closed. The log of the
    task is run against it: a call may act only on a handle of its own slot. From the end of the first
    loop of `tnfsd_task` on, every call is allowed, the ledger is what the session tables hold, and no
    handle is held twice. The first loop itself closes descriptor 0 eight times: a free entry is encoded
    as -1, and the table it frees is still all zeros.

        log   close 0 … close 0 │ open 5, read 5, close 5, …
              ▲ not ours         ▲ allowed, ledger = tables     -/

namespace FdcSds.Tnfsd
open Schemes Schemes.Runs Prog

/-- What each slot holds. -/
abbrev Ledger : Type := ℕ → Multiset Handle

namespace Ledger

/-- After some calls. -/
def post : Ledger → List (ℕ × SysOp) → Ledger
  | L, [] => L
  | L, (i, op) :: ops => post (Function.update L i (op.1.heldAfter (L i) op.2)) ops

/-- Each call acts only on a handle its slot holds at that point. -/
def Allows : Ledger → List (ℕ × SysOp) → Prop
  | _, [] => True
  | L, (i, op) :: ops =>
    (∀ h ∈ op.1.handle, h ∈ L i) ∧ Allows (Function.update L i (op.1.heldAfter (L i) op.2)) ops

/-- Nothing held. -/
def empty : Ledger := fun _ => 0

/-- No handle is held twice, in one slot or in two. -/
structure Exclusive (L : Ledger) : Prop where
  once : ∀ i, (L i).Nodup
  apart : ∀ i j h, h ∈ L i → h ∈ L j → i = j

variable {L : Ledger}

theorem post_append (ops ops' : List (ℕ × SysOp)) : L.post (ops ++ ops') = (L.post ops).post ops' := by
  induction ops generalizing L with
  | nil => rfl
  | cons op ops ih => exact ih

theorem allows_append {ops ops' : List (ℕ × SysOp)} :
    L.Allows (ops ++ ops') ↔ L.Allows ops ∧ (L.post ops).Allows ops' := by
  induction ops generalizing L with
  | nil => simp [Allows, post]
  | cons op ops ih => simp only [List.cons_append, Allows, post, ih, and_assoc]

/-- Calls made for one slot only. -/
theorem post_tag (i : ℕ) (ops : List SysOp) :
    L.post (ops.map (Prod.mk i)) = Function.update L i (custody.after (L i) ops) := by
  induction ops generalizing L with
  | nil => exact (Function.update_eq_self ..).symm
  | cons op ops ih =>
    have := ih (L := Function.update L i (op.1.heldAfter (L i) op.2))
    rw [Function.update_self, Function.update_idem] at this
    exact this

theorem allows_tag {i : ℕ} {ops : List SysOp} :
    L.Allows (ops.map (Prod.mk i)) ↔ custody.Allows (L i) ops := by
  induction ops generalizing L with
  | nil => exact Iff.rfl
  | cons op ops ih =>
    have := ih (L := Function.update L i (op.1.heldAfter (L i) op.2))
    rw [Function.update_self] at this
    exact and_congr_right fun _ => this

end Ledger

/-- What the operating system promises about the handles it gives out: they are new, and stay open until
    they are closed. -/
structure HandsOut {σ : Type} (world : σ → (c : SysCall) → σ × c.Answer) (isOpen : σ → Handle → Prop) :
    Prop where
  fresh : ∀ s c h, c.opens (world s c).2 = some h → ¬ isOpen s h ∧ isOpen (world s c).1 h
  stays : ∀ s c h, isOpen s h → c.closes ≠ some h → isOpen (world s c).1 h

/-- The ledger holds open handles, none twice. -/
structure Ledger.Backed {σ : Type} (L : Ledger) (isOpen : σ → Handle → Prop) (card : σ) : Prop where
  exclusive : L.Exclusive
  isOpen : ∀ i h, h ∈ L i → isOpen card h

variable {σ : Type} {world : σ → (c : SysCall) → σ × c.Answer} {isOpen : σ → Handle → Prop}

theorem closes_handle {c : SysCall} {h : Handle} (hc : c.closes = some h) : c.handle = some h := by
  cases c <;> first | exact hc | cases hc

/-- A slot's holdings replaced by others that no other slot has. -/
theorem Ledger.Backed.update {L : Ledger} {s s' : σ} (hb : L.Backed isOpen s) {i : ℕ}
    {M : Multiset Handle} (hnodup : M.Nodup) (hapart : ∀ j ≠ i, ∀ h ∈ M, h ∉ L j)
    (hmine : ∀ h ∈ M, isOpen s' h) (hothers : ∀ j ≠ i, ∀ h ∈ L j, isOpen s' h) :
    Ledger.Backed (Function.update L i M) isOpen s' := by
  refine ⟨⟨fun j => ?_, fun j k h hj hk => ?_⟩, fun j h hj => ?_⟩
  · by_cases hji : j = i
    · subst hji
      rwa [Function.update_self]
    · rw [Function.update_of_ne hji]
      exact hb.exclusive.once j
  · by_cases hji : j = i <;> by_cases hki : k = i
    · exact hji.trans hki.symm
    · subst hji
      rw [Function.update_self] at hj
      rw [Function.update_of_ne hki] at hk
      exact absurd hk (hapart k hki h hj)
    · subst hki
      rw [Function.update_self] at hk
      rw [Function.update_of_ne hji] at hj
      exact absurd hj (hapart j hji h hk)
    · rw [Function.update_of_ne hji] at hj
      rw [Function.update_of_ne hki] at hk
      exact hb.exclusive.apart j k h hj hk
  · by_cases hji : j = i
    · subst hji
      rw [Function.update_self] at hj
      exact hmine h hj
    · rw [Function.update_of_ne hji] at hj
      exact hothers j hji h hj

/-- One call of a slot keeps the ledger backed. -/
theorem Ledger.Backed.call {L : Ledger} {s : σ} (hb : L.Backed isOpen s) (hos : HandsOut world isOpen)
    {i : ℕ} {c : SysCall} (hmay : ∀ h ∈ c.handle, h ∈ L i) :
    Ledger.Backed (Function.update L i (c.heldAfter (L i) (world s c).2)) isOpen (world s c).1 := by
  have hnodup := hb.exclusive.once i
  cases hclose : c.closes with
  | some h =>
    have hheld : h ∈ L i := hmay h (closes_handle hclose)
    have hafter : c.heldAfter (L i) (world s c).2 = (L i).erase h := by
      simp only [SysCall.heldAfter, hclose]
    have stays : ∀ j x, x ∈ L j → x ≠ h → isOpen (world s c).1 x := by
      intro j x hx hne
      refine hos.stays s c x (hb.isOpen j x hx) ?_
      rw [hclose]
      rintro ⟨⟩
      exact hne rfl
    rw [hafter]
    refine hb.update (hnodup.erase h) ?_ ?_ ?_
    · intro j hj x hx hxj
      exact hj (hb.exclusive.apart j i x hxj (Multiset.mem_of_mem_erase hx))
    · intro x hx
      exact stays i x (Multiset.mem_of_mem_erase hx) (hnodup.mem_erase_iff.mp hx).1
    · rintro j hj x hx
      refine stays j x hx ?_
      rintro rfl
      exact hj (hb.exclusive.apart j i x hx hheld)
  | none =>
    have stays : ∀ j x, x ∈ L j → isOpen (world s c).1 x := by
      intro j x hx
      refine hos.stays s c x (hb.isOpen j x hx) ?_
      rw [hclose]
      rintro ⟨⟩
    cases hopen : c.opens (world s c).2 with
    | none =>
      have hafter : c.heldAfter (L i) (world s c).2 = L i := by
        simp only [SysCall.heldAfter, hclose, hopen]
      rw [hafter]
      exact hb.update hnodup (fun j hj x hx hxj => hj (hb.exclusive.apart j i x hxj hx)) (stays i)
        fun j _ => stays j
    | some h =>
      have hafter : c.heldAfter (L i) (world s c).2 = h ::ₘ L i := by
        simp only [SysCall.heldAfter, hclose, hopen]
      -- the new handle was not open, so nobody holds it
      obtain ⟨hnew, hnow⟩ := hos.fresh s c h hopen
      have hnobody : ∀ j, h ∉ L j := fun j hj => hnew (hb.isOpen j h hj)
      rw [hafter]
      refine hb.update (Multiset.nodup_cons.mpr ⟨hnobody i, hnodup⟩) ?_ ?_ fun j _ => stays j
      · intro j hj x hx hxj
        rcases Multiset.mem_cons.mp hx with rfl | hx
        · exact hnobody j hxj
        · exact hj (hb.exclusive.apart j i x hxj hx)
      · intro x hx
        rcases Multiset.mem_cons.mp hx with rfl | hx
        · exact hnow
        · exact stays i x hx

/-- All calls of a program, made for one slot. -/
theorem Ledger.Backed.trace {α : Type} {L : Ledger} {s : σ} {p : Sys α} {i : ℕ} (hb : L.Backed isOpen s)
    (hos : HandsOut world isOpen) (hallow : custody.Allows (L i) (p.trace world s)) :
    Ledger.Backed (L.post ((p.trace world s).map (Prod.mk i))) isOpen (p.run world s).1 := by
  induction p generalizing L s with
  | ret a => exact hb
  | call c k ih =>
    refine ih _ (hb.call hos hallow.1) ?_
    rw [Function.update_self]
    exact hallow.2

/-! ### One turn -/

/-- The ledger is what the sessions' tables hold. -/
def Ledger.Matches (L : Ledger) (v : Server) : Prop := ∀ i < tnfsdMaxSessions, L i = (v.sessions i).handles

/-- Calls that are allowed and lead to a server the ledger matches again. -/
structure Booked (world : σ → (c : SysCall) → σ × c.Answer) (L : Ledger) (card : σ)
    (ops : List (ℕ × SysOp)) (v' : Server) (card' : σ) : Prop where
  allowed : L.Allows ops
  matched : (L.post ops).Matches v'
  backed : ∀ {isOpen : σ → Handle → Prop}, HandsOut world isOpen → L.Backed isOpen card →
    (L.post ops).Backed isOpen card'

variable {L : Ledger} {v v' : Server} {card card' card'' : σ}

theorem Booked.nil (hm : L.Matches v) : Booked world L card [] v card := ⟨trivial, hm, fun _ hb => hb⟩

theorem Booked.append {ops ops' : List (ℕ × SysOp)} (h : Booked world L card ops v card')
    (h' : Booked world (L.post ops) card' ops' v' card'') :
    Booked world L card (ops ++ ops') v' card'' where
  allowed := Ledger.allows_append.mpr ⟨h.allowed, h'.allowed⟩
  matched := by
    rw [Ledger.post_append]
    exact h'.matched
  backed := by
    intro isOpen hos hb
    rw [Ledger.post_append]
    exact h'.backed hos (h.backed hos hb)

/-- A program run for one slot, on what that slot holds. -/
theorem Booked.slot {α : Type} {i : ℕ} {p : Sys α} {f : α → Server} (hm : L.Matches v)
    (hi : i < tnfsdMaxSessions)
    (hp : custody.Obeys (v.sessions i).handles p fun left a => ((f a).sessions i).handles = left)
    (hothers : p.Ensures fun a => ∀ j ≠ i, (f a).sessions j = v.sessions j) :
    Booked world L card ((p.trace world card).map (Prod.mk i)) (f (p.run world card).2)
      (p.run world card).1 := by
  have hkept : custody.KeptBy world fun _ _ => True := fun _ _ _ _ _ => ⟨trivial, trivial⟩
  rw [← hm i hi] at hp
  obtain ⟨hallow, hend, -⟩ := hp.sound (s := card) hkept trivial
  refine ⟨Ledger.allows_tag.mpr hallow, fun j hj => ?_, fun hos hb => hb.trace hos hallow⟩
  rw [Ledger.post_tag]
  by_cases hji : j = i
  · subst hji
    rw [Function.update_self]
    exact hend.symm
  · rw [Function.update_of_ne hji, hothers.run world card j hji]
    exact hm j hj

/-- Freeing one slot. -/
theorem Booked.free {i : ℕ} (hm : L.Matches v) (hi : i < tnfsdMaxSessions) :
    Booked world L card (((freeSession (v.sessions i)).trace world card).map (Prod.mk i))
      (v.setSession i ((freeSession (v.sessions i)).run world card).2)
      ((freeSession (v.sessions i)).run world card).1 := by
  refine Booked.slot (f := fun s => v.setSession i s) hm hi ((freeSession_obeys _).mono ?_) ?_
  · rintro left s ⟨rfl, rfl⟩
    simp [handles_zero]
  · exact ensures_of_forall fun s j hj => Server.setSession_of_ne _ hj

namespace Daemon

theorem reapOps_booked {now n : ℕ} (hn : n ≤ tnfsdMaxSessions) (hm : L.Matches v) :
    Booked world L card (reapOps world now n card v) ((Server.reapIdle now n v).run world card).2
      ((Server.reapIdle now n v).run world card).1 := by
  induction n with
  | zero => exact .nil hm
  | succ n ih =>
    have hrest := ih (Nat.le_of_succ_le hn)
    simp only [reapOps, Server.reapIdle, run_bind]
    split
    · rw [run_bind]
      exact hrest.append (.free hrest.matched hn)
    · exact hrest.append (.nil hrest.matched)

theorem dropOps_booked {n : ℕ} (hn : n ≤ tnfsdMaxSessions) (hm : L.Matches v) :
    Booked world L card (dropOps world n card v) ((Server.dropSessions n v).run world card).2
      ((Server.dropSessions n v).run world card).1 := by
  induction n with
  | zero => exact .nil hm
  | succ n ih =>
    have hrest := ih (Nat.le_of_succ_le hn)
    simp only [dropOps, Server.dropSessions, run_bind]
    split
    · rw [run_bind]
      exact hrest.append (.free hrest.matched hn)
    · exact hrest.append (.nil hrest.matched)

/-- A turn acts for a slot of the table. -/
theorem turn_slot_lt (peer : Peer) (rx : Bytes) : (v.turn peer rx).slot < tnfsdMaxSessions := by
  cases ht : v.turn peer rx with
  | ignored | refused => exact Nat.zero_lt_two
  | replay i => exact (Server.turn_replay ht).1
  | mount i => exact (Server.turn_mount ht).1
  | run i => exact (Server.turn_run ht).1

theorem serveOps_booked (now : ℕ) (peer : Peer) (rx : Bytes) (hm : L.Matches v) :
    Booked world L card (serveOps world now peer rx card v) ((v.serve now peer rx).run world card).2.1
      ((v.serve now peer rx).run world card).1 := by
  have hreap : Booked world L card (reapOps world now tnfsdMaxSessions card v) _ _ := reapOps_booked le_rfl hm
  simp only [serveOps, Server.serve, run_bind]
  exact hreap.append (.slot (f := Prod.fst) hreap.matched (turn_slot_lt peer rx)
    (answer_settled now peer rx ..) (Server.answer_others now peer rx ..))

/-! ### The whole run -/

/-- The calls of the first loop of `tnfsd_task`: four times `close 0` for each slot. -/
def startCloses : List (ℕ × SysOp) :=
  (List.replicate tnfsdMaxFiles (0, ⟨SysCall.close 0, ()⟩)) ++
    List.replicate tnfsdMaxFiles (1, ⟨SysCall.close 0, ()⟩)

/-- A zeroed table before the task runs. -/
def staticServer : Server := ⟨fun _ => .static, 1⟩

theorem startOps_eq (card : σ) : startOps world tnfsdMaxSessions card staticServer = startCloses := rfl

/-- The accounts of a task: before its first loop nothing was called; after it, the log is the loop's
    eight closes and then calls that are all accounted for. -/
structure Accounts (world : σ → (c : SysCall) → σ × c.Answer) (isOpen : σ → Handle → Prop)
    (d : Daemon σ) (rest : List (ℕ × SysOp)) : Prop where
  log : d.log = startCloses ++ rest
  allowed : Ledger.empty.Allows rest
  matched : (Ledger.empty.post rest).Matches d.server
  clean : d.server.Clean
  backed : (Ledger.empty.post rest).Backed isOpen d.card

theorem empty_backed (card : σ) : Ledger.empty.Backed isOpen card where
  exclusive := ⟨fun _ => Multiset.nodup_zero, fun _ _ _ h => absurd h (Multiset.notMem_zero _)⟩
  isOpen := fun _ _ h => absurd h (Multiset.notMem_zero _)

/-- Calls that are booked extend the accounts. -/
theorem Accounts.extend {d : Daemon σ} {rest ops : List (ℕ × SysOp)} (h : d.Accounts world isOpen rest)
    (hos : HandsOut world isOpen) (hb : Booked world (Ledger.empty.post rest) d.card ops v' card')
    (hc : v'.Clean) : Accounts world isOpen ⟨true, v', card', d.log ++ ops⟩ (rest ++ ops) where
  log := by rw [h.log, List.append_assoc]
  allowed := Ledger.allows_append.mpr ⟨h.allowed, hb.allowed⟩
  matched := by
    rw [Ledger.post_append]
    exact hb.matched
  clean := hc
  backed := by
    rw [Ledger.post_append]
    exact hb.backed hos h.backed

theorem start_accounts (card : σ) :
    Accounts world isOpen ⟨true, ((startLoop tnfsdMaxSessions staticServer).run world card).2,
      ((startLoop tnfsdMaxSessions staticServer).run world card).1, [] ++ startCloses⟩ [] := by
  have hfreed : ∀ i < tnfsdMaxSessions,
      ((startLoop tnfsdMaxSessions staticServer).run world card).2.sessions i = .zero := by
    intro i hi
    match i, hi with
    | 0, _ => rfl
    | 1, _ => rfl
  refine ⟨rfl, trivial, fun i hi => ?_, fun i hi _ => hfreed i hi, empty_backed _⟩
  rw [hfreed i hi]
  rfl

/-- What one beat does to the accounts. -/
theorem step_accounts {d d' : Daemon σ} {b : Beat} {rest : List (ℕ × SysOp)} (hos : HandsOut world isOpen)
    (h : d.Accounts world isOpen rest) (hstarted : d.started = true) (hstep : d.step world b = some d') :
    ∃ rest', d'.Accounts world isOpen rest' ∧ (b = .linkDown → ∀ i < tnfsdMaxSessions,
      Ledger.empty.post rest' i = 0) := by
  cases b with
  | start =>
    obtain ⟨hno, -⟩ := when_eq_some.mp hstep
    rw [hstarted] at hno
    cases hno
  | datagram now peer rx =>
    obtain ⟨-, rfl⟩ := when_eq_some.mp hstep
    refine ⟨_, h.extend hos (serveOps_booked now peer _ h.matched)
      ((Server.serve_clean now peer _ h.clean).run world d.card), by rintro ⟨⟩⟩
  | timeout now =>
    obtain ⟨-, rfl⟩ := when_eq_some.mp hstep
    refine ⟨_, h.extend hos (serveOps_booked now _ _ h.matched)
      ((Server.serve_clean now _ _ h.clean).run world d.card), by rintro ⟨⟩⟩
  | linkDown =>
    obtain ⟨-, rfl⟩ := when_eq_some.mp hstep
    have hfreed := (Server.dropSessions_freed tnfsdMaxSessions d.server).run world d.card
    have hdrop : Booked world _ d.card (dropOps world tnfsdMaxSessions d.card d.server) _ _ :=
      dropOps_booked le_rfl h.matched
    have hclean := h.clean.freed hfreed
    refine ⟨_, h.extend hos hdrop hclean, fun _ i hi => ?_⟩
    have hfree := (Server.dropSessions_free tnfsdMaxSessions d.server).run world d.card i hi
    have hheld := (h.extend hos hdrop hclean).matched i hi
    rw [hheld, hclean i hi hfree]
    rfl

theorem reach_accounts {d : Daemon σ} {ok : Daemon σ → Beat → Prop} (hos : HandsOut world isOpen)
    (h : (machine world).Reach ok d) : (d.started = false ∧ d.log = [] ∧ d.server = staticServer) ∨
      (d.started = true ∧ ∃ rest, d.Accounts world isOpen rest) := by
  refine h.invariant (I := fun d => (d.started = false ∧ d.log = [] ∧ d.server = staticServer) ∨
    (d.started = true ∧ ∃ rest, d.Accounts world isOpen rest)) ?_ fun d b d' hd _ hstep => ?_
  · rintro d ⟨card, rfl⟩
    exact .inl ⟨rfl, rfl, rfl⟩
  · rcases hd with ⟨hno, hlog, hserver⟩ | ⟨hyes, rest, hacc⟩
    · cases b with
      | start =>
        obtain ⟨-, rfl⟩ := when_eq_some.mp hstep
        refine .inr ⟨rfl, [], ?_⟩
        rw [hlog, hserver, startOps_eq]
        exact start_accounts d.card
      | datagram | timeout | linkDown =>
        obtain ⟨hyes, -⟩ := when_eq_some.mp hstep
        rw [hno] at hyes
        cases hyes
    · obtain ⟨rest', hacc', -⟩ := step_accounts hos hacc hyes hstep
      have hstarted : d'.started = true := by
        cases b <;> obtain ⟨-, rfl⟩ := when_eq_some.mp hstep <;> rfl
      exact .inr ⟨hstarted, rest', hacc'⟩

/-- Descriptor 0 is closed before anything was opened. -/
theorem startCloses_not_allowed (rest : List (ℕ × SysOp)) :
    ¬ Ledger.empty.Allows (startCloses ++ rest) := by
  rintro ⟨hzero, -⟩
  exact absurd (hzero (.file 0) rfl) (Multiset.notMem_zero _)

/-- CORRECT, except for the first loop: in no run of the task is every call accounted for, because
    the loop closes descriptor 0 eight times. From the end of the loop on, every call acts on a handle
    that its own session opened and has not closed; the open handles are the ones in the tables of the
    sessions in use, each once; and when the link goes down none is left. -/
theorem descriptors_accounted {d : Daemon σ} (hos : HandsOut world isOpen)
    (h : (machine world).Reach Machine.always d) (hstarted : d.started = true) :
    ¬ Ledger.empty.Allows d.log ∧ ∃ rest, d.log = startCloses ++ rest ∧ Ledger.empty.Allows rest ∧
      (∀ i < tnfsdMaxSessions, Ledger.empty.post rest i = (d.server.sessions i).handles ∧
        ((d.server.sessions i).inUse = false → (d.server.sessions i).handles = 0)) ∧
      (Ledger.empty.post rest).Exclusive ∧
      ∀ d', d.step world .linkDown = some d' → ∃ rest', d'.log = startCloses ++ rest' ∧
        Ledger.empty.Allows rest' ∧ ∀ i < tnfsdMaxSessions, Ledger.empty.post rest' i = 0 := by
  rcases reach_accounts hos h with ⟨hno, -⟩ | ⟨-, rest, hacc⟩
  · rw [hstarted] at hno
    cases hno
  · refine ⟨hacc.log ▸ startCloses_not_allowed rest, rest, hacc.log, hacc.allowed, fun i hi => ?_,
      hacc.backed.exclusive, fun d' hdown => ?_⟩
    · refine ⟨hacc.matched i hi, fun hfree => ?_⟩
      rw [hacc.clean i hi hfree, handles_zero]
    · obtain ⟨rest', hacc', hnone⟩ := step_accounts hos hacc hstarted hdown
      exact ⟨rest', hacc'.log, hacc'.allowed, hnone rfl⟩

/-! ### Runs on a card that numbers its handles -/

/-- A card whose handles are numbered in the order they are given out; nothing is ever stored. -/
def numberedCard (n : ℕ) : (c : SysCall) → ℕ × c.Answer
  | .open _ _ => (n + 1, .ok n)
  | .opendir _ => (n + 1, .ok n)
  | .read _ _ => (n, .ok [])
  | .write _ data => (n, .ok data.length)
  | .lseek _ _ _ => (n, .ok 0)
  | .stat _ => (n, .error .enoent)
  | .mkdir _ | .rmdir _ | .unlink _ | .rename _ _ => (n, .error .enoent)
  | .readdir _ => (n, none)
  | .close _ | .rewinddir _ | .closedir _ | .changeEnd => (n, ())
  | .changeBegin _ => (n, none)

/-- Given out at some time. -/
def numberedOpen (n : ℕ) : Handle → Prop
  | .file fd => fd < n
  | .dir d => d < n

theorem numberedCard_handsOut : HandsOut numberedCard numberedOpen where
  fresh := by
    rintro n c h hopen
    cases c <;> cases hopen <;> exact ⟨Nat.lt_irrefl n, Nat.lt_succ_self n⟩
  stays := by
    rintro n c (fd | d) hlt - <;> cases c <;> first | exact hlt | exact Nat.lt_succ_of_lt hlt

/-- The task starts, a client mounts and opens a file. -/
def firstOpen : List Beat :=
  [.start, .datagram 0 ⟨1, 1⟩ [0, 0, 0, tnfsMount, tnfsVerLo, tnfsVerHi, 0x2F, 0, 0, 0],
    .datagram 1 ⟨1, 1⟩ [1, 0, 1, tnfsOpen, 0x01, 0, 0, 0, 0x61, 0]]

def zeroed : Daemon ℕ := ⟨false, staticServer, 3, []⟩

theorem exec_firstOpen : ((machine numberedCard).exec zeroed firstOpen).isSome = true := by decide

def firstOpened : Daemon ℕ := ((machine numberedCard).exec zeroed firstOpen).get exec_firstOpen

theorem reach_firstOpened : (machine numberedCard).Reach Machine.always firstOpened :=
  ⟨zeroed, ⟨3, rfl⟩, Machine.exec_always (Option.some_get exec_firstOpen).symm⟩

theorem descriptors_accounted_firstOpened : ∃ rest, firstOpened.log = startCloses ++ rest ∧
    Ledger.empty.Allows rest ∧ (Ledger.empty.post rest).Exclusive := by
  obtain ⟨-, rest, hlog, hallow, -, hexcl, -⟩ :=
    descriptors_accounted numberedCard_handsOut reach_firstOpened (by decide)
  exact ⟨rest, hlog, hallow, hexcl⟩

theorem exec_start : ((machine numberedCard).exec zeroed [.start]).isSome = true := by decide

/-- The first beat closes descriptor 0, which the server never opened. -/
theorem start_closes_foreign : ∃ d, (machine numberedCard).Reach Machine.always d ∧
    ((0, ⟨SysCall.close 0, ()⟩) : ℕ × SysOp) ∈ d.log ∧ ¬ Ledger.empty.Allows d.log :=
  ⟨_, ⟨zeroed, ⟨3, rfl⟩, Machine.exec_always (Option.some_get exec_start).symm⟩,
    List.mem_cons_self .., startCloses_not_allowed []⟩

end Daemon

end FdcSds.Tnfsd
