import FdcSds.Net.Sessions
import FdcSds.Sd.Posix
import FdcSds.Schemes.Runs

/-! The TNFS server and its clients over a UDP network.

    Every datagram ever sent stays in `requests`: it may reach the server at any time, any number of
    times, in any order, or never. A client has at most one request waiting, sends it again as often as
    it likes with the same sequence byte, and takes the next byte when a reply matches.

        client p ──ask──▶ requests ──arrive k──▶ server ──▶ replies ──answer──▶ client p
                     ▲ retransmit                  │
                                                executed (newest first)

    The server remembers the last (seq, cmd) of a session and nothing older. So a copy is answered from
    the cache as long as nothing else ran in its session since, and is run again when it comes in after
    a later request. -/

namespace FdcSds.Tnfsd
open Schemes Schemes.Runs Prog

/-- A client's request. `index` counts the requests of this client before it. -/
structure Request where
  client : Peer
  index : ℕ
  sid : UInt16
  seq : UInt8
  cmd : UInt8
  payload : Bytes
  deriving DecidableEq

/-- The datagram every copy of a request consists of. -/
def Request.datagram (r : Request) : Bytes := tnfsHeader r.sid r.seq r.cmd ++ r.payload

/-- A client accepts a reply with its sequence byte and command that does not tell it to retry. -/
def Request.answeredBy (r : Request) (m : Sent) : Bool :=
  m.peer = r.client && tnfsStatusOff + 1 ≤ m.data.length && m.data.getD 2 0 == r.seq &&
    m.data.getD 3 0 == r.cmd && m.data.getD tnfsStatusOff 0 != tnfsEagain

structure Client where
  issued : ℕ
  seq : UInt8
  waiting : Option Request

/-- A request the server ran, with the id of the session it ran in (for a MOUNT, the new one). -/
structure Execution where
  request : Request
  sid : UInt16
  deriving DecidableEq

/-- It ran in the session (`p`, `sid`). -/
def Execution.isIn (e : Execution) (p : Peer) (sid : UInt16) : Bool := e.request.client == p && e.sid == sid

structure Traffic (σ : Type) where
  now : ℕ
  server : Server
  card : σ
  clients : Peer → Client
  requests : List Request
  replies : List Sent
  executed : List Execution

inductive Event where
  | ask (p : Peer) (sid : UInt16) (cmd : UInt8) (payload : Bytes)
  | retransmit (p : Peer)
  | arrive (k : ℕ)
  | answer (p : Peer) (k : ℕ)
  | pass (us : ℕ)
  | timeout
  | linkDown

namespace Traffic

variable {σ : Type} (world : σ → (c : SysCall) → σ × c.Answer)

/-- The datagram as the server receives it. -/
def received (r : Request) : Bytes := r.datagram.take tnfsMsgCap

/-- The session id a turn runs a request in, if it runs it at all. -/
def ranIn (v : Server) (r : Request) : Server.Turn → Option UInt16
  | .run _ => some r.sid
  | .mount i => some (v.mountSid i)
  | .ignored | .replay _ | .refused => none

/-- The executions after a copy of `r` met the turn `t`. -/
def logged (ex : List Execution) (v : Server) (r : Request) (t : Server.Turn) : List Execution :=
  ((ranIn v r t).map (Execution.mk r)).toList ++ ex

/-- The server once it has dropped the idle sessions. -/
def reaped (s : Traffic σ) : Server := s.server.reaped s.now tnfsdMaxSessions

/-- What the server does with a copy of `r` that arrives now. -/
def turnOf (s : Traffic σ) (r : Request) : Server.Turn := s.reaped.turn r.client (received r)

/-- A copy of `r` reaches the server. -/
def arrive (s : Traffic σ) (r : Request) : Traffic σ :=
  let served := run world s.card (s.server.serve s.now r.client (received r))
  { s with
    card := served.1
    server := served.2.1
    replies := s.replies ++ served.2.2
    executed := logged s.executed s.reaped r (s.turnOf r) }

def step (s : Traffic σ) : Event → Option (Traffic σ)
  | .ask p sid cmd payload =>
    let c := s.clients p
    let r : Request := ⟨p, c.issued, sid, c.seq, cmd, payload⟩
    when (c.waiting = none)
      { s with
        clients := Function.update s.clients p ⟨c.issued + 1, c.seq, some r⟩
        requests := s.requests ++ [r] }
  | .retransmit p => ((s.clients p).waiting).map fun r => { s with requests := s.requests ++ [r] }
  | .arrive k => (s.requests[k]?).map (s.arrive world)
  | .answer p k =>
    match (s.clients p).waiting, s.replies[k]? with
    | some r, some m =>
      when (r.answeredBy m = true)
        { s with
          clients := Function.update s.clients p ⟨(s.clients p).issued, (s.clients p).seq + 1, none⟩ }
    | _, _ => none
  | .pass us => some { s with now := s.now + us }
  | .timeout =>
    let served := run world s.card (s.server.serve s.now ⟨0, 0⟩ [])
    some { s with card := served.1, server := served.2.1, replies := s.replies ++ served.2.2 }
  | .linkDown =>
    let dropped := run world s.card (Server.dropSessions tnfsdMaxSessions s.server)
    some { s with card := dropped.1, server := dropped.2 }

/-- Booted: no session, and nobody has sent anything. -/
def boot (card : σ) (seqs : Peer → UInt8) : Traffic σ :=
  ⟨0, ⟨fun _ => .zero, 1⟩, card, fun p => ⟨0, seqs p, none⟩, [], [], []⟩

def machine : Machine (Traffic σ) Event where
  start s := ∃ card seqs, s = boot card seqs
  step s e := s.step world e

/-- A copy of `r` is late: the server already ran a later request of its client, in the session `r`
    names or, for a MOUNT, in any. -/
def late (s : Traffic σ) (r : Request) : Prop :=
  ∃ e ∈ s.executed, e.request.client = r.client ∧ (r.cmd = tnfsMount ∨ e.sid = r.sid) ∧
    r.index < e.request.index

instance (s : Traffic σ) (r : Request) : Decidable (s.late r) := by
  unfold late
  infer_instance

/-- No late copy of a request of client `p` arrives. -/
def InOrder (p : Peer) (s : Traffic σ) : Event → Prop
  | .arrive k => ∀ r ∈ s.requests[k]?, r.client = p → ¬ s.late r
  | _ => True

instance (p : Peer) (s : Traffic σ) (e : Event) : Decidable (InOrder p s e) := by
  cases e <;> simp only [InOrder] <;> infer_instance

/-! ### What stays true -/

/-- A live session has the reply to the last request that ran in it cached. -/
def Cached (ex : List Execution) (v : Server) : Prop :=
  ∀ i < tnfsdMaxSessions, (v.sessions i).inUse = true →
    ∀ e, ex.find? (·.isIn (v.sessions i).peer (v.sessions i).sid) = some e →
      e.request.cmd ≠ tnfsMount → (v.sessions i).Keyed e.request.seq e.request.cmd

/-- The requests sent, by client and index. -/
structure Numbered (s : Traffic σ) : Prop where
  below : ∀ r ∈ s.requests, r.index < (s.clients r.client).issued
  unique : ∀ r ∈ s.requests, ∀ r' ∈ s.requests, r.client = r'.client → r.index = r'.index → r = r'
  waiting : ∀ p r, (s.clients p).waiting = some r → r ∈ s.requests
  sent : ∀ e ∈ s.executed, e.request ∈ s.requests
  named : ∀ e ∈ s.executed, e.request.cmd ≠ tnfsMount → e.sid = e.request.sid

/-- A copy of a request is run in the session it names, unless that one has its reply cached. -/
theorem run_of_copy {v : Server} {r : Request} {i : ℕ} (h : v.turn r.client (received r) = .run i) :
    i < tnfsdMaxSessions ∧ r.cmd ≠ tnfsMount ∧ (v.sessions i).inUse = true ∧
      (v.sessions i).sid = r.sid ∧ (v.sessions i).peer = r.client ∧
      ¬ (v.sessions i).Keyed r.seq r.cmd := by
  obtain ⟨hi, hcmd, hlive, hsid, hpeer, hkey⟩ := Server.turn_run h
  refine ⟨hi, hcmd, hlive, ?_, hpeer, fun hk => hkey ⟨hk.have_reply, hk.seq, hk.cmd⟩⟩
  have hword : word (received r) 0 = r.sid.toNat := word_le16 [] _ _ r.sid.toNat_lt
  rw [hsid, hword]
  simp

theorem cached_freed {ex : List Execution} {v v' : Server} (h : Cached ex v) (hf : v.Freed v') :
    Cached ex v' := by
  intro i hi hin
  have hsame := hf.of_inUse hin
  rw [hsame] at hin ⊢
  exact h i hi hin

/-- An execution in another session does not change the last one of this session. -/
theorem find_cons_of_sid_ne {ex : List Execution} {e : Execution} {p : Peer} {sid : UInt16}
    (h : e.sid ≠ sid) : (e :: ex).find? (·.isIn p sid) = ex.find? (·.isIn p sid) := by
  rw [List.find?_cons_of_neg]
  simp [Execution.isIn, h]

theorem cached_alike {ex : List Execution} {v v' : Server} (h : Cached ex v)
    (hsame : ∀ j, (v.sessions j).SameOwner (v'.sessions j) ∧ (v.sessions j).SameKey (v'.sessions j)) :
    Cached ex v' := by
  intro i hi hin e he hcmd
  obtain ⟨howner, hkey⟩ := hsame i
  rw [howner.inUse] at hin
  rw [howner.peer, howner.sid] at he
  obtain ⟨hr, hs, hc⟩ := h i hi hin e he hcmd
  exact ⟨hkey.have_reply.trans hr, hkey.seq.trans hs, hkey.cmd.trans hc⟩

theorem cached_effect {ex : List Execution} {v v' : Server} {r : Request} (h : Cached ex v)
    (hd : v.Ids) (heff : v.Effect r.client (received r) (v.turn r.client (received r)) v') :
    Cached (logged ex v r (v.turn r.client (received r))) v' := by
  cases ht : v.turn r.client (received r) with
  | ignored | refused | replay =>
    rw [ht] at heff
    exact cached_alike h heff
  | mount k =>
    rw [ht] at heff
    obtain ⟨hrest, hnew⟩ := heff
    obtain ⟨hk, hmount, -⟩ := Server.turn_mount ht
    intro i hi hin e he hcmd
    by_cases hik : i = k
    · -- the last execution of the new session is the MOUNT itself
      subst hik
      obtain ⟨hsid, hpeer⟩ := hnew hin
      have hlast : e = ⟨r, v.mountSid i⟩ := by
        simpa [logged, ranIn, hsid, hpeer, Execution.isIn] using he.symm
      rw [hlast] at hcmd
      exact absurd hmount hcmd
    · rw [hrest i hik] at hin he ⊢
      have hne : v.mountSid k ≠ (v.sessions i).sid := (Server.mountSid_fresh hk hi hik hin).symm
      exact h i hi hin e (by simpa [logged, ranIn, find_cons_of_sid_ne, hne] using he) hcmd
  | run k =>
    rw [ht] at heff
    obtain ⟨hrest, hran⟩ := heff
    obtain ⟨hk, -, hlive, hsid, hpeer, -⟩ := run_of_copy ht
    intro i hi hin e he hcmd
    by_cases hik : i = k
    · subst hik
      obtain ⟨howner, hkeyed⟩ := hran hin
      have hlast : e = ⟨r, r.sid⟩ := by
        simpa [logged, ranIn, howner.sid, howner.peer, hsid, hpeer, Execution.isIn] using he.symm
      subst hlast
      exact hkeyed
    · rw [hrest i hik] at hin he ⊢
      have hne : r.sid ≠ (v.sessions i).sid := hsid ▸ hd.distinct k hk i hi (Ne.symm hik) hlive hin
      exact h i hi hin e (by simpa [logged, ranIn, find_cons_of_sid_ne, hne] using he) hcmd

/-- What holds in every run. -/
structure Sound (s : Traffic σ) : Prop where
  ids : s.server.Ids
  cached : Cached s.executed s.server
  numbered : Numbered s

theorem boot_sound (card : σ) (seqs : Peer → UInt8) : (boot card seqs).Sound where
  ids := Server.ids_of_free fun _ => rfl
  cached := by
    rintro i - ⟨⟩
  numbered := {
    below := by rintro r ⟨⟩
    unique := by rintro r ⟨⟩
    waiting := by rintro p r ⟨⟩
    sent := by rintro e ⟨⟩
    named := by rintro e ⟨⟩ }

variable {world} {s s' : Traffic σ} {ok : Traffic σ → Event → Prop}

theorem reaped_sound (h : s.Sound) : s.reaped.Ids ∧ Cached s.executed s.reaped :=
  have hf := Server.reaped_freed s.now tnfsdMaxSessions s.server
  ⟨h.ids.freed hf, cached_freed h.cached hf⟩

/-- The log after a turn: as before, or with this request in front. -/
theorem mem_logged {ex : List Execution} {v : Server} {r : Request} {t : Server.Turn} {e : Execution}
    (h : e ∈ logged ex v r t) : e ∈ ex ∨ ∃ sid, ranIn v r t = some sid ∧ e = ⟨r, sid⟩ := by
  simp only [logged, List.mem_append, Option.mem_toList, Option.map_eq_some_iff] at h
  rcases h with ⟨sid, hsid, rfl⟩ | h
  · exact .inr ⟨sid, hsid, rfl⟩
  · exact .inl h

theorem arrive_sound (h : s.Sound) {r : Request} (hr : r ∈ s.requests) : (s.arrive world r).Sound := by
  obtain ⟨hd, hc⟩ := reaped_sound h
  have heff := (Server.serve_effect s.now r.client (received r) s.server).run world s.card
  refine ⟨hd.effect heff, cached_effect hc hd heff, ?_⟩
  obtain ⟨hbelow, hunique, hwaiting, hsent, hnamed⟩ := h.numbered
  refine ⟨hbelow, hunique, hwaiting, fun e he => ?_, fun e he hcmd => ?_⟩
  · rcases mem_logged he with he | ⟨sid, -, rfl⟩
    · exact hsent e he
    · exact hr
  · rcases mem_logged he with he | ⟨sid, hran, rfl⟩
    · exact hnamed e he hcmd
    · -- only a MOUNT runs under an id it does not name
      cases ht : s.turnOf r with
      | run i =>
        rw [ht] at hran
        exact (Option.some.inj hran).symm
      | mount i => exact absurd (Server.turn_mount ht).2.1 hcmd
      | ignored | refused | replay i =>
        rw [ht] at hran
        cases hran

theorem ask_numbered (h : s.Numbered) {p : Peer} {r : Request} {c : Client} (hclient : r.client = p)
    (hindex : r.index = (s.clients p).issued) (hissued : c.issued = (s.clients p).issued + 1)
    (hwaiting : c.waiting = some r) :
    Numbered { s with clients := Function.update s.clients p c, requests := s.requests ++ [r] } := by
  subst hclient
  -- the new index is above all earlier ones of this client
  have hnew : ∀ r' ∈ s.requests, r'.client = r.client → r'.index < r.index := by
    intro r' hr' heq
    rw [hindex, ← heq]
    exact h.below r' hr'
  have hmem : ∀ {r'}, r' ∈ s.requests ++ [r] → r' ∈ s.requests ∨ r' = r := by simp
  constructor
  · intro r' hr'
    by_cases hp : r'.client = r.client
    · have hle : r'.index ≤ r.index := by
        rcases hmem hr' with hr' | rfl
        · exact (hnew r' hr' hp).le
        · exact le_rfl
      simp only [hp, Function.update_self]
      omega
    · rcases hmem hr' with hr' | rfl
      · simpa [hp] using h.below r' hr'
      · exact absurd rfl hp
  · intro r₁ h₁ r₂ h₂ heq hidx
    rcases hmem h₁ with old₁ | new₁ <;> rcases hmem h₂ with old₂ | new₂
    · exact h.unique r₁ old₁ r₂ old₂ heq hidx
    · rw [new₂] at heq hidx
      exact absurd hidx (hnew r₁ old₁ heq).ne
    · rw [new₁] at heq hidx
      exact absurd hidx (hnew r₂ old₂ heq.symm).ne'
    · rw [new₁, new₂]
  · intro q r' hq
    by_cases hqp : q = r.client
    · subst hqp
      simp only [Function.update_self, hwaiting, Option.some.injEq] at hq
      simp [hq]
    · simp only [Function.update_of_ne hqp] at hq
      exact List.mem_append_left _ (h.waiting q r' hq)
  · exact fun e he => List.mem_append_left _ (h.sent e he)
  · exact h.named

/-- One event keeps it all. -/
theorem step_sound {e : Event} (h : s.Sound) (hstep : s.step world e = some s') : s'.Sound := by
  obtain ⟨hd, hc, hn⟩ := h
  cases e with
  | ask p sid cmd payload =>
    obtain ⟨-, rfl⟩ := when_eq_some.mp hstep
    exact ⟨hd, hc, ask_numbered hn rfl rfl rfl rfl⟩
  | retransmit p =>
    obtain ⟨r, hr, rfl⟩ := Option.map_eq_some_iff.mp hstep
    have hmem : ∀ r', r' ∈ s.requests ++ [r] ↔ r' ∈ s.requests := by
      intro r'
      have := hn.waiting p r hr
      simp only [List.mem_append, List.mem_singleton]
      grind
    refine ⟨hd, hc, ?_⟩
    obtain ⟨hbelow, hunique, hwaiting, hsent, hnamed⟩ := hn
    constructor <;> simp only [hmem] <;> assumption
  | arrive k =>
    obtain ⟨r, hr, rfl⟩ := Option.map_eq_some_iff.mp hstep
    exact arrive_sound ⟨hd, hc, hn⟩ (List.mem_of_getElem? hr)
  | answer p k =>
    simp only [step] at hstep
    split at hstep
    · obtain ⟨-, rfl⟩ := when_eq_some.mp hstep
      obtain ⟨hbelow, hunique, hwaiting, hsent, hnamed⟩ := hn
      refine ⟨hd, hc, ?_, hunique, ?_, hsent, hnamed⟩
      · intro r hr
        have := hbelow r hr
        by_cases hp : r.client = p
        · rw [hp] at this ⊢
          simpa using this
        · simpa [hp] using this
      · intro q r hq
        by_cases hqp : q = p
        · subst hqp
          simp at hq
        · simp only [Function.update_of_ne hqp] at hq
          exact hwaiting q r hq
    · cases hstep
  | pass us =>
    cases hstep
    exact ⟨hd, hc, hn.below, hn.unique, hn.waiting, hn.sent, hn.named⟩
  | timeout =>
    cases hstep
    have heff := (Server.serve_effect s.now ⟨0, 0⟩ [] s.server).run world s.card
    obtain ⟨hrd, hrc⟩ := reaped_sound ⟨hd, hc, hn⟩
    refine ⟨hrd.effect heff, ?_, hn.below, hn.unique, hn.waiting, hn.sent, hn.named⟩
    exact cached_alike hrc heff
  | linkDown =>
    cases hstep
    have hf := (Server.dropSessions_freed tnfsdMaxSessions s.server).run world s.card
    exact ⟨hd.freed hf, cached_freed hc hf, hn.below, hn.unique, hn.waiting, hn.sent, hn.named⟩

theorem reach_sound (h : (machine world).Reach ok s) : s.Sound := by
  refine h.invariant ?_ fun s e s' hs _ hstep => step_sound hs hstep
  rintro s ⟨card, seqs, rfl⟩
  exact boot_sound card seqs

/-! ### At most once -/

/-- The last execution in the session a copy of `r` would run in is not one of `r`. This holds in every
    run: what ran last in a session is answered from the cache. -/
theorem not_rerun_at_once (h : s.Sound) {r : Request} {i : ℕ} (hturn : s.turnOf r = .run i)
    {e : Execution} (hlast : s.executed.find? (·.isIn r.client r.sid) = some e) : e.request ≠ r := by
  rintro rfl
  obtain ⟨hi, hcmd, hlive, hsid, hpeer, hkey⟩ := run_of_copy hturn
  refine hkey ((reaped_sound h).2 i hi hlive e ?_ hcmd)
  rw [hsid, hpeer]
  exact hlast

/-- The executions of client `p`, session by session: each is of a later request than those before, and
    none but a MOUNT is of the same one. -/
structure Once (p : Peer) (s : Traffic σ) : Prop where
  sorted : s.executed.Pairwise fun e e' => e.request.client = p → e'.request.client = p →
    e.sid = e'.sid → e'.request.index ≤ e.request.index
  fresh : s.executed.Pairwise fun e e' => e.request.client = p → e.request.cmd ≠ tnfsMount →
    e.request ≠ e'.request

/-- In a log sorted by `R`, the newest entry with `q` stands above all others with `q`. -/
theorem find_above {R : Execution → Execution → Prop} {ex : List Execution} {q : Execution → Bool}
    {h e : Execution} (hsorted : ex.Pairwise R) (hfind : ex.find? q = some h) (he : e ∈ ex)
    (hq : q e = true) : e = h ∨ R h e := by
  obtain ⟨-, newer, older, rfl, hnewer⟩ := List.find?_eq_some_iff_append.mp hfind
  rcases List.mem_append.mp he with hn | ho
  · simpa [hq] using hnewer e hn
  · rcases List.mem_cons.mp ho with rfl | ho
    · exact .inl rfl
    · exact .inr ((List.pairwise_cons.mp (List.pairwise_append.mp hsorted).2.1).1 e ho)

/-- A request that ran once does not run again, unless its copy is late. -/
theorem not_rerun {p : Peer} (hs : s.Sound) (h : s.Once p) {r : Request} (hr : r ∈ s.requests)
    (hp : r.client = p) (hlate : ¬ s.late r) {i : ℕ} (hturn : s.turnOf r = .run i) {e : Execution}
    (he : e ∈ s.executed) : e.request ≠ r := by
  rintro rfl
  have hcmd := (run_of_copy hturn).2.1
  have hin : e.isIn e.request.client e.request.sid = true := by
    simp [Execution.isIn, hs.numbered.named e he hcmd]
  have hsome : (s.executed.find? (·.isIn e.request.client e.request.sid)).isSome = true :=
    List.find?_isSome.mpr ⟨e, he, hin⟩
  -- the last execution in this session is neither older nor later, so it is of the same request
  obtain ⟨l, hlast⟩ := Option.isSome_iff_exists.mp hsome
  have hl : l ∈ s.executed := List.mem_of_find?_eq_some hlast
  have hlin := List.find?_some hlast
  simp only [Execution.isIn, Bool.and_eq_true, beq_iff_eq] at hin hlin
  have hle : l.request.index ≤ e.request.index := by
    by_contra hlt
    exact hlate ⟨l, hl, hlin.1, .inr hlin.2, by omega⟩
  have hge : e.request.index ≤ l.request.index := by
    rcases find_above h.sorted hlast he (by simp [Execution.isIn, hin]) with rfl | habove
    · exact le_rfl
    · exact habove (hlin.1.trans hp) hp (hlin.2.trans hin.2.symm)
  refine not_rerun_at_once hs hturn hlast ?_
  exact hs.numbered.unique _ (hs.numbered.sent l hl) _ hr hlin.1 (by omega)

theorem arrive_once {p : Peer} (hs : s.Sound) (h : s.Once p) {r : Request} (hr : r ∈ s.requests)
    (hlate : r.client = p → ¬ s.late r) : (s.arrive world r).Once p := by
  cases hran : ranIn s.reaped r (s.turnOf r) with
  | none =>
    have hsame : (s.arrive world r).executed = s.executed := by simp [arrive, logged, hran]
    exact ⟨hsame ▸ h.sorted, hsame ▸ h.fresh⟩
  | some sid =>
    have hcons : (s.arrive world r).executed = ⟨r, sid⟩ :: s.executed := by simp [arrive, logged, hran]
    have hname : r.cmd = tnfsMount ∨ sid = r.sid := by
      have hsound : (s.arrive world r).Sound := arrive_sound hs hr
      have hnamed := hsound.numbered.named ⟨r, sid⟩ (by simp [hcons])
      exact or_iff_not_imp_left.mpr hnamed
    constructor
    · rw [hcons]
      refine List.pairwise_cons.mpr ⟨fun e he hp hep heq => ?_, h.sorted⟩
      by_contra hlt
      refine hlate hp ⟨e, he, hep.trans hp.symm, hname.imp_right heq.symm.trans, Nat.lt_of_not_le hlt⟩
    · rw [hcons]
      refine List.pairwise_cons.mpr ⟨fun e he hp hcmd => ?_, h.fresh⟩
      cases ht : s.turnOf r with
      | run i => exact (not_rerun hs h hr hp (hlate hp) ht he).symm
      | mount i => exact absurd (Server.turn_mount ht).2.1 hcmd
      | ignored | refused | replay i =>
        rw [ht] at hran
        cases hran

theorem step_once {p : Peer} {e : Event} (hs : s.Sound) (h : s.Once p) (hok : InOrder p s e)
    (hstep : s.step world e = some s') : s'.Once p := by
  cases e with
  | arrive k =>
    obtain ⟨r, hr, rfl⟩ := Option.map_eq_some_iff.mp hstep
    exact arrive_once hs h (List.mem_of_getElem? hr) (hok r hr)
  | ask q sid cmd payload =>
    obtain ⟨-, rfl⟩ := when_eq_some.mp hstep
    exact ⟨h.sorted, h.fresh⟩
  | retransmit q =>
    obtain ⟨r, -, rfl⟩ := Option.map_eq_some_iff.mp hstep
    exact ⟨h.sorted, h.fresh⟩
  | answer q k =>
    simp only [step] at hstep
    split at hstep
    · obtain ⟨-, rfl⟩ := when_eq_some.mp hstep
      exact ⟨h.sorted, h.fresh⟩
    · cases hstep
  | pass | timeout | linkDown =>
    cases hstep
    exact ⟨h.sorted, h.fresh⟩

theorem reach_once {p : Peer} (h : (machine world).Reach (InOrder p) s) : s.Once p := by
  refine (h.invariant (I := fun s => s.Sound ∧ s.Once p) ?_ ?_).2
  · rintro s ⟨card, seqs, rfl⟩
    exact ⟨boot_sound card seqs, .nil, .nil⟩
  · intro s e s' hs hok hstep
    exact ⟨step_sound hs.1 hstep, step_once hs.1 hs.2 hok hstep⟩

/-- The requests of client `p` the server ran in a session, newest first. -/
def ranFor (s : Traffic σ) (p : Peer) : List Request :=
  (s.executed.map Execution.request).filter fun r => r.client == p && r.cmd != tnfsMount

/-- CORRECT: however datagrams are lost, duplicated, delayed and reordered, and whatever the other
    clients do, the server runs each request of client `p` at most once, as long as no copy of one
    arrives after a later request of `p` ran in its session. -/
theorem at_most_once {p : Peer} (h : (machine world).Reach (InOrder p) s) : (s.ranFor p).Nodup := by
  have hfresh := (reach_once h).fresh
  rw [ranFor, List.Nodup, List.pairwise_filter, List.pairwise_map]
  refine hfresh.imp fun hne hq _ => ?_
  simp only [Bool.and_eq_true, beq_iff_eq, bne_iff_ne] at hq
  exact hne hq.1 hq.2

/-- A copy that is not run touches neither the card nor a descriptor nor a directory, beyond what the
    reaping of idle sessions does. -/
theorem arrive_of_not_run {r : Request} (h : ranIn s.reaped r (s.turnOf r) = none) :
    (s.arrive world r).card = (run world s.card (Server.reapIdle s.now tnfsdMaxSessions s.server)).1 ∧
      ∀ i, ((s.arrive world r).server.sessions i).files = (s.reaped.sessions i).files ∧
        ((s.arrive world r).server.sessions i).dirs = (s.reaped.sessions i).dirs := by
  have hreaped : (run world s.card (Server.reapIdle s.now tnfsdMaxSessions s.server)).2 = s.reaped :=
    (Server.reapIdle_reaped ..).run world s.card
  simp only [arrive, Server.serve, run_bind, hreaped]
  change ranIn s.reaped r (s.reaped.turn r.client (received r)) = none at h
  cases ht : s.reaped.turn r.client (received r) with
  | ignored | refused => exact ⟨rfl, fun i => ⟨rfl, rfl⟩⟩
  | replay k =>
    refine ⟨rfl, fun i => ?_⟩
    by_cases hik : i = k
    · subst hik
      simp [Server.answer, Server.resend]
    · simp [Server.answer, Server.resend, hik]
  | mount k | run k =>
    rw [ht] at h
    cases h

/-! ### A late WRITE -/

def sampleClient : Peer := ⟨0x0100007F, 40000⟩

/-- MOUNT, OPEN and two one-byte WRITEs, each answered before the next. -/
def writeTwo : List Event :=
  [.ask sampleClient 0 tnfsMount [tnfsVerLo, tnfsVerHi, 0x2F, 0, 0, 0], .arrive 0, .answer sampleClient 0,
    .ask sampleClient 1 tnfsOpen [0x03, 0x01, 0xA4, 0x01, 0x61, 0], .arrive 1, .answer sampleClient 1,
    .ask sampleClient 1 tnfsWrite [0, 1, 0, 0x41], .arrive 2, .answer sampleClient 2,
    .ask sampleClient 1 tnfsWrite [0, 1, 0, 0x42], .arrive 3, .answer sampleClient 3]

def emptySlate : Slate := ⟨[], 0, by decide⟩

def slateBoot : Traffic Slate := boot emptySlate fun _ => 0

theorem slateBoot_start : (machine Slate.call).start slateBoot := ⟨emptySlate, _, rfl⟩

theorem exec_late : ((machine Slate.call).exec slateBoot (writeTwo ++ [.arrive 2])).isSome = true := by
  decide

/-- A copy of the first WRITE comes in after the second one ran. The key (seq, cmd) of the second has
    replaced the first's, and the byte is written again. -/
theorem late_write_runs_twice : ∃ s, (machine Slate.call).Reach Machine.always s ∧
    ¬ (s.ranFor sampleClient).Nodup ∧ s.card.contents = [0x41, 0x42, 0x41] :=
  ⟨_, ⟨slateBoot, slateBoot_start, Machine.exec_always (Option.some_get exec_late).symm⟩,
    by decide, by decide⟩

theorem exec_copies :
    ((machine Slate.call).exec slateBoot (writeTwo ++ [.arrive 3, .arrive 3])).isSome = true := by decide

/-- More copies of the latest WRITE. -/
def copied : Traffic Slate :=
  ((machine Slate.call).exec slateBoot (writeTwo ++ [.arrive 3, .arrive 3])).get exec_copies

theorem reach_copied : (machine Slate.call).Reach (InOrder sampleClient) copied :=
  ⟨slateBoot, slateBoot_start, Machine.exec_path (fun s e => decide (InOrder sampleClient s e))
    (fun _ _ => of_decide_eq_true) (Option.some_get exec_copies).symm (by decide)⟩

/-- The copies are answered from the cache. -/
theorem at_most_once_copied : (copied.ranFor sampleClient).Nodup := at_most_once reach_copied

end Traffic

end FdcSds.Tnfsd
