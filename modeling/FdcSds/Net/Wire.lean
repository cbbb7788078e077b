import FdcSds.Net.Listing

/-! A client alone with the server, over a network that loses datagrams.

    Of every datagram a client sends, `Fate` says whether it reaches the server and whether the reply comes
    back. A command is run once however often it is sent: what is sent again meets the cached reply. So a
    command that succeeds was run exactly once, and its reply is the one of that run; and when nothing is
    lost and the session is not idle for 30 s, it succeeds.

        held ──lost──▶ held ──arrives──▶ ran ──sent again──▶ ran        idle 30 s ──▶ gone: no replies -/

namespace FdcSds.Tnfsd
open Schemes Schemes.Runs Prog

/-! ### The wire -/

inductive Fate where
  | lost
  | unheard
  | answered
  deriving DecidableEq

/-- The card, the server, how many datagrams were sent to it, and the replies on their way back. -/
structure Wire (σ : Type) where
  card : σ
  server : Server
  sent : ℕ
  inbox : List Bytes

variable {σ : Type} (world : σ → (c : SysCall) → σ × c.Answer) (clock : ℕ → ℕ) (fate : ℕ → Fate) (me : Peer)

/-- The turn of the server for the next datagram, which reaches it at `clock w.sent`. -/
def Wire.turned (w : Wire σ) (data : Bytes) : σ × Server × List Sent :=
  run world w.card (w.server.serve (clock w.sent) me (data.take tnfsMsgCap))

def Wire.served (w : Wire σ) (data : Bytes) : Wire σ :=
  { w with
    card := (w.turned world clock me data).1
    server := (w.turned world clock me data).2.1
    sent := w.sent + 1 }

def Wire.heard (w : Wire σ) (data : Bytes) : List Bytes :=
  ((w.turned world clock me data).2.2.filter (·.peer == me)).map Sent.data

/-- The client's calls. -/
def wired (w : Wire σ) : (call : NetCall) → Wire σ × call.Answer
  | .send data => match fate w.sent with
    | .lost => ({ w with sent := w.sent + 1 }, true)
    | .unheard => (w.served world clock me data, true)
    | .answered =>
      ({ w.served world clock me data with inbox := w.inbox ++ w.heard world clock me data }, true)
  | .await seq cmd => match w.inbox.dropWhile (!udpMatches seq cmd ·) with
    | [] => ({ w with inbox := [] }, none)
    | m :: rest => ({ w with inbox := rest }, some m)
  | .delay _ => (w, ())

variable {world clock fate me} {w w' : Wire σ} {f : TnfsFile} {s : Session} {cmd : UInt8} {pl m : Bytes}
    {card : σ} {v : Server}

/-! ### Attempts -/

theorem wired_await_nil {seq cmd : UInt8} (h : w.inbox = []) :
    wired world clock fate me w (.await seq cmd) = (w, none) := by
  have hsame : { w with inbox := [] } = w := by rw [← h]
  simp only [wired, h, List.dropWhile_nil]
  exact congrArg (·, none) hsame

theorem wired_await_one {seq cmd : UInt8} (h : w.inbox = []) :
    wired world clock fate me { w with inbox := [m] } (.await seq cmd) =
      (w, if udpMatches seq cmd m then some m else none) := by
  have hsame : { w with inbox := [] } = w := by rw [← h]
  cases hm : udpMatches seq cmd m with
  | false =>
    simp only [wired, List.dropWhile_cons, hm, List.dropWhile_nil]
    exact congrArg (·, none) hsame
  | true =>
    simp only [wired, List.dropWhile_cons, hm]
    exact congrArg (·, some m) hsame

/-- The attempts of a command: `I` holds between them, and `J` after a reply. -/
theorem attempts_wired {I : Wire σ → Prop} {J : Bytes → Wire σ → Prop} {req : Bytes} {seq : UInt8}
    (hquiet : ∀ w, I w → w.inbox = []) (hlost : ∀ w, I w → I { w with sent := w.sent + 1 })
    (hserve : ∀ w, I w → I (w.served world clock me req) ∧ (w.heard world clock me req = [] ∨
      ∃ m, w.heard world clock me req = [m] ∧ J m (w.served world clock me req)))
    (n : ℕ) (w : Wire σ) (hw : I w) {r : Wire σ × Except EspErr Bytes}
    (hr : r = run (wired world clock fate me) w (attempts req seq cmd n)) (hm : r.2 = .ok m) : J m r.1 := by
  induction n generalizing w with
  | zero =>
    rw [hr] at hm
    cases hm
  | succ n ih =>
    rw [attempts, netSend, run_bind, run_ask] at hr
    have unheard : ∀ w', I w' → wired world clock fate me w (.send req) = (w', true) → J m r.1 := by
      intro w' hw' hsend
      rw [hsend] at hr
      change r = run _ w' (udpResponse seq cmd >>= _) at hr
      rw [udpResponse, run_bind, run_ask, wired_await_nil (hquiet w' hw')] at hr
      exact ih w' hw' hr
    cases hfate : fate w.sent with
    | lost => exact unheard _ (hlost w hw) (by simp only [wired, hfate])
    | unheard => exact unheard _ (hserve w hw).1 (by simp only [wired, hfate])
    | answered =>
      obtain ⟨hnext, hnone | ⟨m', hone, hJ⟩⟩ := hserve w hw
      · refine unheard _ hnext ?_
        simp only [wired, hfate, hnone, List.append_nil]
        rfl
      · have hsend : wired world clock fate me w (.send req) =
          ({ w.served world clock me req with inbox := [m'] }, true) := by
          simp only [wired, hfate, hone, hquiet w hw, List.nil_append]
        rw [hsend] at hr
        change r = run _ { w.served world clock me req with inbox := [m'] } (udpResponse seq cmd >>= _) at hr
        rw [udpResponse, run_bind, run_ask, wired_await_one (hquiet _ hnext)] at hr
        split at hr
        · change r = run _ (w.served world clock me req) (if replyStatus m' = tnfsEagain then _ else _) at hr
          split at hr
          · rw [netDelay, run_bind, run_ask] at hr
            exact ih _ hnext hr
          · rw [hr] at hm
            cases hm
            rw [hr]
            exact hJ
        · exact ih _ hnext hr

/-- When the first attempt is answered, and not with EAGAIN, there are no more. -/
theorem attempts_first {req : Bytes} {seq : UInt8} (n : ℕ) (hquiet : w.inbox = [])
    (hfate : fate w.sent = .answered) (hheard : w.heard world clock me req = [m])
    (hmatch : udpMatches seq cmd m = true) (hagain : replyStatus m ≠ tnfsEagain) :
    run (wired world clock fate me) w (attempts req seq cmd (n + 1)) =
      (w.served world clock me req, .ok m) := by
  have hsend : wired world clock fate me w (.send req) =
    ({ w.served world clock me req with inbox := [m] }, true) := by
    simp only [wired, hfate, hheard, hquiet, List.nil_append]
  have hstill : (w.served world clock me req).inbox = [] := hquiet
  rw [attempts, netSend, run_bind, run_ask, hsend]
  change run _ { w.served world clock me req with inbox := [m] } (udpResponse seq cmd >>= _) = _
  rw [udpResponse, run_bind, run_ask, wired_await_one hstill, hmatch]
  change run _ (w.served world clock me req) (if replyStatus m = tnfsEagain then _ else _) = _
  rw [if_neg hagain]
  rfl

/-! ### The server with one client -/

/-- The client's session is the only one, in the first slot, and the next command is new to it. -/
structure Wire.Holds (me : Peer) (w : Wire σ) (f : TnfsFile) (s : Session) : Prop where
  slot : w.server.sessions 0 = s
  others : ∀ j ≠ 0, w.server.sessions j = .zero
  live : s.inUse = true
  sid : s.sid = f.conn
  nonzero : s.sid ≠ 0
  peer : s.peer = me
  root : s.root = []
  key : s.lastSeq + 1 = f.seq
  quiet : w.inbox = []

/-- No session is left. -/
structure Wire.Gone (w : Wire σ) : Prop where
  zero : ∀ j, w.server.sessions j = .zero
  quiet : w.inbox = []

/-- The session after a command, run on the card `card` at `now`. -/
def ranSession (world : σ → (c : SysCall) → σ × c.Answer) (f : TnfsFile) (cmd : UInt8) (pl : Bytes)
    (card : σ) (s : Session) (now : ℕ) : Session :=
  let r := run world card (handle s cmd pl)
  { r.2.1.cacheReply f.seq cmd r.2.2 with lastActiveUs := now }

/-- The reply to it. -/
def ranReply (world : σ → (c : SysCall) → σ × c.Answer) (f : TnfsFile) (cmd : UInt8) (pl : Bytes)
    (card : σ) (s : Session) :
    Bytes :=
  tnfsHeader f.conn f.seq cmd ++ (run world card (handle s cmd pl)).2.2.take (tnfsMsgCap - tnfsHdrLen)

/-- A command was run on the card `card`, and its reply is cached. -/
structure Wire.Ran (world : σ → (c : SysCall) → σ × c.Answer) (f : TnfsFile) (cmd : UInt8) (pl : Bytes)
    (card : σ) (s : Session) (now : ℕ) (w : Wire σ) : Prop where
  slot : w.server.sessions 0 = ranSession world f cmd pl card s now
  others : ∀ j ≠ 0, w.server.sessions j = .zero
  card : w.card = (run world card (handle s cmd pl)).1
  quiet : w.inbox = []

/-- What outlives a command in its session. -/
theorem ranSession_framed (world : σ → (c : SysCall) → σ × c.Answer) (f : TnfsFile) (cmd : UInt8)
    (pl : Bytes) (card : σ) (s : Session) (now : ℕ) :
    (ranSession world f cmd pl card s now).inUse = s.inUse ∧
      (ranSession world f cmd pl card s now).sid = s.sid ∧
      (ranSession world f cmd pl card s now).peer = s.peer ∧
        (ranSession world f cmd pl card s now).root = s.root := by
  have h := (handle_framed s cmd pl).run world card
  exact ⟨h.owned.inUse, h.owned.sid, h.owned.peer, h.field Session.root fun _ _ => rfl⟩

theorem ranSession_reply (hsid : s.sid = f.conn) (now : ℕ) :
    (ranSession world f cmd pl card s now).reply = ranReply world f cmd pl card s := by
  have h := (handle_framed s cmd pl).run world card
  change tnfsHeader (run world card (handle s cmd pl)).2.1.sid f.seq cmd ++ _ = _
  rw [h.owned.sid, hsid]
  rfl

/-- After a command the session is ready for the next one. -/
theorem Wire.Ran.holds {now : ℕ} (h : w'.Ran world f cmd pl card s now) (hw : w.Holds me f s) :
    w'.Holds me { f with seq := f.seq + 1 } (ranSession world f cmd pl card s now) where
  slot := h.slot
  others := h.others
  live := (ranSession_framed ..).1.trans hw.live
  sid := (ranSession_framed ..).2.1.trans hw.sid
  nonzero := by
    rw [(ranSession_framed ..).2.1]
    exact hw.nonzero
  peer := (ranSession_framed ..).2.2.1.trans hw.peer
  root := (ranSession_framed ..).2.2.2.trans hw.root
  key := rfl
  quiet := h.quiet

/-! ### Turns of the server -/

/-- Alone in the first slot, a session is reaped or nothing is. -/
theorem reapIdle_alone (hothers : ∀ j ≠ 0, v.sessions j = .zero) (now : ℕ) (card : σ) :
    (((v.sessions 0).inUse = true → now - (v.sessions 0).lastActiveUs ≤ tnfsdIdleUs) ∧
        run world card (Server.reapIdle now tnfsdMaxSessions v) = (card, v)) ∨
      ((v.sessions 0).inUse = true ∧ tnfsdIdleUs < now - (v.sessions 0).lastActiveUs ∧
        ∃ card' v', run world card (Server.reapIdle now tnfsdMaxSessions v) = (card', v') ∧ ∀ j,
          v'.sessions j = .zero) := by
  have hone : (v.sessions 1).inUse = false := by rw [hothers 1 (by decide)]; rfl
  by_cases hidle : ((v.sessions 0).inUse && decide (tnfsdIdleUs < now - (v.sessions 0).lastActiveUs)) = true
  · right
    have hzero := (Server.freeSession_zero (v.sessions 0)).run world card
    have hall : ∀ j, (v.setSession 0 .zero).sessions j = .zero := by
      intro j
      by_cases hj : j = 0
      · rw [hj, Server.setSession_self]
      · rw [Server.setSession_of_ne _ hj, hothers j hj]
    have hfirst : run world card (Server.reapIdle now 1 v) =
      ((run world card (freeSession (v.sessions 0))).1, v.setSession 0 .zero) := by
      rw [Server.reapIdle, Server.reapIdle, run_bind, run_pure]
      dsimp only
      rw [if_pos hidle, run_bind, hzero, run_pure]
    obtain ⟨hlive, hlong⟩ := Bool.and_eq_true_iff.mp hidle
    refine ⟨hlive, of_decide_eq_true hlong, (run world card (freeSession (v.sessions 0))).1,
      v.setSession 0 .zero, ?_, hall⟩
    rw [tnfsdMaxSessions, Server.reapIdle, run_bind, hfirst]
    dsimp only
    rw [hall 1]
    rfl
  · refine .inl ⟨fun hlive => ?_, ?_⟩
    · by_contra hlong
      exact hidle (by rw [hlive, decide_eq_true (Nat.lt_of_not_le hlong)]; rfl)
    rw [tnfsdMaxSessions, Server.reapIdle, Server.reapIdle, Server.reapIdle, run_bind, run_bind, run_pure]
    dsimp only
    rw [if_neg hidle, run_pure]
    dsimp only
    rw [hone]
    rfl

theorem request_long (f : TnfsFile) (cmd : UInt8) (pl : Bytes) :
    ¬ (f.request cmd pl).length < tnfsHdrLen := by
  rw [TnfsFile.request, List.length_append, Reply.length_tnfsHeader]
  omega

theorem request_take (hlen : tnfsHdrLen + pl.length ≤ tnfsMsgCap) :
    (f.request cmd pl).take tnfsMsgCap = f.request cmd pl := by
  refine List.take_of_length_le ?_
  rw [TnfsFile.request, List.length_append]
  exact hlen

/-- Without a session there is no reply. -/
theorem turn_gone (hzero : ∀ j, v.sessions j = .zero) (hcmd : cmd ≠ tnfsMount) :
    v.turn me (f.request cmd pl) = .ignored := by
  have hfind : ∀ sid, v.findSession sid me = none := by
    intro sid
    unfold Server.findSession
    split
    · rfl
    · refine List.find?_eq_none.mpr fun j _ => ?_
      rw [hzero j]
      simp [Session.zero]
  have hop : (f.request cmd pl).getD 3 0 = cmd := rfl
  rw [Server.turn, if_neg (request_long f cmd pl), hop, if_neg hcmd, hfind]

theorem findSession_alone {sid : UInt16} (hothers : ∀ j ≠ 0, v.sessions j = .zero)
    (hlive : (v.sessions 0).inUse = true) (hsid : (v.sessions 0).sid = sid) (hnonzero : sid ≠ 0)
    (hpeer : (v.sessions 0).peer = me) :
    v.findSession sid me = some 0 := by
  rw [Server.findSession, if_neg hnonzero]
  refine Server.firstSlot_unique (by decide) (by simp [hlive, hsid, hpeer]) fun j _ hj => ?_
  by_contra hne
  rw [hothers j hne] at hj
  exact absurd hj (by simp [Session.zero])

theorem turn_alone (hothers : ∀ j ≠ 0, v.sessions j = .zero) (hlive : (v.sessions 0).inUse = true)
    (hsid : (v.sessions 0).sid = f.conn) (hnonzero : f.conn ≠ 0) (hpeer : (v.sessions 0).peer = me)
    (hcmd : cmd ≠ tnfsMount) :
    v.turn me (f.request cmd pl) =
      if (v.sessions 0).haveReply && (v.sessions 0).lastSeq == f.seq &&
        (v.sessions 0).lastCmd == cmd then .replay 0 else .run 0 := by
  have hop : (f.request cmd pl).getD 3 0 = cmd := rfl
  have hseq : (f.request cmd pl).getD 2 0 = f.seq := rfl
  have hword : UInt16.ofNat (word (f.request cmd pl) 0) = f.conn := Reply.word_header pl
  rw [Server.turn, if_neg (request_long f cmd pl), hop, if_neg hcmd, hword,
    findSession_alone hothers hlive hsid hnonzero hpeer, hseq]

theorem run_process_ran (hcmd : cmd ≠ tnfsUmount) (now : ℕ) :
    run world card (process now s f.seq cmd pl) =
      ((run world card (handle s cmd pl)).1, ranSession world f cmd pl card s now,
        [⟨(ranSession world f cmd pl card s now).peer, (ranSession world f cmd pl card s now).reply⟩]) := by
  rw [process, run_bind]
  dsimp only
  rw [if_neg hcmd]
  rfl

/-- How far a command of a held session is. -/
inductive Wire.Stage (world : σ → (c : SysCall) → σ × c.Answer) (me : Peer) (f : TnfsFile) (cmd : UInt8)
    (pl : Bytes) (card : σ) (s : Session) (w : Wire σ) : Prop where
  | gone (h : w.Gone)
  | held (h : w.Holds me f s) (hcard : w.card = card)
  | ran (now : ℕ) (h : w.Ran world f cmd pl card s now)

theorem Wire.Stage.quiet (h : w.Stage world me f cmd pl card s) : w.inbox = [] := by
  cases h with
  | gone h => exact h.quiet
  | held h => exact h.quiet
  | ran _ h => exact h.quiet

/-- A datagram is lost. -/
theorem Wire.Stage.lost (h : w.Stage world me f cmd pl card s) :
    Wire.Stage world me f cmd pl card s { w with sent := w.sent + 1 } := by
  cases h with
  | gone h => exact .gone ⟨h.zero, h.quiet⟩
  | held h hcard =>
    exact .held ⟨h.slot, h.others, h.live, h.sid, h.nonzero, h.peer, h.root, h.key, h.quiet⟩ hcard
  | ran now h => exact .ran now ⟨h.slot, h.others, h.card, h.quiet⟩

section Serve
variable (hcmd : cmd ≠ tnfsMount) (hrun : cmd ≠ tnfsUmount) (hlen : tnfsHdrLen + pl.length ≤ tnfsMsgCap)
include hcmd hlen

theorem turned_gone {card' : σ} {v' : Server}
    (hreap : run world w.card (Server.reapIdle (clock w.sent) tnfsdMaxSessions w.server) = (card', v'))
    (hzero : ∀ j, v'.sessions j = .zero) : w.turned world clock me (f.request cmd pl) = (card', v', []) := by
  rw [Wire.turned, request_take hlen, Server.serve, run_bind, hreap]
  dsimp only
  rw [turn_gone hzero hcmd]
  rfl

include hrun in
theorem turned_held (h : w.Holds me f s)
    (hreap : run world w.card (Server.reapIdle (clock w.sent) tnfsdMaxSessions w.server) =
      (w.card, w.server)) :
    w.turned world clock me (f.request cmd pl) =
      ((run world w.card (handle s cmd pl)).1,
        w.server.setSession 0 (ranSession world f cmd pl w.card s (clock w.sent)),
        [⟨me, ranReply world f cmd pl w.card s⟩]) := by
  have hnew : (s.lastSeq == f.seq) = false := by
    rw [beq_eq_false_iff_ne, ← h.key]
    exact fun heq => absurd heq (by simp)
  have hturn : w.server.turn me (f.request cmd pl) = .run 0 := by
    rw [turn_alone h.others (by rw [h.slot, h.live]) (by rw [h.slot, h.sid]) (h.sid ▸ h.nonzero)
      (by rw [h.slot, h.peer]) hcmd,
      h.slot, hnew]
    simp
  have hpayload : (f.request cmd pl).drop tnfsHdrLen = pl := rfl
  have hop : (f.request cmd pl).getD 3 0 = cmd := rfl
  have hseq : (f.request cmd pl).getD 2 0 = f.seq := rfl
  rw [Wire.turned, request_take hlen, Server.serve, run_bind, hreap]
  dsimp only
  rw [hturn, Server.answer, run_bind, hpayload, hop, hseq, h.slot, run_process_ran hrun,
    ranSession_reply h.sid,
    (ranSession_framed ..).2.2.1, h.peer]
  rfl

theorem turned_ran {w₀ : Wire σ} {now : ℕ} (h₀ : w₀.Holds me f s) (h : w.Ran world f cmd pl card s now)
    (hreap : run world w.card (Server.reapIdle (clock w.sent) tnfsdMaxSessions w.server) =
      (w.card, w.server)) :
    w.turned world clock me (f.request cmd pl) =
      (w.card, w.server.setSession 0 (ranSession world f cmd pl card s (clock w.sent)),
        [⟨me, ranReply world f cmd pl card s⟩]) := by
  obtain ⟨hlive, hsid, hpeer, -⟩ := ranSession_framed world f cmd pl card s now
  have hturn : w.server.turn me (f.request cmd pl) = .replay 0 := by
    rw [turn_alone h.others (by rw [h.slot, hlive, h₀.live]) (by rw [h.slot, hsid, h₀.sid])
      (h₀.sid ▸ h₀.nonzero)
      (by rw [h.slot, hpeer, h₀.peer]) hcmd, h.slot]
    have hkey : (ranSession world f cmd pl card s now).haveReply = true ∧
      (ranSession world f cmd pl card s now).lastSeq = f.seq ∧
        (ranSession world f cmd pl card s now).lastCmd = cmd := ⟨rfl, rfl, rfl⟩
    simp [hkey]
  rw [Wire.turned, request_take hlen, Server.serve, run_bind, hreap]
  dsimp only
  rw [hturn, Server.answer, run_pure, Server.resend, h.slot]
  change (w.card, w.server.setSession 0 (ranSession world f cmd pl card s (clock w.sent)),
    [Sent.mk (ranSession world f cmd pl card s now).peer (ranSession world f cmd pl card s now).reply]) = _
  rw [ranSession_reply h₀.sid, hpeer, h₀.peer]

omit hcmd hlen in
theorem Wire.Stage.others (h : w.Stage world me f cmd pl card s) : ∀ j ≠ 0, w.server.sessions j = .zero := by
  cases h with
  | gone h => exact fun j _ => h.zero j
  | held h => exact h.others
  | ran now h => exact h.others

include hrun in
/-- A datagram that finds the session runs the command, unless it was run, and gets its reply. -/
theorem Wire.Stage.served_live {w₀ : Wire σ} (h₀ : w₀.Holds me f s) (h : w.Stage world me f cmd pl card s)
    (hreap : run world w.card (Server.reapIdle (clock w.sent) tnfsdMaxSessions w.server) = (w.card, w.server))
    (hlive : (w.server.sessions 0).inUse = true) :
    (w.served world clock me (f.request cmd pl)).Ran world f cmd pl card s (clock w.sent) ∧
      w.heard world clock me (f.request cmd pl) = [ranReply world f cmd pl card s] := by
  have hquiet := h.quiet
  have hothers := h.others
  have ranned : w.turned world clock me (f.request cmd pl) = ((run world card (handle s cmd pl)).1,
      w.server.setSession 0 (ranSession world f cmd pl card s (clock w.sent)),
        [⟨me, ranReply world f cmd pl card s⟩]) →
      Wire.Ran world f cmd pl card s (clock w.sent) (w.served world clock me (f.request cmd pl)) ∧
        w.heard world clock me (f.request cmd pl) = [ranReply world f cmd pl card s] := by
    intro hturned
    refine ⟨⟨?_, fun j hj => ?_, ?_, hquiet⟩, ?_⟩
    · rw [Wire.served, hturned]
      exact Server.setSession_self ..
    · rw [Wire.served, hturned]
      exact (Server.setSession_of_ne _ hj).trans (hothers j hj)
    · rw [Wire.served, hturned]
    · rw [Wire.heard, hturned]
      simp
  cases h with
  | gone h =>
    rw [h.zero 0] at hlive
    cases hlive
  | held h hcard =>
    subst hcard
    exact ranned (turned_held hcmd hrun hlen h hreap)
  | ran now h =>
    have hturned := turned_ran hcmd hlen h₀ h hreap
    rw [h.card] at hturned
    exact ranned hturned

include hrun in
/-- The server's turn for a datagram of the command. -/
theorem Wire.Stage.served {w₀ : Wire σ} (h₀ : w₀.Holds me f s) (h : w.Stage world me f cmd pl card s) :
    Wire.Stage world me f cmd pl card s (w.served world clock me (f.request cmd pl)) ∧
      (w.heard world clock me (f.request cmd pl) = [] ∨
        ∃ m, w.heard world clock me (f.request cmd pl) = [m] ∧ m = ranReply world f cmd pl card s ∧
          ∃ now, (w.served world clock me (f.request cmd pl)).Ran world f cmd pl card s now) := by
  have hquiet := h.quiet
  -- a session that was idle too long is gone
  have reaped : ∀ {card' : σ} {v' : Server},
      run world w.card (Server.reapIdle (clock w.sent) tnfsdMaxSessions w.server) = (card', v') →
      (∀ j, v'.sessions j = .zero) →
        Wire.Stage world me f cmd pl card s (w.served world clock me (f.request cmd pl)) ∧
        w.heard world clock me (f.request cmd pl) = [] := by
    intro card' v' hreap hzero
    have hturned : w.turned world clock me (f.request cmd pl) = (card', v', []) :=
      turned_gone hcmd hlen hreap hzero
    refine ⟨.gone ⟨?_, hquiet⟩, ?_⟩
    · rw [Wire.served, hturned]
      exact hzero
    · rw [Wire.heard, hturned]
      rfl
  rcases reapIdle_alone h.others (clock w.sent) w.card with ⟨-, hsame⟩ | ⟨-, -, card', v', hreap, hzero⟩
  · have live : (w.server.sessions 0).inUse = true → _ :=
      fun hlive => h.served_live hcmd hrun hlen h₀ hsame hlive
    cases h with
    | gone h =>
      obtain ⟨hnext, hnone⟩ := reaped hsame h.zero
      exact ⟨hnext, .inl hnone⟩
    | held h hcard =>
      obtain ⟨hran, hheard⟩ := live (by rw [h.slot, h.live])
      exact ⟨.ran _ hran, .inr ⟨_, hheard, rfl, _, hran⟩⟩
    | ran now h =>
      obtain ⟨hran, hheard⟩ := live (by rw [h.slot, (ranSession_framed ..).1, h₀.live])
      exact ⟨.ran _ hran, .inr ⟨_, hheard, rfl, _, hran⟩⟩
  · obtain ⟨hnext, hnone⟩ := reaped hreap hzero
    exact ⟨hnext, .inl hnone⟩

end Serve

/-! ### Commands -/

/-- Every datagram is answered, and the client is never idle for more than 30 s. -/
structure Prompt (clock : ℕ → ℕ) (fate : ℕ → Fate) : Prop where
  answered : ∀ n, fate n = .answered
  busy : ∀ n, clock (n + 1) - clock n ≤ tnfsdIdleUs

/-- The session was there within the last 30 s. -/
def Wire.Recent (clock : ℕ → ℕ) (w : Wire σ) : Prop :=
  clock w.sent - (w.server.sessions 0).lastActiveUs ≤ tnfsdIdleUs

/-- A command that succeeds was run once, on the card and in the session before it. -/
structure Wire.Commanded (world : σ → (c : SysCall) → σ × c.Answer) (me : Peer) (f : TnfsFile)
    (cmd : UInt8) (pl : Bytes) (s : Session) (w : Wire σ) (m : Bytes) (f' : TnfsFile) (s' : Session)
    (w' : Wire σ) : Prop where
  reply : m = ranReply world f cmd pl w.card s
  holds : w'.Holds me f' s'
  files : s'.files = (run world w.card (handle s cmd pl)).2.1.files
  dirs : s'.dirs = (run world w.card (handle s cmd pl)).2.1.dirs
  card : w'.card = (run world w.card (handle s cmd pl)).1

theorem udpMatches_reply (f : TnfsFile) (cmd : UInt8) {body : Bytes} (hbody : body ≠ []) :
    udpMatches f.seq cmd (tnfsHeader f.conn f.seq cmd ++ body) = true := by
  obtain ⟨b, rest, rfl⟩ := List.exists_cons_of_ne_nil hbody
  simp [udpMatches, tnfsHeader, le16, tnfsStatusOff]

/-- A command is its attempts, and the next sequence byte. -/
theorem run_command (hlen : tnfsHdrLen + pl.length ≤ tnfsMsgCap) {q : Wire σ × Except EspErr Bytes}
    (hq : run (wired world clock fate me) w (attempts (f.request cmd pl) f.seq cmd tnfsRetries) = q) :
    run (wired world clock fate me) w (tnfsCommand f cmd pl) =
      (q.1, match q.2 with | .error e => (f, .error e) | .ok m => ({ f with seq := f.seq + 1 }, .ok m)) := by
  rw [tnfsCommand, if_neg (Nat.not_lt.mpr hlen), run_bind, hq]
  obtain ⟨w', e | m⟩ := q <;> rfl

/-- A command of a held session. -/
theorem Wire.Holds.command (h : w.Holds me f s) (hcmd : cmd ≠ tnfsMount) (hrun : cmd ≠ tnfsUmount)
    (hlen : tnfsHdrLen + pl.length ≤ tnfsMsgCap) {r : Wire σ × TnfsFile × Except EspErr Bytes}
    (hr : r = run (wired world clock fate me) w (tnfsCommand f cmd pl)) :
    (∀ m, r.2.2 = .ok m → ∃ s', w.Commanded world me f cmd pl s m r.2.1 s' r.1) ∧
      (Prompt clock fate → w.Recent clock → replyStatus (ranReply world f cmd pl w.card s) ≠ tnfsEagain →
        r.2.2 = .ok (ranReply world f cmd pl w.card s) ∧ r.1.Recent clock) := by
  constructor
  · intro m hm
    have hobeys : ∀ q m', q = run (wired world clock fate me) w
      (attempts (f.request cmd pl) f.seq cmd tnfsRetries) → q.2 = .ok m' →
        m' = ranReply world f cmd pl w.card s ∧ ∃ now, q.1.Ran world f cmd pl w.card s now :=
      fun q m' hq hm' => attempts_wired (I := fun w' => w'.Stage world me f cmd pl w.card s)
        (J := fun m w' => m = ranReply world f cmd pl w.card s ∧ ∃ now, w'.Ran world f cmd pl w.card s now)
        (fun _ h' => h'.quiet) (fun _ h' => h'.lost) (fun _ h' => h'.served hcmd hrun hlen h)
          tnfsRetries w (.held h rfl) hq hm'
    generalize hq : run (wired world clock fate me) w
      (attempts (f.request cmd pl) f.seq cmd tnfsRetries) = q at hobeys
    have hr' := hr.trans (run_command hlen hq)
    obtain ⟨w', e | m'⟩ := q
    · rw [hr'] at hm
      cases hm
    · rw [hr'] at hm ⊢
      cases hm
      obtain ⟨hreply, now, hran⟩ := hobeys _ _ rfl rfl
      exact ⟨_, hreply, hran.holds h, rfl, rfl, hran.card⟩
  · intro hprompt hrecent hagain
    have hreap : run world w.card (Server.reapIdle (clock w.sent) tnfsdMaxSessions w.server) =
      (w.card, w.server) := by
      rcases reapIdle_alone h.others (clock w.sent) w.card with ⟨-, hsame⟩ | ⟨-, hidle, -⟩
      · exact hsame
      · exact absurd hidle (Nat.not_lt.mpr hrecent)
    have hturned := turned_held (f := f) hcmd hrun hlen h hreap
    have hheard : w.heard world clock me (f.request cmd pl) = [ranReply world f cmd pl w.card s] := by
      rw [Wire.heard, hturned]
      simp
    have hbody : (run world w.card (handle s cmd pl)).2.2.take (tnfsMsgCap - tnfsHdrLen) ≠ [] := by
      have hne := ((handle_framed s cmd pl).run world w.card).status
      simpa [tnfsMsgCap, tnfsHdrLen, tnfsIoChunk] using hne
    have hfirst := attempts_first 2 h.quiet (hprompt.answered w.sent) hheard
      (udpMatches_reply f cmd hbody) hagain
    rw [hr.trans (run_command hlen hfirst)]
    refine ⟨rfl, ?_⟩
    have hslot : ((w.served world clock me (f.request cmd pl)).server.sessions 0).lastActiveUs =
      clock w.sent := by
      rw [Wire.served, hturned]
      exact congrArg Session.lastActiveUs (Server.setSession_self ..)
    change clock (w.sent + 1) - _ ≤ _
    rw [hslot]
    exact hprompt.busy w.sent

/-! ### When a command is answered -/

/-- Of the `n` datagrams from the `sent`-th on one is answered, and the session, last active at `last`, is
    still there then. -/
def answeredIn (clock : ℕ → ℕ) (fate : ℕ → Fate) : ℕ → ℕ → ℕ → Bool
  | 0, _, _ => false
  | n + 1, sent, last => match fate sent with
    | .lost => answeredIn clock fate n (sent + 1) last
    | .unheard => decide (clock sent - last ≤ tnfsdIdleUs) && answeredIn clock fate n (sent + 1) (clock sent)
    | .answered => decide (clock sent - last ≤ tnfsdIdleUs)

theorem run_attempts_unheard {w' : Wire σ} {req : Bytes} {seq : UInt8} (n : ℕ) (hquiet : w'.inbox = [])
    (hsend : wired world clock fate me w (.send req) = (w', true)) :
    run (wired world clock fate me) w (attempts req seq cmd (n + 1)) = run (wired world clock fate me)
      w' (attempts req seq cmd n) := by
  rw [attempts, netSend, run_bind, run_ask, hsend]
  change run _ w' (udpResponse seq cmd >>= _) = _
  rw [udpResponse, run_bind, run_ask, wired_await_nil hquiet]

theorem Wire.Gone.served (h : w.Gone) (hcmd : cmd ≠ tnfsMount) (hlen : tnfsHdrLen + pl.length ≤ tnfsMsgCap) :
    (w.served world clock me (f.request cmd pl)).Gone ∧ w.heard world clock me (f.request cmd pl) = [] := by
  obtain ⟨card', v', hreap, hzero⟩ :
    ∃ card' v', run world w.card (Server.reapIdle (clock w.sent) tnfsdMaxSessions w.server) =
      (card', v') ∧ ∀ j, v'.sessions j = .zero := by
    rcases reapIdle_alone (fun j _ => h.zero j) (clock w.sent) w.card with ⟨-, hsame⟩ | ⟨-, -, hfreed⟩
    · exact ⟨_, _, hsame, h.zero⟩
    · exact hfreed
  have hturned : w.turned world clock me (f.request cmd pl) = (card', v', []) :=
    turned_gone hcmd hlen hreap hzero
  refine ⟨⟨?_, h.quiet⟩, ?_⟩
  · rw [Wire.served, hturned]
    exact hzero
  · rw [Wire.heard, hturned]
    rfl

/-- Without a session every attempt runs out. -/
theorem attempts_gone (h : w.Gone) (hcmd : cmd ≠ tnfsMount) (hlen : tnfsHdrLen + pl.length ≤ tnfsMsgCap)
    (seq : UInt8) (n : ℕ) :
    (run (wired world clock fate me) w (attempts (f.request cmd pl) seq cmd n)).2 = .error .timeout := by
  induction n generalizing w with
  | zero => rfl
  | succ n ih =>
    obtain ⟨hgone, hnone⟩ := @Wire.Gone.served _ world clock me _ f _ _ h hcmd hlen
    cases hfate : fate w.sent with
    | lost =>
      have hnext : Wire.Gone { w with sent := w.sent + 1 } := ⟨h.zero, h.quiet⟩
      rw [run_attempts_unheard n hnext.quiet (by simp only [wired, hfate])]
      exact ih hnext
    | unheard =>
      rw [run_attempts_unheard n hgone.quiet (by simp only [wired, hfate])]
      exact ih hgone
    | answered =>
      rw [run_attempts_unheard n hgone.quiet (by simp only [wired, hfate, hnone, List.append_nil]; rfl)]
      exact ih hgone

/-- A session that was idle for too long is gone at the next datagram. -/
theorem Wire.Stage.served_idle (h : w.Stage world me f cmd pl card s) (hcmd : cmd ≠ tnfsMount)
    (hlen : tnfsHdrLen + pl.length ≤ tnfsMsgCap) (hlive : (w.server.sessions 0).inUse = true)
    (hidle : tnfsdIdleUs < clock w.sent - (w.server.sessions 0).lastActiveUs) :
    (w.served world clock me (f.request cmd pl)).Gone ∧ w.heard world clock me (f.request cmd pl) = [] := by
  rcases reapIdle_alone h.others (clock w.sent) w.card with ⟨hrecent, -⟩ | ⟨-, -, card', v', hreap, hzero⟩
  · exact absurd (hrecent hlive) (Nat.not_le.mpr hidle)
  · have hturned : w.turned world clock me (f.request cmd pl) = (card', v', []) :=
      turned_gone hcmd hlen hreap hzero
    refine ⟨⟨?_, h.quiet⟩, ?_⟩
    · rw [Wire.served, hturned]
      exact hzero
    · rw [Wire.heard, hturned]
      rfl

/-- The attempts of a command in a live session. -/
theorem attempts_answered {w₀ : Wire σ} (h₀ : w₀.Holds me f s) (hcmd : cmd ≠ tnfsMount)
    (hrun : cmd ≠ tnfsUmount) (hlen : tnfsHdrLen + pl.length ≤ tnfsMsgCap)
    (hagain : replyStatus (ranReply world f cmd pl card s) ≠ tnfsEagain) (n : ℕ)
    (h : w.Stage world me f cmd pl card s) (hlive : (w.server.sessions 0).inUse = true) :
    (∃ m, (run (wired world clock fate me) w (attempts (f.request cmd pl) f.seq cmd n)).2 = .ok m) ↔
      answeredIn clock fate n w.sent (w.server.sessions 0).lastActiveUs = true := by
  induction n generalizing w with
  | zero =>
    refine iff_of_false ?_ (by simp [answeredIn])
    rintro ⟨m, hm⟩
    cases hm
  | succ n ih =>
    rw [answeredIn]
    have lost : ∀ w' : Wire σ, w'.Gone → wired world clock fate me w (.send (f.request cmd pl)) = (w', true) →
        ¬ ∃ m, (run (wired world clock fate me) w (attempts (f.request cmd pl) f.seq cmd (n + 1))).2 =
          .ok m := by
      rintro w' hgone hsend ⟨m, hm⟩
      rw [run_attempts_unheard n hgone.quiet hsend, attempts_gone hgone hcmd hlen] at hm
      cases hm
    by_cases hrecent : clock w.sent - (w.server.sessions 0).lastActiveUs ≤ tnfsdIdleUs
    · have hreap : run world w.card (Server.reapIdle (clock w.sent) tnfsdMaxSessions w.server) =
        (w.card, w.server) := by
        rcases reapIdle_alone h.others (clock w.sent) w.card with ⟨-, hsame⟩ | ⟨-, hidle, -⟩
        · exact hsame
        · exact absurd hidle (Nat.not_lt.mpr hrecent)
      obtain ⟨hran, hheard⟩ := h.served_live hcmd hrun hlen h₀ hreap hlive
      cases hfate : fate w.sent with
      | lost =>
        have hnext : Wire.Stage world me f cmd pl card s { w with sent := w.sent + 1 } := h.lost
        rw [run_attempts_unheard n hnext.quiet (by simp only [wired, hfate])]
        exact ih hnext hlive
      | unheard =>
        have hslot : (w.served world clock me (f.request cmd pl)).server.sessions 0 =
          ranSession world f cmd pl card s (clock w.sent) :=
          hran.slot
        have hafter := ih (.ran _ hran) (by rw [hslot, (ranSession_framed ..).1, h₀.live])
        rw [hslot] at hafter
        rw [run_attempts_unheard n hran.quiet (by simp only [wired, hfate])]
        have hsent : (w.served world clock me (f.request cmd pl)).sent = w.sent + 1 := rfl
        have hlast : (ranSession world f cmd pl card s (clock w.sent)).lastActiveUs = clock w.sent := rfl
        rw [hsent, hlast] at hafter
        simpa [hrecent] using hafter
      | answered =>
        have hmatch : udpMatches f.seq cmd (ranReply world f cmd pl card s) = true := by
          refine udpMatches_reply f cmd ?_
          have hne := ((handle_framed s cmd pl).run world card).status
          simpa [tnfsMsgCap, tnfsHdrLen, tnfsIoChunk] using hne
        rw [attempts_first n h.quiet hfate hheard hmatch hagain]
        exact iff_of_true ⟨_, rfl⟩ (decide_eq_true hrecent)
    · obtain ⟨hgone, hnone⟩ := @Wire.Stage.served_idle _ world clock me _ _ _ _ _ _ h hcmd hlen hlive
        (Nat.lt_of_not_le hrecent)
      cases hfate : fate w.sent with
      | lost =>
        have hnext : Wire.Stage world me f cmd pl card s { w with sent := w.sent + 1 } := h.lost
        rw [run_attempts_unheard n hnext.quiet (by simp only [wired, hfate])]
        exact ih hnext hlive
      | unheard => exact iff_of_false (lost _ hgone (by simp only [wired, hfate])) (by simp [hrecent])
      | answered =>
        refine iff_of_false (lost _ hgone ?_) (by simp [hrecent])
        simp only [wired, hfate, hnone, List.append_nil]
        rfl

/-- Whether a command of a held session succeeds is up to the network and the clock. -/
theorem Wire.Holds.answered (h : w.Holds me f s) (hcmd : cmd ≠ tnfsMount) (hrun : cmd ≠ tnfsUmount)
    (hlen : tnfsHdrLen + pl.length ≤ tnfsMsgCap)
    (hagain : replyStatus (ranReply world f cmd pl w.card s) ≠ tnfsEagain) :
    (∃ m, (run (wired world clock fate me) w (tnfsCommand f cmd pl)).2.2 = .ok m) ↔
      answeredIn clock fate tnfsRetries w.sent s.lastActiveUs = true := by
  have htried := @attempts_answered _ world clock fate me _ _ _ _ _ _ _ h hcmd hrun hlen hagain
    tnfsRetries (.held h rfl)
    (by rw [h.slot, h.live])
  rw [h.slot] at htried
  rw [← htried]
  generalize hq : run (wired world clock fate me) w (attempts (f.request cmd pl) f.seq cmd tnfsRetries) = q
  rw [run_command hlen hq]
  obtain ⟨w', e | m⟩ := q
  · refine iff_of_false ?_ ?_ <;> rintro ⟨m, hm⟩ <;> cases hm
  · exact iff_of_true ⟨m, rfl⟩ ⟨m, rfl⟩

/-! ### MOUNT -/

/-- The payload of the client's MOUNT. -/
def mountPayload : Bytes := [tnfsVerLo, tnfsVerHi, 0x2F, 0, 0, 0]

/-- A session as a MOUNT with sequence byte 0 leaves it. -/
structure Session.Fresh (me : Peer) (s : Session) : Prop where
  live : s.inUse = true
  nonzero : s.sid ≠ 0
  peer : s.peer = me
  root : s.root = []
  dirs : s.dirs = fun _ => none
  keyed : s.Keyed 0 tnfsMount
  reply : s.reply = tnfsHeader s.sid 0 tnfsMount ++ (Reply.mounted tnfsdMinRetryMs).body

/-- No session, or one just mounted. -/
structure Wire.Mounting (me : Peer) (w : Wire σ) : Prop where
  slot : w.server.sessions 0 = .zero ∨ (w.server.sessions 0).Fresh me
  others : ∀ j ≠ 0, w.server.sessions j = .zero
  quiet : w.inbox = []

theorem mountTurn_zero {seq : UInt8} (hzero : ∀ j, v.sessions j = .zero) : v.mountTurn me seq = .mount 0 := by
  have hnone : ∀ p : Session → Bool, (∀ s : Session, p s = true → s.inUse = true) →
      (firstSlot tnfsdMaxSessions fun i => p (v.sessions i)) = none := by
    intro p hp
    refine List.find?_eq_none.mpr fun j _ hj => ?_
    rw [hzero j] at hj
    exact absurd (hp _ hj) (by decide)
  rw [Server.mountTurn, hnone (fun e => e.inUse && e.peer == me && e.haveReply &&
    e.lastCmd == tnfsMount && e.lastSeq == seq)
    (by simp +contextual)]
  dsimp only
  rw [show (fun i => !(v.sessions i).inUse) = fun _ => true by funext i; rw [hzero i]; rfl]
  rfl

theorem mountTurn_fresh (hothers : ∀ j ≠ 0, v.sessions j = .zero) (h : (v.sessions 0).Fresh me) :
    v.mountTurn me 0 = .replay 0 := by
  have hfirst : (firstSlot tnfsdMaxSessions fun i =>
      let e := v.sessions i
      e.inUse && e.peer == me && e.haveReply && e.lastCmd == tnfsMount && e.lastSeq == 0) = some 0 := by
    refine Server.firstSlot_unique (by decide)
      (by simp [h.live, h.peer, h.keyed.have_reply, h.keyed.cmd, h.keyed.seq]) fun j _ hj => ?_
    by_contra hne
    rw [hothers j hne] at hj
    exact absurd hj (by simp [Session.zero])
  rw [Server.mountTurn, hfirst]

/-- A MOUNT of the root in a free slot. -/
theorem run_mountIn (world : σ → (c : SysCall) → σ × c.Answer) (me : Peer) {i : ℕ} (hi : i < tnfsdMaxSessions)
    (hzero : v.sessions i = .zero) (now : ℕ) (card : σ) :
    ∃ v' s, run world card (v.mountIn now me 0 mountPayload i) = (card, v', [⟨me, s.reply⟩]) ∧
      v'.sessions i = s ∧
      (∀ j ≠ i, v'.sessions j = v.sessions j) ∧ s.Fresh me ∧ s.lastActiveUs = now := by
  have hroot : Server.mountRoot mountPayload = [] := by decide
  have hfree : run world card (freeSession (v.sessions i)) = (card, .zero) := by
    rw [hzero]
    rfl
  have hsid : (v.allocSession i).allocSid.1 ≠ 0 := Server.mountSid_ne_zero hi
  rw [Server.mountIn, run_bind, hfree, hroot]
  dsimp only
  rw [if_neg (by simp), run_pure]
  refine ⟨_, _, rfl, Server.setSession_self (v := v.allocSession i) i _, fun j hj => ?_,
    ⟨?_, hsid, rfl, rfl, ?_, ⟨rfl, rfl, rfl⟩, rfl⟩, rfl⟩
  · have hsame : ∀ t t' : Session, (((v.setSession i t).setSession i t').sessions j) = v.sessions j := by
      intro t t'
      rw [Server.setSession_of_ne _ hj, Server.setSession_of_ne _ hj]
    exact hsame _ _
  · change ((v.allocSession i).sessions i).inUse = true
    rw [Server.allocSession, Server.setSession_self]
  · change ((v.allocSession i).sessions i).dirs = _
    rw [Server.allocSession, Server.setSession_self]
    rfl

theorem request_mount (f : TnfsFile) (pl : Bytes) (hseq : f.seq = 0) :
    v.turn me (f.request tnfsMount pl) = v.mountTurn me 0 := by
  have hop : (f.request tnfsMount pl).getD 3 0 = tnfsMount := rfl
  have hbyte : (f.request tnfsMount pl).getD 2 0 = f.seq := rfl
  rw [Server.turn, if_neg (request_long f tnfsMount pl), hop, if_pos rfl, hbyte, hseq]

theorem request_mountPayload : (f.request tnfsMount mountPayload).take tnfsMsgCap =
      f.request tnfsMount mountPayload :=
  request_take (by decide)

/-- The server's turn for the MOUNT leaves a fresh session, and its reply. -/
theorem Wire.Mounting.turned (world : σ → (c : SysCall) → σ × c.Answer) (clock : ℕ → ℕ)
    (h : w.Mounting me) (hseq : f.seq = 0) :
    ∃ card' v' s, w.turned world clock me (f.request tnfsMount mountPayload) =
      (card', v', [⟨me, s.reply⟩]) ∧ v'.sessions 0 = s ∧
      (∀ j ≠ 0, v'.sessions j = .zero) ∧ s.Fresh me ∧ s.lastActiveUs = clock w.sent := by
  have hpayload : (f.request tnfsMount mountPayload).drop tnfsHdrLen = mountPayload := rfl
  have hbyte : (f.request tnfsMount mountPayload).getD 2 0 = f.seq := rfl
  have mounted : ∀ {card' : σ} {v' : Server},
      run world w.card (Server.reapIdle (clock w.sent) tnfsdMaxSessions w.server) = (card', v') →
        (∀ j, v'.sessions j = .zero) →
      w.turned world clock me (f.request tnfsMount mountPayload) =
        run world card' (v'.mountIn (clock w.sent) me 0 mountPayload 0) := by
    intro card' v' hreap hzero
    rw [Wire.turned, request_mountPayload, Server.serve, run_bind, hreap]
    dsimp only
    rw [request_mount f mountPayload hseq, mountTurn_zero hzero, Server.answer, hpayload, hbyte, hseq]
  rcases reapIdle_alone h.others (clock w.sent) w.card with ⟨-, hsame⟩ | ⟨-, -, card', v', hreap, hzero⟩
  · rcases h.slot with hslot | hfresh
    · have hzero : ∀ j, w.server.sessions j = .zero := by
        intro j
        by_cases hj : j = 0
        · rw [hj, hslot]
        · exact h.others j hj
      obtain ⟨v', s, hrun, hslot', hothers, hfresh⟩ :=
        run_mountIn world me (by decide) (hzero 0) (clock w.sent) w.card
      exact ⟨_, v', s, (mounted hsame hzero).trans hrun, hslot', fun j hj =>
        (hothers j hj).trans (hzero j), hfresh⟩
    · refine ⟨w.card, _, { w.server.sessions 0 with lastActiveUs := clock w.sent }, ?_,
        Server.setSession_self (v := w.server) 0 _,
        fun j hj => ?_, ⟨hfresh.live, hfresh.nonzero, hfresh.peer, hfresh.root, hfresh.dirs,
          ⟨hfresh.keyed.have_reply, hfresh.keyed.seq,
          hfresh.keyed.cmd⟩, hfresh.reply⟩, rfl⟩
      · rw [Wire.turned, request_mountPayload, Server.serve, run_bind, hsame]
        dsimp only
        rw [request_mount f mountPayload hseq, mountTurn_fresh h.others hfresh, Server.answer, run_pure,
          Server.resend, hfresh.peer]
      · rw [Server.setSession_of_ne _ hj, h.others j hj]
  · obtain ⟨v'', s, hrun, hslot', hothers, hfresh⟩ :=
      run_mountIn world me (by decide) (hzero 0) (clock w.sent) card'
    exact ⟨_, v'', s, (mounted hreap hzero).trans hrun, hslot', fun j hj =>
      (hothers j hj).trans (hzero j), hfresh⟩

/-- What `tnfs_mount_root` takes from the reply. -/
theorem Session.Fresh.mountReply (h : s.Fresh me) : FdcSds.mountReply s.reply = some s.sid := by
  have hst : replyStatus s.reply = tnfsOk := by
    rw [h.reply]
    rfl
  rw [FdcSds.mountReply, hst, if_neg (by simp), h.reply, Reply.word_header]

/-- A fresh session is held by the client that mounted it. -/
theorem Wire.Mounting.holds (h : w.Mounting me) (hs : w.server.sessions 0 = s)
    (hfresh : s.Fresh me) (f : TnfsFile) :
    w.Holds me { f with seq := 1, conn := s.sid } s where
  slot := hs
  others := h.others
  live := hfresh.live
  sid := rfl
  nonzero := hfresh.nonzero
  peer := hfresh.peer
  root := hfresh.root
  key := by
    rw [hfresh.keyed.seq]
    rfl
  quiet := h.quiet

/-- The MOUNT of the client. -/
theorem Wire.Mounting.command (h : w.Mounting me) (hseq : f.seq = 0)
    {r : Wire σ × TnfsFile × Except EspErr Bytes}
    (hr : r = run (wired world clock fate me) w (tnfsCommand f tnfsMount mountPayload)) :
    (∀ m, r.2.2 = .ok m → r.2.1 = { f with seq := f.seq + 1 } ∧
        ∃ s, m = s.reply ∧ s.Fresh me ∧ r.1.server.sessions 0 = s ∧ r.1.Mounting me) ∧
      (Prompt clock fate → (∃ m, r.2.2 = .ok m) ∧ r.1.Recent clock) := by
  have hlen : tnfsHdrLen + mountPayload.length ≤ tnfsMsgCap := by decide
  have hserve : ∀ w : Wire σ, w.Mounting me →
    ∃ s, w.heard world clock me (f.request tnfsMount mountPayload) = [s.reply] ∧
      s.Fresh me ∧ (w.served world clock me (f.request tnfsMount mountPayload)).server.sessions 0 = s ∧
      (w.served world clock me (f.request tnfsMount mountPayload)).Mounting me ∧
        s.lastActiveUs = clock w.sent := by
    intro w hw
    obtain ⟨card', v', s, hturned, hslot, hothers, hfresh, hlast⟩ := hw.turned world clock hseq
    have hserver : (w.served world clock me (f.request tnfsMount mountPayload)).server = v' := by
      rw [Wire.served, hturned]
    refine ⟨s, ?_, hfresh, by rw [hserver, hslot], ⟨.inr ?_, ?_, hw.quiet⟩, hlast⟩
    · rw [Wire.heard, hturned]
      simp
    · rw [hserver, hslot]
      exact hfresh
    · rw [hserver]
      exact hothers
  constructor
  · intro m hm
    have hobeys : ∀ q m', q = run (wired world clock fate me) w
      (attempts (f.request tnfsMount mountPayload) f.seq tnfsMount tnfsRetries) →
        q.2 = .ok m' → ∃ s, m' = s.reply ∧ s.Fresh me ∧ q.1.server.sessions 0 = s ∧ q.1.Mounting me :=
      fun q m' hq hm' => attempts_wired (I := Wire.Mounting me)
        (J := fun m w' => ∃ s, m = s.reply ∧ s.Fresh me ∧ w'.server.sessions 0 = s ∧ w'.Mounting me)
        (fun _ h' => h'.quiet) (fun _ h' => ⟨h'.slot, h'.others, h'.quiet⟩)
        (fun w' h' => by
          obtain ⟨s, hheard, hfresh, hslot, hnext, -⟩ := hserve w' h'
          exact ⟨hnext, .inr ⟨_, hheard, s, rfl, hfresh, hslot, hnext⟩⟩) tnfsRetries w h hq hm'
    generalize hq :
      run (wired world clock fate me) w
        (attempts (f.request tnfsMount mountPayload) f.seq tnfsMount tnfsRetries) = q at hobeys
    have hr' := hr.trans (run_command hlen hq)
    obtain ⟨w', e | m'⟩ := q
    · rw [hr'] at hm
      cases hm
    · rw [hr'] at hm ⊢
      cases hm
      exact ⟨rfl, hobeys _ _ rfl rfl⟩
  · intro hprompt
    obtain ⟨s, hheard, hfresh, hslot, -, hlast⟩ := hserve w h
    have hmatch : udpMatches f.seq tnfsMount s.reply = true := by
      rw [hfresh.reply, hseq]
      rfl
    have hagain : replyStatus s.reply ≠ tnfsEagain := by
      rw [hfresh.reply]
      exact (by decide : tnfsOk ≠ tnfsEagain)
    have hfirst := attempts_first 2 h.quiet (hprompt.answered w.sent) hheard hmatch hagain
    rw [hr.trans (run_command hlen hfirst)]
    refine ⟨⟨_, rfl⟩, ?_⟩
    change clock (w.sent + 1) - _ ≤ _
    rw [hslot, hlast]
    exact hprompt.busy w.sent

end FdcSds.Tnfsd
