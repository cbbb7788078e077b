import FdcSds.Net.Accounting
import FdcSds.Net.Isolation

/-! Replies of the TNFS server.

    Every turn but an ignored one sends one reply. It goes to the address in the session record, which a
    MOUNT fills in only once its mountpoint has passed `sd_path`; and it stays cached with the session, so
    that the session's latest request is answered alike however often it comes in.

        rx ──▶ turn ──run, mount──▶ reply, cached ──▶ peer
                 └────replay──────▶ the cached one ──▶ peer                    -/

namespace FdcSds.Tnfsd
open Schemes Schemes.Runs Prog

/-- One reply to `rx`, sent to `peer`: it echoes sequence byte and command and has a status. -/
def Answers (peer : Peer) (rx : Bytes) (out : List Sent) : Prop :=
  ∃ m, out = [m] ∧ m.peer = peer ∧ tnfsStatusOff < m.data.length ∧ m.data.getD 2 0 = rx.getD 2 0 ∧
    m.data.getD 3 0 = rx.getD 3 0

theorem answers_header {peer : Peer} {rx : Bytes} {sid : UInt16} {seq cmd st : UInt8} {rest : Bytes}
    (hseq : seq = rx.getD 2 0) (hcmd : cmd = rx.getD 3 0) :
    Answers peer rx [⟨peer, tnfsHeader sid seq cmd ++ st :: rest⟩] := by
  refine ⟨_, rfl, rfl, ?_, hseq, hcmd⟩
  simp [tnfsHeader, le16, tnfsStatusOff]

/-- The reply `m` to `rx` is cached. -/
structure Session.Recalls (s : Session) (rx : Bytes) (m : Sent) : Prop where
  long : tnfsHdrLen ≤ rx.length
  named : rx.getD 3 0 ≠ tnfsMount → s.sid = UInt16.ofNat (word rx 0)
  keyed : s.Keyed (rx.getD 2 0) (rx.getD 3 0)
  reply : m = ⟨s.peer, s.reply⟩
  answers : Answers s.peer rx [m]

namespace Server

variable {v : Server}

/-! ### Which datagrams are answered -/

/-- A MOUNT, or a request of a live session. -/
def Addressed (v : Server) (peer : Peer) (rx : Bytes) : Prop :=
  tnfsHdrLen ≤ rx.length ∧ (rx.getD 3 0 = tnfsMount ∨ ∃ i < tnfsdMaxSessions, (v.sessions i).inUse = true ∧
    (v.sessions i).sid = UInt16.ofNat (word rx 0) ∧ (v.sessions i).peer = peer)

/-- The mountpoint is one `sd_path` rejects. -/
def badMountpoint (pl : Bytes) : Bool := !(mountRoot pl).isEmpty && (sdPath (mountRoot pl) tnfsdAbsCap).isNone

theorem firstSlot_isSome {n : ℕ} {p : ℕ → Bool} {i : ℕ} (hi : i < n) (hp : p i = true) :
    ∃ j, firstSlot n p = some j :=
  Option.isSome_iff_exists.mp (List.find?_isSome.mpr ⟨i, List.mem_range.mpr hi, hp⟩)

/-- The only slot with `p` is the first one. -/
theorem firstSlot_unique {n : ℕ} {p : ℕ → Bool} {i : ℕ} (hi : i < n) (hp : p i = true)
    (huniq : ∀ j < n, p j = true → j = i) : firstSlot n p = some i := by
  obtain ⟨j, hj⟩ := firstSlot_isSome hi hp
  obtain ⟨hlt, hpj⟩ := firstSlot_some hj
  rwa [huniq j hlt hpj] at hj

/-- The session a request names is found. -/
theorem findSession_of (hids : v.Ids) {i : ℕ} (hi : i < tnfsdMaxSessions)
    (hlive : (v.sessions i).inUse = true) :
    v.findSession (v.sessions i).sid (v.sessions i).peer = some i := by
  rw [findSession, if_neg (hids.nonzero i hi hlive)]
  refine firstSlot_unique hi (by simp [hlive]) fun j hj hp => ?_
  simp only [Bool.and_eq_true, beq_iff_eq] at hp
  by_contra hne
  exact hids.distinct j hj i hi hne hp.1.1 hlive hp.1.2

theorem turn_ne_ignored (hids : v.Ids) {peer : Peer} {rx : Bytes} (h : v.Addressed peer rx) :
    v.turn peer rx ≠ .ignored := by
  obtain ⟨hlong, hwho⟩ := h
  unfold turn
  rw [if_neg (Nat.not_lt.mpr hlong)]
  by_cases hmount : rx.getD 3 0 = tnfsMount
  · rw [if_pos hmount, mountTurn]
    repeat' split
    all_goals rintro ⟨⟩
  · obtain ⟨i, hi, hlive, hsid, rfl⟩ := hwho.resolve_left hmount
    rw [if_neg hmount, ← hsid, findSession_of hids hi hlive]
    dsimp only
    split <;> rintro ⟨⟩

/-- No two live sessions of one client have the same MOUNT cached. -/
def MountsOnce (v : Server) : Prop := ∀ i < tnfsdMaxSessions, ∀ j < tnfsdMaxSessions, ∀ seq,
  (v.sessions i).inUse = true → (v.sessions j).inUse = true → (v.sessions i).peer = (v.sessions j).peer →
    (v.sessions i).Keyed seq tnfsMount → (v.sessions j).Keyed seq tnfsMount → i = j

/-- A session's cached request comes in again: it is replayed. -/
theorem turn_recalls (hids : v.Ids) (honce : v.MountsOnce) {i : ℕ} (hi : i < tnfsdMaxSessions)
    (hlive : (v.sessions i).inUse = true) {rx : Bytes} {m : Sent} (h : (v.sessions i).Recalls rx m) :
    v.turn (v.sessions i).peer rx = .replay i := by
  obtain ⟨hreply, hseq, hcmd⟩ := h.keyed
  unfold turn
  rw [if_neg (Nat.not_lt.mpr h.long)]
  by_cases hmount : rx.getD 3 0 = tnfsMount
  · rw [hmount] at hcmd
    have hfirst : firstSlot tnfsdMaxSessions (fun j => (v.sessions j).inUse &&
        (v.sessions j).peer == (v.sessions i).peer && (v.sessions j).haveReply &&
        (v.sessions j).lastCmd == tnfsMount && (v.sessions j).lastSeq == rx.getD 2 0) = some i := by
      refine firstSlot_unique hi (by simp [hlive, hreply, hseq, hcmd]) fun j hj hp => ?_
      simp only [Bool.and_eq_true, beq_iff_eq] at hp
      obtain ⟨⟨⟨⟨hjlive, hpeer⟩, hjreply⟩, hjcmd⟩, hjseq⟩ := hp
      exact honce j hj i hi _ hjlive hlive hpeer ⟨hjreply, hjseq, hjcmd⟩ ⟨hreply, hseq, hcmd⟩
    rw [if_pos hmount, mountTurn, hfirst]
  · rw [if_neg hmount, ← h.named hmount, findSession_of hids hi hlive]
    simp [hreply, hseq, hcmd]

/-! ### What a turn answers and caches -/

/-- A request that was run: one reply, cached unless the session ended with it. -/
theorem process_recalls (now : ℕ) (s : Session) (rx pl : Bytes) (hlong : tnfsHdrLen ≤ rx.length)
    (hnamed : s.sid = UInt16.ofNat (word rx 0)) :
    (process now s (rx.getD 2 0) (rx.getD 3 0) pl).Ensures fun r =>
      ∃ m, r.2 = [m] ∧ Answers s.peer rx [m] ∧ (r.1.inUse = true → r.1.Recalls rx m) := by
  refine Ensures.bind ((handle_framed s (rx.getD 3 0) pl).mono ?_)
  rintro ⟨t, body⟩ hframed
  obtain ⟨st, rest, rfl⟩ := List.exists_cons_of_ne_nil hframed.status
  have hpeer : t.peer = s.peer := hframed.owned.peer
  have hsid : t.sid = s.sid := hframed.owned.sid
  have hanswers : Answers s.peer rx
    [⟨t.peer, (t.cacheReply (rx.getD 2 0) (rx.getD 3 0) (st :: rest)).reply⟩] := by
    rw [hpeer]
    exact answers_header rfl rfl
  refine ensures_ite ?_ ⟨_, rfl, hanswers, fun _ => ?_⟩
  · refine Ensures.bind ((freeSession_zero _).mono fun z hz => ⟨_, rfl, hanswers, ?_⟩)
    subst hz
    rintro ⟨⟩
  · exact ⟨hlong, fun _ => hsid.trans hnamed, ⟨rfl, rfl, rfl⟩, rfl, hpeer ▸ hanswers⟩

/-- A MOUNT in a free slot: one reply, cached if the mountpoint is good, and sent to nobody if not. -/
theorem mountIn_recalls (now : ℕ) (peer : Peer) (rx pl : Bytes) (v : Server) (i : ℕ)
    (hlong : tnfsHdrLen ≤ rx.length) (hcmd : rx.getD 3 0 = tnfsMount) :
    (mountIn now peer (rx.getD 2 0) pl v i).Ensures fun r => ∃ m, r.2 = [m] ∧
      Answers (if badMountpoint pl then ⟨0, 0⟩ else peer) rx [m] ∧
      ((r.1.sessions i).inUse = true → (r.1.sessions i).peer = peer ∧ (r.1.sessions i).Recalls rx m) := by
  refine Ensures.bind_of_forall fun _ => ?_
  dsimp only
  by_cases hbad : badMountpoint pl = true
  · rw [if_pos hbad]
    unfold badMountpoint at hbad
    rw [if_pos hbad]
    refine Ensures.bind ((freeSession_zero _).mono fun z hz => ?_)
    subst hz
    refine ⟨_, rfl, ?_, fun hlive => ?_⟩
    · simp only [allocSession, setSession_self]
      exact answers_header rfl hcmd.symm
    · simp [setSession, Session.zero] at hlive
  · rw [if_neg hbad]
    unfold badMountpoint at hbad
    rw [if_neg hbad]
    refine ⟨_, rfl, answers_header rfl hcmd.symm, fun _ => ?_⟩
    simp only [setSession, Function.update_self]
    exact ⟨rfl, hlong, fun hne => absurd hcmd hne, ⟨rfl, rfl, hcmd.symm⟩, rfl, answers_header rfl hcmd.symm⟩

/-- The latest request of each session, with its reply, after a turn. -/
def Turn.recalls (rx : Bytes) (out : List Sent) (latest : ℕ → Option (Bytes × Sent)) :
    Turn → ℕ → Option (Bytes × Sent)
  | .mount i | .run i => Function.update latest i (out.head?.map (Prod.mk rx))
  | .ignored | .refused | .replay _ => latest

/-- Every live session has the reply to its latest request cached. -/
def Remembers (v : Server) (latest : ℕ → Option (Bytes × Sent)) : Prop :=
  ∀ i < tnfsdMaxSessions, (v.sessions i).inUse = true →
    ∃ rx m, latest i = some (rx, m) ∧ (v.sessions i).Recalls rx m

variable {latest : ℕ → Option (Bytes × Sent)}

theorem Remembers.freed {v' : Server} (h : v.Remembers latest) (hf : v.Freed v') : v'.Remembers latest := by
  intro i hi hlive
  have hsame := hf.of_inUse hlive
  rw [hsame] at hlive ⊢
  exact h i hi hlive

theorem MountsOnce.freed {v' : Server} (h : v.MountsOnce) (hf : v.Freed v') : v'.MountsOnce := by
  intro i hi j hj seq hilive hjlive hpeer hikey hjkey
  have hisame := hf.of_inUse hilive
  have hjsame := hf.of_inUse hjlive
  rw [hisame] at hilive hikey hpeer
  rw [hjsame] at hjlive hjkey hpeer
  exact h i hi j hj seq hilive hjlive hpeer hikey hjkey

/-- One slot has a new latest request, and it is cached there. -/
theorem Remembers.slot {v' : Server} (h : v.Remembers latest) {k : ℕ} {entry : Option (Bytes × Sent)}
    (hrest : ∀ j ≠ k, v'.sessions j = v.sessions j)
    (hown : (v'.sessions k).inUse = true → ∃ rx m, entry = some (rx, m) ∧ (v'.sessions k).Recalls rx m) :
    v'.Remembers (Function.update latest k entry) := by
  intro i hi hlive
  by_cases hik : i = k
  · subst hik
    rw [Function.update_self]
    exact hown hlive
  · rw [Function.update_of_ne hik]
    rw [hrest i hik] at hlive ⊢
    exact h i hi hlive

/-- One slot has a new key, which is no MOUNT another live session of its client has cached. -/
theorem MountsOnce.slot {v' : Server} (h : v.MountsOnce) {k : ℕ}
    (hrest : ∀ j ≠ k, v'.sessions j = v.sessions j)
    (hown : ∀ seq, (v'.sessions k).inUse = true → (v'.sessions k).Keyed seq tnfsMount →
      ∀ j < tnfsdMaxSessions, j ≠ k → (v.sessions j).inUse = true →
        (v.sessions j).peer = (v'.sessions k).peer → ¬ (v.sessions j).Keyed seq tnfsMount) :
    v'.MountsOnce := by
  intro i hi j hj seq hilive hjlive hpeer hikey hjkey
  by_contra hne
  by_cases hik : i = k
  · subst hik
    rw [hrest j (Ne.symm hne)] at hjlive hjkey hpeer
    exact hown seq hilive hikey j hj (Ne.symm hne) hjlive hpeer.symm hjkey
  · rw [hrest i hik] at hilive hikey hpeer
    by_cases hjk : j = k
    · subst hjk
      exact hown seq hjlive hjkey i hi hik hilive hpeer hikey
    · rw [hrest j hjk] at hjlive hjkey hpeer
      exact hne (h i hi j hj seq hilive hjlive hpeer hikey hjkey)

/-- A MOUNT that is not a replay: no live session of its client has it cached. -/
theorem turn_mount_new {peer : Peer} {rx : Bytes} {i : ℕ} (h : v.turn peer rx = .mount i) :
    ∀ j < tnfsdMaxSessions, (v.sessions j).inUse = true → (v.sessions j).peer = peer →
      ¬ (v.sessions j).Keyed (rx.getD 2 0) tnfsMount := by
  rintro j hj hlive hpeer ⟨hreply, hseq, hcmd⟩
  have hmount := (turn_mount h).2.1
  unfold turn mountTurn at h
  split at h
  · cases h
  split at h
  · cases h
  · next hnone =>
    have hfalse := firstSlot_none hnone j hj
    simp [hlive, hpeer, hreply, hseq, hcmd] at hfalse

theorem turn_long {peer : Peer} {rx : Bytes} (h : v.turn peer rx ≠ .ignored) : tnfsHdrLen ≤ rx.length := by
  by_contra hshort
  exact h (if_pos (Nat.lt_of_not_le hshort))

theorem turn_refused {peer : Peer} {rx : Bytes} (h : v.turn peer rx = .refused) :
    rx.getD 3 0 = tnfsMount := by
  by_contra hcmd
  unfold turn at h
  rw [if_neg hcmd] at h
  split at h
  · cases h
  split at h
  · cases h
  · dsimp only at h
    split at h <;> cases h

/-- A MOUNT is lost on its sender: it takes a free slot, and its mountpoint is rejected. -/
def Misdirects (v : Server) (peer : Peer) (rx : Bytes) : Prop :=
  (∃ i, v.turn peer rx = .mount i) ∧ badMountpoint (rx.drop tnfsHdrLen) = true ∧ peer ≠ ⟨0, 0⟩

/-- Every turn but an ignored one answers the sender, unless it is a MOUNT lost on it. -/
theorem answer_answers (h : v.Remembers latest) (now : ℕ) {peer : Peer} {rx : Bytes}
    (hturn : v.turn peer rx ≠ .ignored) : (v.answer now peer rx (v.turn peer rx)).Ensures fun r =>
      (Answers peer rx r.2 ↔ ¬ v.Misdirects peer rx) := by
  have hlong := turn_long hturn
  have elsewhere : (∀ i, v.turn peer rx ≠ .mount i) → ¬ v.Misdirects peer rx := by
    rintro hno ⟨⟨i, hmount⟩, -⟩
    exact hno i hmount
  cases ht : v.turn peer rx with
  | ignored => exact absurd ht hturn
  | refused =>
    refine iff_of_true ?_ (elsewhere fun i => by rw [ht]; rintro ⟨⟩)
    exact answers_header rfl (turn_refused ht).symm
  | replay i =>
    obtain ⟨hi, hlive, rfl, hkey⟩ := turn_replay ht
    refine iff_of_true ?_ (elsewhere fun i => by rw [ht]; rintro ⟨⟩)
    -- the cached reply answered a request with the same sequence byte and command
    obtain ⟨rx', m, -, hrecalls⟩ := h i hi hlive
    obtain ⟨m', ⟨⟩, hpeer, hstatus, hseq, hcmd⟩ := hrecalls.answers
    refine ⟨m, by rw [hrecalls.reply]; rfl, hpeer, hstatus, ?_, ?_⟩
    · rw [hseq, ← hrecalls.keyed.seq, hkey.seq]
    · rw [hcmd, ← hrecalls.keyed.cmd, hkey.cmd]
  | mount i =>
    have hcmd := (turn_mount ht).2.1
    refine (mountIn_recalls now peer rx _ v i hlong hcmd).mono ?_
    rintro r ⟨m, hout, hanswers, -⟩
    rw [hout]
    by_cases hbad : badMountpoint (rx.drop tnfsHdrLen) = true
    · rw [if_pos hbad] at hanswers
      constructor
      · rintro ⟨m', ⟨⟩, hpeer, -⟩ ⟨-, -, hne⟩
        obtain ⟨m', ⟨⟩, hzero, -⟩ := hanswers
        exact hne (hpeer.symm.trans hzero)
      · intro hdirect
        have hpeer : peer = ⟨0, 0⟩ := by
          by_contra hne
          exact hdirect ⟨⟨i, ht⟩, hbad, hne⟩
        rwa [hpeer]
    · rw [if_neg hbad] at hanswers
      refine iff_of_true hanswers ?_
      rintro ⟨-, hbad', -⟩
      exact hbad hbad'
  | run i =>
    obtain ⟨-, -, -, hsid, rfl, -⟩ := turn_run ht
    refine Ensures.bind ((process_recalls now (v.sessions i) rx _ hlong hsid).mono ?_)
    rintro ⟨s, out⟩ ⟨m, rfl, hanswers, -⟩
    exact iff_of_true hanswers (elsewhere fun i => by rw [ht]; rintro ⟨⟩)

theorem answer_remembers (h : v.Remembers latest) (honce : v.MountsOnce) (now : ℕ) (peer : Peer)
    (rx : Bytes) : (v.answer now peer rx (v.turn peer rx)).Ensures fun r =>
      r.1.Remembers ((v.turn peer rx).recalls rx r.2 latest) ∧ r.1.MountsOnce := by
  have hothers := answer_others now peer rx v (v.turn peer rx)
  cases ht : v.turn peer rx with
  | ignored | refused => exact ⟨h, honce⟩
  | replay k =>
    obtain ⟨hk, hlive, -⟩ := turn_replay ht
    obtain ⟨rx', m, hlatest, hr⟩ := h k hk hlive
    have hrest : ∀ j ≠ k, (v.resend now k).1.sessions j = v.sessions j := fun j hj => setSession_of_ne _ hj
    have hown : (v.resend now k).1.sessions k = { v.sessions k with lastActiveUs := now } :=
      setSession_self ..
    constructor
    · have hkept := h.slot hrest fun _ => ⟨rx', m, hlatest, by
        rw [hown]
        exact ⟨hr.long, hr.named, ⟨hr.keyed.1, hr.keyed.2, hr.keyed.3⟩, hr.reply, hr.answers⟩⟩
      rwa [Function.update_eq_self] at hkept
    · refine honce.slot hrest fun seq _ hkey j hj hjk hjlive hpeer hjkey => ?_
      rw [hown] at hkey hpeer
      exact hjk (honce j hj k hk seq hjlive hlive hpeer hjkey ⟨hkey.1, hkey.2, hkey.3⟩)
  | mount k =>
    obtain ⟨hk, hcmd, -⟩ := turn_mount ht
    have hlong : tnfsHdrLen ≤ rx.length := turn_long (by rw [ht]; rintro ⟨⟩)
    rw [ht] at hothers
    refine (hothers.and (mountIn_recalls now peer rx _ v k hlong hcmd)).mono ?_
    rintro ⟨v', out⟩ ⟨hrest, m, rfl, -, hown⟩
    refine ⟨h.slot hrest fun hlive => ⟨rx, m, rfl, (hown hlive).2⟩, honce.slot hrest ?_⟩
    intro seq hlive hkey j hj _ hjlive hpeer hjkey
    obtain ⟨hsender, hrecalls⟩ := hown hlive
    have hseq : rx.getD 2 0 = seq := hrecalls.keyed.seq.symm.trans hkey.seq
    exact turn_mount_new ht j hj hjlive (hpeer.trans hsender) (hseq ▸ hjkey)
  | run k =>
    obtain ⟨hk, hcmd, -, hsid, hpeer, -⟩ := turn_run ht
    have hlong : tnfsHdrLen ≤ rx.length := turn_long (by rw [ht]; rintro ⟨⟩)
    refine Ensures.bind ((process_recalls now (v.sessions k) rx _ hlong hsid).mono ?_)
    rintro ⟨s, out⟩ ⟨m, rfl, -, hrecalls⟩
    have hrest : ∀ j ≠ k, (v.setSession k s).sessions j = v.sessions j := fun j hj => setSession_of_ne _ hj
    have hown : (v.setSession k s).sessions k = s := setSession_self ..
    refine ⟨h.slot hrest fun hlive => ⟨rx, m, rfl, ?_⟩, honce.slot hrest fun seq hlive hkey => ?_⟩
    · rw [hown] at hlive ⊢
      exact hrecalls hlive
    · rw [hown] at hlive hkey
      exact absurd ((hrecalls hlive).keyed.cmd.symm.trans hkey.cmd) hcmd

theorem serve_remembers (h : v.Remembers latest) (honce : v.MountsOnce) (now : ℕ) (peer : Peer)
    (rx : Bytes) : (v.serve now peer rx).Ensures fun r =>
      r.1.Remembers (((v.reaped now tnfsdMaxSessions).turn peer rx).recalls rx r.2 latest) ∧
        r.1.MountsOnce := by
  have hfreed := reaped_freed now tnfsdMaxSessions v
  refine Ensures.bind ((reapIdle_reaped now tnfsdMaxSessions v).mono fun w hw => ?_)
  subst hw
  exact answer_remembers (h.freed hfreed) (honce.freed hfreed) now peer rx

end Server

namespace Daemon

variable {σ : Type} (world : σ → (c : SysCall) → σ × c.Answer)

/-- The latest request of each session, with its reply, after a beat. -/
def recalls (d : Daemon σ) : Beat → (ℕ → Option (Bytes × Sent)) → ℕ → Option (Bytes × Sent)
  | .datagram now peer rx, latest =>
    ((d.server.reaped now tnfsdMaxSessions).turn peer (rx.take tnfsMsgCap)).recalls (rx.take tnfsMsgCap)
      (run world d.card (d.server.serve now peer (rx.take tnfsMsgCap))).2.2 latest
  | _, latest => latest

/-- The task, with the latest request of each session and the reply it got. -/
def watched : Machine (Daemon σ × (ℕ → Option (Bytes × Sent))) Beat :=
  (machine world).annotate (recalls world)

variable {world} {x : Daemon σ × (ℕ → Option (Bytes × Sent))}
  {ok : Daemon σ × (ℕ → Option (Bytes × Sent)) → Beat → Prop}

theorem reach_remembers (h : (watched world).Reach ok x) :
    x.1.server.Remembers x.2 ∧ x.1.server.MountsOnce := by
  refine h.invariant (I := fun x => x.1.server.Remembers x.2 ∧ x.1.server.MountsOnce) ?_ ?_
  · rintro ⟨d, latest⟩ ⟨card, rfl⟩
    exact ⟨by rintro i - ⟨⟩, by rintro i - j - seq ⟨⟩⟩
  · rintro ⟨d, latest⟩ b x' ⟨hrem, honce⟩ - hstep
    obtain ⟨d', hd, rfl⟩ := Option.map_eq_some_iff.mp hstep
    cases b with
    | start =>
      obtain ⟨-, rfl⟩ := when_eq_some.mp hd
      have hfreed := (startLoop_freed tnfsdMaxSessions d.server).run world d.card
      exact ⟨hrem.freed hfreed, honce.freed hfreed⟩
    | datagram now peer rx =>
      obtain ⟨-, rfl⟩ := when_eq_some.mp hd
      exact (Server.serve_remembers hrem honce now peer (rx.take tnfsMsgCap)).run world d.card
    | timeout now =>
      obtain ⟨-, rfl⟩ := when_eq_some.mp hd
      exact (Server.serve_remembers hrem honce now ⟨0, 0⟩ []).run world d.card
    | linkDown =>
      obtain ⟨-, rfl⟩ := when_eq_some.mp hd
      have hfreed := (Server.dropSessions_freed tnfsdMaxSessions d.server).run world d.card
      exact ⟨hrem.freed hfreed, honce.freed hfreed⟩

variable (world) in
/-- A retransmission to a live session: the same reply, and nothing is called or moved for it. -/
structure Repeats (d : Daemon σ) (now i : ℕ) (rx : Bytes) (m : Sent) : Prop where
  reply : (run world d.card (d.server.serve now (d.server.sessions i).peer rx)).2.2 = [m]
  calls : serveOps world now (d.server.sessions i).peer rx d.card d.server =
    reapOps world now tnfsdMaxSessions d.card d.server
  handles : ∀ j, ((run world d.card (d.server.serve now (d.server.sessions i).peer rx)).2.1.sessions
    j).files =
      ((d.server.reaped now tnfsdMaxSessions).sessions j).files ∧
    ((run world d.card (d.server.serve now (d.server.sessions i).peer rx)).2.1.sessions j).dirs =
      ((d.server.reaped now tnfsdMaxSessions).sessions j).dirs

theorem repeats_of_recalls {d : Daemon σ} {now i : ℕ} {rx : Bytes} {m : Sent} (hids : d.server.Ids)
    (honce : d.server.MountsOnce) (hi : i < tnfsdMaxSessions)
    (hlive : ((d.server.reaped now tnfsdMaxSessions).sessions i).inUse = true)
    (h : (d.server.sessions i).Recalls rx m) : d.Repeats world now i rx m := by
  have hfreed := Server.reaped_freed now tnfsdMaxSessions d.server
  have hreaped := (Server.reapIdle_reaped now tnfsdMaxSessions d.server).run world d.card
  have hsame := hfreed.of_inUse hlive
  have hturn : (d.server.reaped now tnfsdMaxSessions).turn (d.server.sessions i).peer rx = .replay i := by
    have hr : ((d.server.reaped now tnfsdMaxSessions).sessions i).Recalls rx m := hsame ▸ h
    have ht := Server.turn_recalls (hids.freed hfreed) (honce.freed hfreed) hi hlive hr
    rwa [hsame] at ht
  have hserve : (run world d.card (d.server.serve now (d.server.sessions i).peer rx)).2 =
      (d.server.reaped now tnfsdMaxSessions).resend now i := by
    simp only [Server.serve, run_bind, hreaped, hturn, Server.answer, run_pure]
  constructor
  · rw [hserve, h.reply, ← hsame]
    rfl
  · simp only [serveOps, hreaped, hturn, Server.answer, trace_pure, List.map_nil, List.append_nil]
  · intro j
    rw [hserve]
    by_cases hj : j = i
    · subst hj
      simp [Server.resend]
    · simp [Server.resend, hj]

/-- CORRECT: a MOUNT, and a request of a live session, gets exactly one reply, sent to where it came
    from, unless it is a MOUNT lost on its sender; and while a session is live, its latest request gets
    the same reply again whenever it comes in, and nothing is called or moved for it. -/
theorem requests_answered (h : (watched world).Reach Machine.always x) (now : ℕ) :
    (∀ peer rx, (x.1.server.reaped now tnfsdMaxSessions).Addressed peer rx →
      (Answers peer rx (run world x.1.card (x.1.server.serve now peer rx)).2.2 ↔
        ¬ (x.1.server.reaped now tnfsdMaxSessions).Misdirects peer rx)) ∧
    ∀ i < tnfsdMaxSessions, ((x.1.server.reaped now tnfsdMaxSessions).sessions i).inUse = true →
      ∃ rx m, x.2 i = some (rx, m) ∧ Answers (x.1.server.sessions i).peer rx [m] ∧
        x.1.Repeats world now i rx m := by
  have hids := (reach_table h.forget).1
  obtain ⟨hrem, honce⟩ := reach_remembers h
  have hfreed := Server.reaped_freed now tnfsdMaxSessions x.1.server
  have hreaped := (Server.reapIdle_reaped now tnfsdMaxSessions x.1.server).run world x.1.card
  constructor
  · intro peer rx haddr
    have hturn := Server.turn_ne_ignored (hids.freed hfreed) haddr
    simp only [Server.serve, run_bind, hreaped]
    exact (Server.answer_answers (hrem.freed hfreed) now hturn).run world _
  · intro i hi hlive
    have hused : (x.1.server.sessions i).inUse = true := hfreed.of_inUse hlive ▸ hlive
    obtain ⟨rx, m, hlatest, hr⟩ := hrem i hi hused
    exact ⟨rx, m, hlatest, hr.answers, repeats_of_recalls hids honce hi hlive hr⟩

/-- The task starts, and a client mounts the card and unmounts it again. -/
def mountUmount : List Beat :=
  [.start, .datagram 0 ⟨1, 1⟩ [0, 0, 0, tnfsMount, tnfsVerLo, tnfsVerHi, 0x2F, 0, 0, 0],
  .datagram 1 ⟨1, 1⟩ [1, 0, 1, tnfsUmount]]

def unwatched : Daemon ℕ × (ℕ → Option (Bytes × Sent)) := (zeroed, fun _ => none)

theorem exec_mount : ((watched numberedCard).exec unwatched (mountUmount.take 2)).isSome = true := by decide

def mounted : Daemon ℕ × (ℕ → Option (Bytes × Sent)) :=
  ((watched numberedCard).exec unwatched (mountUmount.take 2)).get exec_mount

theorem reach_mounted : (watched numberedCard).Reach Machine.always mounted :=
  ⟨unwatched, ⟨3, rfl⟩, Machine.exec_always (Option.some_get exec_mount).symm⟩

theorem requests_answered_mounted : ∃ rx m, mounted.2 0 = some (rx, m) ∧
    Answers (mounted.1.server.sessions 0).peer rx [m] ∧ mounted.1.Repeats numberedCard 1 0 rx m :=
  (requests_answered reach_mounted 1).2 0 (by decide) (by decide)

theorem exec_umount : ((watched numberedCard).exec unwatched mountUmount).isSome = true := by decide

/-- A MOUNT of `..`. -/
def mountParent : Bytes := [0, 0, 0, tnfsMount, tnfsVerLo, tnfsVerHi, 0x2E, 0x2E, 0, 0, 0]

/-- What a client gets for `rx`. -/
def outOf (d : Daemon ℕ) (now : ℕ) (peer : Peer) (rx : Bytes) : List Sent :=
  (run numberedCard d.card (d.server.serve now peer rx)).2.2

/-- The reply to a MOUNT of `..` goes to the zeroed address, and a repeated UMOUNT gets none. -/
theorem mount_misdirected : ∃ x, (watched numberedCard).Reach Machine.always x ∧
    ((x.1.server.reaped 2 tnfsdMaxSessions).Addressed ⟨1, 1⟩ mountParent ∧
      ¬ Answers ⟨1, 1⟩ mountParent (outOf x.1 2 ⟨1, 1⟩ mountParent)) ∧
    x.2 0 = some ([1, 0, 1, tnfsUmount], ⟨⟨1, 1⟩, [1, 0, 1, tnfsUmount, tnfsOk]⟩) ∧
      outOf x.1 2 ⟨1, 1⟩ [1, 0, 1, tnfsUmount] = [] := by
  refine ⟨_, ⟨unwatched, ⟨3, rfl⟩, Machine.exec_always (Option.some_get exec_umount).symm⟩,
    ⟨⟨by decide, .inl rfl⟩, ?_⟩, by decide, by decide⟩
  rintro ⟨m, hout, hpeer, -⟩
  have hzero : m.peer = ⟨0, 0⟩ := by
    have hsent := List.cons.inj (hout.symm.trans
      (show _ = [⟨⟨0, 0⟩, [2, 0, 0, tnfsMount, tnfsEnoent]⟩] by decide))
    rw [hsent.1]
  rw [hzero] at hpeer
  cases hpeer

end Daemon

end FdcSds.Tnfsd
