import FdcSds.Net.Answers
import FdcSds.Net.RemoteFile
import FdcSds.Schemes.Amid

/-! A client of the TNFS server in company.

    The server takes the datagrams of all clients one at a time. What it does for others leaves a client's
    session as it is, and its open file where it stands, unless the client was silent for more than 30 s: then
    the next turn, whoever it is for, reaps the session.

        client ──datagram──▶ turn ──▶ turn for others ──▶ … ──▶ turn ◀── next datagram of the client
                              └──────── 30 s at most ────────────┘            later: session gone -/

namespace FdcSds.Tnfsd
open Schemes Schemes.Runs Prog

variable {σ : Type}

/-! ### Open files on the card -/

/-- How a card that does not fail is documented to treat what is open on it: `file` gives the bytes of the
    file a descriptor is open on, and where it stands. -/
structure Regular (world : σ → (c : SysCall) → σ × c.Answer) (file : σ → ℕ → Option (Bytes × ℕ)) : Prop where
  size : ∀ card fd bs p, file card fd = some (bs, p) → bs.length < 2 ^ 32
  opened : ∀ card path flags fd, (world card (.open path flags)).2 = .ok fd →
    ∃ bs p, file (world card (.open path flags)).1 fd = some (bs, p)
  elsewhere : ∀ card c fd bs p, file card fd = some (bs, p) → c.handle ≠ some (.file fd) →
    ∃ bs', file (world card c).1 fd = some (bs', p)
  close : ∀ card c fd bs p, file card fd = some (bs, p) → c.handle ≠ some (.file fd) →
    c.closes.isSome = true →
    file (world card c).1 fd = some (bs, p)
  read : ∀ card fd n bs p, file card fd = some (bs, p) →
    ∃ p', file (world card (.read fd n)).1 fd = some (bs, p') ∧
    (∀ d, (world card (.read fd n)).2 = .ok d → d <+: bs.drop p ∧ d.length ≤ n ∧ p' = p + d.length) ∧
    (0 < n → p < bs.length → ∃ d, (world card (.read fd n)).2 = .ok d ∧ d ≠ [])
  lseek : ∀ card fd off wh bs p, file card fd = some (bs, p) →
    ∃ p', file (world card (.lseek fd off wh)).1 fd = some (bs, p') ∧
    (wh = .set → (∀ r, (world card (.lseek fd off wh)).2 = .ok r → 0 ≤ off ∧ bs.drop p' = bs.drop off.toNat) ∧
      (0 ≤ off → off ≤ bs.length → ∃ r, (world card (.lseek fd off wh)).2 = .ok r))

/-! ### Turns -/

/-- The server task after a datagram of `peer`, that comes in at `now`. -/
def Daemon.visited (world : σ → (c : SysCall) → σ × c.Answer) (d : Daemon σ) (now : ℕ) (peer : Peer)
    (rx : Bytes) : Daemon σ :=
  let w := run world d.card (d.server.serve now peer (rx.take tnfsMsgCap))
  ⟨true, w.2.1, w.1, d.log ++ serveOps world now peer (rx.take tnfsMsgCap) d.card d.server⟩

/-- What it sends to `me` for it. -/
def Daemon.sentTo (world : σ → (c : SysCall) → σ × c.Answer) (me : Peer) (d : Daemon σ) (now : ℕ)
    (peer : Peer) (rx : Bytes) :
    List Bytes :=
  ((run world d.card (d.server.serve now peer (rx.take tnfsMsgCap))).2.2.filter (·.peer == me)).map Sent.data

/-- The server, and when it last took a datagram of the client. -/
structure Shared (σ : Type) where
  daemon : Daemon σ
  last : Option ℕ

/-- With the replies on their way to the client. -/
structure Company (σ : Type) where
  shared : Shared σ
  inbox : List Bytes

/-- When the next turn may be: the time of the client's last datagram, and the time of the turn. -/
abbrev Pace : Type := Option ℕ → ℕ → Prop

/-- The client was not silent for more than 30 s. -/
def Busy : Pace := fun last now => ∀ t ∈ last, now - t ≤ tnfsdIdleUs

/-- The descriptors in the sessions of `me`. -/
def Daemon.Mine (me : Peer) (d : Daemon σ) (fd : ℕ) : Prop :=
  ∃ i < tnfsdMaxSessions, (d.server.sessions i).inUse = true ∧ (d.server.sessions i).peer = me ∧
    Handle.file fd ∈ (d.server.sessions i).handles

namespace Company

section Steps
variable (world : σ → (c : SysCall) → σ × c.Answer) (file : σ → ℕ → Option (Bytes × ℕ))
    (me : Peer) (pace : Pace)

/-- A turn for a datagram of `peer`. An empty one of nobody is the receive timeout. -/
def visit (s : Company σ) (now : ℕ) (peer : Peer) (rx : Bytes) : Company σ :=
  ⟨⟨s.shared.daemon.visited world now peer rx, s.shared.last⟩,
    s.inbox ++ s.shared.daemon.sentTo world me now peer rx⟩

/-- The files `me` has open have the bytes they had. -/
def Unchanged (s s' : Company σ) : Prop := ∀ fd, s.shared.daemon.Mine me fd → ∀ bs p bs' p',
  file s.shared.daemon.card fd = some (bs, p) → file s'.shared.daemon.card fd = some (bs', p') → bs' = bs

/-- A turn for somebody else, which changes none of the files that `me` has open. -/
def Others (s s' : Company σ) : Prop := ∃ now peer rx, peer ≠ me ∧ pace s.shared.last now ∧
      s' = s.visit world me now peer rx ∧
  s.Unchanged file me s'

/-- The calls of the client: no datagram is lost, and its replies are there in time. -/
def call (now : ℕ) (s : Company σ) : (c : NetCall) → Company σ × c.Answer
  | .send data =>
    (⟨⟨s.shared.daemon.visited world now me data, some now⟩,
      s.inbox ++ s.shared.daemon.sentTo world me now me data⟩, true)
  | .await seq cmd => match s.inbox.dropWhile (!udpMatches seq cmd ·) with
    | [] => (⟨s.shared, []⟩, none)
    | m :: rest => (⟨s.shared, rest⟩, some m)
  | .delay _ => (s, ())

def Own (s : Company σ) (c : NetCall) (s' : Company σ) (r : c.Answer) : Prop :=
  ∃ now, pace s.shared.last now ∧ s.call world me now c = (s', r)

end Steps

end Company

variable {world : σ → (c : SysCall) → σ × c.Answer} {file : σ → ℕ → Option (Bytes × ℕ)}
    {isOpen : σ → Handle → Prop} {me : Peer} {v : Server} {L : Ledger} {card : σ} {i fd p : ℕ} {bs : Bytes}

theorem Daemon.visited_step {d : Daemon σ} (hstarted : d.started = true) (now : ℕ)
    (peer : Peer) (rx : Bytes) :
    d.step world (.datagram now peer rx) = some (d.visited world now peer rx) :=
  when_eq_some.mpr ⟨hstarted, rfl⟩

/-! ### Replies to others -/

/-- A turn answers its sender, or the zeroed address. -/
theorem answer_addressed (now : ℕ) (peer : Peer) (rx : Bytes) (v : Server) :
    (v.answer now peer rx (v.turn peer rx)).Ensures fun r => ∀ m ∈ r.2, m.peer = peer ∨ m.peer = ⟨0, 0⟩ := by
  cases hturn : v.turn peer rx with
  | ignored =>
    rintro m ⟨⟩
  | refused =>
    intro m hm
    exact .inl (congrArg Sent.peer (List.mem_singleton.mp hm))
  | replay i =>
    intro m hm
    rw [List.mem_singleton.mp hm]
    exact .inl (Server.turn_replay hturn).2.2.1
  | mount i =>
    refine (Server.mountIn_recalls now peer rx _ v i (Server.turn_long (by rw [hturn]; rintro ⟨⟩))
      (Server.turn_mount hturn).2.1).mono ?_
    rintro r ⟨m, hout, ⟨m', hone, hpeer, -⟩, -⟩ m₁ hm₁
    rw [hout, List.mem_singleton] at hm₁
    obtain rfl : m = m' := List.singleton_inj.mp hone
    rw [hm₁, hpeer]
    split
    · exact .inr rfl
    · exact .inl rfl
  | run i =>
    obtain ⟨-, -, -, hsid, rfl, -⟩ := Server.turn_run hturn
    refine Ensures.bind ((Server.process_recalls now (v.sessions i)
      rx _ (Server.turn_long (by rw [hturn]; rintro ⟨⟩)) hsid).mono ?_)
    rintro ⟨s, out⟩ ⟨m, rfl, ⟨m', hone, hpeer, -⟩, -⟩ m₁ hm₁
    obtain rfl : m = m' := List.singleton_inj.mp hone
    rw [List.mem_singleton.mp hm₁]
    exact .inl hpeer

/-- Nothing is sent to a client for the datagram of another. -/
theorem Daemon.sentTo_other (d : Daemon σ) {now : ℕ} {peer : Peer} {rx : Bytes} (hpeer : peer ≠ me)
    (hme : me ≠ ⟨0, 0⟩) :
    d.sentTo world me now peer rx = [] := by
  have haddressed := (answer_addressed now peer (rx.take tnfsMsgCap)
    (d.server.reaped now tnfsdMaxSessions)).run world
    (run world d.card (Server.reapIdle now tnfsdMaxSessions d.server)).1
  have hreaped := (Server.reapIdle_reaped now tnfsdMaxSessions d.server).run world d.card
  rw [Daemon.sentTo, Server.serve, run_bind, hreaped, List.map_eq_nil_iff, List.filter_eq_nil_iff]
  intro m hm
  rw [beq_iff_eq]
  rintro rfl
  rcases haddressed m hm with h | h
  · exact hpeer h.symm
  · exact hme h

/-! ### What a turn for others leaves alone -/

/-- What every call of a kind keeps that is not on a descriptor, such calls keep that are made for a slot that
    does not hold it. -/
theorem Ledger.Backed.spares {α : Type} {q : Sys α} {k : ℕ} {I : σ → Prop} {M : SysCall → Prop}
    (hkeep : ∀ card c, I card → c.handle ≠ some (.file fd) → M c → I (world card c).1)
    (hos : HandsOut world isOpen) (hb : L.Backed isOpen card)
    (hallow : custody.Allows (L k) (q.trace world card)) (hkind : ∀ op ∈ q.trace world card, M op.1)
    (hk : k ≠ i) (hheld : Handle.file fd ∈ L i) (hcard : I card) : I (run world card q).1 := by
  induction q generalizing L card with
  | ret a => exact hcard
  | call c rest ih =>
    -- the descriptor is in slot `i`, so the call for slot `k` is on something else
    have hother : c.handle ≠ some (.file fd) :=
      fun hsame => hk (hb.exclusive.apart k i _ (hallow.1 _ hsame) hheld)
    have hnow := hkind _ List.mem_cons_self
    refine ih _ (hb.call hos hallow.1) ?_ (fun op hop => hkind op (List.mem_cons_of_mem _ hop)) ?_
      (hkeep card c hcard hother hnow)
    · rw [Function.update_self]
      exact hallow.2
    · rwa [Function.update_of_ne hk.symm]

/-- Freeing a session only closes. -/
theorem freeSession_closes (s : Session) (card : σ) : ∀ op ∈ (freeSession s).trace world card,
      op.1.closes.isSome = true := by
  have files : ∀ n card, ∀ op ∈ (closeFiles s n).trace world card, op.1.closes.isSome = true := by
    intro n
    induction n with
    | zero =>
      rintro card op ⟨⟩
    | succ n ih =>
      intro card op hop
      rw [closeFiles, trace_bind, List.mem_append] at hop
      rcases hop with hop | hop
      · exact ih card op hop
      · split at hop
        · rw [List.mem_singleton.mp hop]
          rfl
        · cases hop
  have dirs : ∀ n card, ∀ op ∈ (closeDirs s n).trace world card, op.1.closes.isSome = true := by
    intro n
    induction n with
    | zero =>
      rintro card op ⟨⟩
    | succ n ih =>
      intro card op hop
      rw [closeDirs, trace_bind, List.mem_append] at hop
      rcases hop with hop | hop
      · exact ih card op hop
      · split at hop
        · rw [List.mem_singleton.mp hop]
          rfl
        · cases hop
  intro op hop
  rw [freeSession, trace_bind, trace_bind, trace_pure, List.append_nil, List.mem_append] at hop
  exact hop.elim (files _ _ op) (dirs _ _ op)

/-- What the sessions hold is in the books, and open. -/
structure Server.Backed (isOpen : σ → Handle → Prop) (v : Server) (card : σ) : Prop where
  ids : v.Ids
  clean : v.Clean
  booked : ∃ L : Ledger, L.Matches v ∧ L.Backed isOpen card

/-- A program run for another slot. -/
theorem Server.Backed.slot_spares {α : Type} {q : Sys α} {k : ℕ} {Q : Multiset Handle → α → Prop}
    {I : σ → Prop} {M : SysCall → Prop}
    (hkeep : ∀ card c, I card → c.handle ≠ some (.file fd) → M c → I (world card c).1)
    (hos : HandsOut world isOpen) (hv : v.Backed isOpen card)
    (hobeys : custody.Obeys (v.sessions k).handles q Q) (hkind : ∀ op ∈ q.trace world card, M op.1)
    (hk : k < tnfsdMaxSessions) (hi : i < tnfsdMaxSessions) (hki : k ≠ i)
    (hheld : Handle.file fd ∈ (v.sessions i).handles) (hcard : I card) : I (run world card q).1 := by
  obtain ⟨L, hm, hb⟩ := hv.booked
  have hkept : custody.KeptBy world fun _ _ => True := fun _ _ _ _ _ => ⟨trivial, trivial⟩
  rw [← hm k hk] at hobeys
  rw [← hm i hi] at hheld
  exact hb.spares hkeep hos (hobeys.sound (s := card) hkept trivial).1 hkind hki hheld hcard

/-- Reaping keeps the books. -/
theorem Server.Backed.reapIdle (hos : HandsOut world isOpen) (hv : v.Backed isOpen card) (now : ℕ)
    {n : ℕ} (hn : n ≤ tnfsdMaxSessions) :
    ((run world card (Server.reapIdle now n v)).2).Backed isOpen
      (run world card (Server.reapIdle now n v)).1 := by
  obtain ⟨L, hm, hb⟩ := hv.booked
  have hreaped := (Server.reapIdle_reaped now n v).run world card
  have hfreed := Server.reaped_freed now n v
  have hops : Booked world L card (Daemon.reapOps world now n card v) _ _ := Daemon.reapOps_booked hn hm
  exact ⟨hreaped ▸ hv.ids.freed hfreed, hreaped ▸ hv.clean.freed hfreed, _, hops.matched, hops.backed hos hb⟩

/-- Reaping leaves alone a session that was not idle for too long. -/
theorem reaped_recent {now : ℕ} (hrecent : now - (v.sessions i).lastActiveUs ≤ tnfsdIdleUs) (n : ℕ) :
    (v.reaped now n).sessions i = v.sessions i := by
  rcases Server.reaped_idle now n v i with hsame | ⟨-, hidle⟩
  · exact hsame
  · exact absurd hidle (Nat.not_lt.mpr hrecent)

/-- Reaping only closes. -/
theorem reapIdle_closes (now n : ℕ) (v : Server) (card : σ) :
    ∀ op ∈ (Server.reapIdle now n v).trace world card, op.1.closes.isSome = true := by
  induction n with
  | zero =>
    rintro op ⟨⟩
  | succ n ih =>
    intro op hop
    rw [Server.reapIdle, trace_bind, List.mem_append] at hop
    rcases hop with hop | hop
    · exact ih op hop
    · split at hop
      · rw [trace_bind, trace_pure, List.append_nil] at hop
        exact freeSession_closes _ _ op hop
      · cases hop

/-- And what it has open: what every closing of something else keeps, reaping keeps. -/
theorem Server.Backed.reapIdle_spares {I : σ → Prop} (hos : HandsOut world isOpen)
    (hv : v.Backed isOpen card) {now n : ℕ}
    (hclose : ∀ card c, I card → c.handle ≠ some (.file fd) → c.closes.isSome = true →
      I (world card c).1) (hn : n ≤ tnfsdMaxSessions) (hi : i < tnfsdMaxSessions)
    (hrecent : now - (v.sessions i).lastActiveUs ≤ tnfsdIdleUs)
    (hheld : Handle.file fd ∈ (v.sessions i).handles) (hcard : I card) :
    I (run world card (Server.reapIdle now n v)).1 := by
  induction n with
  | zero => exact hcard
  | succ n ih =>
    have hnext := ih (Nat.le_of_succ_le hn)
    have hw := hv.reapIdle hos now (Nat.le_of_succ_le hn)
    have hreaped := (Server.reapIdle_reaped now n v).run world card
    have hsame := reaped_recent hrecent n
    rw [Server.reapIdle, run_bind]
    generalize run world card (Server.reapIdle now n v) = w at hnext hw hreaped
    rw [← hreaped] at hsame
    split
    · next hidle =>
      have hni : n ≠ i := by
        rintro rfl
        rw [hsame, Bool.and_eq_true, decide_eq_true_eq] at hidle
        exact absurd hidle.2 (Nat.not_lt.mpr hrecent)
      rw [run_bind, run_pure]
      exact hw.slot_spares hclose hos (freeSession_obeys _) (freeSession_closes _ _) hn hi hni
        (hsame ▸ hheld) hnext
    · exact hnext

/-- A turn for a datagram of another leaves alone what a session has open that was not idle for too long: what
    every call on something else keeps, it keeps. -/
theorem Server.Backed.serve_spares {I : σ → Prop} (hos : HandsOut world isOpen)
    (hv : v.Backed isOpen card) (hkeep : ∀ card c, I card → c.handle ≠ some (.file fd) →
      I (world card c).1) (now : ℕ) (peer : Peer) (rx : Bytes) (hi : i < tnfsdMaxSessions)
    (hlive : (v.sessions i).inUse = true) (hpeer : (v.sessions i).peer ≠ peer)
    (hrecent : now - (v.sessions i).lastActiveUs ≤ tnfsdIdleUs)
    (hheld : Handle.file fd ∈ (v.sessions i).handles) (hcard : I card) :
    I (run world card (v.serve now peer rx)).1 := by
  have hnext := hv.reapIdle_spares hos (fun card c hI hother _ => hkeep card c hI hother)
    le_rfl hi hrecent hheld hcard
  have hw := hv.reapIdle hos now (le_refl tnfsdMaxSessions)
  have hreaped := (Server.reapIdle_reaped now tnfsdMaxSessions v).run world card
  have hsame := reaped_recent hrecent tnfsdMaxSessions
  rw [Server.serve, run_bind]
  generalize run world card (Server.reapIdle now tnfsdMaxSessions v) = w at hnext hw hreaped
  rw [← hreaped] at hsame
  have hsettled := answer_settled now peer rx w.2 (w.2.turn peer rx)
  cases hturn : w.2.turn peer rx with
  | ignored | refused | replay => exact hnext
  | mount k =>
    obtain ⟨hk, -, hfree⟩ := Server.turn_mount hturn
    rw [hturn] at hsettled
    refine hw.slot_spares (M := fun _ => True) (k := k)
      (fun card c hI hother _ => hkeep card c hI hother) hos hsettled
      (fun _ _ => trivial) hk hi ?_ (hsame ▸ hheld) hnext
    rintro rfl
    rw [hsame, hlive] at hfree
    cases hfree
  | run k =>
    obtain ⟨hk, -, -, -, hsender, -⟩ := Server.turn_run hturn
    rw [hturn] at hsettled
    refine hw.slot_spares (M := fun _ => True) (k := k)
      (fun card c hI hother _ => hkeep card c hI hother) hos hsettled
      (fun _ _ => trivial) hk hi ?_ (hsame ▸ hheld) hnext
    rintro rfl
    exact hpeer (hsame ▸ hsender)

/-- And the session itself. -/
theorem Server.serve_same (world : σ → (c : SysCall) → σ × c.Answer) (card : σ) (now : ℕ) (peer : Peer)
    (rx : Bytes) (hlive : (v.sessions i).inUse = true) (hpeer : (v.sessions i).peer ≠ peer)
    (hrecent : now - (v.sessions i).lastActiveUs ≤ tnfsdIdleUs) :
    (run world card (v.serve now peer rx)).2.1.sessions i = v.sessions i := by
  rcases (Server.serve_isolated now peer rx v).run world card i hlive hpeer with hsame | ⟨hidle, -⟩
  · exact hsame
  · exact absurd hidle (Nat.not_lt.mpr hrecent)

/-! ### A session among others -/

/-- The task is running. -/
structure Daemon.Up (world : σ → (c : SysCall) → σ × c.Answer) (d : Daemon σ) : Prop where
  reach : (machine world).Reach Machine.always d
  started : d.started = true

theorem Daemon.Up.visited {d : Daemon σ} (h : d.Up world) (now : ℕ) (peer : Peer) (rx : Bytes) :
    (d.visited world now peer rx).Up world :=
  ⟨h.reach.step (a := .datagram now peer rx) trivial (visited_step h.started now peer rx), rfl⟩

theorem Daemon.Up.backed {d : Daemon σ} (h : d.Up world) (hos : HandsOut world isOpen) :
    d.server.Backed isOpen d.card := by
  obtain ⟨hids, hclean⟩ := reach_table h.reach
  rcases reach_accounts hos h.reach with ⟨hno, -⟩ | ⟨-, rest, hacc⟩
  · rw [h.started] at hno
    cases hno
  · exact ⟨hids, hclean h.started, _, hacc.matched, hacc.backed⟩

/-- The session in slot `i` is one of `me`. -/
structure Daemon.Hosts (world : σ → (c : SysCall) → σ × c.Answer) (me : Peer) (d : Daemon σ) (i : ℕ)
    (t : Session) : Prop where
  up : d.Up world
  slot_lt : i < tnfsdMaxSessions
  slot : d.server.sessions i = t
  live : t.inUse = true
  peer : t.peer = me

/-- And it was last active when `me` last sent something. -/
structure Shared.Has (world : σ → (c : SysCall) → σ × c.Answer) (me : Peer) (s : Shared σ)
    (i : ℕ) (t : Session) : Prop
    extends s.daemon.Hosts world me i t where
  last : s.last = some t.lastActiveUs

variable {s s' : Company σ} {t : Session}

section Keeping
variable {κ : Type} {files : σ → ℕ → Option (κ × ℕ)} {card card' card'' : σ}

/-- What the session has open is open on what it was, and stands where it stood. -/
def Kept (files : σ → ℕ → Option (κ × ℕ)) (t : Session) (card card' : σ) : Prop :=
  ∀ fd k p, Handle.file fd ∈ t.handles → files card fd = some (k, p) → files card' fd = some (k, p)

theorem Kept.refl (t : Session) (card : σ) : Kept files t card card := fun _ _ _ _ hfile => hfile

theorem Kept.trans (h : Kept files t card card') (h' : Kept files t card' card'') :
    Kept files t card card'' :=
  fun fd k p hheld hfile => h' fd k p hheld (h fd k p hheld hfile)

/-- What the handle of `f` is open on. -/
def Daemon.openOn (files : σ → ℕ → Option (κ × ℕ)) (me : Peer) (d : Daemon σ) (f : TnfsFile) : Option κ :=
  (d.server.findSession f.conn me).bind fun i => ((d.server.sessions i).file f.fd).bind fun fd =>
    (files d.card fd).map Prod.fst

theorem Daemon.Hosts.openOn {d : Daemon σ} {f : TnfsFile} {k : κ} (h : d.Hosts world me i t)
    (hsid : t.sid = f.conn) (hfd : t.file f.fd = some fd) (hfile : files d.card fd = some (k, p)) :
    d.openOn files me f = some k := by
  have hids := (Daemon.reach_table h.up.reach).1
  have hslot := h.slot
  have hfind : d.server.findSession f.conn me = some i := by
    have hfind := Server.findSession_of hids h.slot_lt (by rw [hslot, h.live])
    rwa [hslot, hsid, h.peer] at hfind
  rw [Daemon.openOn, hfind, Option.bind_some, hslot, hfd, Option.bind_some, hfile, Option.map_some]

end Keeping

theorem Shared.Has.mine {s : Shared σ} (h : s.Has world me i t) (hheld : Handle.file fd ∈ t.handles) :
    s.daemon.Mine me fd :=
  ⟨i, h.slot_lt, h.slot ▸ h.live, h.slot ▸ h.peer, h.slot ▸ hheld⟩

namespace Company

theorem Others.inbox {pace : Pace} (hme : me ≠ ⟨0, 0⟩) (h : s.Others world file me pace s') :
    s'.inbox = s.inbox := by
  obtain ⟨now, peer, rx, hpeer, -, rfl, -⟩ := h
  rw [visit, Daemon.sentTo_other _ hpeer hme, List.append_nil]

theorem Others.up {pace : Pace} (h : s.Others world file me pace s') (hup : s.shared.daemon.Up world) :
    s'.shared.daemon.Up world := by
  obtain ⟨now, peer, rx, -, -, rfl, -⟩ := h
  exact hup.visited now peer rx

/-- A turn for somebody else leaves the session as it is, and what it has open. -/
theorem Others.has (hfs : Regular world file) (hos : HandsOut world isOpen)
    (h : s.Others world file me Busy s') (hhas : s.shared.Has world me i t) :
    s'.shared.Has world me i t ∧ Kept file t s.shared.daemon.card s'.shared.daemon.card := by
  obtain ⟨now, peer, rx, hpeer, hpace, rfl, hunchanged⟩ := h
  have hrecent : now - t.lastActiveUs ≤ tnfsdIdleUs := hpace _ hhas.last
  have hslot := hhas.slot
  subst hslot
  have hsame := Server.serve_same world s.shared.daemon.card now peer (rx.take tnfsMsgCap) hhas.live
    (by rw [hhas.peer]; exact hpeer.symm) hrecent
  refine ⟨⟨⟨hhas.up.visited now peer rx, hhas.slot_lt, hsame, hhas.live, hhas.peer⟩, hhas.last⟩,
    fun fd bs p hheld hfile => ?_⟩
  have hkeep : ∀ card c, (∃ bs', file card fd = some (bs', p)) → c.handle ≠ some (.file fd) →
      ∃ bs', file (world card c).1 fd = some (bs', p) := by
    rintro card c ⟨bs', hfile'⟩ hother
    exact hfs.elsewhere card c fd bs' p hfile' hother
  obtain ⟨bs', hnext⟩ := (hhas.up.backed hos).serve_spares hos hkeep now peer (rx.take tnfsMsgCap)
    hhas.slot_lt hhas.live
    (by rw [hhas.peer]; exact hpeer.symm) hrecent hheld ⟨bs, hfile⟩
  have hbytes : bs' = bs := hunchanged fd (hhas.mine hheld) bs p bs' p hfile hnext
  rw [← hbytes]
  exact hnext

end Company

/-- What the server makes of a command of the session: it runs a new one, and a repetition it does not run. -/
theorem turn_held (hids : v.Ids) (hi : i < tnfsdMaxSessions) (hlive : (v.sessions i).inUse = true)
    {f : TnfsFile} {cmd : UInt8} (hsid : (v.sessions i).sid = f.conn) (hcmd : cmd ≠ tnfsMount) (pl : Bytes) :
    ((v.sessions i).Keyed f.seq cmd → v.turn (v.sessions i).peer (f.request cmd pl) = .replay i) ∧
      (¬ (v.sessions i).Keyed f.seq cmd → v.turn (v.sessions i).peer (f.request cmd pl) = .run i) := by
  have hop : (f.request cmd pl).getD 3 0 = cmd := rfl
  have hseq : (f.request cmd pl).getD 2 0 = f.seq := rfl
  have hword : UInt16.ofNat (word (f.request cmd pl) 0) = f.conn := Reply.word_header pl
  have hkeyed : ((v.sessions i).haveReply && (v.sessions i).lastSeq == f.seq &&
    (v.sessions i).lastCmd == cmd) = true ↔
      (v.sessions i).Keyed f.seq cmd := by
    simp only [Bool.and_eq_true, beq_iff_eq]
    exact ⟨fun h => ⟨h.1.1, h.1.2, h.2⟩, fun h => ⟨⟨h.have_reply, h.seq⟩, h.cmd⟩⟩
  rw [Server.turn, if_neg (request_long f cmd pl), hop, if_neg hcmd, hword, ← hsid,
    Server.findSession_of hids hi hlive, hseq]
  exact ⟨fun h => if_pos (hkeyed.mpr h), fun h => if_neg (mt hkeyed.mp h)⟩

/-- The card once the idle sessions are reaped. -/
def Daemon.reapedCard (world : σ → (c : SysCall) → σ × c.Answer) (d : Daemon σ) (now : ℕ) : σ :=
  (run world d.card (Server.reapIdle now tnfsdMaxSessions d.server)).1

section Turns
variable {d : Daemon σ} {f : TnfsFile} {cmd : UInt8} {pl : Bytes} {now : ℕ}

/-- The turn for a command of a session that was not idle for too long. -/
theorem Daemon.Hosts.turn (h : d.Hosts world me i t) (hrecent : now - t.lastActiveUs ≤ tnfsdIdleUs)
    (hsid : t.sid = f.conn) (hcmd : cmd ≠ tnfsMount) (pl : Bytes) :
    (d.server.reaped now tnfsdMaxSessions).sessions i = t ∧
      (t.Keyed f.seq cmd → (d.server.reaped now tnfsdMaxSessions).turn me (f.request cmd pl) = .replay i) ∧
      (¬ t.Keyed f.seq cmd → (d.server.reaped now tnfsdMaxSessions).turn me (f.request cmd pl) = .run i) := by
  have hslot := h.slot
  subst hslot
  have hsame := reaped_recent hrecent tnfsdMaxSessions
  have hids := (reach_table h.up.reach).1.freed (Server.reaped_freed now tnfsdMaxSessions d.server)
  have hturn := turn_held hids h.slot_lt (by rw [hsame, h.live]) (by rw [hsame, hsid]) hcmd pl
  rw [hsame, h.peer] at hturn
  exact ⟨hsame, hturn⟩

theorem ranSession_files (world : σ → (c : SysCall) → σ × c.Answer) (f : TnfsFile) (cmd : UInt8)
    (pl : Bytes) (card : σ) (t : Session) (now : ℕ) : (ranSession world f cmd pl card t now).files =
      (run world card (handle t cmd pl)).2.1.files := rfl

/-- A new command is run. -/
theorem Daemon.Hosts.ran (h : d.Hosts world me i t) (hrecent : now - t.lastActiveUs ≤ tnfsdIdleUs)
    (hsid : t.sid = f.conn) (hnew : ¬ t.Keyed f.seq cmd) (hcmd : cmd ≠ tnfsMount)
    (hrun : cmd ≠ tnfsUmount) (hlen : tnfsHdrLen + pl.length ≤ tnfsMsgCap) :
    (d.visited world now me (f.request cmd pl)).card =
      (run world (d.reapedCard world now) (handle t cmd pl)).1 ∧
      (d.visited world now me (f.request cmd pl)).Hosts world me i
        (ranSession world f cmd pl (d.reapedCard world now) t now) ∧
      d.sentTo world me now me (f.request cmd pl) = [ranReply world f cmd pl (d.reapedCard world now) t] := by
  obtain ⟨hsame, -, hturn⟩ := h.turn hrecent hsid hcmd pl
  specialize hturn hnew
  have hframed := ranSession_framed world f cmd pl (d.reapedCard world now) t now
  have hpayload : (f.request cmd pl).drop tnfsHdrLen = pl := rfl
  have hop : (f.request cmd pl).getD 3 0 = cmd := rfl
  have hseq : (f.request cmd pl).getD 2 0 = f.seq := rfl
  have hserve : run world d.card (d.server.serve now me (f.request cmd pl)) =
      ((run world (d.reapedCard world now) (handle t cmd pl)).1,
        (d.server.reaped now tnfsdMaxSessions).setSession i
          (ranSession world f cmd pl (d.reapedCard world now) t now),
        [⟨me, ranReply world f cmd pl (d.reapedCard world now) t⟩]) := by
    have hreaped := (Server.reapIdle_reaped now tnfsdMaxSessions d.server).run world d.card
    rw [← hreaped] at hturn
    rw [← hreaped] at hsame
    rw [Server.serve, run_bind, hturn, Server.answer, run_bind, hpayload, hop, hseq, hsame,
      run_process_ran hrun, ranSession_reply hsid]
    change (_, _, [(⟨(ranSession world f cmd pl (d.reapedCard world now) t now).peer, _⟩ : Sent)]) = _
    rw [hframed.2.2.1, h.peer, hreaped]
    rfl
  rw [Daemon.sentTo, Daemon.visited, request_take hlen, hserve]
  refine ⟨rfl, ⟨?_, h.slot_lt, Server.setSession_self .., hframed.1.trans h.live,
    hframed.2.2.1.trans h.peer⟩, by simp⟩
  have hup := h.up.visited now me (f.request cmd pl)
  rwa [Daemon.visited, request_take hlen, hserve] at hup

end Turns

/-- The server's turn for a command of the client's session. -/
theorem Shared.Has.own_turn (hfs : Regular world file) (hos : HandsOut world isOpen) {s : Shared σ}
    (h : s.Has world me i t) {f : TnfsFile} {cmd : UInt8} {pl : Bytes} (hsid : t.sid = f.conn)
    (hkey : t.lastSeq + 1 = f.seq) (hcmd : cmd ≠ tnfsMount) (hrun : cmd ≠ tnfsUmount)
    (hlen : tnfsHdrLen + pl.length ≤ tnfsMsgCap) {now : ℕ} (hbusy : Busy s.last now) :
    ∃ card', Kept file t s.daemon.card card' ∧
      (s.daemon.visited world now me (f.request cmd pl)).card = (run world card' (handle t cmd pl)).1 ∧
      (s.daemon.visited world now me (f.request cmd pl)).Hosts world me i
        (ranSession world f cmd pl card' t now) ∧
      s.daemon.sentTo world me now me (f.request cmd pl) = [ranReply world f cmd pl card' t] := by
  have hslot := h.slot
  have hrecent : now - t.lastActiveUs ≤ tnfsdIdleUs := hbusy _ h.last
  have hnew : ¬ t.Keyed f.seq cmd := by
    intro hkeyed
    rw [hkeyed.seq] at hkey
    simp at hkey
  refine ⟨s.daemon.reapedCard world now, fun fd bs p hheld hfile =>
    ?_, h.toHosts.ran hrecent hsid hnew hcmd hrun hlen⟩
  subst hslot
  exact (h.up.backed hos).reapIdle_spares (I := fun card => file card fd = some (bs, p)) hos
    (fun card c => hfs.close card c fd bs p) le_rfl h.slot_lt hrecent hheld hfile

end FdcSds.Tnfsd
