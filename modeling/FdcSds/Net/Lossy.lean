import FdcSds.Net.Company

/-! A client whose datagrams, and the replies to them, may be lost.

    A command is sent again until a reply to it comes, and the server runs it once: what comes again it
    answers from its cache. When no reply comes the sequence byte stays, and the next command gets it, too.
    The server takes that one for a repetition if it is of the kind it ran last.

        command ──lost──▶ again ──▶ ran ──reply lost──▶ again ──cached reply──▶ next byte
                                     └──replies lost, all──▶ failed: same byte ──▶ another command -/

namespace FdcSds.Tnfsd
open Schemes Schemes.Runs Prog

variable {σ κ : Type}

/-- How a card is documented to treat what is open on it, where calls may fail: `files` gives the file that a
    descriptor is open on, not for appending, and where it stands; `bytes` is what a file holds. -/
structure Storing (world : σ → (c : SysCall) → σ × c.Answer) (files : σ → ℕ → Option (κ × ℕ))
    (bytes : σ → κ → Bytes) : Prop where
  size : ∀ card k, (bytes card k).length < 2 ^ 32
  opened : ∀ card path flags fd, flags.append = false → (world card (.open path flags)).2 = .ok fd →
    ∃ k p, files (world card (.open path flags)).1 fd = some (k, p)
  elsewhere : ∀ card c fd k p, files card fd = some (k, p) → c.handle ≠ some (.file fd) →
    files (world card c).1 fd = some (k, p)
  close : ∀ card c k, c.closes.isSome = true → bytes (world card c).1 k = bytes card k
  read : ∀ card fd n k p, files card fd = some (k, p) →
    ∃ p', files (world card (.read fd n)).1 fd = some (k, p') ∧
    bytes (world card (.read fd n)).1 k = bytes card k ∧
    ∀ d, (world card (.read fd n)).2 = .ok d → d <+: (bytes card k).drop p ∧ d.length ≤ n ∧ p' = p + d.length
  lseek : ∀ card fd off wh k p, files card fd = some (k, p) →
    ∃ p', files (world card (.lseek fd off wh)).1 fd = some (k, p') ∧
    (wh = .set → ∀ r, (world card (.lseek fd off wh)).2 = .ok r → 0 ≤ off ∧ p' = off.toNat ∧
      Extended (bytes card k) p' (bytes (world card (.lseek fd off wh)).1 k))
  write : ∀ card fd data k p, files card fd = some (k, p) →
    ∃ p', files (world card (.write fd data)).1 fd = some (k, p') ∧
    ∀ n, (world card (.write fd data)).2 = .ok n → n ≤ data.length ∧ p' = p + n ∧
      Overwritten (bytes card k) p (data.take n) (bytes (world card (.write fd data)).1 k)

/-! ### The line -/

/-- The server, and the last datagram of the client that got through to it. -/
structure Host (σ : Type) where
  daemon : Daemon σ
  heard : Option Bytes

/-- With the replies on their way to the client. -/
structure Line (σ : Type) where
  host : Host σ
  inbox : List Bytes

/-- What may get through: in this state, at this time, this datagram. -/
abbrev Passage (σ : Type) : Type := Host σ → ℕ → Bytes → Prop

/-- What the server takes for a repetition is one: a copy of what got through last. -/
def Recognised (me : Peer) : Passage σ := fun h now data =>
  ∀ i, (h.daemon.server.reaped now tnfsdMaxSessions).turn me (data.take tnfsMsgCap) = .replay i →
    h.heard = some data

namespace Line

section Steps
variable (world : σ → (c : SysCall) → σ × c.Answer) (bytes : σ → κ → Bytes) (me : Peer)
    (k : κ) (pass : Passage σ)

/-- The server's turn for a datagram of the client. -/
def took (h : Host σ) (now : ℕ) (data : Bytes) : Host σ := ⟨h.daemon.visited world now me data, some data⟩

/-- Of what is sent to the client, some is lost. -/
def Gets (s : Line σ) (h : Host σ) (sent : List Bytes) (s' : Line σ) : Prop :=
  ∃ got, got.Sublist sent ∧ s' = ⟨h, s.inbox ++ got⟩

/-- What the server does for somebody else, or when the link is down. It leaves the file `k` as it is. -/
def Others (s s' : Line σ) : Prop := bytes s'.host.daemon.card k = bytes s.host.daemon.card k ∧
  ((∃ now peer rx, peer ≠ me ∧ s.Gets ⟨s.host.daemon.visited world now peer rx, s.host.heard⟩
      (s.host.daemon.sentTo world me now peer rx) s') ∨
    ∃ d, s.host.daemon.step world .linkDown = some d ∧ s' = ⟨⟨d, s.host.heard⟩, s.inbox⟩)

/-- The calls of the client: a datagram is lost, or it gets through. -/
def Own (s : Line σ) : (c : NetCall) → Line σ → c.Answer → Prop
  | .send data, s', sent => s' = s ∨
    (sent = true ∧ ∃ now, pass s.host now data ∧ s.Gets (took world me s.host now data)
      (s.host.daemon.sentTo world me now me data) s')
  | .await seq cmd, s', answer => match s.inbox.dropWhile (!udpMatches seq cmd ·) with
    | [] => s' = ⟨s.host, []⟩ ∧ answer = none
    | m :: rest => s' = ⟨s.host, rest⟩ ∧ answer = some m
  | .delay _, s', _ => s' = s

/-- A program of the client `me`, played amid the others. -/
abbrev Runs {α : Type} : Line σ → Net α → Line σ → α → Prop :=
  Prog.Amid (Others world bytes me k) (Own world me pass)

end Steps

end Line

variable {world : σ → (c : SysCall) → σ × c.Answer} {files : σ → ℕ → Option (κ × ℕ)}
    {bytes : σ → κ → Bytes} {isOpen : σ → Handle → Prop} {me : Peer} {k : κ} {conn : UInt16}
    {v v' : Server} {d d' : Daemon σ} {i : ℕ} {t : Session}

/-! ### Sessions that are gone -/

/-- No session is `conn` of `me`. -/
def Server.Lacks (v : Server) (me : Peer) (conn : UInt16) : Prop :=
  ∀ i < tnfsdMaxSessions, (v.sessions i).inUse = true → (v.sessions i).peer = me → (v.sessions i).sid ≠ conn

theorem Server.Lacks.freed (h : v.Lacks me conn) (hf : v.Freed v') : v'.Lacks me conn := by
  intro i hi hlive
  have hsame := hf.of_inUse hlive
  rw [hsame] at hlive ⊢
  exact h i hi hlive

/-- It comes back with no datagram but a MOUNT of `me`. -/
theorem Server.Lacks.effect {peer : Peer} {rx : Bytes} (h : v.Lacks me conn)
    (heff : v.Effect peer rx (v.turn peer rx) v') (hother : peer ≠ me ∨ rx.getD 3 0 ≠ tnfsMount) :
    v'.Lacks me conn := by
  intro i hi hlive hpeer
  cases hturn : v.turn peer rx with
  | ignored | refused | replay =>
    rw [hturn] at heff
    obtain ⟨hsame, -⟩ := heff i
    rw [hsame.inUse] at hlive
    rw [hsame.peer] at hpeer
    rw [hsame.sid]
    exact h i hi hlive hpeer
  | mount j =>
    rw [hturn] at heff
    by_cases hij : i = j
    · subst hij
      obtain ⟨-, hop, -⟩ := Server.turn_mount hturn
      exact absurd hop (hother.resolve_left (not_not.mpr ((heff.2 hlive).2.symm.trans hpeer)))
    · rw [heff.1 i hij] at hlive hpeer ⊢
      exact h i hi hlive hpeer
  | run j =>
    rw [hturn] at heff
    by_cases hij : i = j
    · subst hij
      obtain ⟨hsame, -⟩ := heff.2 hlive
      rw [hsame.inUse] at hlive
      rw [hsame.peer] at hpeer
      rw [hsame.sid]
      exact h i hi hlive hpeer
    · rw [heff.1 i hij] at hlive hpeer ⊢
      exact h i hi hlive hpeer

theorem Server.Lacks.visited (h : d.server.Lacks me conn) (now : ℕ) {peer : Peer} {rx : Bytes}
    (hother : peer ≠ me ∨ (rx.take tnfsMsgCap).getD 3 0 ≠ tnfsMount) :
    (d.visited world now peer rx).server.Lacks me conn :=
  (h.freed (Server.reaped_freed now tnfsdMaxSessions d.server)).effect
    ((Server.serve_effect now peer (rx.take tnfsMsgCap) d.server).run world d.card) hother

/-- Its datagrams are ignored. -/
theorem Server.Lacks.turn {rx : Bytes} (h : v.Lacks me (UInt16.ofNat (word rx 0)))
    (hcmd : rx.getD 3 0 ≠ tnfsMount) :
    v.turn me rx = .ignored := by
  have hnone : v.findSession (UInt16.ofNat (word rx 0)) me = none := by
    unfold Server.findSession
    split
    · rfl
    · refine List.find?_eq_none.mpr fun i hi => ?_
      rw [Bool.and_eq_true, Bool.and_eq_true, beq_iff_eq, beq_iff_eq]
      rintro ⟨⟨hlive, hsid⟩, hpeer⟩
      exact h i (List.mem_range.mp hi) hlive hpeer hsid
  rw [Server.turn, if_neg hcmd, hnone]
  split <;> rfl

/-- A session that was idle for too long is reaped. -/
theorem Server.reaped_zero {now n : ℕ} (hi : i < n) (hlive : (v.sessions i).inUse = true)
    (hidle : tnfsdIdleUs < now - (v.sessions i).lastActiveUs) : (v.reaped now n).sessions i = .zero := by
  induction n with
  | zero => cases hi
  | succ n ih =>
    rw [Server.reaped]
    by_cases hin : i = n
    · subst hin
      rcases Server.reaped_freed now i v i with hsame | hzero
      · rw [if_pos (by rw [hsame, hlive, decide_eq_true hidle]; rfl), Server.setSession_self]
      · rw [if_neg (by rw [hzero]; simp [Session.zero]), hzero]
    · split
      · rw [Server.setSession_of_ne _ hin]
        exact ih (by omega)
      · exact ih (by omega)

theorem Daemon.Hosts.lacks (h : d.Hosts world me i t) {now : ℕ} (hidle : tnfsdIdleUs < now - t.lastActiveUs) :
    (d.server.reaped now tnfsdMaxSessions).Lacks me t.sid := by
  have hslot := h.slot
  subst hslot
  have hids := (reach_table h.up.reach).1
  rintro j hj hlive - hsid
  have hsame := (Server.reaped_freed now tnfsdMaxSessions d.server).of_inUse hlive
  by_cases hji : j = i
  · subst hji
    rw [Server.reaped_zero hj h.live hidle] at hlive
    cases hlive
  · rw [hsame] at hlive hsid
    exact hids.distinct j hj i h.slot_lt hji hlive h.live hsid

/-! ### What others do -/

namespace Line

variable {s s' : Line σ}

theorem Others.inbox (hme : me ≠ ⟨0, 0⟩) (h : s.Others world bytes me k s') : s'.inbox = s.inbox := by
  obtain ⟨-, ⟨now, peer, rx, hpeer, got, hgot, rfl⟩ | ⟨d, -, rfl⟩⟩ := h
  · rw [Daemon.sentTo_other _ hpeer hme, List.sublist_nil] at hgot
    rw [hgot, List.append_nil]
  · rfl

theorem Others.heard (h : s.Others world bytes me k s') : s'.host.heard = s.host.heard := by
  obtain ⟨-, ⟨now, peer, rx, -, got, -, rfl⟩ | ⟨d, -, rfl⟩⟩ := h
  · rfl
  · rfl

theorem Others.up (h : s.Others world bytes me k s') (hup : s.host.daemon.Up world) :
    s'.host.daemon.Up world := by
  obtain ⟨-, ⟨now, peer, rx, -, got, -, rfl⟩ | ⟨d, hdown, rfl⟩⟩ := h
  · exact hup.visited now peer rx
  · refine ⟨hup.reach.step (a := .linkDown) trivial hdown, ?_⟩
    obtain ⟨-, rfl⟩ := when_eq_some.mp hdown
    rfl

/-- When the link is down the server drops every session. -/
theorem lacks_down (hdown : d.step world .linkDown = some d') (conn : UInt16) : d'.server.Lacks me conn := by
  obtain ⟨-, rfl⟩ := when_eq_some.mp hdown
  intro i hi hlive
  have hfree := (Server.dropSessions_free tnfsdMaxSessions d.server).run world d.card i hi
  rw [hfree] at hlive
  cases hlive

theorem Others.lacks (h : s.Others world bytes me k s') (hlacks : s.host.daemon.server.Lacks me conn) :
    s'.host.daemon.server.Lacks me conn := by
  obtain ⟨-, ⟨now, peer, rx, hpeer, got, -, rfl⟩ | ⟨d, hdown, rfl⟩⟩ := h
  · exact hlacks.visited now (.inl hpeer)
  · exact lacks_down hdown conn

/-- A session is left as it is, with what it has open, or it is gone. -/
theorem Others.hosts (hst : Storing world files bytes) (hos : HandsOut world isOpen)
    (h : s.Others world bytes me k s') (hhosts : s.host.daemon.Hosts world me i t) :
    s'.host.daemon.server.Lacks me t.sid ∨
      (s'.host.daemon.Hosts world me i t ∧ Kept files t s.host.daemon.card s'.host.daemon.card) := by
  obtain ⟨-, ⟨now, peer, rx, hpeer, got, -, rfl⟩ | ⟨d, hdown, rfl⟩⟩ := h
  · rcases Nat.lt_or_ge tnfsdIdleUs (now - t.lastActiveUs) with hidle | hrecent
    · have heff := (Server.serve_effect now peer (rx.take tnfsMsgCap) s.host.daemon.server).run
        world s.host.daemon.card
      exact .inl ((hhosts.lacks hidle).effect heff (.inl hpeer))
    · have hslot := hhosts.slot
      subst hslot
      have hsame := Server.serve_same world s.host.daemon.card now peer (rx.take tnfsMsgCap) hhosts.live
        (by rw [hhosts.peer]; exact hpeer.symm) hrecent
      refine .inr ⟨⟨hhosts.up.visited now peer rx, hhosts.slot_lt, hsame, hhosts.live, hhosts.peer⟩,
        fun fd j p hheld hfile => ?_⟩
      exact (hhosts.up.backed hos).serve_spares (I := fun card => files card fd = some (j, p)) hos
        (fun card c => hst.elsewhere card c fd j p) now peer (rx.take tnfsMsgCap) hhosts.slot_lt hhosts.live
        (by rw [hhosts.peer]; exact hpeer.symm) hrecent hheld hfile
  · exact .inl (lacks_down hdown t.sid)

/-- What each of the others keeps, with an inbox in which nothing new comes in. -/
theorem keeps_quiet {I : Host σ → Prop} (hme : me ≠ ⟨0, 0⟩)
    (hI : ∀ s s' : Line σ, I s.host → s.Others world bytes me k s' → I s'.host)
    (h : Relation.ReflTransGen (Others world bytes me k) s s') {ms : List Bytes} (hs : I s.host)
    (hms : s.inbox = ms) :
    I s'.host ∧ s'.inbox = ms := by
  refine keeps_all (I := fun s : Line σ => I s.host ∧ s.inbox = ms) ?_ h ⟨hs, hms⟩
  rintro s s' ⟨hs, hms⟩ hothers
  exact ⟨hI s s' hs hothers, (hothers.inbox hme).trans hms⟩

end Line

/-! ### The client's turns -/

section Turns
variable {f : TnfsFile} {cmd : UInt8} {pl : Bytes}

/-- Reaping changes no file. -/
theorem Storing.reaped (hst : Storing world files bytes) (d : Daemon σ) (now : ℕ) (k : κ) :
    bytes (d.reapedCard world now) k = bytes d.card k :=
  run_keeps (I := fun card => bytes card k = bytes d.card k) (M := fun c => c.closes.isSome = true)
    (fun card c hI hcloses => (hst.close card c k hcloses).trans hI)
      (reapIdle_closes now tnfsdMaxSessions d.server d.card) rfl

/-- A command of a session that is gone is ignored. -/
theorem Server.Lacks.own_turn {now : ℕ} (h : (d.server.reaped now tnfsdMaxSessions).Lacks me f.conn)
    (hcmd : cmd ≠ tnfsMount) (hlen : tnfsHdrLen + pl.length ≤ tnfsMsgCap) :
    (d.visited world now me (f.request cmd pl)).server.Lacks me f.conn ∧
      d.sentTo world me now me (f.request cmd pl) = [] := by
  have hop : (f.request cmd pl).getD 3 0 ≠ tnfsMount := hcmd
  have hword : UInt16.ofNat (word (f.request cmd pl) 0) = f.conn := Reply.word_header pl
  have hreaped := (Server.reapIdle_reaped now tnfsdMaxSessions d.server).run world d.card
  have hturn : (d.server.reaped now tnfsdMaxSessions).turn me (f.request cmd pl) = .ignored :=
    Server.Lacks.turn (hword.symm ▸ h) hop
  rw [Daemon.visited, Daemon.sentTo, request_take hlen]
  refine ⟨h.effect ((Server.serve_effect now me (f.request cmd pl) d.server).run world d.card) (.inr hop), ?_⟩
  rw [Server.serve, run_bind, hreaped, hturn]
  rfl

/-- A repetition is answered from the cache. -/
theorem Daemon.Hosts.replayed (h : d.Hosts world me i t) {now : ℕ}
    (hrecent : now - t.lastActiveUs ≤ tnfsdIdleUs) (hsid : t.sid = f.conn) (hkeyed : t.Keyed f.seq cmd)
    (hcmd : cmd ≠ tnfsMount) (hlen : tnfsHdrLen + pl.length ≤ tnfsMsgCap) :
    (d.visited world now me (f.request cmd pl)).card = d.reapedCard world now ∧
      (d.visited world now me (f.request cmd pl)).Hosts world me i { t with lastActiveUs := now } ∧
      d.sentTo world me now me (f.request cmd pl) = [t.reply] := by
  obtain ⟨hsame, hturn, -⟩ := h.turn hrecent hsid hcmd pl
  have hserve : run world d.card (d.server.serve now me (f.request cmd pl)) = (d.reapedCard world now,
      (d.server.reaped now tnfsdMaxSessions).setSession i { t with lastActiveUs := now },
        [⟨me, t.reply⟩]) := by
    have hreaped := (Server.reapIdle_reaped now tnfsdMaxSessions d.server).run world d.card
    rw [Server.serve, run_bind, hreaped, hturn hkeyed, Server.answer, run_pure, Server.resend, hsame, h.peer]
    rfl
  rw [Daemon.sentTo, Daemon.visited, request_take hlen, hserve]
  refine ⟨rfl, ⟨?_, h.slot_lt, Server.setSession_self .., h.live, h.peer⟩, by simp⟩
  have hup := h.up.visited now me (f.request cmd pl)
  rwa [Daemon.visited, request_take hlen, hserve] at hup

/-- A command of a session finds it gone, or is a repetition, or is run. -/
theorem Daemon.Hosts.own_turn (hst : Storing world files bytes) (hos : HandsOut world isOpen)
    (h : d.Hosts world me i t) (now : ℕ) (hsid : t.sid = f.conn) (hcmd : cmd ≠ tnfsMount)
    (hrun : cmd ≠ tnfsUmount) (hlen : tnfsHdrLen + pl.length ≤ tnfsMsgCap) :
    ((d.visited world now me (f.request cmd pl)).server.Lacks me f.conn ∧
      d.sentTo world me now me (f.request cmd pl) = []) ∨
      (Kept files t d.card (d.reapedCard world now) ∧
        ((t.Keyed f.seq cmd ∧ (d.server.reaped now tnfsdMaxSessions).turn me (f.request cmd pl) = .replay i ∧
            (d.visited world now me (f.request cmd pl)).card = d.reapedCard world now ∧
            (d.visited world now me (f.request cmd pl)).Hosts world me i { t with lastActiveUs := now } ∧
            d.sentTo world me now me (f.request cmd pl) = [t.reply]) ∨
          (¬ t.Keyed f.seq cmd ∧
            (d.visited world now me (f.request cmd pl)).card =
              (run world (d.reapedCard world now) (handle t cmd pl)).1 ∧
            (d.visited world now me (f.request cmd pl)).Hosts world me i
              (ranSession world f cmd pl (d.reapedCard world now) t now) ∧
            d.sentTo world me now me (f.request cmd pl) =
              [ranReply world f cmd pl (d.reapedCard world now) t]))) := by
  rcases Nat.lt_or_ge tnfsdIdleUs (now - t.lastActiveUs) with hidle | hrecent
  · have hlacks := h.lacks hidle
    rw [hsid] at hlacks
    exact .inl (hlacks.own_turn hcmd hlen)
  · refine .inr ⟨fun fd j p hheld hfile => ?_, ?_⟩
    · have hslot := h.slot
      subst hslot
      exact (h.up.backed hos).reapIdle_spares (I := fun card => files card fd = some (j, p)) hos
        (fun card c hI hother _ => hst.elsewhere card c fd j p hI hother) le_rfl h.slot_lt hrecent hheld hfile
    · by_cases hkeyed : t.Keyed f.seq cmd
      · exact .inl ⟨hkeyed, (h.turn hrecent hsid hcmd pl).2.1 hkeyed,
          h.replayed hrecent hsid hkeyed hcmd hlen⟩
      · exact .inr ⟨hkeyed, h.ran hrecent hsid hkeyed hcmd hrun hlen⟩

end Turns

/-! ### Attempts -/

variable {s s' : Line σ} {f f' : TnfsFile} {cmd : UInt8} {pl : Bytes}

/-- The attempts of a command: `I` holds between them, and `J` with a reply. -/
theorem attempts_lossy {I : Host σ → Prop} {J : Bytes → Host σ → Prop} {req : Bytes} {seq : UInt8}
    (hme : me ≠ ⟨0, 0⟩) (hI : ∀ s s' : Line σ, I s.host → s.Others world bytes me k s' → I s'.host)
    (hJ : ∀ m, ∀ s s' : Line σ, J m s.host → s.Others world bytes me k s' → J m s'.host)
    (hsend : ∀ (h : Host σ) now, I h → Recognised me h now req → I (Line.took world me h now req) ∧
      (h.daemon.sentTo world me now me req = [] ∨ ∃ m, h.daemon.sentTo world me now me req = [m] ∧
        J m (Line.took world me h now req)))
    (n : ℕ) {r : Except EspErr Bytes} (hs : I s.host) (hquiet : s.inbox = [])
    (h : s.Runs world bytes me k (Recognised me) (attempts req seq cmd n) s' r) :
    s'.inbox = [] ∧ ((∃ e, r = .error e ∧ I s'.host) ∨ ∃ m, r = .ok m ∧ J m s'.host) := by
  induction n generalizing s with
  | zero =>
    obtain ⟨hr, hothers⟩ := h.ret_inv
    obtain ⟨hs', hquiet'⟩ := Line.keeps_quiet hme hI hothers hs hquiet
    exact ⟨hquiet', .inl ⟨_, hr, hs'⟩⟩
  | succ n ih =>
    rw [attempts, netSend] at h
    obtain ⟨s₁, s₂, sent, hothers, hown, h⟩ := h.ask_inv
    obtain ⟨hs₁, hquiet₁⟩ := Line.keeps_quiet hme hI hothers hs hquiet
    -- what is in the inbox, once the datagram was lost or taken
    have harrived : I s₂.host ∧ (s₂.inbox = [] ∨ (sent = true ∧ ∃ m, s₂.inbox = [m] ∧ J m s₂.host)) := by
      rcases hown with rfl | ⟨hsent, now, hpass, got, hgot, rfl⟩
      · exact ⟨hs₁, .inl hquiet₁⟩
      · obtain ⟨htook, hnone | ⟨m, hone, hJm⟩⟩ := hsend s₁.host now hs₁ hpass
        · rw [hnone, List.sublist_nil] at hgot
          exact ⟨htook, .inl (by rw [hgot, hquiet₁]; rfl)⟩
        · rw [hone, List.sublist_singleton] at hgot
          rcases hgot with rfl | rfl
          · exact ⟨htook, .inl (by rw [hquiet₁]; rfl)⟩
          · exact ⟨htook, .inr ⟨hsent, m, by rw [hquiet₁]; rfl, hJm⟩⟩
    cases sent with
    | false =>
      obtain ⟨hs₂, hquiet₂ | ⟨⟨⟩, -⟩⟩ := harrived
      obtain ⟨hr, hothers₂⟩ := h.ret_inv
      obtain ⟨hs', hquiet'⟩ := Line.keeps_quiet hme hI hothers₂ hs₂ hquiet₂
      exact ⟨hquiet', .inl ⟨_, hr, hs'⟩⟩
    | true =>
      change Line.Runs world bytes me k (Recognised me) _ (udpResponse seq cmd >>= _) s' r at h
      rw [udpResponse] at h
      obtain ⟨s₃, s₄, answer, hothers₃, hown₃, h⟩ := h.ask_inv
      obtain ⟨hs₂, hquiet₂ | ⟨-, m, hinbox₂, hJm⟩⟩ := harrived
      · obtain ⟨hs₃, hquiet₃⟩ := Line.keeps_quiet hme hI hothers₃ hs₂ hquiet₂
        simp only [Line.Own, hquiet₃, List.dropWhile_nil] at hown₃
        obtain ⟨rfl, rfl⟩ := hown₃
        exact ih (s := ⟨s₃.host, []⟩) hs₃ rfl h
      · obtain ⟨⟨hs₃, hJ₃⟩, hinbox₃⟩ := Line.keeps_quiet (I := fun h => I h ∧ J m h) hme
          (fun s s' hs hothers => ⟨hI s s' hs.1 hothers, hJ m s s' hs.2 hothers⟩) hothers₃ ⟨hs₂, hJm⟩ hinbox₂
        cases hmatch : udpMatches seq cmd m with
        | false =>
          simp only [Line.Own, hinbox₃, List.dropWhile_cons, hmatch, Bool.not_false, if_true,
            List.dropWhile_nil] at hown₃
          obtain ⟨rfl, rfl⟩ := hown₃
          exact ih (s := ⟨s₃.host, []⟩) hs₃ rfl h
        | true =>
          simp only [Line.Own, hinbox₃, List.dropWhile_cons, hmatch, Bool.not_true,
            Bool.false_eq_true, if_false] at hown₃
          obtain ⟨rfl, rfl⟩ := hown₃
          dsimp only at h
          split at h
          · rw [netDelay] at h
            obtain ⟨s₅, s₆, done, hothers₅, hown₅, h⟩ := h.ask_inv
            obtain ⟨hs₅, hquiet₅⟩ := Line.keeps_quiet hme hI hothers₅ hs₃ rfl
            obtain rfl : s₆ = s₅ := hown₅
            exact ih hs₅ hquiet₅ h
          · obtain ⟨hr, hothers₄⟩ := h.ret_inv
            obtain ⟨hJ', hquiet'⟩ := Line.keeps_quiet hme (hJ m) hothers₄ hJ₃ rfl
            exact ⟨hquiet', .inr ⟨m, hr, hJ'⟩⟩

/-- A command, from its attempts. -/
theorem command_lossy {I : Host σ → Prop} {J : Bytes → Host σ → Prop} (hme : me ≠ ⟨0, 0⟩)
    (hI : ∀ s s' : Line σ, I s.host → s.Others world bytes me k s' → I s'.host)
    (hJ : ∀ m, ∀ s s' : Line σ, J m s.host → s.Others world bytes me k s' → J m s'.host)
    (hsend : ∀ (h : Host σ) now, I h → Recognised me h now (f.request cmd pl) →
      I (Line.took world me h now (f.request cmd pl)) ∧
      (h.daemon.sentTo world me now me (f.request cmd pl) = [] ∨
        ∃ m, h.daemon.sentTo world me now me (f.request cmd pl) = [m] ∧
          J m (Line.took world me h now (f.request cmd pl))))
    (hlen : tnfsHdrLen + pl.length ≤ tnfsMsgCap) {r : Except EspErr Bytes} (hs : I s.host)
    (hquiet : s.inbox = [])
    (h : s.Runs world bytes me k (Recognised me) (tnfsCommand f cmd pl) s' (f', r)) :
    s'.inbox = [] ∧ ((∃ e, r = .error e ∧ f' = f ∧ I s'.host) ∨
      ∃ m, r = .ok m ∧ f' = { f with seq := f.seq + 1 } ∧ J m s'.host) := by
  rw [tnfsCommand, if_neg (Nat.not_lt.mpr hlen)] at h
  obtain ⟨s₁, q, hattempts, hrest⟩ := h.bind_inv
  obtain ⟨hquiet₁, ⟨e, rfl, hs₁⟩ | ⟨m, rfl, hJ₁⟩⟩ := attempts_lossy hme hI hJ hsend _ hs hquiet hattempts
  · obtain ⟨hr, hothers⟩ := hrest.ret_inv
    cases hr
    obtain ⟨hs', hquiet'⟩ := Line.keeps_quiet hme hI hothers hs₁ hquiet₁
    exact ⟨hquiet', .inl ⟨e, rfl, rfl, hs'⟩⟩
  · obtain ⟨hr, hothers⟩ := hrest.ret_inv
    cases hr
    obtain ⟨hJ', hquiet'⟩ := Line.keeps_quiet hme (hJ m) hothers hJ₁ hquiet₁
    exact ⟨hquiet', .inr ⟨m, rfl, rfl, hJ'⟩⟩

/-! ### Commands on an open file -/

/-- The client's session is `t`, and the handle of `f` is the descriptor `fd` in it, on the file `j` at
    `p`. -/
structure Host.Open (world : σ → (c : SysCall) → σ × c.Answer) (files : σ → ℕ → Option (κ × ℕ))
    (me : Peer) (h : Host σ) (f : TnfsFile) (t : Session) (fd : ℕ) (j : κ) (p : ℕ) : Prop where
  hosts : ∃ i, h.daemon.Hosts world me i t
  sid : t.sid = f.conn
  handle : t.file f.fd = some fd
  file : files h.daemon.card fd = some (j, p)

variable {fd p : ℕ} {j : κ} {h : Host σ}

theorem Line.Others.open (hst : Storing world files bytes) (hos : HandsOut world isOpen)
    (hothers : s.Others world bytes me k s') (ho : s.host.Open world files me f t fd j p) :
    s'.host.daemon.server.Lacks me f.conn ∨ s'.host.Open world files me f t fd j p := by
  obtain ⟨⟨i, hhosts⟩, hsid, hhandle, hfile⟩ := ho
  rcases hothers.hosts hst hos hhosts with hlacks | ⟨hhosts', hkept⟩
  · exact .inl (hsid ▸ hlacks)
  · exact .inr ⟨⟨i, hhosts'⟩, hsid, hhandle, hkept fd j p (file_held hhandle).2.2 hfile⟩

/-- The server's turn for a command of the session. -/
theorem Host.Open.turn (hst : Storing world files bytes) (hos : HandsOut world isOpen)
    (ho : h.Open world files me f t fd j p) (now : ℕ) (k : κ) (hcmd : cmd ≠ tnfsMount)
    (hrun : cmd ≠ tnfsUmount) (hlen : tnfsHdrLen + pl.length ≤ tnfsMsgCap) :
    ((Line.took world me h now (f.request cmd pl)).daemon.server.Lacks me f.conn ∧
        h.daemon.sentTo world me now me (f.request cmd pl) = []) ∨
      (t.Keyed f.seq cmd ∧ (Recognised me h now (f.request cmd pl) → h.heard = some (f.request cmd pl)) ∧
        (Line.took world me h now (f.request cmd pl)).Open world files me f
          { t with lastActiveUs := now } fd j p ∧
        bytes (Line.took world me h now (f.request cmd pl)).daemon.card k = bytes h.daemon.card k ∧
        h.daemon.sentTo world me now me (f.request cmd pl) = [t.reply]) ∨
      (¬ t.Keyed f.seq cmd ∧ ∃ card, files card fd = some (j, p) ∧ bytes card k = bytes h.daemon.card k ∧
        (Line.took world me h now (f.request cmd pl)).daemon.card =
          (run world card (Tnfsd.handle t cmd pl)).1 ∧
        (∃ i, (Line.took world me h now (f.request cmd pl)).daemon.Hosts world me i
          (ranSession world f cmd pl card t now)) ∧
        h.daemon.sentTo world me now me (f.request cmd pl) = [ranReply world f cmd pl card t]) := by
  obtain ⟨⟨i, hhosts⟩, hsid, hhandle, hfile⟩ := ho
  rcases hhosts.own_turn hst hos now hsid hcmd hrun hlen with hgone | ⟨hkept, hserved⟩
  · exact .inl hgone
  · have hfile' := hkept fd j p (file_held hhandle).2.2 hfile
    rcases hserved with ⟨hkeyed, hturn, hcard, hhosts', hsent⟩ | ⟨hnew, hcard, hhosts', hsent⟩
    · refine .inr (.inl ⟨hkeyed, fun hpass => hpass i (by rw [request_take hlen, hturn]),
        ⟨⟨i, hhosts'⟩, hsid, hhandle, ?_⟩, ?_, hsent⟩)
      · exact (congrArg (files · fd) hcard).trans hfile'
      · exact (congrArg (bytes · k) hcard).trans (hst.reaped h.daemon now k)
    · exact .inr (.inr ⟨hnew, _, hfile', hst.reaped h.daemon now k, hcard, ⟨i, hhosts'⟩, hsent⟩)

/-- A command on an open file: `B` says, from what was there before, what its reply, the position and
    the bytes of `k` are once it was run. It is run by this command, or an earlier one left the same run
    in the cache. -/
theorem command_open {B : Bytes → ℕ → Bytes → Prop} (hst : Storing world files bytes)
    (hos : HandsOut world isOpen) (hme : me ≠ ⟨0, 0⟩) (ho : s.host.Open world files me f t fd j p)
    (hquiet : s.inbox = []) (hcmd : cmd ≠ tnfsMount) (hrun : cmd ≠ tnfsUmount)
    (hlen : tnfsHdrLen + pl.length ≤ tnfsMsgCap)
    (hnew : ¬ t.Keyed f.seq cmd → ∀ card, files card fd = some (j, p) →
      bytes card k = bytes s.host.daemon.card k →
      (run world card (handle t cmd pl)).2.1 = t ∧ ∃ p',
        files (run world card (handle t cmd pl)).1 fd = some (j, p') ∧
        B (ranReply world f cmd pl card t) p' (bytes (run world card (handle t cmd pl)).1 k))
    (hagain : t.Keyed f.seq cmd → s.host.heard = some (f.request cmd pl) →
      B t.reply p (bytes s.host.daemon.card k))
    {r : Except EspErr Bytes} (h : s.Runs world bytes me k (Recognised me)
      (tnfsCommand f cmd pl) s' (f', r)) :
    s'.inbox = [] ∧
      (((∃ e, r = .error e) ∧ f' = f ∧ (s'.host.daemon.server.Lacks me f.conn ∨
          (s'.host.Open world files me f t fd j p ∧ s'.host.heard = s.host.heard) ∨
          ∃ t' p', s'.host.Open world files me f t' fd j p' ∧ t'.Keyed f.seq cmd ∧
            s'.host.heard = some (f.request cmd pl) ∧
            B t'.reply p' (bytes s'.host.daemon.card k))) ∨
        ∃ m p', r = .ok m ∧ f' = { f with seq := f.seq + 1 } ∧ B m p' (bytes s'.host.daemon.card k) ∧
          (s'.host.daemon.server.Lacks me f.conn ∨ ∃ t', s'.host.Open world files me f t' fd j p' ∧
            t'.lastSeq = f.seq)) := by
  have hcommand := command_lossy (f := f)
    (I := fun h => h.daemon.server.Lacks me f.conn ∨
      (h.Open world files me f t fd j p ∧ h.heard = s.host.heard ∧
        bytes h.daemon.card k = bytes s.host.daemon.card k) ∨
      ∃ t' p', h.Open world files me f t' fd j p' ∧ t'.Keyed f.seq cmd ∧ h.heard = some (f.request cmd pl) ∧
        B t'.reply p' (bytes h.daemon.card k))
    (J := fun m h => ∃ p', B m p' (bytes h.daemon.card k) ∧
      (h.daemon.server.Lacks me f.conn ∨ ∃ t', h.Open world files me f t' fd j p' ∧ t'.lastSeq = f.seq))
    hme ?_ ?_ ?_ hlen (.inr (.inl ⟨ho, rfl, rfl⟩)) hquiet h
  · obtain ⟨hquiet', ⟨e, he, hf', hend⟩ | ⟨m, hm, hf', p', hB, hend⟩⟩ := hcommand
    · refine ⟨hquiet', .inl ⟨⟨e, he⟩, hf', ?_⟩⟩
      rcases hend with hlacks | ⟨ho', hheard, -⟩ | hran
      · exact .inl hlacks
      · exact .inr (.inl ⟨ho', hheard⟩)
      · exact .inr (.inr hran)
    · exact ⟨hquiet', .inr ⟨m, p', hm, hf', hB, hend⟩⟩
  · rintro s s' (hlacks | ⟨ho, hheard, hbytes⟩ | ⟨t', p', ho, hkeyed, hheard, hB⟩) hothers
    · exact .inl (hothers.lacks hlacks)
    · rcases hothers.open hst hos ho with hlacks | ho'
      · exact .inl hlacks
      · exact .inr (.inl ⟨ho', hothers.heard.trans hheard, hothers.1.trans hbytes⟩)
    · rcases hothers.open hst hos ho with hlacks | ho'
      · exact .inl hlacks
      · exact .inr (.inr ⟨t', p', ho', hkeyed, hothers.heard.trans hheard, by rwa [hothers.1]⟩)
  · rintro m s s' ⟨p', hB, hend⟩ hothers
    refine ⟨p', by rwa [hothers.1], ?_⟩
    rcases hend with hlacks | ⟨t', ho, hlast⟩
    · exact .inl (hothers.lacks hlacks)
    · exact (hothers.open hst hos ho).imp_right fun ho' => ⟨t', ho', hlast⟩
  · rintro h now (hlacks | ⟨ho, hheard, hbytes⟩ | ⟨t', p', ho, hkeyed, hheard, hB⟩) hpass
    · obtain ⟨hgone, hnone⟩ := (hlacks.freed
        (Server.reaped_freed now tnfsdMaxSessions h.daemon.server)).own_turn hcmd hlen
      exact ⟨.inl hgone, .inl hnone⟩
    · rcases ho.turn hst hos now k hcmd hrun hlen with ⟨hgone, hnone⟩ | ⟨hkeyed, hcopy, ho', hsame, hsent⟩ |
        ⟨hfresh, card, hfile, hsame, hcard, ⟨i, hhosts⟩, hsent⟩
      · exact ⟨.inl hgone, .inl hnone⟩
      · have hB : B t.reply p (bytes (Line.took world me h now (f.request cmd pl)).daemon.card k) := by
          rw [hsame, hbytes]
          exact hagain hkeyed (hheard ▸ hcopy hpass)
        exact ⟨.inr (.inr ⟨_, p, ho', ⟨hkeyed.have_reply, hkeyed.seq, hkeyed.cmd⟩, rfl, hB⟩),
          .inr ⟨_, hsent, p, hB, .inr ⟨_, ho', hkeyed.seq⟩⟩⟩
      · obtain ⟨hsession, p', hnext, hB⟩ := hnew hfresh card hfile (hsame.trans hbytes)
        have hhandle : (ranSession world f cmd pl card t now).file f.fd = some fd := by
          rw [← ho.handle]
          refine file_congr ?_ f.fd
          rw [ranSession_files, hsession]
        have ho' : (Line.took world me h now (f.request cmd pl)).Open world files me f
          (ranSession world f cmd pl card t now) fd j p' :=
          ⟨⟨i, hhosts⟩, (ranSession_framed ..).2.1.trans ho.sid, hhandle, by rw [hcard, hnext]⟩
        rw [← hcard] at hB
        exact ⟨.inr (.inr ⟨_, p', ho', ⟨rfl, rfl, rfl⟩, rfl, by rwa [ranSession_reply ho.sid]⟩),
          .inr ⟨_, hsent, p', hB, .inr ⟨_, ho', rfl⟩⟩⟩
    · rcases ho.turn hst hos now k hcmd hrun hlen with ⟨hgone, hnone⟩ | ⟨-, -, ho',
        hsame, hsent⟩ | ⟨hfresh, -⟩
      · exact ⟨.inl hgone, .inl hnone⟩
      · rw [← hsame] at hB
        exact ⟨.inr (.inr ⟨_, p', ho', ⟨hkeyed.have_reply, hkeyed.seq, hkeyed.cmd⟩, rfl, hB⟩),
          .inr ⟨_, hsent, p', hB, .inr ⟨_, ho', hkeyed.seq⟩⟩⟩
      · exact absurd hkeyed hfresh

/-- A command of a session that is gone fails. -/
theorem command_gone (hme : me ≠ ⟨0, 0⟩) (hlacks : s.host.daemon.server.Lacks me f.conn)
    (hquiet : s.inbox = []) (hcmd : cmd ≠ tnfsMount) (hlen : tnfsHdrLen + pl.length ≤ tnfsMsgCap)
    {r : Except EspErr Bytes} (h : s.Runs world bytes me k (Recognised me)
      (tnfsCommand f cmd pl) s' (f', r)) :
    s'.inbox = [] ∧ (∃ e, r = .error e) ∧ f' = f ∧ s'.host.daemon.server.Lacks me f.conn := by
  have hcommand := command_lossy (f := f) (I := fun h => h.daemon.server.Lacks me f.conn)
    (J := fun _ _ => False) hme (fun s s' hlacks hothers => hothers.lacks hlacks) (fun _ _ _ h _ => h)
      ?_ hlen hlacks hquiet h
  · obtain ⟨hquiet', ⟨e, he, hf', hlacks'⟩ | ⟨m, -, -, ⟨⟩⟩⟩ := hcommand
    exact ⟨hquiet', ⟨e, he⟩, hf', hlacks'⟩
  · intro h now hlacks _
    obtain ⟨hgone, hnone⟩ := (hlacks.freed
      (Server.reaped_freed now tnfsdMaxSessions h.daemon.server)).own_turn hcmd hlen
    exact ⟨hgone, .inl hnone⟩

end FdcSds.Tnfsd
