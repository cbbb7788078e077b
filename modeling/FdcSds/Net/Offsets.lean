import FdcSds.Net.Lossy
import FdcSds.Net.Pauses

/-! Reading and writing a remote file at an offset, over a network that loses datagrams.

    The client remembers where the server's descriptor stands, and forgets it when a command fails. What
    it then asks first is an LSEEK. If the command before was an LSEEK, too, and was run but not heard, both
    have the same sequence byte, and the server answers the second with the cached reply of the first.

        read_at x ──LSEEK x──▶ run, replies lost: failed      read_at y ──LSEEK y──▶ "done", still at x -/

namespace FdcSds.Tnfsd
open Schemes Schemes.Runs Prog

variable {σ κ : Type} {world : σ → (c : SysCall) → σ × c.Answer} {files : σ → ℕ → Option (κ × ℕ)}
    {bytes : σ → κ → Bytes} {isOpen : σ → Handle → Prop} {me : Peer} {k : κ} {s s' : Line σ}
    {f f' : TnfsFile} {t : Session} {h : Host σ} {fd p : ℕ}

/-! ### Where the file stands -/

/-- The file stands at `p`, and the next command is new to the session; or the session is gone. -/
def Host.Settled (world : σ → (c : SysCall) → σ × c.Answer) (files : σ → ℕ → Option (κ × ℕ)) (me : Peer)
    (k : κ) (h : Host σ) (f : TnfsFile) (p : ℕ) : Prop :=
  h.daemon.server.Lacks me f.conn ∨ ∃ t fd, h.Open world files me f t fd k p ∧ t.lastSeq + 1 = f.seq

/-- The last command was run, but its reply was not heard. If it was an LSEEK that moved, it moved where
    it said. -/
structure Host.Unheard (h : Host σ) (f : TnfsFile) (t : Session) (p : ℕ) : Prop where
  seq : t.lastSeq = f.seq
  sought : t.lastCmd = tnfsLseek → ∀ off,
    h.heard = some (f.request tnfsLseek (seekPayload f.fd tnfsSeekSet off)) →
    replyStatus t.reply = tnfsOk → p = off.toNat

/-- The client knows where the file stands, or knows that it does not. -/
def Host.Stands (world : σ → (c : SysCall) → σ × c.Answer) (files : σ → ℕ → Option (κ × ℕ)) (me : Peer)
    (k : κ) (h : Host σ) (f : TnfsFile) : Prop :=
  h.daemon.server.Lacks me f.conn ∨ ∃ t fd p, h.Open world files me f t fd k p ∧
    ((t.lastSeq + 1 = f.seq ∧ (f.posValid = true → f.pos.toNat = p)) ∨ (f.posValid = false ∧ h.Unheard f t p))

theorem not_keyed {cmd : UInt8} (hseq : t.lastSeq + 1 = f.seq) : ¬ t.Keyed f.seq cmd := by
  intro hkeyed
  rw [hkeyed.seq] at hseq
  simp at hseq

/-- Only the session and the handle matter to what is open. -/
theorem Host.Open.same {j : κ} (ho : h.Open world files me f t fd j p) (hconn : f'.conn = f.conn)
    (hfd : f'.fd = f.fd) :
    h.Open world files me f' t fd j p :=
  ⟨ho.hosts, ho.sid.trans hconn.symm, by rw [hfd, ho.handle], ho.file⟩

/-- After a reply the next command is new. -/
theorem Host.Settled.next {n : ℕ}
    (hend : h.daemon.server.Lacks me f.conn ∨ ∃ t', h.Open world files me f t' fd k n ∧
      t'.lastSeq = f.seq) (hconn : f'.conn = f.conn) (hfd : f'.fd = f.fd) (hseq : f'.seq = f.seq + 1) :
    h.Settled world files me k f' n := by
  rcases hend with hlacks | ⟨t', ho, hlast⟩
  · exact .inl (hconn ▸ hlacks)
  · exact .inr ⟨t', fd, ho.same hconn hfd, by rw [hlast, hseq]⟩

theorem Host.Settled.stands (hs : h.Settled world files me k f p) (hconn : f'.conn = f.conn)
    (hseq : f'.seq = f.seq) (hfd : f'.fd = f.fd) (hvalid : f'.posValid = true → f'.pos.toNat = p) :
    h.Stands world files me k f' := by
  rcases hs with hlacks | ⟨t, fd, ho, hlast⟩
  · exact .inl (hconn ▸ hlacks)
  · exact .inr ⟨t, fd, p, ho.same hconn hfd, .inl ⟨hlast.trans hseq.symm, hvalid⟩⟩

theorem Host.Settled.forget (hs : h.Settled world files me k f p) : h.Stands world files me k f.forget := by
  refine hs.stands rfl rfl rfl ?_
  rintro ⟨⟩

/-- The size is the client's own affair. -/
theorem Host.Stands.sized (hs : h.Stands world files me k f) (size : UInt32) :
    h.Stands world files me k { f with size := size } := by
  rcases hs with hlacks | ⟨t, fd, p, ho, hend⟩
  · exact .inl hlacks
  · refine .inr ⟨t, fd, p, ho.same rfl rfl, hend.imp_right ?_⟩
    rintro ⟨hinvalid, hseq, hsought⟩
    exact ⟨hinvalid, hseq, hsought⟩

section Steps
variable (hst : Storing world files bytes) (hos : HandsOut world isOpen) (hme : me ≠ ⟨0, 0⟩)
include hst hos

theorem Line.Others.settled {j : κ} (hothers : s.Others world bytes me k s')
    (hs : s.host.Settled world files me j f p) :
    s'.host.Settled world files me j f p := by
  rcases hs with hlacks | ⟨t, fd, ho, hlast⟩
  · exact .inl (hothers.lacks hlacks)
  · exact (hothers.open hst hos ho).imp_right fun ho' => ⟨t, fd, ho', hlast⟩

theorem Line.Others.stands {j : κ} (hothers : s.Others world bytes me k s')
    (hs : s.host.Stands world files me j f) :
    s'.host.Stands world files me j f := by
  rcases hs with hlacks | ⟨t, fd, p, ho, hend⟩
  · exact .inl (hothers.lacks hlacks)
  · refine (hothers.open hst hos ho).imp_right fun ho' => ⟨t, fd, p, ho', hend.imp_right ?_⟩
    rintro ⟨hinvalid, hseq, hsought⟩
    exact ⟨hinvalid, hseq, by rwa [hothers.heard]⟩

include hme

/-- What others do once the client has made its last call. -/
theorem stands_quiet (hs : s.host.Stands world files me k f) (hquiet : s.inbox = [])
    (h : Relation.ReflTransGen (Line.Others world bytes me k) s s') :
    (s'.host.Stands world files me k f ∧ bytes s'.host.daemon.card k = bytes s.host.daemon.card k) ∧
      s'.inbox = [] := by
  refine Line.keeps_quiet (I := fun h => h.Stands world files me k f ∧
    bytes h.daemon.card k = bytes s.host.daemon.card k) hme ?_ h
    ⟨hs, rfl⟩ hquiet
  rintro s s' ⟨hs, hbytes⟩ hothers
  exact ⟨hothers.stands hst hos hs, hothers.1.trans hbytes⟩

theorem settled_quiet (hs : s.host.Settled world files me k f p) (hquiet : s.inbox = [])
    (h : Relation.ReflTransGen (Line.Others world bytes me k) s s') :
    (s'.host.Settled world files me k f p ∧ bytes s'.host.daemon.card k = bytes s.host.daemon.card k) ∧
      s'.inbox = [] := by
  refine Line.keeps_quiet (I := fun h => h.Settled world files me k f p ∧
    bytes h.daemon.card k = bytes s.host.daemon.card k) hme ?_ h
    ⟨hs, rfl⟩ hquiet
  rintro s s' ⟨hs, hbytes⟩ hothers
  exact ⟨hothers.settled hst hos hs, hothers.1.trans hbytes⟩

end Steps

/-! ### LSEEK -/

/-- The offset can be told from the request. -/
theorem seek_request_inj {off off' : UInt32} (h : f.request tnfsLseek (seekPayload f.fd tnfsSeekSet off) =
    f.request tnfsLseek (seekPayload f.fd tnfsSeekSet off')) : off = off' := by
  have hle : le32 off.toNat = le32 off'.toNat := List.append_cancel_left (List.append_cancel_left h)
  have hd := dword_le32 [] [] off.toNat off.toNat_lt
  rw [hle, dword_le32 [] [] off'.toNat off'.toNat_lt] at hd
  exact (UInt32.toNat_inj.mp hd).symm

section Calls
variable (hst : Storing world files bytes) (hos : HandsOut world isOpen) (hme : me ≠ ⟨0, 0⟩)
include hst hos hme

omit hos hme in
/-- An LSEEK to an offset, where it is run. -/
theorem lseek_run {card : σ} {off : UInt32} (hfd : t.file f.fd = some fd)
    (hfile : files card fd = some (k, p)) :
    (run world card (handle t tnfsLseek (seekPayload f.fd tnfsSeekSet off))).2.1 = t ∧
      ∃ p', files (run world card (handle t tnfsLseek (seekPayload f.fd tnfsSeekSet off))).1 fd =
        some (k, p') ∧
        (replyStatus (ranReply world f tnfsLseek (seekPayload f.fd tnfsSeekSet off) card t) = tnfsOk →
          p' = off.toNat ∧
          Extended (bytes card k) off.toNat
            (bytes (run world card (handle t tnfsLseek (seekPayload f.fd tnfsSeekSet off))).1 k)) := by
  have hrun : run world card (handle t tnfsLseek (seekPayload f.fd tnfsSeekSet off)) = _ :=
    run_hLseek hfd rfl off
  obtain ⟨p', hnext, hset⟩ := hst.lseek card fd (int32 off.toNat) .set k p hfile
  rw [ranReply, hrun]
  refine ⟨rfl, p', hnext, fun hok => ?_⟩
  cases hans : (world card (.lseek fd (int32 off.toNat) .set)).2 with
  | error e =>
    rw [hans] at hok
    exact absurd hok (errnoToTnfs_ne_ok e)
  | ok q =>
    obtain ⟨hnonneg, hp', hext⟩ := hset rfl q hans
    have hoff : p' = off.toNat := by rw [hp', int32_of_nonneg off.toNat_lt hnonneg, Int.toNat_natCast]
    rw [hoff] at hext
    exact ⟨hoff, hext⟩

/-- `tnfs_seek`: when it succeeds the file stands where it should. -/
theorem tnfsSeek_lossy {off : UInt32} {r : Except EspErr Unit} (hs : s.host.Stands world files me k f)
    (hquiet : s.inbox = []) (h : s.Runs world bytes me k (Recognised me) (tnfsSeek f off) s' (f', r)) :
    s'.inbox = [] ∧
      (((∃ e, r = .error e) ∧ s'.host.Stands world files me k f') ∨
        (r = .ok () ∧ f'.posValid = true ∧ f'.pos = off ∧ s'.host.Settled world files me k f' off.toNat ∧
          Extended (bytes s.host.daemon.card k) off.toNat (bytes s'.host.daemon.card k))) := by
  unfold tnfsSeek at h
  split at h
  · next hthere =>
    obtain ⟨hpv, hpos⟩ := Bool.and_eq_true_iff.mp hthere
    have hoff : f.pos = off := eq_of_beq hpos
    have hsettled : s.host.Settled world files me k f off.toNat := by
      rcases hs with hlacks | ⟨t, fd, p, ho, ⟨hlast, hvalid⟩ | ⟨hinvalid, -⟩⟩
      · exact .inl hlacks
      · rw [← hoff, hvalid hpv]
        exact .inr ⟨t, fd, ho, hlast⟩
      · rw [hpv] at hinvalid
        cases hinvalid
    obtain ⟨hr, hothers⟩ := h.ret_inv
    cases hr
    obtain ⟨⟨hsettled', hbytes⟩, hquiet'⟩ := settled_quiet hst hos hme hsettled hquiet hothers
    rw [hbytes]
    exact ⟨hquiet', .inr ⟨rfl, hpv, hoff, hsettled', Extended.refl _ _⟩⟩
  · obtain ⟨s₁, ⟨f₁, q⟩, hcommand, hrest⟩ := h.bind_inv
    have hlen : tnfsHdrLen + (seekPayload f.fd tnfsSeekSet off).length ≤ tnfsMsgCap := by
      simp [seekPayload, le32, tnfsHdrLen, tnfsMsgCap, tnfsIoChunk]
    -- the LSEEK fails, and the file stands wherever; or it is answered
    have hanswered : s₁.inbox = [] ∧
        (((∃ e, q = .error e) ∧ s₁.host.Stands world files me k f₁.forget) ∨
          ∃ m p', q = .ok m ∧ f₁ = { f with seq := f.seq + 1 } ∧ s₁.host.Settled world files me k f₁ p' ∧
            (replyStatus m = tnfsOk → p' = off.toNat ∧
              Extended (bytes s.host.daemon.card k) off.toNat (bytes s₁.host.daemon.card k))) := by
      rcases hs with hlacks | ⟨t, fd, p, ho, hend⟩
      · obtain ⟨hquiet₁, hfails, rfl, hlacks₁⟩ := command_gone hme hlacks hquiet (by decide) hlen hcommand
        exact ⟨hquiet₁, .inl ⟨hfails, .inl hlacks₁⟩⟩
      · have hlseek := command_open (B := fun m p' bs => replyStatus m = tnfsOk → p' = off.toNat ∧
            Extended (bytes s.host.daemon.card k) off.toNat bs) hst hos hme ho hquiet (by decide)
              (by decide) hlen ?_ ?_ hcommand
        · obtain ⟨hquiet₁, ⟨hfails, rfl, hfailed⟩ | ⟨m, p', hm, rfl, hB, hend'⟩⟩ := hlseek
          · refine ⟨hquiet₁, .inl ⟨hfails, ?_⟩⟩
            rcases hfailed with hlacks₁ | ⟨ho₁, hheard⟩ | ⟨t', p', ho₁, hkeyed, hheard, hB⟩
            · exact .inl hlacks₁
            · refine .inr ⟨t, fd, p, ho₁.same rfl rfl, ?_⟩
              rcases hend with ⟨hlast, -⟩ | ⟨-, hseq, hsought⟩
              · exact .inl ⟨hlast, by rintro ⟨⟩⟩
              · refine .inr ⟨rfl, hseq, ?_⟩
                rw [hheard]
                exact hsought
            · refine .inr ⟨t', fd, p', ho₁.same rfl rfl, .inr ⟨rfl, hkeyed.seq, fun _ off' hcopy hok => ?_⟩⟩
              have hoff : off = off' := seek_request_inj (Option.some.inj (hheard.symm.trans hcopy))
              rw [← hoff]
              exact (hB hok).1
          · exact ⟨hquiet₁, .inr ⟨m, p', hm, rfl, Host.Settled.next hend' rfl rfl rfl, hB⟩⟩
        · intro _ card hfile hbytes
          rw [← hbytes]
          exact lseek_run hst ho.handle hfile
        · intro hkeyed hcopy hok
          rcases hend with ⟨hlast, -⟩ | ⟨-, -, hsought⟩
          · exact absurd hkeyed (not_keyed hlast)
          · exact ⟨hsought hkeyed.cmd off hcopy hok, Extended.refl _ _⟩
    obtain ⟨hquiet₁, ⟨⟨e, rfl⟩, hs₁⟩ | ⟨m, p', rfl, hf₁, hsettled₁, hmoved⟩⟩ := hanswered
    · obtain ⟨hr, hothers⟩ := hrest.ret_inv
      cases hr
      obtain ⟨⟨hs', -⟩, hquiet'⟩ := stands_quiet hst hos hme hs₁ hquiet₁ hothers
      exact ⟨hquiet', .inl ⟨⟨e, rfl⟩, hs'⟩⟩
    · dsimp only at hrest
      split at hrest
      · obtain ⟨hr, hothers⟩ := hrest.ret_inv
        cases hr
        obtain ⟨⟨hs', -⟩, hquiet'⟩ := stands_quiet hst hos hme hsettled₁.forget hquiet₁ hothers
        exact ⟨hquiet', .inl ⟨⟨_, rfl⟩, hs'⟩⟩
      · next hok =>
        obtain ⟨hr, hothers⟩ := hrest.ret_inv
        cases hr
        obtain ⟨rfl, hext⟩ := hmoved (not_not.mp hok)
        have hsettled : s₁.host.Settled world files me k
          { f₁ with pos := off, posValid := true } off.toNat := by
          rcases hsettled₁ with hlacks | ⟨t, fd, ho, hlast⟩
          · exact .inl hlacks
          · exact .inr ⟨t, fd, ho.same rfl rfl, hlast⟩
        obtain ⟨⟨hsettled', hbytes⟩, hquiet'⟩ := settled_quiet hst hos hme hsettled hquiet₁ hothers
        rw [hbytes]
        exact ⟨hquiet', .inr ⟨rfl, rfl, rfl, hsettled', hext⟩⟩

/-! ### READ and WRITE -/

/-- A command once the file stands where it should: `B` says what comes of it where it is run. -/
theorem settled_command {B : Bytes → ℕ → Bytes → Prop} {cmd : UInt8} {pl : Bytes}
    {r : Except EspErr Bytes} (hs : s.host.Settled world files me k f p) (hquiet : s.inbox = [])
    (hcmd : cmd ≠ tnfsMount) (hrun : cmd ≠ tnfsUmount) (hseek : cmd ≠ tnfsLseek)
    (hlen : tnfsHdrLen + pl.length ≤ tnfsMsgCap)
    (hspec : ∀ t fd card, t.file f.fd = some fd → files card fd = some (k, p) →
      bytes card k = bytes s.host.daemon.card k →
      (run world card (handle t cmd pl)).2.1 = t ∧ ∃ p',
        files (run world card (handle t cmd pl)).1 fd = some (k, p') ∧
        B (ranReply world f cmd pl card t) p' (bytes (run world card (handle t cmd pl)).1 k))
    (h : s.Runs world bytes me k (Recognised me) (tnfsCommand f cmd pl) s' (f', r)) : s'.inbox = [] ∧
      (((∃ e, r = .error e) ∧ s'.host.Stands world files me k f'.forget) ∨
        ∃ m p', r = .ok m ∧ f' = { f with seq := f.seq + 1 } ∧ s'.host.Settled world files me k f' p' ∧
          B m p' (bytes s'.host.daemon.card k)) := by
  rcases hs with hlacks | ⟨t, fd, ho, hlast⟩
  · obtain ⟨hquiet', hfails, rfl, hlacks'⟩ := command_gone hme hlacks hquiet hcmd hlen h
    exact ⟨hquiet', .inl ⟨hfails, .inl hlacks'⟩⟩
  · obtain ⟨hquiet', ⟨hfails, rfl, hfailed⟩ | ⟨m, p', hm, rfl, hB, hend⟩⟩ :=
      command_open hst hos hme ho hquiet hcmd hrun hlen
      (fun _ card hfile hbytes => hspec t fd card ho.handle hfile hbytes)
        (fun hkeyed => absurd hkeyed (not_keyed hlast)) h
    · refine ⟨hquiet', .inl ⟨hfails, ?_⟩⟩
      rcases hfailed with hlacks | ⟨ho', -⟩ | ⟨t', p', ho', hkeyed, -⟩
      · exact .inl hlacks
      · exact .inr ⟨t, fd, p, ho'.same rfl rfl, .inl ⟨hlast, by rintro ⟨⟩⟩⟩
      · exact .inr ⟨t', fd, p', ho'.same rfl rfl,
          .inr ⟨rfl, hkeyed.seq, fun hcmd' => absurd (hkeyed.cmd.symm.trans hcmd') hseek⟩⟩
    · exact ⟨hquiet', .inr ⟨m, p', hm, rfl, Host.Settled.next hend rfl rfl rfl, hB⟩⟩

/-- A READ: what its reply brings is what comes next in the file. -/
theorem read_lossy {want : ℕ} {r : Except EspErr Bytes} (hs : s.host.Settled world files me k f p)
    (hquiet : s.inbox = []) (hpos : 0 < want) (hwant : want ≤ tnfsIoChunk)
    (h : s.Runs world bytes me k (Recognised me) (tnfsCommand f tnfsRead (readPayload f.fd want)) s'
      (f', r)) : s'.inbox = [] ∧
      (((∃ e, r = .error e) ∧ s'.host.Stands world files me k f'.forget) ∨
        ∃ m p', r = .ok m ∧ f' = { f with seq := f.seq + 1 } ∧ s'.host.Settled world files me k f' p' ∧
          bytes s'.host.daemon.card k = bytes s.host.daemon.card k ∧ ∀ d, readReply want m = some d →
            d ≠ [] ∧ d <+: (bytes s.host.daemon.card k).drop p ∧ d.length ≤ want ∧ p' = p + d.length) := by
  have hchunk : tnfsIoChunk = 1024 := rfl
  have hcap : tnfsMsgCap - tnfsHdrLen = 1028 := rfl
  have hlen : tnfsHdrLen + (readPayload f.fd want).length ≤ tnfsMsgCap := by
    simp [readPayload, le16, tnfsHdrLen, tnfsMsgCap, tnfsIoChunk]
  refine settled_command (B := fun m p' bs => bs = bytes s.host.daemon.card k ∧ ∀ d,
    readReply want m = some d →
    d ≠ [] ∧ d <+: (bytes s.host.daemon.card k).drop p ∧ d.length ≤ want ∧ p' = p + d.length)
    hst hos hme hs hquiet (by decide) (by decide) (by decide) hlen ?_ h
  intro t fd card hfd hfile hbytes
  have hrun : run world card (handle t tnfsRead (readPayload f.fd want)) = _ := run_hRead hfd hwant
  obtain ⟨p', hnext, hsame, hread⟩ := hst.read card fd want k p hfile
  have bare : ∀ st d, readReply want
    (tnfsHeader f.conn f.seq tnfsRead ++ ([st] : Bytes).take (tnfsMsgCap - tnfsHdrLen)) ≠ some d := by
    intro st d hd
    rw [readReply, if_pos (.inr (by simp [tnfsHeader, le16, tnfsStatusOff, hcap]))] at hd
    cases hd
  rw [ranReply, hrun]
  refine ⟨rfl, p', hnext, hsame.trans hbytes, fun d hd => ?_⟩
  cases hans : (world card (.read fd want)).2 with
  | error e =>
    rw [hans] at hd
    exact absurd hd (bare _ d)
  | ok d' =>
    obtain ⟨hpre, hle, hp'⟩ := hread d' hans
    rw [hans] at hd
    dsimp only at hd
    split at hd
    · exact absurd hd (bare _ d)
    · next hsome =>
      have hne : d' ≠ [] := fun hnil => hsome ⟨by rw [hnil]; rfl, hpos⟩
      rw [List.take_of_length_le (by
        simp only [List.length_append, List.length_singleton, length_le16]
        omega)] at hd
      have hdata : readReply want (tnfsHeader f.conn f.seq tnfsRead ++
        ([tnfsOk] ++ le16 d'.length ++ d')) = some d' :=
        Reply.read_data (by omega) want (List.length_pos_of_ne_nil hne) hle
      obtain rfl : d' = d := Option.some.inj (hdata.symm.trans hd)
      rw [hbytes] at hpre
      exact ⟨hne, hpre, hle, hp'⟩

/-- A WRITE: what its reply counts is what was written at the position. -/
theorem write_lossy {data : Bytes} {r : Except EspErr Bytes} (hs : s.host.Settled world files me k f p)
    (hquiet : s.inbox = []) (hdata : data.length ≤ tnfsIoChunk)
    (h : s.Runs world bytes me k (Recognised me) (tnfsCommand f tnfsWrite (writePayload f.fd data)) s'
      (f', r)) : s'.inbox = [] ∧
      (((∃ e, r = .error e) ∧ s'.host.Stands world files me k f'.forget) ∨
        ∃ m p', r = .ok m ∧ f' = { f with seq := f.seq + 1 } ∧ s'.host.Settled world files me k f' p' ∧
          ∀ put, writeReply data.length m = some put → 0 < put ∧ put ≤ data.length ∧ p' = p + put ∧
            Overwritten (bytes s.host.daemon.card k) p (data.take put) (bytes s'.host.daemon.card k)) := by
  have hchunk : tnfsIoChunk = 1024 := rfl
  have hlen : tnfsHdrLen + (writePayload f.fd data).length ≤ tnfsMsgCap := by
    have hcap : tnfsMsgCap = 1032 ∧ tnfsHdrLen = 4 := ⟨rfl, rfl⟩
    simp only [writePayload, List.length_append, List.length_singleton, length_le16]
    omega
  refine settled_command (B := fun m p' bs => ∀ put, writeReply data.length m = some put → 0 < put ∧
    put ≤ data.length ∧ p' = p + put ∧
    Overwritten (bytes s.host.daemon.card k) p (data.take put) bs)
    hst hos hme hs hquiet (by decide) (by decide) (by decide) hlen ?_ h
  intro t fd card hfd hfile hbytes
  have hrun : run world card (handle t tnfsWrite (writePayload f.fd data)) = _ := run_hWrite hfd hdata
  obtain ⟨p', hnext, hwrote⟩ := hst.write card fd data k p hfile
  rw [ranReply, hrun]
  refine ⟨rfl, p', hnext, fun put hput => ?_⟩
  cases hans : (world card (.write fd data)).2 with
  | error e =>
    rw [hans, writeReply, if_pos (.inl (errnoToTnfs_ne_ok e))] at hput
    cases hput
  | ok n =>
    obtain ⟨hle, hp', hover⟩ := hwrote n hans
    rw [hans] at hput
    have hreply : writeReply data.length
      (tnfsHeader f.conn f.seq tnfsWrite ++ ([tnfsOk] ++ le16 n).take (tnfsMsgCap - tnfsHdrLen)) =
        if n = 0 ∨ data.length < n then none else some n := by
      have hcnt : word (tnfsHeader f.conn f.seq tnfsWrite ++ ([tnfsOk] ++ le16 n))
        (tnfsStatusOff + 1) = n := by
        have hword := Reply.word_behind f.conn f.seq tnfsWrite tnfsOk [] (show n < 65536 by omega)
        rwa [List.append_nil] at hword
      rw [List.take_of_length_le (by simp [tnfsMsgCap, tnfsHdrLen, tnfsIoChunk]), writeReply, if_neg, hcnt]
      rintro (hst | hshort)
      · exact hst rfl
      · simp [tnfsStatusOff, tnfsHeader, le16] at hshort
    rw [hreply] at hput
    split at hput
    · cases hput
    · next hsome =>
      obtain rfl : n = put := Option.some.inj hput
      rw [hbytes] at hover
      exact ⟨by omega, hle, hp', hover⟩

/-! ### `tnfs_read_at` and `tnfs_write_at` -/

omit hst hos hme in
/-- Moving on from `off` within a file. -/
theorem moved_on {off : UInt32} {n size : ℕ} (hin : off.toNat + n ≤ size) (hsize : size < 2 ^ 32) :
    (off + UInt32.ofNat n).toNat = off.toNat + n := by
  rw [UInt32.toNat_add, UInt32.toNat_ofNat', Nat.mod_eq_of_lt (by omega : n < 2 ^ 32),
    Nat.mod_eq_of_lt (by omega)]

/-- The loop of `tnfs_read_at`: when it succeeds, what it has read is what the file has there. -/
theorem readLoop_lossy (rounds : ℕ) {off : UInt32} {dst : Bytes} {len : ℕ} {r : Except EspErr Bytes}
    (hs : s.host.Stands world files me k f) (hquiet : s.inbox = []) (hrounds : len ≤ rounds)
    (h : s.Runs world bytes me k (Recognised me) (readLoop f off dst len rounds) s' (f', r)) :
    s'.host.Stands world files me k f' ∧ s'.inbox = [] ∧ ∀ data, r = .ok data →
      data = dst ++ slice (bytes s.host.daemon.card k) off.toNat len ∧
        (slice (bytes s.host.daemon.card k) off.toNat len).length = len ∧
      bytes s'.host.daemon.card k = bytes s.host.daemon.card k := by
  induction rounds generalizing s f off dst len with
  | zero =>
    obtain ⟨hr, hothers⟩ := h.ret_inv
    cases hr
    obtain ⟨⟨hs', hbytes⟩, hquiet'⟩ := stands_quiet hst hos hme hs hquiet hothers
    refine ⟨hs', hquiet', ?_⟩
    rintro data ⟨⟩
    rw [Nat.le_zero.mp hrounds, slice, List.take_zero, List.append_nil]
    exact ⟨rfl, rfl, hbytes⟩
  | succ rounds ih =>
    unfold readLoop at h
    split at h
    · next hzero =>
      obtain ⟨hr, hothers⟩ := h.ret_inv
      cases hr
      obtain ⟨⟨hs', hbytes⟩, hquiet'⟩ := stands_quiet hst hos hme hs hquiet hothers
      refine ⟨hs', hquiet', ?_⟩
      rintro data ⟨⟩
      rw [hzero, slice, List.take_zero, List.append_nil]
      exact ⟨rfl, rfl, hbytes⟩
    · next hmore =>
      obtain ⟨s₁, ⟨f₁, q₁⟩, hseek, hrest⟩ := h.bind_inv
      obtain ⟨hquiet₁, ⟨⟨e, rfl⟩, hs₁⟩ | ⟨rfl, hvalid₁, hpos₁, hsettled₁, hext⟩⟩ :=
        tnfsSeek_lossy hst hos hme hs hquiet hseek
      · obtain ⟨hr, hothers⟩ := hrest.ret_inv
        cases hr
        obtain ⟨⟨hs', -⟩, hquiet'⟩ := stands_quiet hst hos hme hs₁ hquiet₁ hothers
        exact ⟨hs', hquiet', by rintro data ⟨⟩⟩
      · dsimp only at hrest
        obtain ⟨s₂, ⟨f₂, q₂⟩, hread, hrest⟩ := hrest.bind_inv
        obtain ⟨hquiet₂, ⟨⟨e, rfl⟩, hs₂⟩ | ⟨m, p', rfl, rfl, hsettled₂, hbytes₂, hgives⟩⟩ :=
          read_lossy hst hos hme hsettled₁ hquiet₁ (by rw [tnfsIoChunk]; omega) (min_le_right _ _) hread
        · obtain ⟨hr, hothers⟩ := hrest.ret_inv
          cases hr
          obtain ⟨⟨hs', -⟩, hquiet'⟩ := stands_quiet hst hos hme hs₂ hquiet₂ hothers
          exact ⟨hs', hquiet', by rintro data ⟨⟩⟩
        · dsimp only at hrest
          cases hreply : readReply (min len tnfsIoChunk) m with
          | none =>
            rw [hreply] at hrest
            obtain ⟨hr, hothers⟩ := hrest.ret_inv
            cases hr
            obtain ⟨⟨hs', -⟩, hquiet'⟩ := stands_quiet hst hos hme hsettled₂.forget hquiet₂ hothers
            exact ⟨hs', hquiet', by rintro data ⟨⟩⟩
          | some d =>
            rw [hreply] at hrest
            dsimp only at hrest
            obtain ⟨hne, hpre, hle, rfl⟩ := hgives d hreply
            have hdpos : 0 < d.length := List.length_pos_of_ne_nil hne
            have hdlen : d.length ≤ len := hle.trans (min_le_left _ _)
            -- something was read there, so the LSEEK was within the file and did not extend it
            have hinside : off.toNat + d.length ≤ (bytes s₁.host.daemon.card k).length := by
              have hshort := hpre.length_le
              rw [List.length_drop] at hshort
              omega
            have hbytes₁ : bytes s₁.host.daemon.card k = bytes s.host.daemon.card k := hext.eq (by
              have hbound := hext.length
              omega)
            have hoff := moved_on hinside (hst.size _ k)
            have hadvanced : (f₁.pos + UInt32.ofNat d.length).toNat = off.toNat + d.length := by
              rw [hpos₁, hoff]
            have hs₂ : s₂.host.Stands world files me k
              (TnfsFile.advance { f₁ with seq := f₁.seq + 1 } d.length) :=
              hsettled₂.stands rfl rfl rfl fun _ => hadvanced
            obtain ⟨hs', hquiet', hgot⟩ := ih hs₂ hquiet₂ (by omega) hrest
            refine ⟨hs', hquiet', fun data hdata => ?_⟩
            obtain ⟨hslice, hlen, hbytes'⟩ := hgot data hdata
            rw [hoff, hbytes₂, hbytes₁] at hslice hlen
            rw [hbytes₁] at hpre
            have hwhole := slice_prefix hpre hdlen
            refine ⟨?_, ?_, hbytes'.trans (hbytes₂.trans hbytes₁)⟩
            · rw [hslice, hwhole, List.append_assoc]
            · rw [hwhole, List.length_append, hlen]
              omega

/-- The loop of `tnfs_write_at`: when it succeeds, the bytes are there, and nothing else is changed. -/
theorem writeLoop_lossy (rounds : ℕ) {off : UInt32} {src : Bytes} {r : Except EspErr Unit}
    (hs : s.host.Stands world files me k f) (hquiet : s.inbox = []) (hrounds : src.length ≤ rounds)
    (h : s.Runs world bytes me k (Recognised me) (writeLoop f off src rounds) s' (f', r)) :
    s'.host.Stands world files me k f' ∧ s'.inbox = [] ∧
      (r = .ok () → Overwritten (bytes s.host.daemon.card k) off.toNat src
        (bytes s'.host.daemon.card k)) := by
  induction rounds generalizing s f off src with
  | zero =>
    obtain ⟨hr, hothers⟩ := h.ret_inv
    cases hr
    obtain ⟨⟨hs', hbytes⟩, hquiet'⟩ := stands_quiet hst hos hme hs hquiet hothers
    refine ⟨hs', hquiet', fun _ => ?_⟩
    rw [hbytes, List.length_eq_zero_iff.mp (Nat.le_zero.mp hrounds)]
    exact Overwritten.nil _ _
  | succ rounds ih =>
    unfold writeLoop at h
    split at h
    · next hzero =>
      obtain ⟨hr, hothers⟩ := h.ret_inv
      cases hr
      obtain ⟨⟨hs', hbytes⟩, hquiet'⟩ := stands_quiet hst hos hme hs hquiet hothers
      refine ⟨hs', hquiet', fun _ => ?_⟩
      rw [hbytes, List.length_eq_zero_iff.mp hzero]
      exact Overwritten.nil _ _
    · next hmore =>
      obtain ⟨s₁, ⟨f₁, q₁⟩, hseek, hrest⟩ := h.bind_inv
      obtain ⟨hquiet₁, ⟨⟨e, rfl⟩, hs₁⟩ | ⟨rfl, hvalid₁, hpos₁, hsettled₁, hext⟩⟩ :=
        tnfsSeek_lossy hst hos hme hs hquiet hseek
      · obtain ⟨hr, hothers⟩ := hrest.ret_inv
        cases hr
        obtain ⟨⟨hs', -⟩, hquiet'⟩ := stands_quiet hst hos hme hs₁ hquiet₁ hothers
        exact ⟨hs', hquiet', by rintro ⟨⟩⟩
      · dsimp only at hrest
        obtain ⟨s₂, ⟨f₂, q₂⟩, hwrite, hrest⟩ := hrest.bind_inv
        obtain ⟨hquiet₂, ⟨⟨e, rfl⟩, hs₂⟩ | ⟨m, p', rfl, rfl, hsettled₂, hwrote⟩⟩ :=
          write_lossy hst hos hme hsettled₁ hquiet₁ (List.length_take_le _ _) hwrite
        · obtain ⟨hr, hothers⟩ := hrest.ret_inv
          cases hr
          obtain ⟨⟨hs', -⟩, hquiet'⟩ := stands_quiet hst hos hme hs₂ hquiet₂ hothers
          exact ⟨hs', hquiet', by rintro ⟨⟩⟩
        · dsimp only at hrest
          cases hreply : writeReply (src.take tnfsIoChunk).length m with
          | none =>
            rw [hreply] at hrest
            obtain ⟨hr, hothers⟩ := hrest.ret_inv
            cases hr
            obtain ⟨⟨hs', -⟩, hquiet'⟩ := stands_quiet hst hos hme hsettled₂.forget hquiet₂ hothers
            exact ⟨hs', hquiet', by rintro ⟨⟩⟩
          | some put =>
            rw [hreply] at hrest
            dsimp only at hrest
            obtain ⟨hput, hle, rfl, hover⟩ := hwrote put hreply
            have hle' : put ≤ src.length := hle.trans (List.length_take_le' _ _)
            have hfirst : (src.take tnfsIoChunk).take put = src.take put := by
              rw [List.take_take, min_eq_left (hle.trans (List.length_take_le _ _))]
            have hlen : (src.take put).length = put := by rw [List.length_take, min_eq_left hle']
            have hne : src.take put ≠ [] := List.ne_nil_of_length_pos (by omega)
            rw [hfirst] at hover
            have hover' := Overwritten.of_extended hext hover hne
            have hinside : off.toNat + put ≤ (bytes s₂.host.daemon.card k).length := by
              rw [hover'.length_of_ne_nil hne, hlen]
              exact Nat.le_max_right _ _
            have hoff := moved_on hinside (hst.size _ k)
            have hadvanced : (f₁.pos + UInt32.ofNat put).toNat = off.toNat + put := by rw [hpos₁, hoff]
            have hs₂ : s₂.host.Stands world files me k
                ((TnfsFile.advance { f₁ with seq := f₁.seq + 1 } put).grow (off + UInt32.ofNat put)) := by
              unfold TnfsFile.grow
              split <;> exact hsettled₂.stands rfl rfl rfl fun _ => hadvanced
            obtain ⟨hs', hquiet', hrest'⟩ := ih hs₂ hquiet₂ (by rw [List.length_drop]; omega) hrest
            refine ⟨hs', hquiet', fun hok => ?_⟩
            have hbehind := hrest' hok
            rw [hoff, ← hlen] at hbehind
            have hboth := hover'.append hbehind hne
            rwa [hlen, List.take_append_drop] at hboth

end Calls

/-! ### `tnfs_open` -/

/-- The client's session is new, or gone. -/
def Host.Mounted (world : σ → (c : SysCall) → σ × c.Answer) (me : Peer) (conn : UInt16) (h : Host σ) : Prop :=
  h.daemon.server.Lacks me conn ∨ ∃ i t, h.daemon.Hosts world me i t ∧ t.sid = conn ∧ t.lastSeq = 0

section Opens
variable (hst : Storing world files bytes) (hos : HandsOut world isOpen) (hme : me ≠ ⟨0, 0⟩)
include hst hos

theorem Line.Others.mounted {conn : UInt16} (hothers : s.Others world bytes me k s')
    (hm : s.host.Mounted world me conn) :
    s'.host.Mounted world me conn := by
  rcases hm with hlacks | ⟨i, t, hhosts, rfl, hlast⟩
  · exact .inl (hothers.lacks hlacks)
  · exact (hothers.hosts hst hos hhosts).imp_right fun ⟨hhosts', _⟩ => ⟨i, t, hhosts', rfl, hlast⟩

include hme

/-- `tnfs_mount_root`, when it succeeds. -/
theorem tnfsMountRoot_lossy (hup : s.host.daemon.Up world) (hquiet : s.inbox = [])
    (h : s.Runs world bytes me k (Recognised me) (tnfsMountRoot f) s' (f', .ok ())) :
    s'.inbox = [] ∧ f'.seq = 1 ∧ s'.host.Mounted world me f'.conn := by
  change Line.Runs world bytes me k (Recognised me) s
    (tnfsCommand { f with seq := 0, conn := 0 } tnfsMount mountPayload >>= _) s' _ at h
  obtain ⟨s₁, ⟨f₁, q⟩, hcommand, hrest⟩ := h.bind_inv
  have hmount := command_lossy (f := { f with seq := 0, conn := 0 }) (I := fun h => h.daemon.Up world)
    (J := fun m h => h.daemon.Up world ∧ (replyStatus m = tnfsEagain ∨
      ∃ sid, m = tnfsHeader sid 0 tnfsMount ++ (Reply.mounted tnfsdMinRetryMs).body ∧ h.Mounted world me sid))
    hme (fun s s' hup hothers => hothers.up hup) ?_ ?_ (by decide) hup hquiet hcommand
  · obtain ⟨hquiet₁, ⟨e, rfl, -⟩ | ⟨m, rfl, rfl, -, hm⟩⟩ := hmount
    · obtain ⟨hr, -⟩ := hrest.ret_inv
      cases hr
    · dsimp only at hrest
      rcases hm with hbusy | ⟨sid, rfl, hmounted⟩
      · rw [mountReply, if_pos (by rw [hbusy]; decide)] at hrest
        obtain ⟨hr, -⟩ := hrest.ret_inv
        cases hr
      · have hsid : mountReply (tnfsHeader sid 0 tnfsMount ++ (Reply.mounted tnfsdMinRetryMs).body) =
          some sid := by
          rw [mountReply, if_neg (by rw [not_not]; rfl), Reply.word_header]
        rw [hsid] at hrest
        obtain ⟨hr, hothers⟩ := hrest.ret_inv
        cases hr
        obtain ⟨hmounted', hquiet'⟩ :=
          Line.keeps_quiet hme (fun _ _ hm hothers => hothers.mounted hst hos hm) hothers hmounted hquiet₁
        exact ⟨hquiet', rfl, hmounted'⟩
  · rintro m s s' ⟨hup, hm⟩ hothers
    refine ⟨hothers.up hup, hm.imp_right ?_⟩
    rintro ⟨sid, hreply, hmounted⟩
    exact ⟨sid, hreply, hothers.mounted hst hos hmounted⟩
  · intro h now hup _
    obtain ⟨m, hsent, -, hm⟩ := mount_turn (f := { f with seq := 0, conn := 0 }) hup me now rfl
    refine ⟨hup.visited .., .inr ⟨m, hsent, hup.visited .., hm.imp_right ?_⟩⟩
    rintro ⟨i, hi, htold⟩
    exact ⟨_, htold.reply, .inr ⟨i, _, ⟨hup.visited .., hi, rfl, htold.live, htold.peer⟩, rfl, htold.seq⟩⟩

/-- The session has the descriptor that a reply to OPEN names, open on some file. -/
def Handed (files : σ → ℕ → Option (κ × ℕ)) (card : σ) (t : Session) (m : Bytes) : Prop :=
  ∀ slot, handleReply m = some slot → ∃ fd j p, t.file slot = some fd ∧ files card fd = some (j, p)

omit hst hos hme in
theorem Handed.kept {card card' : σ} {m : Bytes} (h : Handed files card t m)
    (hkept : Kept files t card card') :
    Handed files card' t m := by
  intro slot hslot
  obtain ⟨fd, j, p, hfd, hfile⟩ := h slot hslot
  exact ⟨fd, j, p, hfd, hkept fd j p (file_held hfd).2.2 hfile⟩

/-- The OPEN of `tnfs_open`. -/
theorem open_lossy {pl : Bytes} {r : Except EspErr Bytes} (hmounted : s.host.Mounted world me f.conn)
    (hseq : f.seq = 1) (hquiet : s.inbox = []) (hlen : tnfsHdrLen + pl.length ≤ tnfsMsgCap)
    (happend : (openFlagsOf (word pl 0)).append = false)
    (h : s.Runs world bytes me k (Recognised me) (tnfsCommand f tnfsOpen pl) s' (f', r)) : s'.inbox = [] ∧
      ((∃ e, r = .error e) ∨ ∃ m, r = .ok m ∧ f' = { f with seq := f.seq + 1 } ∧
        (s'.host.daemon.server.Lacks me f.conn ∨
        ∃ i t, s'.host.daemon.Hosts world me i t ∧ t.sid = f.conn ∧ t.lastSeq = f.seq ∧
          Handed files s'.host.daemon.card t m)) := by
  have hcommand := command_lossy (f := f)
    (I := fun h => h.daemon.server.Lacks me f.conn ∨ ∃ i t, h.daemon.Hosts world me i t ∧ t.sid = f.conn ∧
      (t.Keyed f.seq tnfsOpen → Handed files h.daemon.card t t.reply))
    (J := fun m h => h.daemon.server.Lacks me f.conn ∨
      ∃ i t, h.daemon.Hosts world me i t ∧ t.sid = f.conn ∧ t.lastSeq = f.seq ∧
        Handed files h.daemon.card t m)
    hme ?_ ?_ ?_ hlen ?_ hquiet h
  · obtain ⟨hquiet', ⟨e, he, -⟩ | ⟨m, hm, hf', hend⟩⟩ := hcommand
    · exact ⟨hquiet', .inl ⟨e, he⟩⟩
    · exact ⟨hquiet', .inr ⟨m, hm, hf', hend⟩⟩
  · rintro s s' (hlacks | ⟨i, t, hhosts, hsid, hopened⟩) hothers
    · exact .inl (hothers.lacks hlacks)
    · rcases hothers.hosts hst hos hhosts with hlacks | ⟨hhosts', hkept⟩
      · exact .inl (hsid ▸ hlacks)
      · exact .inr ⟨i, t, hhosts', hsid, fun hkeyed => (hopened hkeyed).kept hkept⟩
  · rintro m s s' (hlacks | ⟨i, t, hhosts, hsid, hlast, hopened⟩) hothers
    · exact .inl (hothers.lacks hlacks)
    · rcases hothers.hosts hst hos hhosts with hlacks | ⟨hhosts', hkept⟩
      · exact .inl (hsid ▸ hlacks)
      · exact .inr ⟨i, t, hhosts', hsid, hlast, hopened.kept hkept⟩
  · rintro h now (hlacks | ⟨i, t, hhosts, hsid, hopened⟩) -
    · obtain ⟨hgone, hnone⟩ := (hlacks.freed
        (Server.reaped_freed now tnfsdMaxSessions h.daemon.server)).own_turn
        (by decide : tnfsOpen ≠ tnfsMount) hlen
      exact ⟨.inl hgone, .inl hnone⟩
    · rcases hhosts.own_turn hst hos now hsid (by decide : tnfsOpen ≠ tnfsMount)
        (by decide) hlen with ⟨hgone, hnone⟩ | ⟨hkept, hserved⟩
      · exact ⟨.inl hgone, .inl hnone⟩
      · rcases hserved with ⟨hkeyed, -, hcard, hhosts', hsent⟩ | ⟨-, hcard, hhosts', hsent⟩
        · have hopened' : Handed files (Line.took world me h now (f.request tnfsOpen pl)).daemon.card
            { t with lastActiveUs := now }
              t.reply := by
            have hopened' := (hopened hkeyed).kept hkept
            rw [← hcard] at hopened'
            exact hopened'
          exact ⟨.inr ⟨i, _, hhosts', hsid, fun _ => hopened'⟩,
            .inr ⟨_, hsent, .inr ⟨i, _, hhosts', hsid, hkeyed.seq, hopened'⟩⟩⟩
        · have hsid' := (ranSession_framed world f tnfsOpen pl (h.daemon.reapedCard world now)
            t now).2.1.trans hsid
          have hopened' : Handed files (Line.took world me h now (f.request tnfsOpen pl)).daemon.card
              (ranSession world f tnfsOpen pl (h.daemon.reapedCard world now) t now)
              (ranReply world f tnfsOpen pl (h.daemon.reapedCard world now) t) := by
            intro slot hslot
            have hopens := hOpen_opens (O := fun card fd => ∃ j p, files card fd = some (j, p)) t pl
              (h.daemon.reapedCard world now)
              (fun card path fd => hst.opened card path _ fd happend) ?_
            · obtain ⟨fd, ⟨j, p, hfile⟩, hfd⟩ := opened_slot now hopens hslot
              exact ⟨fd, j, p, hfd, (congrArg (files · fd) hcard).trans hfile⟩
            · rintro card fd ⟨j, p, hfile⟩
              exact ⟨j, p, hst.elsewhere card .changeEnd fd j p hfile (by rintro ⟨⟩)⟩
          refine ⟨.inr ⟨i, _, hhosts', hsid', fun _ => ?_⟩,
            .inr ⟨_, hsent, .inr ⟨i, _, hhosts', hsid', rfl, hopened'⟩⟩⟩
          rwa [ranSession_reply hsid]
  · rcases hmounted with hlacks | ⟨i, t, hhosts, hsid, hlast⟩
    · exact .inl hlacks
    · refine .inr ⟨i, t, hhosts, hsid, fun hkeyed => absurd hkeyed (not_keyed ?_)⟩
      rw [hlast, hseq]
      rfl

omit hst hos hme in
theorem failOpen_lossy {e : EspErr} {r : Except EspErr Unit}
    (h : s.Runs world bytes me k (Recognised me) (failOpen f e) s' (f', r)) :
    r = .error e := by
  obtain ⟨s₁, q, -, hrest⟩ := h.bind_inv
  obtain ⟨hr, -⟩ := hrest.ret_inv
  cases hr
  rfl

omit hst hos hme in
/-- `tnfs_open` never asks for a file to append to. -/
theorem openMode_append (writable create : Bool) (path : CStr) :
    (openFlagsOf (word (openPayload (openModeFlags writable create) path) 0)).append = false := by
  have hsmall : openModeFlags writable create < 65536 := by cases writable <;> cases create <;> decide
  have hword : word (openPayload (openModeFlags writable create) path) 0 = openModeFlags writable create := by
    have hword := word_le16 [] (le16 0x01A4 ++ CStr.bytes path ++ [0]) (openModeFlags writable create) hsmall
    rwa [List.nil_append, ← List.append_assoc, ← List.append_assoc] at hword
  rw [hword]
  cases writable <;> cases create <;> decide

/-- `tnfs_open` up to the size, when it succeeds: the file stands somewhere. -/
theorem tnfsOpenFile_lossy {writable create : Bool} {path : CStr} (hup : s.host.daemon.Up world)
    (hquiet : s.inbox = []) (h : s.Runs world bytes me k (Recognised me)
      (tnfsOpenFile (openModeFlags writable create) path) s' (f', .ok ())) :
    s'.inbox = [] ∧ ∃ j p, s'.host.Settled world files me j f' p := by
  obtain ⟨s₁, ⟨f₁, q⟩, hmount, h⟩ := h.bind_inv
  obtain e | _ := q
  · obtain ⟨hr, -⟩ := h.ret_inv
    cases hr
  · obtain ⟨hquiet₁, hseq, hmounted⟩ := tnfsMountRoot_lossy hst hos hme hup hquiet hmount
    dsimp only at h
    split at h
    · cases failOpen_lossy h
    · next hshort =>
      obtain ⟨s₂, ⟨f₂, q⟩, hcommand, h⟩ := h.bind_inv
      have hlen : tnfsHdrLen + (openPayload (openModeFlags writable create) path).length ≤ tnfsMsgCap := by
        have hcap : tnfsMsgCap = 1032 ∧ tnfsHdrLen = 4 := ⟨rfl, rfl⟩
        simp only [openPayload, List.length_append, List.length_cons, List.length_nil,
          length_le16, FdcSds.length_bytes]
        omega
      obtain ⟨hquiet₂, ⟨e, rfl⟩ | ⟨m, rfl, rfl, hend⟩⟩ := open_lossy hst hos hme hmounted hseq hquiet₁ hlen
        (openMode_append writable create path) hcommand
      · cases failOpen_lossy h
      · dsimp only at h
        cases hh : handleReply m with
        | none =>
          rw [hh] at h
          cases failOpen_lossy h
        | some slot =>
          rw [hh] at h
          obtain ⟨hr, hothers⟩ := h.ret_inv
          cases hr
          have hopened : ∃ j p, s₂.host.Settled world files me j
            { f₁ with seq := f₁.seq + 1, fd := slot } p := by
            rcases hend with hlacks | ⟨i, t, hhosts, hsid, hlast, hhanded⟩
            · exact ⟨k, 0, .inl hlacks⟩
            · obtain ⟨fd, j, p, hfd, hfile⟩ := hhanded slot hh
              exact ⟨j, p, .inr ⟨t, fd, ⟨⟨i, hhosts⟩, hsid, hfd, hfile⟩, by rw [hlast]⟩⟩
          obtain ⟨j, p, hsettled⟩ := hopened
          obtain ⟨hsettled', hquiet'⟩ := Line.keeps_quiet
            (I := fun h => h.Settled world files me j { f₁ with seq := f₁.seq + 1, fd := slot } p) hme
            (fun _ _ hs hothers => hothers.settled hst hos hs) hothers hsettled hquiet₂
          exact ⟨hquiet', j, p, hsettled'⟩

/-- A file that is not watched stands, too. -/
theorem stays_quiet {j : κ} (hs : s.host.Stands world files me j f) (hquiet : s.inbox = [])
    (h : Relation.ReflTransGen (Line.Others world bytes me k) s s') :
    s'.host.Stands world files me j f ∧ s'.inbox = [] :=
  Line.keeps_quiet (I := fun h => h.Stands world files me j f) hme
    (fun _ _ hs hothers => hothers.stands hst hos hs) h hs hquiet

/-- `tnfs_query_size`. -/
theorem tnfsQuerySize_lossy {r : Except EspErr Unit} {j : κ} (hs : s.host.Settled world files me j f p)
    (hquiet : s.inbox = []) (h : s.Runs world bytes me k (Recognised me) (tnfsQuerySize f) s' (f', r)) :
    s'.host.Stands world files me j f'.forget ∧ s'.inbox = [] := by
  have hlen : tnfsHdrLen + (seekPayload f.fd tnfsSeekEnd 0).length ≤ tnfsMsgCap := by
    simp [seekPayload, le32, tnfsHdrLen, tnfsMsgCap, tnfsIoChunk]
  obtain ⟨s₁, ⟨f₁, q⟩, hcommand, hrest⟩ := h.bind_inv
  have hasked : s₁.inbox = [] ∧ s₁.host.Stands world files me j f₁.forget := by
    rcases hs with hlacks | ⟨t, fd, ho, hlast⟩
    · obtain ⟨hquiet₁, -, rfl, hlacks₁⟩ := command_gone hme hlacks hquiet (by decide) hlen hcommand
      exact ⟨hquiet₁, .inl hlacks₁⟩
    · have hnew : ∀ card, files card fd = some (j, p) →
          (run world card (handle t tnfsLseek (seekPayload f.fd tnfsSeekEnd 0))).2.1 = t ∧
            ∃ p', files (run world card (handle t tnfsLseek (seekPayload f.fd tnfsSeekEnd 0))).1 fd =
              some (j, p') ∧ True := by
        intro card hfile
        have hrun : run world card (handle t tnfsLseek (seekPayload f.fd tnfsSeekEnd 0)) = _ :=
          run_hLseek ho.handle rfl 0
        obtain ⟨p', hnext, -⟩ := hst.lseek card fd (int32 (0 : UInt32).toNat) .fromEnd j p hfile
        rw [hrun]
        exact ⟨rfl, p', hnext, trivial⟩
      obtain ⟨hquiet₁, ⟨-, rfl, hfailed⟩ | ⟨m, p', -, rfl, -, hend⟩⟩ :=
        command_open (B := fun _ _ _ => True) hst hos hme ho hquiet
        (by decide) (by decide) hlen (fun _ card hfile _ => hnew card hfile) (fun _ _ => trivial) hcommand
      · refine ⟨hquiet₁, ?_⟩
        rcases hfailed with hlacks₁ | ⟨ho₁, -⟩ | ⟨t', p', ho₁, hkeyed, hheard, -⟩
        · exact .inl hlacks₁
        · exact .inr ⟨t, fd, p, ho₁.same rfl rfl, .inl ⟨hlast, by rintro ⟨⟩⟩⟩
        · refine .inr ⟨t', fd, p', ho₁.same rfl rfl, .inr ⟨rfl, hkeyed.seq, fun _ off hcopy => ?_⟩⟩
          -- it was an LSEEK to the end, and no LSEEK to an offset is a copy of it
          have hwhence := congrArg (·.getD 5 0) (Option.some.inj (hheard.symm.trans hcopy))
          exact absurd hwhence (by decide : tnfsSeekEnd ≠ tnfsSeekSet)
      · exact ⟨hquiet₁, Host.Settled.forget (f := { f with seq := f.seq + 1 })
          (Host.Settled.next hend rfl rfl rfl)⟩
  obtain ⟨hquiet₁, hs₁⟩ := hasked
  obtain e | m := q
  · obtain ⟨hr, hothers⟩ := hrest.ret_inv
    cases hr
    exact stays_quiet hst hos hme hs₁ hquiet₁ hothers
  · dsimp only at hrest
    split at hrest
    · obtain ⟨hr, hothers⟩ := hrest.ret_inv
      cases hr
      exact stays_quiet hst hos hme hs₁ hquiet₁ hothers
    · obtain ⟨hr, hothers⟩ := hrest.ret_inv
      cases hr
      exact stays_quiet hst hos hme (hs₁.sized _) hquiet₁ hothers

/-- `tnfs_open`, when it succeeds: the file stands somewhere, whatever was lost. -/
theorem tnfsOpenPath_lossy {path : CStr} {writable create : Bool} (hup : s.host.daemon.Up world)
    (hquiet : s.inbox = []) (h : s.Runs world bytes me k (Recognised me)
      (tnfsOpenPath path writable create) s' (.ok f)) :
    s'.inbox = [] ∧ ∃ j, s'.host.Stands world files me j f := by
  obtain ⟨s₁, ⟨f₁, q⟩, hopen, h⟩ := h.bind_inv
  obtain e | _ := q
  · obtain ⟨hr, -⟩ := h.ret_inv
    cases hr
  · obtain ⟨hquiet₁, j, p, hsettled⟩ := tnfsOpenFile_lossy hst hos hme hup hquiet hopen
    have hsettled₁ : s₁.host.Settled world files me j { f₁ with size := 0 } p := by
      rcases hsettled with hlacks | ⟨t, fd, ho, hlast⟩
      · exact .inl hlacks
      · exact .inr ⟨t, fd, ho.same rfl rfl, hlast⟩
    dsimp only at h
    obtain ⟨s₂, f₂, hopened, h⟩ := h.bind_inv
    obtain ⟨hr, hothers⟩ := h.ret_inv
    cases hr
    have hs₂ : s₂.host.Stands world files me j f ∧ s₂.inbox = [] := by
      unfold tnfsOpened at hopened
      split at hopened
      · obtain ⟨hr, hothers₂⟩ := hopened.ret_inv
        cases hr
        exact stays_quiet hst hos hme hsettled₁.forget hquiet₁ hothers₂
      · obtain ⟨s₃, ⟨f₃, q⟩, hquery, hret⟩ := hopened.bind_inv
        obtain ⟨hs₃, hquiet₃⟩ := tnfsQuerySize_lossy hst hos hme hsettled₁ hquiet₁ hquery
        obtain ⟨hr, hothers₂⟩ := hret.ret_inv
        cases hr
        exact stays_quiet hst hos hme hs₃ hquiet₃ hothers₂
    obtain ⟨hs', hquiet'⟩ := stays_quiet hst hos hme hs₂.1 hs₂.2 hothers
    exact ⟨hquiet', j, hs'⟩

end Opens

/-! ### Reads and writes -/

/-- A call of `tnfs_read_at` or `tnfs_write_at`, and what is left to the others around it. -/
def CallStep (world : σ → (c : SysCall) → σ × c.Answer) (bytes : σ → κ → Bytes) (me : Peer) (k : κ)
    (x y : Line σ × TnfsFile) : Prop :=
  (∃ off len r, x.1.Runs world bytes me k (Recognised me) (tnfsReadAt x.2 off len) y.1 (y.2, r)) ∨
    ∃ off src r, x.1.Runs world bytes me k (Recognised me) (tnfsWriteAt x.2 off src) y.1 (y.2, r)

/-- WRONG where the server takes another request for a repetition: over a network that loses datagrams,
    amid any turns for others that leave the file alone, while what the server answers from its cache is
    a copy of what got through last, a `tnfs_read_at` that succeeds gives the bytes that are there, and
    a `tnfs_write_at` that succeeds writes its bytes there and changes nothing else, whatever calls
    failed before. -/
theorem right_bytes (hst : Storing world files bytes) (hos : HandsOut world isOpen) (hme : me ≠ ⟨0, 0⟩)
    {d : Daemon σ} (hup : d.Up world) {heard : Option Bytes} {path : CStr} {writable create : Bool}
    (hopen : Line.Runs world bytes me k (Recognised me) ⟨⟨d, heard⟩, []⟩
      (tnfsOpenPath path writable create) s (.ok f)) (hk : ∀ j ∈ s.host.daemon.openOn files me f, j = k) :
    ∀ s' f', Relation.ReflTransGen (CallStep world bytes me k) (s, f) (s', f') →
      (∀ off len s₁ f₁ data, s'.Runs world bytes me k (Recognised me)
        (tnfsReadAt f' off len) s₁ (f₁, .ok data) →
        data = slice (bytes s'.host.daemon.card k) off.toNat len ∧ data.length = len ∧
          bytes s₁.host.daemon.card k = bytes s'.host.daemon.card k) ∧
      ∀ off src s₁ f₁, s'.Runs world bytes me k (Recognised me) (tnfsWriteAt f' off src) s₁ (f₁, .ok ()) →
        Overwritten (bytes s'.host.daemon.card k) off.toNat src (bytes s₁.host.daemon.card k) := by
  obtain ⟨hquiet, j, hs⟩ := tnfsOpenPath_lossy hst hos hme hup rfl hopen
  have hs : s.host.Stands world files me k f := by
    rcases hs with hlacks | ⟨t, fd, p, ho, hend⟩
    · exact .inl hlacks
    · obtain ⟨i, hhosts⟩ := ho.hosts
      obtain rfl := hk j (hhosts.openOn ho.sid ho.handle ho.file)
      exact .inr ⟨t, fd, p, ho, hend⟩
  intro s' f' hcalls
  obtain ⟨hs', hquiet'⟩ : s'.host.Stands world files me k f' ∧ s'.inbox = [] := by
    refine keeps_all (E := CallStep world bytes me k)
      (I := fun x => x.1.host.Stands world files me k x.2 ∧ x.1.inbox = []) ?_ hcalls
      ⟨hs, hquiet⟩
    rintro x y ⟨hs, hquiet⟩ (⟨off, len, r, hread⟩ | ⟨off, src, r, hwrite⟩)
    · obtain ⟨hs', hquiet', -⟩ := readLoop_lossy hst hos hme len hs hquiet le_rfl hread
      exact ⟨hs', hquiet'⟩
    · obtain ⟨hs', hquiet', -⟩ := writeLoop_lossy hst hos hme src.length hs hquiet le_rfl hwrite
      exact ⟨hs', hquiet'⟩
  refine ⟨fun off len s₁ f₁ data hread => ?_, fun off src s₁ f₁ hwrite => ?_⟩
  · obtain ⟨hdata, hlen, hsame⟩ := (readLoop_lossy hst hos hme len hs' hquiet' le_rfl hread).2.2 data rfl
    rw [List.nil_append] at hdata
    exact ⟨hdata, by rw [hdata, hlen], hsame⟩
  · exact (writeLoop_lossy hst hos hme src.length hs' hquiet' le_rfl hwrite).2.2 rfl

/-! ### A card with one file, which is written -/

structure Pad where
  content : Bytes
  fits : content.length < 2 ^ 32
  ps : List ℕ

/-- The file may be open any number of times, and its end moves when it is written there. -/
def pad (d : Pad) : (c : SysCall) → Pad × c.Answer
  | .write fd data => match d.ps[fd]? with
    | some p =>
      if h : p ≤ d.content.length ∧ (patch d.content p data).length < 2 ^ 32 then
        (⟨patch d.content p data, h.2, d.ps.set fd (p + data.length)⟩, .ok data.length)
      else (d, .error .enospc)
    | none => (d, .error .ebadf)
  | c => ({ d with ps := (cabinet d.content d.ps c).1 }, (cabinet d.content d.ps c).2)

def Pad.file (d : Pad) (fd : ℕ) : Option (Unit × ℕ) := d.ps[fd]?.map (Prod.mk ())

def Pad.holds (d : Pad) (_ : Unit) : Bytes := d.content

def Pad.gave (d : Pad) : Handle → Prop := cabinetOpen d.ps

theorem Pad.file_eq {d : Pad} {fd p : ℕ} : d.file fd = some ((), p) ↔ d.ps[fd]? = some p := by
  rw [Pad.file, Option.map_eq_some_iff]
  constructor
  · rintro ⟨q, hq, heq⟩
    rwa [← (Prod.mk.inj heq).2]
  · intro hq
    exact ⟨p, hq, rfl⟩

/-- Where a write is told of, it was done. -/
theorem pad_write {d : Pad} {fd p : ℕ} {data : Bytes} (hat : d.ps[fd]? = some p) :
    (∃ e, pad d (.write fd data) = (d, .error e)) ∨
      (p ≤ d.content.length ∧ ∃ d', d'.content = patch d.content p data ∧
      d'.ps = d.ps.set fd (p + data.length) ∧ pad d (.write fd data) = (d', .ok data.length)) := by
  unfold pad
  simp only [hat]
  split
  · next h => exact .inr ⟨h.1, _, rfl, rfl, rfl⟩
  · exact .inl ⟨_, rfl⟩

theorem pad_other {d : Pad} {c : SysCall} {fd p : ℕ} (hother : c.handle ≠ some (.file fd))
    (h : d.ps[fd]? = some p) :
    (pad d c).1.ps[fd]? = some p := by
  cases c with
  | write fd' data =>
    have hne : fd' ≠ fd := fun heq => hother (congrArg (fun fd => some (Handle.file fd)) heq)
    unfold pad
    dsimp only
    split
    · split
      · exact (List.getElem?_set_ne hne).trans h
      · exact h
    · exact h
  | _ => exact @cabinet_other d.content _ _ _ _ hother h

theorem pad_length (d : Pad) (c : SysCall) : d.ps.length ≤ (pad d c).1.ps.length := by
  cases c with
  | write fd data =>
    unfold pad
    dsimp only
    split
    · split
      · exact Nat.le_of_eq (List.length_set ..).symm
      · exact le_rfl
    · exact le_rfl
  | _ => exact cabinet_length d.content d.ps _

theorem pad_storing : Storing pad Pad.file Pad.holds where
  size := fun d _ => d.fits
  opened := by
    rintro d path flags fd - h
    obtain rfl : d.ps.length = fd := Except.ok.inj h
    refine ⟨(), 0, Pad.file_eq.mpr ?_⟩
    change (d.ps ++ [0])[d.ps.length]? = some 0
    exact List.getElem?_concat_length
  elsewhere := fun d c fd k p h hother => Pad.file_eq.mpr (pad_other hother (Pad.file_eq.mp h))
  close := by
    intro d c k hcloses
    cases c <;> first | rfl | cases hcloses
  read := by
    intro d fd n k p h
    obtain ⟨p', hnext, hread, -⟩ :=
      (cabinet_regular d.fits).read d.ps fd n d.content p (cabinetFile_eq.mpr ⟨Pad.file_eq.mp h, rfl⟩)
    exact ⟨p', Pad.file_eq.mpr (cabinetFile_eq.mp hnext).1, rfl, hread⟩
  lseek := by
    intro d fd off wh k p h
    have hat := Pad.file_eq.mp h
    have hlt := (List.getElem?_eq_some_iff.mp hat).1
    by_cases htarget : 0 ≤ seekTarget d.content p off wh
    · have hcall : cabinet d.content d.ps (.lseek fd off wh) =
          (d.ps.set fd (seekTarget d.content p off wh).toNat, .ok (seekTarget d.content p off wh).toNat) := by
        simp only [cabinet, hat, if_pos htarget]
      refine ⟨(seekTarget d.content p off wh).toNat, Pad.file_eq.mpr ?_, ?_⟩
      · change (cabinet d.content d.ps (.lseek fd off wh)).1[fd]? = _
        rw [hcall]
        exact List.getElem?_set_self hlt
      · rintro rfl r -
        exact ⟨htarget, rfl, Extended.refl ..⟩
    · have hcall : cabinet d.content d.ps (.lseek fd off wh) = (d.ps, .error .einval) := by
        simp only [cabinet, hat, if_neg htarget]
      have hanswer : (pad d (.lseek fd off wh)).2 = .error .einval := congrArg Prod.snd hcall
      refine ⟨p, Pad.file_eq.mpr ?_, ?_⟩
      · change (cabinet d.content d.ps (.lseek fd off wh)).1[fd]? = _
        rw [hcall]
        exact hat
      · rintro rfl r hr
        rw [hanswer] at hr
        cases hr
  write := by
    intro d fd data k p h
    have hat := Pad.file_eq.mp h
    have hlt := (List.getElem?_eq_some_iff.mp hat).1
    obtain ⟨e, hcall⟩ | ⟨hle, d', hcontent, hps, hcall⟩ := @pad_write d fd p data hat
    · rw [hcall]
      refine ⟨p, h, ?_⟩
      rintro n ⟨⟩
    · rw [hcall]
      refine ⟨p + data.length, Pad.file_eq.mpr ?_, ?_⟩
      · rw [hps]
        exact List.getElem?_set_self hlt
      · rintro n ⟨⟩
        refine ⟨le_rfl, rfl, ?_⟩
        rw [List.take_length, Pad.holds, Pad.holds, hcontent]
        exact overwritten_patch hle

theorem pad_handsOut : HandsOut pad Pad.gave where
  fresh := by
    intro d c h hopen
    cases c with
    | «open» path flags => exact (cabinet_handsOut d.content).fresh d.ps (.open path flags) h hopen
    | _ => cases hopen
  stays := by
    rintro d c (fd | dir) hopen -
    · exact Nat.lt_of_lt_of_le hopen (pad_length d c)
    · exact hopen

/-! ### A client whose losses are given -/

/-- The line at `now`, with the fates of the datagrams to come, of which all are lost that `reads` does
    not let through. After the last fate every other is answered. -/
def fated (world : σ → (c : SysCall) → σ × c.Answer) (me : Peer) (now : ℕ)
    (reads : Host σ → Bytes → Bool) (x : Line σ × List Fate) :
    (c : NetCall) → (Line σ × List Fate) × c.Answer
  | .send data => if reads x.1.host data then match x.2 with
      | .lost :: fates => ((x.1, fates), true)
      | .unheard :: fates => ((⟨Line.took world me x.1.host now data, x.1.inbox⟩, fates), true)
      | fates =>
        ((⟨Line.took world me x.1.host now data,
          x.1.inbox ++ x.1.host.daemon.sentTo world me now me data⟩, fates.tail), true)
    else ((x.1, x.2.tail), true)
  | .await seq cmd => match x.1.inbox.dropWhile (!udpMatches seq cmd ·) with
    | [] => ((⟨x.1.host, []⟩, x.2), none)
    | m :: rest => ((⟨x.1.host, rest⟩, x.2), some m)
  | .delay _ => (x, ())

/-- A program that is played so, without a turn for others. -/
theorem runs_fated {α : Type} {pass : Passage σ} {now : ℕ} {reads : Host σ → Bytes → Bool}
    (hpass : ∀ h data, reads h data = true → pass h now data) (x : Line σ × List Fate) (q : Net α) :
    x.1.Runs world bytes me k pass q (run (fated world me now reads) x q).1.1
      (run (fated world me now reads) x q).2 := by
  refine (Prog.Amid.of_run (π := Prod.fst) (I := fun _ => True) ?_ trivial).1
  rintro ⟨s, fates⟩ c -
  refine ⟨?_, trivial⟩
  cases c with
  | send data =>
    simp only [fated, Line.Own]
    split
    · next hreads =>
      have hpass := hpass s.host data hreads
      split
      · exact .inl rfl
      · exact .inr ⟨rfl, now, hpass, [], List.nil_sublist _, by rw [List.append_nil]⟩
      · exact .inr ⟨rfl, now, hpass, _, List.Sublist.refl _, rfl⟩
    · exact .inl rfl
  | await seq cmd =>
    simp only [fated, Line.Own]
    cases s.inbox.dropWhile (!udpMatches seq cmd ·) with
    | nil => exact ⟨rfl, rfl⟩
    | cons m rest => exact ⟨rfl, rfl⟩
  | delay => rfl

/-- `Recognised`, computed. -/
def recognised (me : Peer) (now : ℕ) (h : Host σ) (data : Bytes) : Bool :=
  match (h.daemon.server.reaped now tnfsdMaxSessions).turn me (data.take tnfsMsgCap) with
  | .replay _ => h.heard == some data
  | _ => true

theorem recognised_iff {now : ℕ} {h : Host σ} {data : Bytes} : recognised me now h data = true ↔
      Recognised me h now data := by
  rw [recognised, Recognised]
  cases (h.daemon.server.reaped now tnfsdMaxSessions).turn me (data.take tnfsMsgCap) with
  | replay i => simp
  | ignored | refused | mount | run => simp

/-! ### Two bytes -/

def padBoot : Daemon Pad := ⟨false, Daemon.staticServer, ⟨[7, 8], by decide, []⟩, []⟩

theorem exec_pad : ((Daemon.machine pad).exec padBoot [.start]).isSome = true := by decide

/-- The server, before the client. -/
def padUp : Daemon Pad := ((Daemon.machine pad).exec padBoot [.start]).get exec_pad

theorem padUp_up : padUp.Up pad where
  reach := ⟨padBoot, ⟨⟨[7, 8], by decide, []⟩, rfl⟩, Machine.exec_always (Option.some_get exec_pad).symm⟩
  started := by decide

/-- What the client does, with `fates`, if only what is recognised gets through. -/
def recognisedOn {α : Type} (fates : List Fate) (s : Line Pad) (q : Net α) : (Line Pad × List Fate) × α :=
  run (fated pad ⟨1, 1⟩ 0 (recognised ⟨1, 1⟩ 0)) (s, fates) q

theorem recognisedOn_runs {α : Type} (fates : List Fate) (s : Line Pad) (q : Net α) :
    s.Runs pad Pad.holds ⟨1, 1⟩ () (Recognised ⟨1, 1⟩) q (recognisedOn fates s q).1.1
      (recognisedOn fates s q).2 := by
  have hpass : ∀ (h : Host Pad) data, recognised ⟨1, 1⟩ 0 h data = true → Recognised ⟨1, 1⟩ h 0 data :=
    fun _ _ => recognised_iff.mp
  exact runs_fated hpass (s, fates) q

/-- The file after `tnfs_open` for writing, of whose OPEN the reply is lost once. -/
def openedPad : Line Pad := (recognisedOn [.answered, .unheard] ⟨⟨padUp, none⟩, []⟩
      (tnfsOpenPath ['/', 'a'] true false)).1.1

def padHandle : TnfsFile := ⟨1, 3, 0, 2, 0, false⟩

/-- A read of which the READ was run, with none of its replies heard. -/
def failedPad : Line Pad := (recognisedOn [.answered, .unheard, .unheard, .unheard] openedPad
      (tnfsReadAt padHandle 0 1)).1.1

def failedHandle : TnfsFile := ⟨1, 4, 0, 2, 0, false⟩

/-- And a write, of whose WRITE a datagram is lost, and a reply. -/
def wrotePad : (Line Pad × List Fate) × TnfsFile × Except EspErr Unit :=
  recognisedOn [.answered, .lost, .unheard] failedPad (tnfsWriteAt failedHandle 1 [9])

theorem right_bytes_pad : wrotePad.2.2 = .ok () ∧
      Overwritten [7, 8] 1 [9] (wrotePad.1.1.host.daemon.card.holds ()) := by
  have hopen := recognisedOn_runs [.answered, .unheard] ⟨⟨padUp, none⟩, []⟩
    (tnfsOpenPath ['/', 'a'] true false)
  have hread := recognisedOn_runs [.answered, .unheard, .unheard, .unheard] openedPad
    (tnfsReadAt padHandle 0 1)
  have hwrite := recognisedOn_runs [.answered, .lost, .unheard] failedPad (tnfsWriteAt failedHandle 1 [9])
  have hopened : (recognisedOn [.answered, .unheard] ⟨⟨padUp, none⟩, []⟩
    (tnfsOpenPath ['/', 'a'] true false)).2 = .ok padHandle := rfl
  have hfailed : (recognisedOn [.answered, .unheard, .unheard, .unheard] openedPad
    (tnfsReadAt padHandle 0 1)).2 =
      (failedHandle, .error .timeout) := rfl
  rw [hopened] at hopen
  rw [hfailed] at hread
  obtain ⟨-, hwrites⟩ := right_bytes pad_storing pad_handsOut (by decide) padUp_up hopen
    (fun _ _ => rfl) failedPad failedHandle
    (.single (.inl ⟨0, 1, .error .timeout, hread⟩))
  exact ⟨rfl, hwrites 1 [9] wrotePad.1.1 wrotePad.2.1 hwrite⟩

/-- What the client does, with `fates`, whatever gets through. -/
def lossyOn {α : Type} (fates : List Fate) (s : Line Pad) (q : Net α) : (Line Pad × List Fate) × α :=
  run (fated pad ⟨1, 1⟩ 0 fun _ _ => true) (s, fates) q

theorem lossyOn_runs {α : Type} (fates : List Fate) (s : Line Pad) (q : Net α) :
    s.Runs pad Pad.holds ⟨1, 1⟩ () (fun _ _ _ => True) q (lossyOn fates s q).1.1 (lossyOn fates s q).2 := by
  have hpass : ∀ (h : Host Pad) (data : Bytes), true = true → True := fun _ _ _ => trivial
  exact runs_fated hpass (s, fates) q

/-- The file after `tnfs_open` for reading. -/
def readablePad : Line Pad := (lossyOn [] ⟨⟨padUp, none⟩, []⟩ (tnfsOpenPath ['/', 'a'] false false)).1.1

/-- A seek to 0 that was run, with none of its replies heard. -/
def soughtPad : Line Pad := (lossyOn [.unheard, .unheard, .unheard] readablePad
      (tnfsReadAt padHandle 0 1)).1.1

/-- The seek to 1 that comes next has its sequence byte, so the server does not seek. -/
theorem wrong_bytes : ∃ (s s₁ s₂ : Line Pad) (f f₁ f₂ : TnfsFile), padUp.Up pad ∧
      Storing pad Pad.file Pad.holds ∧
    Line.Runs pad Pad.holds ⟨1, 1⟩ () (fun _ _ _ => True) ⟨⟨padUp, none⟩, []⟩
      (tnfsOpenPath ['/', 'a'] false false) s (.ok f) ∧
    s.Runs pad Pad.holds ⟨1, 1⟩ () (fun _ _ _ => True) (tnfsReadAt f 0 1) s₁ (f₁, .error .timeout) ∧
    s₁.Runs pad Pad.holds ⟨1, 1⟩ () (fun _ _ _ => True) (tnfsReadAt f₁ 1 1) s₂ (f₂, .ok [7]) ∧
    slice (s₁.host.daemon.card.holds ()) 1 1 = [8] := by
  have hopen := lossyOn_runs [] ⟨⟨padUp, none⟩, []⟩ (tnfsOpenPath ['/', 'a'] false false)
  have hseek := lossyOn_runs [.unheard, .unheard, .unheard] readablePad (tnfsReadAt padHandle 0 1)
  have hread := lossyOn_runs [] soughtPad (tnfsReadAt padHandle 1 1)
  have hopened : (lossyOn [] ⟨⟨padUp, none⟩, []⟩ (tnfsOpenPath ['/', 'a'] false false)).2 =
    .ok padHandle := rfl
  have hsought : (lossyOn [.unheard, .unheard, .unheard] readablePad (tnfsReadAt padHandle 0 1)).2 =
    (padHandle, .error .timeout) := rfl
  have hgot : (lossyOn [] soughtPad (tnfsReadAt padHandle 1 1)).2.2 = .ok [7] := rfl
  rw [hopened] at hopen
  rw [hsought] at hseek
  rw [← hgot]
  exact ⟨readablePad, soughtPad, _, padHandle, padHandle, _, padUp_up, pad_storing, hopen, hseek, hread, rfl⟩

end FdcSds.Tnfsd
