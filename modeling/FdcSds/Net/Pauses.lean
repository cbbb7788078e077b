import FdcSds.Net.Company

/-! A remote file that is read now and then, by one client of several.

    Every command of a client that is never silent for more than 30 s finds its session, so `tnfs_read_at`
    gives the bytes of the file whatever the other clients do in between. After a longer pause the session is
    gone, and the client does not mount again.

        open ──▶ read_at ──pause──▶ read_at ──▶ …          pause over 30 s ──▶ read_at: timeout, for good -/

namespace FdcSds.Tnfsd
open Schemes Schemes.Runs Prog

variable {σ : Type}

/-- A program of the client `me`, played amid the others. -/
abbrev Company.Runs {α : Type} (world : σ → (c : SysCall) → σ × c.Answer)
    (file : σ → ℕ → Option (Bytes × ℕ)) (me : Peer) (pace : Pace) :
    Company σ → Net α → Company σ → α → Prop :=
  Prog.Amid (Company.Others world file me pace) (Company.Own world me pace)

variable {world : σ → (c : SysCall) → σ × c.Answer} {file : σ → ℕ → Option (Bytes × ℕ)}
    {isOpen : σ → Handle → Prop} {me : Peer} {s s' : Company σ} {f f' : TnfsFile}

/-! ### Attempts -/

/-- What others leave alone, with an inbox in which nothing new comes in. -/
theorem keeps_inbox {I : Shared σ → Prop} (hme : me ≠ ⟨0, 0⟩)
    (hI : ∀ s s' : Company σ, I s.shared → s.Others world file me Busy s' → I s'.shared)
    (h : Relation.ReflTransGen (Company.Others world file me Busy) s s') {ms : List Bytes}
    (hs : I s.shared) (hms : s.inbox = ms) :
    I s'.shared ∧ s'.inbox = ms := by
  refine keeps_all (I := fun s : Company σ => I s.shared ∧ s.inbox = ms) ?_ h ⟨hs, hms⟩
  rintro s s' ⟨hs, hms⟩ hothers
  exact ⟨hI s s' hs hothers, (hothers.inbox hme).trans hms⟩

/-- A datagram with one reply. -/
theorem call_send_one {data m : Bytes} (hquiet : s.inbox = []) {now : ℕ}
    (hone : s.shared.daemon.sentTo world me now me data = [m]) :
    s.call world me now (.send data) =
      (⟨⟨s.shared.daemon.visited world now me data, some now⟩, [m]⟩, true) := by
  rw [← hone, ← List.nil_append (s.shared.daemon.sentTo world me now me data), ← hquiet]
  rfl

/-- The only datagram in the inbox, when it is the reply waited for. -/
theorem call_await_one {seq cmd : UInt8} {m : Bytes} (hinbox : s.inbox = [m])
    (hmatch : udpMatches seq cmd m = true) (now : ℕ) :
    s.call world me now (.await seq cmd) = (⟨s.shared, []⟩, some m) := by
  simp only [Company.call, hinbox, List.dropWhile_cons, hmatch]
  rfl

theorem call_await_shared {seq cmd : UInt8} (now : ℕ) :
    (s.call world me now (.await seq cmd)).1.shared = s.shared := by
  simp only [Company.call]
  split <;> rfl

/-- An attempt gets its reply: `I` holds before it, and `J` once it was served. -/
theorem attempt_inv {I : Shared σ → Prop} {J : Bytes → Shared σ → Prop} {req : Bytes} {seq cmd : UInt8}
    {n : ℕ} {r : Except EspErr Bytes} (hme : me ≠ ⟨0, 0⟩)
    (hI : ∀ s s' : Company σ, I s.shared → s.Others world file me Busy s' → I s'.shared)
    (hJ : ∀ m, ∀ s s' : Company σ, J m s.shared → s.Others world file me Busy s' → J m s'.shared)
    (hsend : ∀ (s : Shared σ) now, I s → Busy s.last now → ∃ m, s.daemon.sentTo world me now me req = [m] ∧
      udpMatches seq cmd m = true ∧ J m ⟨s.daemon.visited world now me req, some now⟩)
    (hs : I s.shared) (hquiet : s.inbox = [])
    (h : s.Runs world file me Busy (attempts req seq cmd (n + 1)) s' r) :
    ∃ m, (replyStatus m ≠ tnfsEagain ∧ r = .ok m ∧ J m s'.shared ∧ s'.inbox = []) ∨
      (replyStatus m = tnfsEagain ∧
        ∃ s₁ : Company σ, J m s₁.shared ∧ s₁.inbox = [] ∧
          s₁.Runs world file me Busy (attempts req seq cmd n) s' r) := by
  rw [attempts, netSend] at h
  obtain ⟨s₁, s₂, sent, hothers, ⟨now, hpace, hcall⟩, h⟩ := h.ask_inv
  obtain ⟨hs₁, hquiet₁⟩ := keeps_inbox hme hI hothers hs hquiet
  obtain ⟨m, hone, hmatch, hserved⟩ := hsend s₁.shared now hs₁ hpace
  refine ⟨m, ?_⟩
  rw [call_send_one hquiet₁ hone] at hcall
  cases hcall
  change Company.Runs world file me Busy _ (udpResponse seq cmd >>= _) s' r at h
  rw [udpResponse] at h
  obtain ⟨s₃, s₄, answer, hothers₃, ⟨now₁, -, hcall⟩, h⟩ := h.ask_inv
  obtain ⟨hs₃, hinbox₃⟩ := keeps_inbox hme (hJ m) hothers₃ hserved rfl
  rw [call_await_one hinbox₃ hmatch] at hcall
  cases hcall
  by_cases hagain : replyStatus m = tnfsEagain
  · right
    dsimp only at h
    rw [if_pos hagain, netDelay] at h
    obtain ⟨s₅, s₆, done, hothers₅, ⟨now₂, -, hcall⟩, h⟩ := h.ask_inv
    obtain ⟨hs₅, hinbox₅⟩ := keeps_inbox hme (hJ m) hothers₅ hs₃ rfl
    cases hcall
    exact ⟨hagain, s₅, hs₅, hinbox₅, h⟩
  · left
    dsimp only at h
    rw [if_neg hagain] at h
    obtain ⟨hr, hothers₄⟩ := h.ret_inv
    obtain ⟨hend, hinbox⟩ := keeps_inbox hme (hJ m) hothers₄ hs₃ rfl
    exact ⟨hagain, hr, hend, hinbox⟩

/-! ### Commands -/

/-- The client's session, and the next command is new to it. -/
structure Shared.Holds (world : σ → (c : SysCall) → σ × c.Answer) (me : Peer) (s : Shared σ)
    (f : TnfsFile) (i : ℕ) (t : Session) : Prop
    extends s.Has world me i t where
  sid : t.sid = f.conn
  key : t.lastSeq + 1 = f.seq

/-- A command was run at `now`, on the card `card` and in the session `t`; since then only others had
    turns. -/
structure Shared.Ran (world : σ → (c : SysCall) → σ × c.Answer) (file : σ → ℕ → Option (Bytes × ℕ))
    (me : Peer) (f : TnfsFile) (cmd : UInt8) (pl : Bytes) (card : σ) (i : ℕ) (t : Session) (now : ℕ)
    (s : Shared σ) : Prop where
  has : s.Has world me i (ranSession world f cmd pl card t now)
  kept : Kept file (ranSession world f cmd pl card t now) (run world card (handle t cmd pl)).1 s.daemon.card

variable {i : ℕ} {t : Session} {cmd : UInt8} {pl : Bytes} {card : σ} {now : ℕ}

theorem Company.Others.ran (hfs : Regular world file) (hos : HandsOut world isOpen)
    (h : s.Others world file me Busy s') (hran : s.shared.Ran world file me f cmd pl card i t now) :
    s'.shared.Ran world file me f cmd pl card i t now := by
  obtain ⟨hhas, hkept⟩ := h.has hfs hos hran.has
  exact ⟨hhas, hran.kept.trans hkept⟩

/-- The session is ready for the next command. -/
theorem Shared.Ran.holds {s : Shared σ} (h : s.Ran world file me f cmd pl card i t now)
    (hsid : t.sid = f.conn) :
    s.Holds world me { f with seq := f.seq + 1 } i (ranSession world f cmd pl card t now) where
  toHas := h.has
  sid := (ranSession_framed ..).2.1.trans hsid
  key := rfl

/-- A command of the session is run, and answered at the first attempt. -/
theorem command_inv {r : Except EspErr Bytes} (hfs : Regular world file) (hos : HandsOut world isOpen)
    (hme : me ≠ ⟨0, 0⟩) (hs : s.shared.Holds world me f i t) (hquiet : s.inbox = [])
    (hcmd : cmd ≠ tnfsMount) (hrun : cmd ≠ tnfsUmount) (hlen : tnfsHdrLen + pl.length ≤ tnfsMsgCap)
    (hagain : ∀ card, Kept file t s.shared.daemon.card card →
      replyStatus (ranReply world f cmd pl card t) ≠ tnfsEagain)
    (h : s.Runs world file me Busy (tnfsCommand f cmd pl) s' (f', r)) :
    ∃ card now, Kept file t s.shared.daemon.card card ∧ r = .ok (ranReply world f cmd pl card t) ∧
      f' = { f with seq := f.seq + 1 } ∧
      s'.shared.Ran world file me f cmd pl card i t now ∧ s'.inbox = [] := by
  rw [tnfsCommand, if_neg (Nat.not_lt.mpr hlen)] at h
  obtain ⟨s₁, q, hattempts, hrest⟩ := h.bind_inv
  have hfirst := attempt_inv (I := fun sh => sh.Has world me i t ∧
    Kept file t s.shared.daemon.card sh.daemon.card)
    (J := fun m sh => ∃ card now, Kept file t s.shared.daemon.card card ∧ m = ranReply world f cmd pl card t ∧
      sh.Ran world file me f cmd pl card i t now) hme ?_ ?_ ?_ ⟨hs.toHas, Kept.refl _ _⟩ hquiet hattempts
  · obtain ⟨m, ⟨-, rfl, ⟨card, now, hkept, rfl, hran⟩, hquiet₁⟩ | ⟨hbusy, s₂,
      ⟨card, -, hkept, rfl, -⟩, -⟩⟩ := hfirst
    · obtain ⟨hr, hothers⟩ := hrest.ret_inv
      cases hr
      obtain ⟨hran', hquiet'⟩ := keeps_inbox (I := fun sh => sh.Ran world file me f cmd pl card i t now) hme
        (fun _ _ hran hothers => hothers.ran hfs hos hran) hothers hran hquiet₁
      exact ⟨card, now, hkept, rfl, rfl, hran', hquiet'⟩
    · exact absurd hbusy (hagain card hkept)
  · rintro s s' ⟨hhas, hkept⟩ hothers
    obtain ⟨hhas', hkept'⟩ := hothers.has hfs hos hhas
    exact ⟨hhas', hkept.trans hkept'⟩
  · rintro m s s' ⟨card, now, hkept, hm, hran⟩ hothers
    exact ⟨card, now, hkept, hm, hothers.ran hfs hos hran⟩
  · rintro sh now ⟨hhas, hkept⟩ hbusy
    obtain ⟨card, hkept', hcard, hhosts, hsent⟩ := hhas.own_turn hfs hos hs.sid hs.key hcmd hrun hlen hbusy
    refine ⟨_, hsent, udpMatches_reply f cmd ?_, card, now, hkept.trans hkept', rfl, ⟨hhosts, rfl⟩, ?_⟩
    · have hne := ((handle_framed t cmd pl).run world card).status
      simpa [tnfsMsgCap, tnfsHdrLen, tnfsIoChunk] using hne
    · rw [← hcard]
      exact Kept.refl _ _

/-! ### LSEEK and READ -/

variable {bs : Bytes} {p : ℕ}

/-- The file `f` is open, holds `bs` and stands at `p`. -/
def Shared.StandsAt (world : σ → (c : SysCall) → σ × c.Answer) (file : σ → ℕ → Option (Bytes × ℕ))
    (me : Peer) (bs : Bytes) (s : Shared σ) (f : TnfsFile) (p : ℕ) : Prop :=
  ∃ i t fd, s.Holds world me f i t ∧ t.file f.fd = some fd ∧ file s.daemon.card fd = some (bs, p)

/-- What others do leaves it there. -/
theorem Company.Others.standsAt (hfs : Regular world file) (hos : HandsOut world isOpen)
    (h : s.Others world file me Busy s') (hs : s.shared.StandsAt world file me bs f p) :
    s'.shared.StandsAt world file me bs f p := by
  obtain ⟨i, t, fd, hholds, hfd, hfile⟩ := hs
  obtain ⟨hhas, hkept⟩ := h.has hfs hos hholds.toHas
  exact ⟨i, t, fd, ⟨hhas, hholds.sid, hholds.key⟩, hfd, hkept fd bs p (file_held hfd).2.2 hfile⟩

/-- A command that leaves the open files of the session alone, but for the position of one: `A` says
    where that is afterwards, and what the reply says. -/
theorem command_stands {r : Except EspErr Bytes} {A : ℕ → Bytes → Prop} (hfs : Regular world file)
    (hos : HandsOut world isOpen) (hme : me ≠ ⟨0, 0⟩) (hs : s.shared.StandsAt world file me bs f p)
    (hquiet : s.inbox = []) (hcmd : cmd ≠ tnfsMount) (hrun : cmd ≠ tnfsUmount)
    (hlen : tnfsHdrLen + pl.length ≤ tnfsMsgCap)
    (hhandle : ∀ t fd card, t.file f.fd = some fd → file card fd = some (bs, p) →
      (run world card (handle t cmd pl)).2.1 = t ∧
      (run world card (handle t cmd pl)).2.2.length ≤ tnfsMsgCap - tnfsHdrLen ∧
      (run world card (handle t cmd pl)).2.2.getD 0 0 ≠ tnfsEagain ∧
      ∃ p', file (run world card (handle t cmd pl)).1 fd = some (bs, p') ∧
        A p' (run world card (handle t cmd pl)).2.2)
    (h : s.Runs world file me Busy (tnfsCommand f cmd pl) s' (f', r)) :
    ∃ p' body, A p' body ∧ r = .ok (tnfsHeader f.conn f.seq cmd ++ body) ∧ f' = { f with seq := f.seq + 1 } ∧
      s'.shared.StandsAt world file me bs f' p' ∧ s'.inbox = [] := by
  obtain ⟨i, t, fd, hholds, hfd, hfile⟩ := hs
  have hheld := (file_held hfd).2.2
  have hreply : ∀ card, Kept file t s.shared.daemon.card card →
      ranReply world f cmd pl card t = tnfsHeader f.conn f.seq cmd ++
        (run world card (handle t cmd pl)).2.2 := by
    intro card hkept
    rw [ranReply, List.take_of_length_le (hhandle t fd card hfd (hkept fd bs p hheld hfile)).2.1]
  obtain ⟨card, now, hkept, rfl, rfl, hran, hquiet'⟩ := command_inv hfs hos hme hholds hquiet hcmd hrun hlen
    (fun card hkept => by
      rw [hreply card hkept]
      exact (hhandle t fd card hfd (hkept fd bs p hheld hfile)).2.2.1) h
  obtain ⟨hsame, -, -, p', hnext, hanswer⟩ := hhandle t fd card hfd (hkept fd bs p hheld hfile)
  have hfd' : (ranSession world f cmd pl card t now).file f.fd = some fd := by
    rw [← hfd]
    refine file_congr ?_ f.fd
    rw [ranSession_files, hsame]
  refine ⟨p', _, hanswer, by rw [hreply card hkept], rfl, ⟨i, _, fd, hran.holds hholds.sid, hfd', ?_⟩,
    hquiet'⟩
  exact hran.kept fd bs p' (file_held hfd').2.2 hnext

theorem errnoToTnfs_ne_again (e : Errno) : errnoToTnfs e ≠ tnfsEagain := by cases e <;> decide

theorem int32_of_nonneg {n : ℕ} (hn : n < 2 ^ 32) (h : 0 ≤ int32 n) : int32 n = n := by
  unfold int32 at h ⊢
  split at h <;> omega

/-- An LSEEK to an offset. -/
theorem lseek_stands {r : Except EspErr Bytes} {off : UInt32} (hfs : Regular world file)
    (hos : HandsOut world isOpen) (hme : me ≠ ⟨0, 0⟩) (hs : s.shared.StandsAt world file me bs f p)
    (hquiet : s.inbox = []) (h : s.Runs world file me Busy
      (tnfsCommand f tnfsLseek (seekPayload f.fd tnfsSeekSet off)) s' (f', r)) :
    ∃ p' m, r = .ok m ∧ f' = { f with seq := f.seq + 1 } ∧
      s'.shared.StandsAt world file me bs f' p' ∧ s'.inbox = [] ∧
      (replyStatus m = tnfsOk → bs.drop p' = bs.drop off.toNat) ∧
      (off.toNat ≤ bs.length → off.toNat < 2 ^ 31 → replyStatus m = tnfsOk) := by
  have hlen : tnfsHdrLen + (seekPayload f.fd tnfsSeekSet off).length ≤ tnfsMsgCap := by
    simp [seekPayload, le32, tnfsHdrLen, tnfsMsgCap, tnfsIoChunk]
  have hcommand := command_stands
    (A := fun p' body => (body.getD 0 0 = tnfsOk → bs.drop p' = bs.drop off.toNat) ∧
      (off.toNat ≤ bs.length → off.toNat < 2 ^ 31 → body.getD 0 0 = tnfsOk))
    hfs hos hme hs hquiet (by decide) (by decide) hlen ?_ h
  · obtain ⟨p', body, ⟨hok, hin⟩, rfl, hf', hstands, hquiet'⟩ := hcommand
    exact ⟨p', _, rfl, hf', hstands, hquiet', hok, hin⟩
  · intro t fd card hfd hfile
    have hrun : run world card (handle t tnfsLseek (seekPayload f.fd tnfsSeekSet off)) = _ :=
      run_hLseek hfd rfl off
    obtain ⟨p', hnext, hset⟩ := hfs.lseek card fd (int32 off.toNat) .set bs p hfile
    obtain ⟨hmoved, hgood⟩ := hset rfl
    rw [hrun]
    cases hans : (world card (.lseek fd (int32 off.toNat) .set)).2 with
    | error e =>
      refine ⟨rfl, by simp [tnfsMsgCap, tnfsHdrLen, tnfsIoChunk], errnoToTnfs_ne_again e, p', hnext,
        fun hok => ?_, fun hin hlow => ?_⟩
      · exact absurd hok (errnoToTnfs_ne_ok e)
      · have hint : int32 off.toNat = off.toNat := if_pos hlow
        obtain ⟨q, hq⟩ := hgood (by omega) (by omega)
        rw [hans] at hq
        cases hq
    | ok q =>
      obtain ⟨hnonneg, hdrop⟩ := hmoved q hans
      rw [int32_of_nonneg off.toNat_lt hnonneg, Int.toNat_natCast] at hdrop
      exact ⟨rfl, by simp [le32, tnfsMsgCap, tnfsHdrLen, tnfsIoChunk], (by decide : tnfsOk ≠ tnfsEagain),
        p', hnext, fun _ => hdrop, fun _ _ => rfl⟩

/-- A READ. -/
theorem read_stands {r : Except EspErr Bytes} {want : ℕ} (hfs : Regular world file)
    (hos : HandsOut world isOpen) (hme : me ≠ ⟨0, 0⟩) (hs : s.shared.StandsAt world file me bs f p)
    (hquiet : s.inbox = []) (hpos : 0 < want) (hwant : want ≤ tnfsIoChunk)
    (h : s.Runs world file me Busy (tnfsCommand f tnfsRead (readPayload f.fd want)) s' (f', r)) :
    ∃ p' m, r = .ok m ∧ f' = { f with seq := f.seq + 1 } ∧
      s'.shared.StandsAt world file me bs f' p' ∧ s'.inbox = [] ∧
      ((∃ d, readReply want m = some d ∧ d ≠ [] ∧ d <+: bs.drop p ∧ d.length ≤ want ∧ p' = p + d.length) ∨
        (bs.length ≤ p ∧ readReply want m = none)) := by
  have hlen : tnfsHdrLen + (readPayload f.fd want).length ≤ tnfsMsgCap := by
    simp [readPayload, le16, tnfsHdrLen, tnfsMsgCap, tnfsIoChunk]
  have hchunk : tnfsIoChunk = 1024 := rfl
  have hcommand := command_stands
    (A := fun p' body => (∃ d, body = (Reply.data d).body ∧ d ≠ [] ∧ d <+: bs.drop p ∧
      d.length ≤ want ∧ p' = p + d.length) ∨
      (bs.length ≤ p ∧ ∃ st, body = [st]))
    hfs hos hme hs hquiet (by decide) (by decide) hlen ?_ h
  · obtain ⟨p', body, hanswer, rfl, hf', hstands, hquiet'⟩ := hcommand
    refine ⟨p', _, rfl, hf', hstands, hquiet', ?_⟩
    rcases hanswer with ⟨d, rfl, hne, hpre, hle, hp'⟩ | ⟨hend, st, rfl⟩
    · exact .inl ⟨d, Reply.read_data (by omega) want (List.length_pos_of_ne_nil hne) hle, hne, hpre, hle, hp'⟩
    · exact .inr ⟨hend, if_pos (.inr (by simp [tnfsHeader, le16, tnfsStatusOff]))⟩
  · intro t fd card hfd hfile
    have hrun : run world card (handle t tnfsRead (readPayload f.fd want)) = _ := run_hRead hfd hwant
    obtain ⟨p', hnext, hread, hmore⟩ := hfs.read card fd want bs p hfile
    have hcap : tnfsMsgCap - tnfsHdrLen = 1028 := rfl
    rw [hrun]
    cases hans : (world card (.read fd want)).2 with
    | error e =>
      refine ⟨rfl, by simp [tnfsMsgCap, tnfsHdrLen, tnfsIoChunk], errnoToTnfs_ne_again e, p', hnext,
        .inr ⟨?_, _, rfl⟩⟩
      by_contra hbefore
      obtain ⟨d, hd, -⟩ := hmore hpos (by omega)
      rw [hans] at hd
      cases hd
    | ok d =>
      obtain ⟨hpre, hle, hp'⟩ := hread d hans
      dsimp only
      by_cases hd : d.length = 0
      · rw [if_pos ⟨hd, hpos⟩]
        refine ⟨rfl, by simp [tnfsMsgCap, tnfsHdrLen, tnfsIoChunk], (by decide : tnfsEof ≠ tnfsEagain),
          p', hnext, .inr ⟨?_, _, rfl⟩⟩
        by_contra hbefore
        obtain ⟨d', hd', hne⟩ := hmore hpos (by omega)
        obtain rfl : d = d' := Except.ok.inj (hans.symm.trans hd')
        exact hne (List.length_eq_zero_iff.mp hd)
      · rw [if_neg (fun h => hd h.1)]
        refine ⟨rfl, ?_, (by decide : tnfsOk ≠ tnfsEagain), p', hnext,
          .inl ⟨d, rfl, fun h => hd (by rw [h]; rfl), hpre, hle, hp'⟩⟩
        simp only [List.length_append, List.length_singleton, length_le16]
        omega

/-! ### `tnfs_read_at` -/

/-- The file `f` is open and holds `bs`; what lies behind the remembered position lies behind the real one. -/
def Shared.HasOpen (world : σ → (c : SysCall) → σ × c.Answer) (file : σ → ℕ → Option (Bytes × ℕ))
    (me : Peer) (bs : Bytes) (s : Shared σ) (f : TnfsFile) : Prop :=
  ∃ p, s.StandsAt world file me bs f p ∧ (f.posValid = true → bs.drop p = bs.drop f.pos.toNat)

/-- No LSEEK is needed to `off`, or its offset is not negative as an `int32_t`. -/
def Seekable (f : TnfsFile) (off : UInt32) : Prop := off.toNat < 2 ^ 31 ∨ (f.posValid = true ∧ f.pos = off)

/-- The position and the size are the client's own affair. -/
theorem Shared.StandsAt.hasOpen {s : Shared σ} (h : s.StandsAt world file me bs f p)
    (hconn : f'.conn = f.conn) (hseq : f'.seq = f.seq) (hfd : f'.fd = f.fd)
    (hvalid : f'.posValid = true → bs.drop p = bs.drop f'.pos.toNat) : s.HasOpen world file me bs f' := by
  obtain ⟨i, t, fd, hholds, hfile, hat⟩ := h
  exact ⟨p, ⟨i, t, fd, ⟨hholds.toHas, hconn ▸ hholds.sid, hseq ▸ hholds.key⟩, by rw [hfd, hfile], hat⟩,
    hvalid⟩

theorem Shared.StandsAt.forget {s : Shared σ} (h : s.StandsAt world file me bs f p) :
    s.HasOpen world file me bs f.forget := by
  refine h.hasOpen rfl rfl rfl ?_
  rintro ⟨⟩

section Reads
variable (hfs : Regular world file) (hos : HandsOut world isOpen) (hme : me ≠ ⟨0, 0⟩)
include hfs hos hme

/-- What others do after the client's last call. -/
theorem stands_after (hstands : s.shared.StandsAt world file me bs f p) (hquiet : s.inbox = [])
    (h : Relation.ReflTransGen (Company.Others world file me Busy) s s') :
    s'.shared.StandsAt world file me bs f p ∧ s'.inbox = [] :=
  keeps_inbox (I := fun sh => sh.StandsAt world file me bs f p) hme
    (fun _ _ hs hothers => hothers.standsAt hfs hos hs) h hstands hquiet

theorem hasOpen_after (hopen : s.shared.HasOpen world file me bs f) (hquiet : s.inbox = [])
    (h : Relation.ReflTransGen (Company.Others world file me Busy) s s') :
    s'.shared.HasOpen world file me bs f ∧ s'.inbox = [] := by
  obtain ⟨p, hstands, hvalid⟩ := hopen
  obtain ⟨hstands', hquiet'⟩ := stands_after hfs hos hme hstands hquiet h
  exact ⟨⟨p, hstands', hvalid⟩, hquiet'⟩

/-- `tnfs_seek` fails only where its offset is out of reach. -/
theorem tnfsSeek_inv {off : UInt32} {r : Except EspErr Unit}
    (hopen : s.shared.HasOpen world file me bs f) (hquiet : s.inbox = [])
    (h : s.Runs world file me Busy (tnfsSeek f off) s' (f', r)) : s'.inbox = [] ∧
      ((r = .ok () ∧ f'.posValid = true ∧ f'.pos = off ∧ ∃ p, s'.shared.StandsAt world file me bs f' p ∧
        bs.drop p = bs.drop off.toNat) ∨
        ((∃ e, r = .error e) ∧ s'.shared.HasOpen world file me bs f' ∧
          ¬ (off.toNat ≤ bs.length ∧ Seekable f off))) := by
  obtain ⟨p, hstands, hvalid⟩ := hopen
  unfold tnfsSeek at h
  split at h
  · next hthere =>
    obtain ⟨hpv, hpos⟩ := Bool.and_eq_true_iff.mp hthere
    have hoff : f.pos = off := eq_of_beq hpos
    obtain ⟨hr, hothers⟩ := h.ret_inv
    cases hr
    obtain ⟨hstands', hquiet'⟩ := stands_after hfs hos hme hstands hquiet hothers
    exact ⟨hquiet', .inl ⟨rfl, hpv, hoff, p, hstands', hoff ▸ hvalid hpv⟩⟩
  · next haway =>
    obtain ⟨s₁, ⟨f₁, q⟩, hcommand, hrest⟩ := h.bind_inv
    obtain ⟨p', m, rfl, hf₁, hstands₁, hquiet₁, hdrop, hgood⟩ :=
      lseek_stands hfs hos hme hstands hquiet hcommand
    dsimp only at hrest
    split at hrest
    · next hbad =>
      obtain ⟨hr, hothers⟩ := hrest.ret_inv
      cases hr
      obtain ⟨hstands', hquiet'⟩ := stands_after hfs hos hme hstands₁ hquiet₁ hothers
      refine ⟨hquiet', .inr ⟨⟨_, rfl⟩, hstands'.forget, ?_⟩⟩
      rintro ⟨hin, hlow | ⟨hpv, hpos⟩⟩
      · exact hbad (hgood hin hlow)
      · exact haway (by rw [hpv, hpos, beq_self_eq_true]; rfl)
    · next hok =>
      obtain ⟨hr, hothers⟩ := hrest.ret_inv
      cases hr
      obtain ⟨⟨i, t, fd, hholds, hfd, hfile⟩, hquiet'⟩ := stands_after hfs hos hme hstands₁ hquiet₁ hothers
      exact ⟨hquiet', .inl ⟨rfl, rfl, rfl, p',
        ⟨i, t, fd, ⟨hholds.toHas, hholds.sid, hholds.key⟩, hfd, hfile⟩, hdrop (not_not.mp hok)⟩⟩

omit hfs hos hme in
/-- What is read first, and the rest. -/
theorem slice_prefix {d : Bytes} {off len : ℕ} (h : d <+: bs.drop off) (hle : d.length ≤ len) :
    slice bs off len = d ++ slice bs (off + d.length) (len - d.length) := by
  obtain ⟨rest, hrest⟩ := h
  have hnext : bs.drop (off + d.length) = rest := by rw [← List.drop_drop, ← hrest, List.drop_left]
  rw [slice, slice, hnext, ← hrest, List.take_append, List.take_of_length_le hle]

/-- The loop of `tnfs_read_at`: the file stays open, and what is asked for within it is read. -/
theorem readLoop_inv (rounds : ℕ) {off : UInt32} {dst : Bytes} {len : ℕ} {r : Except EspErr Bytes}
    (hopen : s.shared.HasOpen world file me bs f) (hquiet : s.inbox = []) (hrounds : len ≤ rounds)
    (h : s.Runs world file me Busy (readLoop f off dst len rounds) s' (f', r)) :
    s'.shared.HasOpen world file me bs f' ∧ s'.inbox = [] ∧
      (off.toNat + len ≤ bs.length → (0 < len → Seekable f off) →
        r = .ok (dst ++ slice bs off.toNat len)) := by
  induction rounds generalizing s f off dst len with
  | zero =>
    obtain ⟨hr, hothers⟩ := h.ret_inv
    cases hr
    obtain ⟨hopen', hquiet'⟩ := hasOpen_after hfs hos hme hopen hquiet hothers
    refine ⟨hopen', hquiet', fun _ _ => ?_⟩
    rw [Nat.le_zero.mp hrounds, slice, List.take_zero, List.append_nil]
  | succ rounds ih =>
    unfold readLoop at h
    split at h
    · next hzero =>
      obtain ⟨hr, hothers⟩ := h.ret_inv
      cases hr
      obtain ⟨hopen', hquiet'⟩ := hasOpen_after hfs hos hme hopen hquiet hothers
      refine ⟨hopen', hquiet', fun _ _ => ?_⟩
      rw [hzero, slice, List.take_zero, List.append_nil]
    · next hmore =>
      obtain ⟨s₁, ⟨f₁, q₁⟩, hseek, hrest⟩ := h.bind_inv
      obtain ⟨hquiet₁, ⟨rfl, hvalid₁, hpos₁, p, hstands₁, hdrop⟩ | ⟨⟨e, rfl⟩, hopen₁, hout⟩⟩ :=
        tnfsSeek_inv hfs hos hme hopen hquiet hseek
      · dsimp only at hrest
        obtain ⟨s₂, ⟨f₂, q₂⟩, hread, hrest⟩ := hrest.bind_inv
        have hchunk : tnfsIoChunk = 1024 := rfl
        obtain ⟨p', m, rfl, rfl, hstands₂, hquiet₂, ⟨d, hd, hne, hpre, hle, rfl⟩ | ⟨hend, hnone⟩⟩ :=
          read_stands hfs hos hme hstands₁ hquiet₁ (by omega) (min_le_right _ _) hread
        · dsimp only at hrest
          rw [hd] at hrest
          dsimp only at hrest
          rw [hdrop] at hpre
          have hdlen : d.length ≤ len := hle.trans (min_le_left _ _)
          have hdpos : 0 < d.length := List.length_pos_of_ne_nil hne
          have hinside : off.toNat + d.length ≤ bs.length := by
            have hshort := hpre.length_le
            rw [List.length_drop] at hshort
            omega
          have hsize : bs.length < 2 ^ 32 := by
            obtain ⟨-, -, fd, -, -, hfile⟩ := hstands₂
            exact hfs.size _ _ _ _ hfile
          have hoff : (off + UInt32.ofNat d.length).toNat = off.toNat + d.length := by
            rw [UInt32.toNat_add, UInt32.toNat_ofNat', Nat.mod_eq_of_lt (by omega : d.length < 2 ^ 32),
              Nat.mod_eq_of_lt (by omega)]
          have hadvanced : f₁.pos + UInt32.ofNat d.length = off + UInt32.ofNat d.length := by rw [hpos₁]
          have hopen₂ : s₂.shared.HasOpen world file me bs
            (TnfsFile.advance { f₁ with seq := f₁.seq + 1 } d.length) := by
            refine hstands₂.hasOpen rfl rfl rfl fun _ => ?_
            change _ = bs.drop (f₁.pos + UInt32.ofNat d.length).toNat
            rw [hadvanced, hoff, ← List.drop_drop, hdrop, List.drop_drop]
          obtain ⟨hopen', hquiet', hgives⟩ := ih hopen₂ hquiet₂ (by omega) hrest
          refine ⟨hopen', hquiet', fun hin _ => ?_⟩
          rw [hgives (by rw [hoff]; omega) fun _ => .inr ⟨hvalid₁, hadvanced⟩, hoff,
            slice_prefix hpre hdlen, List.append_assoc]
        · dsimp only at hrest
          rw [hnone] at hrest
          obtain ⟨hr, hothers⟩ := hrest.ret_inv
          cases hr
          obtain ⟨hstands', hquiet'⟩ := stands_after hfs hos hme hstands₂ hquiet₂ hothers
          refine ⟨hstands'.forget, hquiet', fun hin _ => ?_⟩
          -- the position is at the end of the file or behind it, and so is the offset
          have hlen := congrArg List.length hdrop
          rw [List.length_drop, List.length_drop] at hlen
          omega
      · dsimp only at hrest
        obtain ⟨hr, hothers⟩ := hrest.ret_inv
        cases hr
        obtain ⟨hopen', hquiet'⟩ := hasOpen_after hfs hos hme hopen₁ hquiet₁ hothers
        exact ⟨hopen', hquiet', fun hin hreach => absurd ⟨by omega, hreach (by omega)⟩ hout⟩

end Reads

/-! ### MOUNT -/

/-- A session that has its MOUNT cached tells its id in it. -/
def Server.TellsMount (v : Server) : Prop := ∀ i, (v.sessions i).inUse = true →
      (v.sessions i).lastCmd = tnfsMount →
  (v.sessions i).reply = tnfsHeader (v.sessions i).sid (v.sessions i).lastSeq tnfsMount ++
    (Reply.mounted tnfsdMinRetryMs).body

variable {v : Server}

theorem Server.TellsMount.freed {v' : Server} (h : v.TellsMount) (hf : v.Freed v') : v'.TellsMount := by
  intro i hlive hlast
  have hsame := hf.of_inUse hlive
  rw [hsame] at hlive hlast ⊢
  exact h i hlive hlast

/-- One slot is replaced. -/
theorem Server.TellsMount.slot {v' : Server} {k : ℕ} (h : v.TellsMount)
    (hrest : ∀ j ≠ k, v'.sessions j = v.sessions j)
    (hnew : (v'.sessions k).inUse = true → (v'.sessions k).lastCmd = tnfsMount → (v'.sessions k).reply =
      tnfsHeader (v'.sessions k).sid (v'.sessions k).lastSeq tnfsMount ++
        (Reply.mounted tnfsdMinRetryMs).body) : v'.TellsMount := by
  intro i hlive hlast
  by_cases hi : i = k
  · subst hi
    exact hnew hlive hlast
  · rw [hrest i hi] at hlive hlast ⊢
    exact h i hlive hlast

theorem mountIn_tells (now : ℕ) (peer : Peer) (seq : UInt8) (pl : Bytes) (v : Server) (k : ℕ) :
    (v.mountIn now peer seq pl k).Ensures fun r => (r.1.sessions k).inUse = true →
      (r.1.sessions k).lastCmd = tnfsMount →
      (r.1.sessions k).reply =
        tnfsHeader (r.1.sessions k).sid (r.1.sessions k).lastSeq tnfsMount ++
          (Reply.mounted tnfsdMinRetryMs).body := by
  refine Ensures.bind_of_forall fun _ => ?_
  dsimp only
  split
  · refine Ensures.bind ((Server.freeSession_zero _).mono fun z hz hlive => ?_)
    subst hz
    simp [Server.setSession, Session.zero] at hlive
  · intro _ _
    simp only [Server.setSession, Function.update_self]
    rfl

theorem answer_tellsMount (h : v.TellsMount) (now : ℕ) (peer : Peer) (rx : Bytes) :
    (v.answer now peer rx (v.turn peer rx)).Ensures fun r => r.1.TellsMount := by
  have hothers := Server.answer_others now peer rx v (v.turn peer rx)
  cases hturn : v.turn peer rx with
  | ignored | refused => exact h
  | replay k =>
    refine h.slot (k := k) (fun j hj => Server.setSession_of_ne _ hj) ?_
    rw [Server.resend, Server.setSession_self]
    exact h k
  | mount k =>
    rw [hturn] at hothers
    refine (hothers.and (mountIn_tells now peer _ _ v k)).mono fun r hr => h.slot hr.1 hr.2
  | run k =>
    obtain ⟨-, hcmd, -⟩ := Server.turn_run hturn
    refine Ensures.bind ((Server.process_effect ..).mono ?_)
    rintro ⟨t, out⟩ heffect
    refine h.slot (k := k) (fun j hj => Server.setSession_of_ne _ hj) ?_
    rw [Server.setSession_self]
    exact fun hlive hlast => absurd ((heffect hlive).2.cmd.symm.trans hlast) hcmd

theorem Daemon.reach_tellsMount {d : Daemon σ} {ok : Daemon σ → Beat → Prop}
    (h : (machine world).Reach ok d) : d.server.TellsMount := by
  have served : ∀ {v : Server}, v.TellsMount → ∀ now peer rx card,
    (run world card (v.serve now peer rx)).2.1.TellsMount := by
    intro v hv now peer rx card
    have hreaped := (Server.reapIdle_reaped now tnfsdMaxSessions v).run world card
    rw [Server.serve, run_bind, hreaped]
    exact (answer_tellsMount (hv.freed (Server.reaped_freed now tnfsdMaxSessions v)) now peer rx).run world _
  refine h.invariant (I := fun d => d.server.TellsMount) ?_ ?_
  · rintro d ⟨card, rfl⟩ i ⟨⟩
  · intro d b d' hv _ hstep
    cases b with
    | start =>
      obtain ⟨-, rfl⟩ := when_eq_some.mp hstep
      exact hv.freed ((startLoop_freed tnfsdMaxSessions d.server).run world d.card)
    | datagram now peer rx =>
      obtain ⟨-, rfl⟩ := when_eq_some.mp hstep
      exact served hv now peer _ d.card
    | timeout now =>
      obtain ⟨-, rfl⟩ := when_eq_some.mp hstep
      exact served hv now _ _ d.card
    | linkDown =>
      obtain ⟨-, rfl⟩ := when_eq_some.mp hstep
      exact hv.freed ((Server.dropSessions_freed tnfsdMaxSessions d.server).run world d.card)

/-- A session in use that `me` mounted at `now`, and `m` tells so. -/
structure Session.Told (me : Peer) (now : ℕ) (m : Bytes) (t : Session) : Prop where
  live : t.inUse = true
  peer : t.peer = me
  last : t.lastActiveUs = now
  seq : t.lastSeq = 0
  reply : m = tnfsHeader t.sid 0 tnfsMount ++ (Reply.mounted tnfsdMinRetryMs).body

/-- The server's turn for a MOUNT of the root: it mounts, now or before, or is busy. -/
theorem mount_turn {d : Daemon σ} (hup : d.Up world) (me : Peer) (now : ℕ) (hseq : f.seq = 0) :
    ∃ m, d.sentTo world me now me (f.request tnfsMount mountPayload) = [m] ∧ udpMatches 0 tnfsMount m = true ∧
      (replyStatus m = tnfsEagain ∨ ∃ i < tnfsdMaxSessions,
        ((d.visited world now me (f.request tnfsMount mountPayload)).server.sessions i).Told me now m) := by
  have hreaped := (Server.reapIdle_reaped now tnfsdMaxSessions d.server).run world d.card
  have hfreed := Server.reaped_freed now tnfsdMaxSessions d.server
  have htells := (Daemon.reach_tellsMount hup.reach).freed hfreed
  have hclean := ((Daemon.reach_table hup.reach).2 hup.started).freed hfreed
  have hpayload : (f.request tnfsMount mountPayload).drop tnfsHdrLen = mountPayload := rfl
  have hbyte : (f.request tnfsMount mountPayload).getD 2 0 = f.seq := rfl
  have hop : (f.request tnfsMount mountPayload).getD 3 0 = tnfsMount := rfl
  rw [Daemon.visited, Daemon.sentTo, request_mountPayload, Server.serve, run_bind]
  generalize run world d.card (Server.reapIdle now tnfsdMaxSessions d.server) = w at hreaped
  rw [← hreaped] at htells hclean
  have hturn : w.2.turn me (f.request tnfsMount mountPayload) = w.2.mountTurn me 0 :=
    request_mount f mountPayload hseq
  cases hmount : w.2.mountTurn me 0 with
  | ignored | run =>
    unfold Server.mountTurn at hmount
    repeat' split at hmount
    all_goals cases hmount
  | refused =>
    rw [hturn, hmount, Server.answer, hbyte, hseq]
    exact ⟨_, by simp; rfl, rfl, .inl rfl⟩
  | replay i =>
    rw [hmount] at hturn
    obtain ⟨hi, hlive, hpeer, -, hlast, hcmd⟩ := Server.turn_replay hturn
    rw [hbyte, hseq] at hlast
    have hreply := htells i hlive (hcmd.trans hop)
    rw [hlast] at hreply
    rw [hturn, Server.answer, run_pure, Server.resend, hpeer, hreply]
    refine ⟨_, by simp; rfl, rfl, .inr ⟨i, hi, ?_⟩⟩
    rw [Server.setSession_self]
    exact ⟨hlive, rfl, rfl, hlast, rfl⟩
  | mount i =>
    rw [hmount] at hturn
    obtain ⟨hi, -, hfree⟩ := Server.turn_mount hturn
    obtain ⟨v', t, hrun, hslot, -, hfresh, hlast⟩ := run_mountIn world me hi (hclean i hi hfree) now w.1
    rw [hturn, Server.answer, hpayload, hbyte, hseq, hrun]
    refine ⟨t.reply, by simp, ?_, .inr ⟨i, hi, ?_⟩⟩
    · rw [hfresh.reply]
      rfl
    · rw [hslot]
      exact ⟨hfresh.live, hfresh.peer, hlast, hfresh.keyed.seq, hfresh.reply⟩

/-- The server has mounted for `me`, as `m` tells, and has taken nothing else from it since. -/
def Shared.Mounted (world : σ → (c : SysCall) → σ × c.Answer) (me : Peer) (m : Bytes) (s : Shared σ) : Prop :=
  ∃ i t, s.Has world me i t ∧ t.Told me t.lastActiveUs m

/-- The attempts of the MOUNT, when one succeeds. -/
theorem mount_inv (hfs : Regular world file) (hos : HandsOut world isOpen) (hme : me ≠ ⟨0, 0⟩)
    (hseq : f.seq = 0) (n : ℕ) {m : Bytes} (hup : s.shared.daemon.Up world) (hquiet : s.inbox = [])
    (h : s.Runs world file me Busy (attempts (f.request tnfsMount mountPayload) 0 tnfsMount n) s' (.ok m)) :
    s'.shared.Mounted world me m ∧ s'.inbox = [] := by
  induction n generalizing s with
  | zero =>
    obtain ⟨hr, -⟩ := h.ret_inv
    cases hr
  | succ n ih =>
    have hfirst := attempt_inv (I := fun sh => sh.daemon.Up world)
      (J := fun m sh => sh.daemon.Up world ∧ (replyStatus m = tnfsEagain ∨ sh.Mounted world me m))
        hme ?_ ?_ ?_ hup hquiet h
    · obtain ⟨m', ⟨hagain, hm, ⟨-, hmounted⟩, hquiet'⟩ | ⟨-, s₁, ⟨hup₁, -⟩, hquiet₁, hrest⟩⟩ := hfirst
      · cases hm
        exact ⟨hmounted.resolve_left hagain, hquiet'⟩
      · exact ih hup₁ hquiet₁ hrest
    · exact fun s s' hup hothers => hothers.up hup
    · rintro m s s' ⟨hup, hm⟩ hothers
      refine ⟨hothers.up hup, hm.imp_right ?_⟩
      rintro ⟨i, t, hhas, htold⟩
      exact ⟨i, t, (hothers.has hfs hos hhas).1, htold⟩
    · intro sh now hup _
      obtain ⟨m, hsent, hmatch, hm⟩ := mount_turn hup me now hseq
      refine ⟨m, hsent, hmatch, hup.visited .., hm.imp_right ?_⟩
      rintro ⟨i, hi, htold⟩
      exact ⟨i, _, ⟨⟨hup.visited .., hi, rfl, htold.live, htold.peer⟩, by rw [htold.last]⟩,
        ⟨htold.live, htold.peer, rfl, htold.seq, htold.reply⟩⟩

/-- `tnfs_mount_root`, when it succeeds. -/
theorem tnfsMountRoot_inv (hfs : Regular world file) (hos : HandsOut world isOpen) (hme : me ≠ ⟨0, 0⟩)
    (hup : s.shared.daemon.Up world) (hquiet : s.inbox = [])
    (h : s.Runs world file me Busy (tnfsMountRoot f) s' (f', .ok ())) :
    (∃ i t, s'.shared.Holds world me f' i t) ∧ s'.inbox = [] := by
  have hlen : tnfsHdrLen + mountPayload.length ≤ tnfsMsgCap := by decide
  change Company.Runs world file me Busy s
    (tnfsCommand { f with seq := 0, conn := 0 } tnfsMount mountPayload >>= _) s' _ at h
  obtain ⟨s₁, ⟨f₁, q⟩, hcommand, hrest⟩ := h.bind_inv
  rw [tnfsCommand, if_neg (Nat.not_lt.mpr hlen)] at hcommand
  obtain ⟨s₂, q', hattempts, hret⟩ := hcommand.bind_inv
  obtain e | m := q'
  · obtain ⟨hr, -⟩ := hret.ret_inv
    cases hr
    obtain ⟨hr, -⟩ := hrest.ret_inv
    cases hr
  · obtain ⟨hr, hothers⟩ := hret.ret_inv
    cases hr
    obtain ⟨hmounted, hquiet₂⟩ := mount_inv (f := { f with seq := 0, conn := 0 })
      hfs hos hme rfl _ hup hquiet hattempts
    have stays : ∀ {s s' : Company σ}, s.shared.Mounted world me m → s.inbox = [] →
        Relation.ReflTransGen (Company.Others world file me Busy) s s' →
          s'.shared.Mounted world me m ∧ s'.inbox = [] := by
      intro s s' hmounted hquiet hothers
      refine keeps_inbox (I := fun sh => sh.Mounted world me m) hme ?_ hothers hmounted hquiet
      rintro s s' ⟨i, t, hhas, htold⟩ hothers
      exact ⟨i, t, (hothers.has hfs hos hhas).1, htold⟩
    obtain ⟨hmounted₁, hquiet₁⟩ := stays hmounted hquiet₂ hothers
    have hm : ∃ sid, m = tnfsHeader sid 0 tnfsMount ++ (Reply.mounted tnfsdMinRetryMs).body := by
      obtain ⟨i, t, -, htold⟩ := hmounted₁
      exact ⟨_, htold.reply⟩
    obtain ⟨sid, rfl⟩ := hm
    have hsid : mountReply (tnfsHeader sid 0 tnfsMount ++ (Reply.mounted tnfsdMinRetryMs).body) =
      some sid := by
      rw [mountReply, if_neg (by rw [not_not]; rfl), Reply.word_header]
    dsimp only at hrest
    rw [hsid] at hrest
    obtain ⟨hr, hothers'⟩ := hrest.ret_inv
    cases hr
    obtain ⟨⟨i, t, hhas, htold⟩, hquiet'⟩ := stays hmounted₁ hquiet₁ hothers'
    refine ⟨⟨i, t, hhas, ?_, ?_⟩, hquiet'⟩
    · have hword := congrArg (fun m => UInt16.ofNat (word m 0)) htold.reply
      simp only [Reply.word_header] at hword
      exact hword.symm
    · rw [htold.seq]

/-! ### OPEN -/

/-- An OPEN through the guard leaves the descriptor open as `open` did. -/
theorem openGuarded_opens {O : σ → ℕ → Prop} {path : CStr} {of : OpenFlags} {fd : ℕ}
    (hopened : ∀ card fd, (world card (.open path of)).2 = .ok fd → O (world card (.open path of)).1 fd)
    (hended : ∀ card fd, O card fd → O (world card .changeEnd).1 fd)
    (h : (run world card (openGuarded path of)).2 = some (.ok fd)) :
    O (run world card (openGuarded path of)).1 fd := by
  unfold openGuarded at h ⊢
  by_cases hwrites : of.writes = true
  · rw [if_pos hwrites, run_bind] at h ⊢
    split at h
    · cases h
    · next hfree =>
      rw [if_neg hfree]
      rw [run_bind] at h ⊢
      exact hended _ fd (hopened _ fd (Option.some.inj h))
  · rw [if_neg hwrites, run_bind] at h ⊢
    exact hopened _ fd (Option.some.inj h)

/-- What the server makes of an OPEN: it is refused, or a slot of the session has a descriptor that is
    open. -/
theorem hOpen_opens {O : σ → ℕ → Prop} (t : Session) (pl : Bytes) (card : σ)
    (hopened : ∀ card path fd, (world card (.open path (openFlagsOf (word pl 0)))).2 = .ok fd →
      O (world card (.open path (openFlagsOf (word pl 0)))).1 fd)
    (hended : ∀ card fd, O card fd → O (world card .changeEnd).1 fd) :
    (∃ st, st ≠ tnfsOk ∧ st ≠ tnfsEagain ∧ (run world card (hOpen t pl)).2 = (t, [st])) ∨
      ∃ slot fd, slot < tnfsdMaxFiles ∧ O (run world card (hOpen t pl)).1 fd ∧
        (run world card (hOpen t pl)).2 = ({ t with files := Function.update t.files slot (some fd) },
          [tnfsOk, UInt8.ofNat slot]) := by
  unfold hOpen
  split
  · exact .inl ⟨tnfsEinval, by decide, by decide, rfl⟩
  split
  · exact .inl ⟨tnfsEinval, by decide, by decide, rfl⟩
  split
  · next st hst =>
    refine .inl ⟨st, ?_, ?_, rfl⟩ <;> rcases resolvePath_error hst with rfl | rfl <;> decide
  split
  · exact .inl ⟨tnfsEmfile, by decide, by decide, rfl⟩
  · next abs _ _ slot hslot =>
    have hopens : ∀ fd, (run world card (openGuarded abs (openFlagsOf (word pl 0)))).2 = some (.ok fd) →
        O (run world card (openGuarded abs (openFlagsOf (word pl 0)))).1 fd :=
      fun fd h => openGuarded_opens (fun card fd => hopened card abs fd) hended h
    rw [run_bind]
    generalize run world card (openGuarded abs (openFlagsOf (word pl 0))) = q at hopens
    match q with
    | (_, none) => exact .inl ⟨tnfsEbusy, by decide, by decide, rfl⟩
    | (_, some (.error e)) => exact .inl ⟨errnoToTnfs e, errnoToTnfs_ne_ok e, errnoToTnfs_ne_again e, rfl⟩
    | (_, some (.ok fd)) => exact .inr ⟨slot, fd, (firstSlot_some hslot).1, hopens fd rfl, rfl⟩

/-- A regular card opens a descriptor on some file. -/
theorem Regular.opens (hfs : Regular world file) (t : Session) (pl : Bytes) (card : σ) :
    (∃ st, st ≠ tnfsOk ∧ st ≠ tnfsEagain ∧ (run world card (hOpen t pl)).2 = (t, [st])) ∨
      ∃ slot fd, slot < tnfsdMaxFiles ∧ (∃ bs p, file (run world card (hOpen t pl)).1 fd = some (bs, p)) ∧
        (run world card (hOpen t pl)).2 = ({ t with files := Function.update t.files slot (some fd) },
          [tnfsOk, UInt8.ofNat slot]) := by
  refine hOpen_opens (O := fun card fd => ∃ bs p, file card fd = some (bs, p)) t pl card ?_ ?_
  · exact fun card path fd h => hfs.opened card path _ fd h
  · rintro card fd ⟨bs, p, hfile⟩
    obtain ⟨bs', hended⟩ := hfs.elsewhere card .changeEnd fd bs p hfile (by rintro ⟨⟩)
    exact ⟨bs', p, hended⟩

/-- The handle in the reply to an OPEN is that of the descriptor. -/
theorem opened_slot {O : ℕ → Prop} {t : Session} {pl : Bytes} {card : σ} {slot : UInt8} (now : ℕ)
    (hopens : (∃ st, st ≠ tnfsOk ∧ st ≠ tnfsEagain ∧ (run world card (hOpen t pl)).2 = (t, [st])) ∨
      ∃ slot fd, slot < tnfsdMaxFiles ∧ O fd ∧
        (run world card (hOpen t pl)).2 = ({ t with files := Function.update t.files slot (some fd) },
          [tnfsOk, UInt8.ofNat slot]))
    (hslot : handleReply (ranReply world f tnfsOpen pl card t) = some slot) :
    ∃ fd, O fd ∧ (ranSession world f tnfsOpen pl card t now).file slot = some fd := by
  have hhandle : handle t tnfsOpen pl = hOpen t pl := rfl
  obtain ⟨h0, h1⟩ := (handleReply_cases rfl).1 slot hslot
  rw [hhandle] at h0 h1
  rcases hopens with ⟨st, hst, -, hrun⟩ | ⟨k, fd, hk, hfd, hrun⟩
  · rw [hrun] at h0
    exact absurd h0 hst
  · rw [hrun] at h1
    obtain rfl : UInt8.ofNat k = slot := h1
    have hnat : (UInt8.ofNat k).toNat = k := by
      have hmax : tnfsdMaxFiles = 4 := rfl
      simp only [UInt8.toNat_ofNat']
      omega
    refine ⟨fd, hfd, ?_⟩
    rw [Session.file, hnat, if_pos hk, ranSession_files, hhandle, hrun]
    exact Function.update_self ..

section Opens
variable (hfs : Regular world file) (hos : HandsOut world isOpen) (hme : me ≠ ⟨0, 0⟩)
include hfs hos hme

omit hfs hos hme in
theorem failOpen_inv {e : EspErr} {r : Except EspErr Unit}
    (h : s.Runs world file me Busy (failOpen f e) s' (f', r)) : r = .error e := by
  obtain ⟨s₁, q, -, hrest⟩ := h.bind_inv
  obtain ⟨hr, -⟩ := hrest.ret_inv
  cases hr
  rfl

/-- `tnfs_open` up to the size, when it succeeds. -/
theorem tnfsOpenFile_inv {flags : ℕ} {path : CStr} (hup : s.shared.daemon.Up world) (hquiet : s.inbox = [])
    (h : s.Runs world file me Busy (tnfsOpenFile flags path) s' (f', .ok ())) :
    (∃ bs p, s'.shared.StandsAt world file me bs f' p) ∧ s'.inbox = [] := by
  obtain ⟨s₁, ⟨f₁, q⟩, hmount, h⟩ := h.bind_inv
  obtain e | _ := q
  · obtain ⟨hr, -⟩ := h.ret_inv
    cases hr
  · obtain ⟨⟨i, t, hholds⟩, hquiet₁⟩ := tnfsMountRoot_inv hfs hos hme hup hquiet hmount
    dsimp only at h
    split at h
    · cases failOpen_inv h
    · next hshort =>
      obtain ⟨s₂, ⟨f₂, q⟩, hcommand, h⟩ := h.bind_inv
      have hlen : tnfsHdrLen + (openPayload flags path).length ≤ tnfsMsgCap := by
        have hcap : tnfsMsgCap = 1032 ∧ tnfsHdrLen = 4 := ⟨rfl, rfl⟩
        simp only [openPayload, List.length_append, List.length_cons, List.length_nil,
          length_le16, FdcSds.length_bytes]
        omega
      have hhandle : handle t tnfsOpen (openPayload flags path) = hOpen t (openPayload flags path) := rfl
      have hagain : ∀ card, Kept file t s₁.shared.daemon.card card →
          replyStatus (ranReply world f₁ tnfsOpen (openPayload flags path) card t) ≠ tnfsEagain := by
        intro card _
        rw [ranReply, hhandle]
        rcases hfs.opens t (openPayload flags path) card with ⟨st, -, hst, hrun⟩ | ⟨slot, fd, -, -, hrun⟩
        · rw [hrun]
          exact hst
        · rw [hrun]
          exact (by decide : tnfsOk ≠ tnfsEagain)
      obtain ⟨card, now, -, rfl, rfl, hran, hquiet₂⟩ :=
        command_inv hfs hos hme hholds hquiet₁ (by decide) (by decide) hlen hagain hcommand
      dsimp only at h
      cases hh : handleReply (ranReply world f₁ tnfsOpen (openPayload flags path) card t) with
      | none =>
        rw [hh] at h
        cases failOpen_inv h
      | some slot =>
        rw [hh] at h
        obtain ⟨hr, hothers⟩ := h.ret_inv
        cases hr
        obtain ⟨fd, ⟨bs, p, hfile⟩, hfd⟩ := opened_slot now (hfs.opens t (openPayload flags path) card) hh
        have hholds₂ := hran.holds hholds.sid
        have hstands : s₂.shared.StandsAt world file me bs { f₁ with seq := f₁.seq + 1, fd := slot } p :=
          ⟨i, _, fd, ⟨hholds₂.toHas, hholds₂.sid, hholds₂.key⟩, hfd,
            hran.kept fd bs p (file_held hfd).2.2 hfile⟩
        obtain ⟨hstands', hquiet'⟩ := stands_after hfs hos hme hstands hquiet₂ hothers
        exact ⟨⟨bs, p, hstands'⟩, hquiet'⟩

/-- `tnfs_query_size` keeps the file open. -/
theorem tnfsQuerySize_inv {bs : Bytes} {p : ℕ} {r : Except EspErr Unit}
    (hstands : s.shared.StandsAt world file me bs f p) (hquiet : s.inbox = [])
    (h : s.Runs world file me Busy (tnfsQuerySize f) s' (f', r)) :
    (∃ p', s'.shared.StandsAt world file me bs f' p') ∧ s'.inbox = [] := by
  have hlen : tnfsHdrLen + (seekPayload f.fd tnfsSeekEnd 0).length ≤ tnfsMsgCap := by
    simp [seekPayload, le32, tnfsHdrLen, tnfsMsgCap, tnfsIoChunk]
  obtain ⟨s₁, ⟨f₁, q⟩, hcommand, h⟩ := h.bind_inv
  have hseek := command_stands (A := fun _ _ => True) hfs hos hme hstands hquiet (by decide)
    (by decide) hlen ?_ hcommand
  · obtain ⟨p', body, -, rfl, rfl, hstands₁, hquiet₁⟩ := hseek
    dsimp only at h
    split at h
    · obtain ⟨hr, hothers⟩ := h.ret_inv
      cases hr
      obtain ⟨hstands', hquiet'⟩ := stands_after hfs hos hme hstands₁ hquiet₁ hothers
      exact ⟨⟨p', hstands'⟩, hquiet'⟩
    · obtain ⟨hr, hothers⟩ := h.ret_inv
      cases hr
      obtain ⟨⟨i, t, fd, hholds, hfd, hfile⟩, hquiet'⟩ := stands_after hfs hos hme hstands₁ hquiet₁ hothers
      exact ⟨⟨p', i, t, fd, ⟨hholds.toHas, hholds.sid, hholds.key⟩, hfd, hfile⟩, hquiet'⟩
  · intro t fd card hfd hfile
    have hrun : run world card (handle t tnfsLseek (seekPayload f.fd tnfsSeekEnd 0)) =
      _ := run_hLseek hfd rfl 0
    obtain ⟨p', hnext, -⟩ := hfs.lseek card fd (int32 (0 : UInt32).toNat) .fromEnd bs p hfile
    rw [hrun]
    cases (world card (.lseek fd (int32 (0 : UInt32).toNat) .fromEnd)).2 with
    | error e =>
      exact ⟨rfl, by simp [tnfsMsgCap, tnfsHdrLen, tnfsIoChunk], errnoToTnfs_ne_again e, p', hnext, trivial⟩
    | ok q =>
      exact ⟨rfl, by simp [le32, tnfsMsgCap, tnfsHdrLen, tnfsIoChunk], (by decide : tnfsOk ≠ tnfsEagain),
        p', hnext, trivial⟩

/-- `tnfs_open`, when it succeeds. -/
theorem tnfsOpenPath_inv {path : CStr} {writable create : Bool} (hup : s.shared.daemon.Up world)
    (hquiet : s.inbox = []) (h : s.Runs world file me Busy (tnfsOpenPath path writable create) s' (.ok f)) :
    (∃ bs, s'.shared.HasOpen world file me bs f) ∧ s'.inbox = [] := by
  obtain ⟨s₁, ⟨f₁, q⟩, hopen, h⟩ := h.bind_inv
  obtain e | _ := q
  · obtain ⟨hr, -⟩ := h.ret_inv
    cases hr
  · obtain ⟨⟨bs, p, i, t, fd, hholds, hfd, hfile⟩, hquiet₁⟩ := tnfsOpenFile_inv hfs hos hme hup hquiet hopen
    have hstands₁ : s₁.shared.StandsAt world file me bs { f₁ with size := 0 } p :=
      ⟨i, t, fd, ⟨hholds.toHas, hholds.sid, hholds.key⟩, hfd, hfile⟩
    dsimp only at h
    obtain ⟨s₂, f₂, hopened, h⟩ := h.bind_inv
    obtain ⟨hr, hothers⟩ := h.ret_inv
    cases hr
    have hopen₂ : s₂.shared.HasOpen world file me bs f ∧ s₂.inbox = [] := by
      unfold tnfsOpened at hopened
      split at hopened
      · obtain ⟨hr, hothers₂⟩ := hopened.ret_inv
        cases hr
        obtain ⟨hstands₂, hquiet₂⟩ := stands_after hfs hos hme hstands₁ hquiet₁ hothers₂
        exact ⟨hstands₂.forget, hquiet₂⟩
      · obtain ⟨s₃, ⟨f₃, q⟩, hquery, hret⟩ := hopened.bind_inv
        obtain ⟨⟨p', hstands₃⟩, hquiet₃⟩ := tnfsQuerySize_inv hfs hos hme hstands₁ hquiet₁ hquery
        obtain ⟨hr, hothers₂⟩ := hret.ret_inv
        cases hr
        obtain ⟨hstands₂, hquiet₂⟩ := stands_after hfs hos hme hstands₃ hquiet₃ hothers₂
        exact ⟨hstands₂.forget, hquiet₂⟩
    obtain ⟨hopen', hquiet'⟩ := hasOpen_after hfs hos hme hopen₂.1 hopen₂.2 hothers
    exact ⟨⟨bs, hopen'⟩, hquiet'⟩

end Opens

/-! ### Reads and pauses -/

/-- The bytes of the file that the handle of `f` is open on. -/
def Shared.bytesOf (file : σ → ℕ → Option (Bytes × ℕ)) (me : Peer) (s : Shared σ)
    (f : TnfsFile) : Option Bytes :=
  s.daemon.openOn file me f

theorem Shared.HasOpen.bytesOf {s : Shared σ} {bs : Bytes} (h : s.HasOpen world file me bs f) :
    s.bytesOf file me f = some bs := by
  obtain ⟨p, ⟨i, t, fd, hholds, hfd, hfile⟩, -⟩ := h
  exact hholds.toHosts.openOn hholds.sid hfd hfile

/-- A call of `tnfs_read_at`, and what is left to the others around it. -/
def ReadStep (world : σ → (c : SysCall) → σ × c.Answer) (file : σ → ℕ → Option (Bytes × ℕ)) (me : Peer)
    (x y : Company σ × TnfsFile) :
    Prop :=
  ∃ off len r, x.1.Runs world file me Busy (tnfsReadAt x.2 off len) y.1 (y.2, r)

/-- A program that is played without a turn for others, at `now`. -/
theorem runs_alone {α : Type} {pace : Pace} (now : ℕ) (hs : pace s.shared.last now)
    (hstill : pace (some now) now) (q : Net α) :
    s.Runs world file me pace q (run (Company.call world me now) s q).1
      (run (Company.call world me now) s q).2 := by
  refine (Prog.Amid.of_run (π := id) (I := fun s : Company σ => pace s.shared.last now) ?_ hs).1
  intro s c hs
  refine ⟨⟨now, hs, rfl⟩, ?_⟩
  cases c with
  | send data => exact hstill
  | await seq cmd => rwa [call_await_shared]
  | delay ms => exact hs

/-- A client that keeps the pace can always go on, and its call ends. -/
theorem runs_ends {α : Type} (s : Company σ) (q : Net α) : ∃ s' a, s.Runs world file me Busy q s' a := by
  refine ⟨_, _, runs_alone (s.shared.last.getD 0) ?_ ?_ q⟩
  · intro t ht
    rw [Option.mem_def.mp ht, Option.getD_some, Nat.sub_self]
    exact Nat.zero_le _
  · intro t ht
    rw [Option.some.inj ht, Nat.sub_self]
    exact Nat.zero_le _

/-- WRONG after a pause of more than 30 s, and from 2 GiB on: amid any turns for other clients, while
    the client is never silent for longer than 30 s, every `tnfs_read_at` within the file ends,
    succeeds, and gives the bytes that are there, if it need not seek or the offset is below 2 GiB. -/
theorem reads_outlive_pauses (hfs : Regular world file) (hos : HandsOut world isOpen)
    (hme : me ≠ ⟨0, 0⟩) {d : Daemon σ} (hup : d.Up world) {path : CStr} {writable create : Bool}
    (hopen : Company.Runs world file me Busy ⟨⟨d, none⟩, []⟩ (tnfsOpenPath path writable create) s (.ok f)) :
    ∃ bs, ∀ s' f', Relation.ReflTransGen (ReadStep world file me) (s, f) (s', f') →
      s'.shared.bytesOf file me f' = some bs ∧
      ∀ off len, off.toNat + len ≤ bs.length → (0 < len → Seekable f' off) →
        (∃ s₁ f₁ r, s'.Runs world file me Busy (tnfsReadAt f' off len) s₁ (f₁, r)) ∧
          ∀ s₁ f₁ r, s'.Runs world file me Busy (tnfsReadAt f' off len) s₁ (f₁, r) →
            r = .ok (slice bs off.toNat len) := by
  obtain ⟨⟨bs, hopened⟩, hquiet⟩ := tnfsOpenPath_inv hfs hos hme hup rfl hopen
  refine ⟨bs, fun s' f' hreads => ?_⟩
  have hstill : s'.shared.HasOpen world file me bs f' ∧ s'.inbox = [] := by
    refine keeps_all (E := ReadStep world file me)
      (I := fun x => x.1.shared.HasOpen world file me bs x.2 ∧ x.1.inbox = []) ?_ hreads
      ⟨hopened, hquiet⟩
    rintro x y ⟨hopened, hquiet⟩ ⟨off, len, r, hread⟩
    obtain ⟨hopened', hquiet', -⟩ := readLoop_inv hfs hos hme len hopened hquiet le_rfl hread
    exact ⟨hopened', hquiet'⟩
  refine ⟨hstill.1.bytesOf, fun off len hin hseek => ⟨?_, fun s₁ f₁ r hread => ?_⟩⟩
  · obtain ⟨s₁, ⟨f₁, r⟩, hruns⟩ := runs_ends s' (tnfsReadAt f' off len)
    exact ⟨s₁, f₁, r, hruns⟩
  · have hgives := (readLoop_inv hfs hos hme len hstill.1 hstill.2 le_rfl hread).2.2 hin hseek
    rwa [List.nil_append] at hgives

/-! ### A card with one file -/

/-- A card with one file, which may be open any number of times: where each descriptor stands. -/
def cabinet (content : Bytes) (ps : List ℕ) : (c : SysCall) → List ℕ × c.Answer
  | .open _ _ => (ps ++ [0], .ok ps.length)
  | .read fd n => match ps[fd]? with
    | some p => (ps.set fd (p + ((content.drop p).take n).length), .ok ((content.drop p).take n))
    | none => (ps, .error .ebadf)
  | .lseek fd off wh => match ps[fd]? with
    | some p =>
      if 0 ≤ seekTarget content p off wh then
        (ps.set fd (seekTarget content p off wh).toNat, .ok (seekTarget content p off wh).toNat)
      else (ps, .error .einval)
    | none => (ps, .error .ebadf)
  | .opendir _ => (ps, .error .enoent)
  | c => (ps, (Daemon.numberedCard 0 c).2)

def cabinetFile (content : Bytes) (ps : List ℕ) (fd : ℕ) : Option (Bytes × ℕ) := ps[fd]?.map (Prod.mk content)

def cabinetOpen (ps : List ℕ) : Handle → Prop
  | .file fd => fd < ps.length
  | .dir _ => False

theorem cabinetFile_eq {content bs : Bytes} {ps : List ℕ} {fd p : ℕ} :
    cabinetFile content ps fd = some (bs, p) ↔ ps[fd]? = some p ∧ bs = content := by
  rw [cabinetFile, Option.map_eq_some_iff]
  constructor
  · rintro ⟨q, hq, heq⟩
    obtain ⟨rfl, rfl⟩ := Prod.mk.inj heq
    exact ⟨hq, rfl⟩
  · rintro ⟨hq, rfl⟩
    exact ⟨p, hq, rfl⟩

/-- A call on something else leaves a descriptor where it stands. -/
theorem cabinet_other {content : Bytes} {ps : List ℕ} {c : SysCall} {fd p : ℕ}
    (hother : c.handle ≠ some (.file fd)) (h : ps[fd]? = some p) :
    (cabinet content ps c).1[fd]? = some p := by
  have moved : ∀ fd' q, fd' ≠ fd → (ps.set fd' q)[fd]? = some p := fun fd' q hne => by
    rwa [List.getElem?_set_ne hne]
  cases c with
  | «open» path flags =>
    change (ps ++ [0])[fd]? = some p
    rw [List.getElem?_append_left (List.getElem?_eq_some_iff.mp h).1, h]
  | read fd' n =>
    have hne : fd' ≠ fd := fun heq => hother (congrArg (fun fd => some (Handle.file fd)) heq)
    unfold cabinet
    dsimp only
    split
    · exact moved fd' _ hne
    · exact h
  | lseek fd' off wh =>
    have hne : fd' ≠ fd := fun heq => hother (congrArg (fun fd => some (Handle.file fd)) heq)
    unfold cabinet
    dsimp only
    split
    · split
      · exact moved fd' _ hne
      · exact h
    · exact h
  | _ => exact h

theorem cabinet_length (content : Bytes) (ps : List ℕ) (c : SysCall) :
    ps.length ≤ (cabinet content ps c).1.length := by
  cases c with
  | «open» path flags =>
    change ps.length ≤ (ps ++ [0]).length
    simp
  | read fd n =>
    unfold cabinet
    dsimp only
    split
    · exact Nat.le_of_eq (List.length_set ..).symm
    · exact le_rfl
  | lseek fd off wh =>
    unfold cabinet
    dsimp only
    split
    · split
      · exact Nat.le_of_eq (List.length_set ..).symm
      · exact le_rfl
    · exact le_rfl
  | _ => exact le_rfl

theorem cabinet_regular {content : Bytes} (hsize : content.length < 2 ^ 32) :
    Regular (cabinet content) (cabinetFile content) where
  size := by
    intro ps fd bs p h
    rwa [(cabinetFile_eq.mp h).2]
  opened := by
    rintro ps path flags fd h
    obtain rfl : ps.length = fd := Except.ok.inj h
    refine ⟨content, 0, cabinetFile_eq.mpr ⟨?_, rfl⟩⟩
    change (ps ++ [0])[ps.length]? = some 0
    exact List.getElem?_concat_length
  elsewhere := by
    intro ps c fd bs p h hother
    obtain ⟨hat, rfl⟩ := cabinetFile_eq.mp h
    exact ⟨bs, cabinetFile_eq.mpr ⟨cabinet_other hother hat, rfl⟩⟩
  close := by
    intro ps c fd bs p h hother hcloses
    cases c <;> first | exact h | cases hcloses
  read := by
    intro ps fd n bs p h
    obtain ⟨hat, rfl⟩ := cabinetFile_eq.mp h
    have hlt := (List.getElem?_eq_some_iff.mp hat).1
    have hcall : cabinet bs ps (.read fd n) =
      (ps.set fd (p + ((bs.drop p).take n).length), .ok ((bs.drop p).take n)) := by
      simp only [cabinet, hat]
    rw [hcall]
    refine ⟨_, cabinetFile_eq.mpr ⟨List.getElem?_set_self hlt, rfl⟩, ?_, fun hn hp => ⟨_, rfl, ?_⟩⟩
    · rintro d ⟨⟩
      exact ⟨List.take_prefix .., List.length_take_le .., rfl⟩
    · refine List.ne_nil_of_length_pos ?_
      rw [List.length_take, List.length_drop]
      omega
  lseek := by
    intro ps fd off wh bs p h
    obtain ⟨hat, rfl⟩ := cabinetFile_eq.mp h
    have hlt := (List.getElem?_eq_some_iff.mp hat).1
    by_cases htarget : 0 ≤ seekTarget bs p off wh
    · have hcall : cabinet bs ps (.lseek fd off wh) =
          (ps.set fd (seekTarget bs p off wh).toNat, .ok (seekTarget bs p off wh).toNat) := by
        simp only [cabinet, hat, if_pos htarget]
      rw [hcall]
      refine ⟨_, cabinetFile_eq.mpr ⟨List.getElem?_set_self hlt, rfl⟩, ?_⟩
      rintro rfl
      exact ⟨fun _ _ => ⟨htarget, rfl⟩, fun _ _ => ⟨_, rfl⟩⟩
    · have hcall : cabinet bs ps (.lseek fd off wh) = (ps, .error .einval) := by
        simp only [cabinet, hat, if_neg htarget]
      rw [hcall]
      refine ⟨p, cabinetFile_eq.mpr ⟨hat, rfl⟩, ?_⟩
      rintro rfl
      exact ⟨(by rintro r ⟨⟩), fun hnonneg => absurd hnonneg htarget⟩

theorem cabinet_handsOut (content : Bytes) : HandsOut (cabinet content) cabinetOpen where
  fresh := by
    intro ps c h hopen
    cases c with
    | «open» path flags =>
      obtain rfl : Handle.file ps.length = h := Option.some.inj hopen
      refine ⟨Nat.lt_irrefl ps.length, ?_⟩
      change ps.length < (ps ++ [0]).length
      simp
    | _ => cases hopen
  stays := by
    rintro ps c (fd | d) hopen -
    · exact Nat.lt_of_lt_of_le hopen (cabinet_length content ps c)
    · exact hopen

/-! ### Two clients -/

def cabinetBoot : Daemon (List ℕ) := ⟨false, Daemon.staticServer, [], []⟩

theorem exec_cabinet : ((Daemon.machine (cabinet [7])).exec cabinetBoot [.start]).isSome = true := by decide

/-- The server, before any client. -/
def cabinetUp : Daemon (List ℕ) := ((Daemon.machine (cabinet [7])).exec cabinetBoot [.start]).get exec_cabinet

theorem cabinetUp_up : cabinetUp.Up (cabinet [7]) where
  reach := ⟨cabinetBoot, ⟨[], rfl⟩, Machine.exec_always (Option.some_get exec_cabinet).symm⟩
  started := by decide

/-- What the client does with nobody else, at `now`. -/
def aloneAt {α : Type} (now : ℕ) (s : Company (List ℕ)) (q : Net α) : Company (List ℕ) × α :=
  run (Company.call (cabinet [7]) ⟨1, 1⟩ now) s q

def openSeven : Net (Except EspErr TnfsFile) := tnfsOpenPath ['/', 'a'] false false

/-- The file after `tnfs_open`. -/
def seven : TnfsFile := ⟨1, 3, 0, 1, 0, false⟩

def openedSeven : Company (List ℕ) := (aloneAt 0 ⟨⟨cabinetUp, none⟩, []⟩ openSeven).1

theorem openSeven_run {pace : Pace} (hfirst : pace none 0) (hstill : pace (some 0) 0) :
    Company.Runs (cabinet [7]) (cabinetFile [7]) ⟨1, 1⟩ pace ⟨⟨cabinetUp, none⟩, []⟩
      openSeven openedSeven (.ok seven) :=
  runs_alone _ hfirst hstill openSeven

/-- Ten seconds later another client mounts. -/
def joinedSeven : Company (List ℕ) :=
  openedSeven.visit (cabinet [7]) ⟨1, 1⟩ 10000000 ⟨2, 2⟩
    (TnfsFile.request ⟨0, 0, 0, 0, 0, false⟩ tnfsMount mountPayload)

theorem joinedSeven_others : openedSeven.Others (cabinet [7]) (cabinetFile [7]) ⟨1, 1⟩ Busy joinedSeven := by
  refine ⟨10000000, ⟨2, 2⟩, _, by decide, ?_, rfl, ?_⟩
  · rintro t ⟨⟩
    decide
  · rintro fd - bs p bs' p' h h'
    rw [(cabinetFile_eq.mp h).2, (cabinetFile_eq.mp h').2]

/-- And a read within 30 s. -/
theorem reads_outlive_pauses_seven : (aloneAt 20000000 joinedSeven (tnfsReadAt seven 0 1)).2.2 = .ok [7] := by
  obtain ⟨bs, hreads⟩ := reads_outlive_pauses (cabinet_regular (by decide)) (cabinet_handsOut [7])
    (by decide) cabinetUp_up
    (openSeven_run (by rintro t ⟨⟩) (by rintro t ⟨⟩; decide))
  obtain ⟨hbytes, hread⟩ := hreads openedSeven seven .refl
  obtain rfl : bs = [7] := Option.some.inj (hbytes.symm.trans rfl)
  refine (hread 0 1 (by decide) fun _ => .inl (by decide)).2
    _ _ _ (.other joinedSeven_others (runs_alone _ ?_ ?_ _))
  · rintro t ⟨⟩
    decide
  · rintro t ⟨⟩
    decide

/-- The clock does not go back. -/
def Onward : Pace := fun last now => ∀ t ∈ last, t ≤ now

/-- A read after 31 s: the session is gone, and the client goes on asking it. -/
theorem reads_cut_by_pause : ∃ (s : Company (List ℕ)) (f f' : TnfsFile) (s' : Company (List ℕ)),
      cabinetUp.Up (cabinet [7]) ∧
    Company.Runs (cabinet [7]) (cabinetFile [7]) ⟨1, 1⟩ Onward ⟨⟨cabinetUp, none⟩, []⟩ openSeven s (.ok f) ∧
    s.shared.bytesOf (cabinetFile [7]) ⟨1, 1⟩ f = some [7] ∧
    Company.Runs (cabinet [7]) (cabinetFile [7]) ⟨1, 1⟩ Onward s (tnfsReadAt f 0 1) s'
      (f', .error .timeout) := by
  have hread : Company.Runs (cabinet [7]) (cabinetFile [7]) ⟨1, 1⟩ Onward openedSeven (tnfsReadAt seven 0 1)
      (aloneAt 31000000 openedSeven (tnfsReadAt seven 0 1)).1
        (aloneAt 31000000 openedSeven (tnfsReadAt seven 0 1)).2 := by
    refine runs_alone _ ?_ ?_ (tnfsReadAt seven 0 1)
    · rintro t ⟨⟩
      exact Nat.zero_le _
    · rintro t ⟨⟩
      exact le_rfl
  have htimeout : (aloneAt 31000000 openedSeven (tnfsReadAt seven 0 1)).2.2 = .error .timeout := rfl
  refine ⟨openedSeven, seven, (aloneAt 31000000 openedSeven (tnfsReadAt seven 0 1)).2.1,
    (aloneAt 31000000 openedSeven (tnfsReadAt seven 0 1)).1, cabinetUp_up, openSeven_run ?_ ?_, rfl, ?_⟩
  · rintro t ⟨⟩
  · rintro t ⟨⟩
    exact le_rfl
  · rw [← htimeout]
    exact hread

end FdcSds.Tnfsd
