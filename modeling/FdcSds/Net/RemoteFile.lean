import FdcSds.Net.ListDir

/-! A file of the server, read by the client over a network that loses datagrams.

    `tnfs_open` mounts, opens the file and asks for its size with an LSEEK to the end; it goes on without
    the size when that is not answered. `tnfs_read_at` seeks and reads until it has what it was asked for,
    so what it gives is what the file has there.

        MOUNT ─▶ OPEN ─▶ LSEEK end ─answered─▶ size known
                              └─lost─▶ size 0                  read_at ──LSEEK──▶ READ ⟲ ──▶ bytes -/

namespace FdcSds
open Schemes

/-! ### The client -/

/-- The payload of an OPEN, with mode 0644. -/
def openPayload (flags : ℕ) (path : CStr) : Bytes := le16 flags ++ le16 0x01A4 ++ CStr.bytes path ++ [0]

/-- A failed `tnfs_open` unmounts again. -/
def failOpen (f : TnfsFile) (e : EspErr) : Net (TnfsFile × Except EspErr Unit) := do
  let (f, _) ← tnfsCommand f tnfsUmount []
  pure (f, .error e)

/-- `tnfs_open` up to its question for the size, over UDP. -/
def tnfsOpenFile (flags : ℕ) (path : CStr) : Net (TnfsFile × Except EspErr Unit) := do
  match ← tnfsMountRoot ⟨0, 0, 0, 0, 0, false⟩ with
  | (f, .error _) => pure (f, .error .timeout)
  | (f, .ok ()) =>
    if tnfsMsgCap - tnfsHdrLen < 4 + (path.length + 1) then failOpen f .fail
    else do
      match ← tnfsCommand f tnfsOpen (openPayload flags path) with
      | (f, .error e) => failOpen f e
      | (f, .ok m) =>
        match handleReply m with
        | none => failOpen f (if replyStatus m = tnfsEnoent then .notFound else .fail)
        | some fd => pure ({ f with fd := fd }, .ok ())

/-- What `tnfs_open` opens a file for. -/
def openModeFlags (writable create : Bool) : ℕ :=
  if create then tnfsOWronly ||| tnfsOCreat ||| tnfsOTrunc else if writable then tnfsORdwr else tnfsORdonly

/-- `tnfs_open`, over UDP, of the path in a URL. -/
def tnfsOpenPath (path : CStr) (writable create : Bool) : Net (Except EspErr TnfsFile) := do
  match ← tnfsOpenFile (openModeFlags writable create) path with
  | (_, .error e) => pure (.error e)
  | (f, .ok ()) => do
    let f ← tnfsOpened f create
    pure (.ok f)

/-- `tnfs_close`. -/
def tnfsCloseFile (f : TnfsFile) : Net Unit := do
  let (f, _) ← tnfsCommand f tnfsClose [f.fd]
  let _ ← tnfsCommand f tnfsUmount []
  pure ()

namespace Tnfsd
open Prog

variable {σ : Type} {world : σ → (c : SysCall) → σ × c.Answer} {clock : ℕ → ℕ} {fate : ℕ → Fate}
    {me : Peer} {w : Wire σ} {f : TnfsFile} {s : Session} {h : UInt8} {card : σ}

/-! ### LSEEK and READ on the server -/

theorem run_hLseek {fd : ℕ} {whence : UInt8} {wh : Whence} (hfile : s.file h = some fd)
    (hwhence : whenceOf whence = some wh) (off : UInt32) :
    run world card (hLseek s (seekPayload h whence off)) =
      ((world card (.lseek fd (int32 off.toNat) wh)).1, s,
        match (world card (.lseek fd (int32 off.toNat) wh)).2 with
        | .error e => [errnoToTnfs e]
        | .ok r => [tnfsOk] ++ le32 r) := by
  have hlong : ¬ (seekPayload h whence off).length < 6 := by simp [seekPayload, le32]
  have hat : dword (seekPayload h whence off) 2 = off.toNat := by
    have hd := dword_le32 [h, whence] [] off.toNat off.toNat_lt
    rwa [List.append_nil] at hd
  have h0 : (seekPayload h whence off).getD 0 0 = h := rfl
  have h1 : (seekPayload h whence off).getD 1 0 = whence := rfl
  rw [hLseek, if_neg hlong, h0, hfile]
  dsimp only
  rw [h1, hwhence, hat]
  dsimp only
  rw [sysLseek, run_bind, run_ask]
  split <;> next heq => rw [heq]; rfl

theorem run_hRead {fd want : ℕ} (hfile : s.file h = some fd) (hwant : want ≤ tnfsIoChunk) :
    run world card (hRead s (readPayload h want)) =
      ((world card (.read fd want)).1, s,
        match (world card (.read fd want)).2 with
        | .error e => [errnoToTnfs e]
        | .ok r => if r.length = 0 ∧ 0 < want then [tnfsEof] else [tnfsOk] ++ le16 r.length ++ r) := by
  have hchunk : tnfsIoChunk = 1024 := rfl
  have hlong : ¬ (readPayload h want).length < 3 := by simp [readPayload, le16]
  have hat : word (readPayload h want) 1 = want := by
    have hd := word_le16 [h] [] want (by omega)
    rwa [List.append_nil] at hd
  have h0 : (readPayload h want).getD 0 0 = h := rfl
  rw [hRead, if_neg hlong, h0, hfile]
  dsimp only
  rw [hat, min_eq_left hwant, sysRead, run_bind, run_ask]
  split
  · next heq => rw [heq]; rfl
  · next heq =>
    rw [heq]
    dsimp only
    split <;> rfl

theorem run_hWrite {fd : ℕ} {data : Bytes} (hfile : s.file h = some fd) (hdata : data.length ≤ tnfsIoChunk) :
    run world card (hWrite s (writePayload h data)) =
      ((world card (.write fd data)).1, s,
        match (world card (.write fd data)).2 with
        | .error e => [errnoToTnfs e]
        | .ok n => [tnfsOk] ++ le16 n) := by
  have hchunk : tnfsIoChunk = 1024 := rfl
  have hat : word (writePayload h data) 1 = data.length := word_le16 [h] data data.length (by omega)
  have hlen : (writePayload h data).length = 3 + data.length := by
    simp only [writePayload, List.length_append, List.length_singleton, length_le16]
  have hslice : slice (writePayload h data) 3 data.length = data := by
    rw [slice, writePayload, List.drop_left' (by simp), List.take_length]
  have h0 : (writePayload h data).getD 0 0 = h := rfl
  rw [hWrite, if_neg (by omega), hat, if_neg (by omega), h0, hfile]
  dsimp only
  rw [hslice, sysWrite, run_bind, run_ask]
  split <;> next heq => rw [heq]; rfl

/-! ### A file that nobody changes -/

/-- The flags the server opens it with. -/
def rdonlyFlags : OpenFlags := ⟨.rdonly, false, false, false, false⟩

/-- How the card is documented to treat a file nobody changes: it holds `content`, and `pos` is where a
    descriptor stands in it. -/
structure Keeps (world : σ → (c : SysCall) → σ × c.Answer) (abs : CStr) (content : Bytes)
    (pos : σ → ℕ → Option ℕ) : Prop where
  openAt : ∀ card fd, (world card (.open abs rdonlyFlags)).2 = .ok fd →
    pos (world card (.open abs rdonlyFlags)).1 fd = some 0
  read : ∀ card fd n p bs, pos card fd = some p → (world card (.read fd n)).2 = .ok bs →
    bs <+: content.drop p ∧ bs.length ≤ n ∧ pos (world card (.read fd n)).1 fd = some (p + bs.length)
  lseek : ∀ card fd off wh p r, pos card fd = some p → (world card (.lseek fd off wh)).2 = .ok r →
    r < 2 ^ 32 ∧ pos (world card (.lseek fd off wh)).1 fd = some r ∧ (wh = .set → (r : ℤ) = off) ∧
      (wh = .fromEnd → (r : ℤ) = content.length + off)

/-- The client holds a session and in it an open file, and remembers where that stands. -/
def Wire.HasOpen (pos : σ → ℕ → Option ℕ) (me : Peer) (w : Wire σ) (f : TnfsFile) : Prop :=
  ∃ s fd p, w.Holds me f s ∧ s.file f.fd = some fd ∧ pos w.card fd = some p ∧
    (f.posValid = true → f.pos.toNat = p)

variable {abs : CStr} {content : Bytes} {pos : σ → ℕ → Option ℕ}

/-- Forgetting the position, or knowing the size, is the client's own affair. -/
theorem Wire.Holds.same {f' : TnfsFile} (hw : w.Holds me f s) (hconn : f'.conn = f.conn)
    (hseq : f'.seq = f.seq) : w.Holds me f' s :=
  ⟨hw.slot, hw.others, hw.live, hconn ▸ hw.sid, hw.nonzero, hw.peer, hw.root, hseq ▸ hw.key, hw.quiet⟩

theorem Wire.HasOpen.forget (hf : w.HasOpen pos me f) : w.HasOpen pos me f.forget := by
  obtain ⟨s, fd, p, hholds, hfile, hpos, -⟩ := hf
  refine ⟨s, fd, p, hholds.same rfl rfl, hfile, hpos, ?_⟩
  rintro ⟨⟩

/-- A command on an open file, that leaves the session's files alone. -/
theorem Wire.Holds.command_same {cmd : UInt8} {pl m : Bytes} {body : Bytes} (hw : w.Holds me f s)
    (hcmd : cmd ≠ tnfsMount) (hrun : cmd ≠ tnfsUmount) (hlen : tnfsHdrLen + pl.length ≤ tnfsMsgCap)
    (hhandle : run world w.card (handle s cmd pl) = (card, s, body))
    (hbody : body.length ≤ tnfsMsgCap - tnfsHdrLen) {r : Wire σ × TnfsFile × Except EspErr Bytes}
    (hr : r = run (wired world clock fate me) w (tnfsCommand f cmd pl)) (hm : r.2.2 = .ok m) :
    m = tnfsHeader f.conn f.seq cmd ++ body ∧ r.1.card = card ∧ r.2.1 = { f with seq := f.seq + 1 } ∧
      ∃ s', r.1.Holds me r.2.1 s' ∧ s'.files = s.files := by
  obtain ⟨s', hreply, hholds, hfiles, -, hcard⟩ := (hw.command hcmd hrun hlen hr).1 m hm
  rw [hhandle] at hfiles hcard
  refine ⟨?_, hcard, ?_, s', hholds, hfiles⟩
  · rw [hreply, ranReply, hhandle, List.take_of_length_le hbody]
  · rw [hr, tnfsCommand, if_neg (Nat.not_lt.mpr hlen), run_bind] at hm ⊢
    generalize run (wired world clock fate me) w (attempts (f.request cmd pl) f.seq cmd tnfsRetries) =
      q at hm ⊢
    obtain ⟨w', e | m'⟩ := q
    · cases hm
    · rfl

theorem file_congr {s' : Session} (hfiles : s'.files = s.files) (h : UInt8) : s'.file h = s.file h := by
  rw [Session.file, Session.file, hfiles]

/-- The open file stands at `p`. -/
def Wire.StandsAt (pos : σ → ℕ → Option ℕ) (me : Peer) (w : Wire σ) (f : TnfsFile) (p : ℕ) : Prop :=
  ∃ s fd, w.Holds me f s ∧ s.file f.fd = some fd ∧ pos w.card fd = some p

theorem Wire.HasOpen.stands (hf : w.HasOpen pos me f) :
    ∃ p, w.StandsAt pos me f p ∧ (f.posValid = true → f.pos.toNat = p) := by
  obtain ⟨s, fd, p, hholds, hfile, hpos, hvalid⟩ := hf
  exact ⟨p, ⟨s, fd, hholds, hfile, hpos⟩, hvalid⟩

theorem Wire.StandsAt.hasOpen {f' : TnfsFile} {p : ℕ} (hf : w.StandsAt pos me f p)
    (hconn : f'.conn = f.conn) (hseq : f'.seq = f.seq) (hfd : f'.fd = f.fd)
    (hvalid : f'.posValid = true → f'.pos.toNat = p) : w.HasOpen pos me f' := by
  obtain ⟨s, fd, hholds, hfile, hpos⟩ := hf
  exact ⟨s, fd, p, hholds.same hconn hseq, by rw [hfd, hfile], hpos, hvalid⟩

/-- An LSEEK that is answered with OK. -/
theorem lseek_command (hk : Keeps world abs content pos) {whence : UInt8} {wh : Whence}
    (hwhence : whenceOf whence = some wh) {off : UInt32} {p : ℕ} (hf : w.StandsAt pos me f p)
    {r : Wire σ × TnfsFile × Except EspErr Bytes} {m : Bytes}
    (hr : r = run (wired world clock fate me) w (tnfsCommand f tnfsLseek (seekPayload f.fd whence off)))
    (hm : r.2.2 = .ok m) (hok : replyStatus m = tnfsOk) :
    ∃ q, m = tnfsHeader f.conn f.seq tnfsLseek ++ [tnfsOk] ++ le32 q ∧ q < 2 ^ 32 ∧
      (wh = .set → (q : ℤ) = int32 off.toNat) ∧
      (wh = .fromEnd → (q : ℤ) = content.length + int32 off.toNat) ∧ r.2.1 = { f with seq := f.seq + 1 } ∧
      r.1.StandsAt pos me r.2.1 q := by
  obtain ⟨s, fd, hholds, hfile, hpos⟩ := hf
  have hrun : run world w.card (handle s tnfsLseek (seekPayload f.fd whence off)) = _ :=
    run_hLseek hfile hwhence off
  have hlen : tnfsHdrLen + (seekPayload f.fd whence off).length ≤ tnfsMsgCap := by
    simp [seekPayload, le32, tnfsHdrLen, tnfsMsgCap, tnfsIoChunk]
  cases hans : (world w.card (.lseek fd (int32 off.toNat) wh)).2 with
  | error e =>
    rw [hans] at hrun
    obtain ⟨hreply, -⟩ := hholds.command_same (by decide) (by decide) hlen hrun
      (by simp [tnfsMsgCap, tnfsHdrLen, tnfsIoChunk]) hr hm
    rw [hreply] at hok
    exact absurd hok (errnoToTnfs_ne_ok e)
  | ok q =>
    rw [hans] at hrun
    obtain ⟨hreply, hcard, hfile', s', hholds', hfiles⟩ :=
      hholds.command_same (by decide) (by decide) hlen hrun
      (by simp [le32, tnfsMsgCap, tnfsHdrLen, tnfsIoChunk]) hr hm
    obtain ⟨hlt, hpos', hset, hend⟩ := hk.lseek _ _ _ _ _ _ hpos hans
    refine ⟨q, ?_, hlt, hset, hend, hfile', s', fd, hholds', ?_, ?_⟩
    · rw [hreply, List.append_assoc]
    · rw [file_congr hfiles, hfile', hfile]
    · rw [hcard, hpos']

theorem int32_nonneg {n q : ℕ} (hn : n < 2 ^ 32) (h : (q : ℤ) = int32 n) : q = n := by
  unfold int32 at h
  split at h <;> omega

/-- `tnfs_seek`, when it succeeds. -/
theorem tnfsSeek_run (hk : Keeps world abs content pos) {off : UInt32} (hf : w.HasOpen pos me f)
    {r : Wire σ × TnfsFile × Except EspErr Unit}
    (hr : r = run (wired world clock fate me) w (tnfsSeek f off)) (hok : r.2.2 = .ok ()) :
    r.1.StandsAt pos me r.2.1 off.toNat ∧ r.2.1.posValid = true ∧ r.2.1.pos = off ∧ r.2.1.size = f.size := by
  obtain ⟨p, hstands, hvalid⟩ := hf.stands
  unfold tnfsSeek at hr
  split at hr
  · next hthere =>
    obtain ⟨hpv, hpos⟩ := Bool.and_eq_true_iff.mp hthere
    have hoff : f.pos = off := eq_of_beq hpos
    rw [hr]
    refine ⟨?_, hpv, hoff, rfl⟩
    rw [← hoff, hvalid hpv]
    exact hstands
  · rw [run_bind] at hr
    generalize hq : run (wired world clock fate me) w
      (tnfsCommand f tnfsLseek (seekPayload f.fd tnfsSeekSet off)) = q at hr
    obtain ⟨w', f', e | m⟩ := q
    · rw [hr] at hok
      cases hok
    · dsimp only at hr
      split at hr
      · rw [hr] at hok
        cases hok
      · next hst =>
        obtain ⟨q, -, -, hset, -, hfile, hstands'⟩ :=
          lseek_command hk (rfl : whenceOf tnfsSeekSet = some .set) hstands hq.symm rfl (not_not.mp hst)
        have hq : q = off.toNat := int32_nonneg off.toNat_lt (hset rfl)
        dsimp only at hfile hstands'
        rw [hr]
        refine ⟨?_, rfl, rfl, by rw [hfile]; rfl⟩
        obtain ⟨s, fd, hholds, hfd, hpos⟩ := hstands'
        exact ⟨s, fd, hholds.same rfl rfl, hfd, hq ▸ hpos⟩

/-- `tnfs_query_size`, when it succeeds, finds the length of the file. -/
theorem tnfsQuerySize_run (hk : Keeps world abs content pos) {p : ℕ} (hstands : w.StandsAt pos me f p)
    {r : Wire σ × TnfsFile × Except EspErr Unit}
    (hr : r = run (wired world clock fate me) w (tnfsQuerySize f)) (hok : r.2.2 = .ok ()) :
    r.1.HasOpen pos me r.2.1 ∧ r.2.1.size.toNat = content.length := by
  rw [tnfsQuerySize, run_bind] at hr
  generalize hq : run (wired world clock fate me) w
    (tnfsCommand f tnfsLseek (seekPayload f.fd tnfsSeekEnd 0)) = q at hr
  obtain ⟨w', f', e | m⟩ := q
  · rw [hr] at hok
    cases hok
  · dsimp only at hr
    split at hr
    · rw [hr] at hok
      cases hok
    · next hst =>
      obtain ⟨n, hm, hlt, -, hend, hfile, hstands'⟩ :=
        lseek_command hk (rfl : whenceOf tnfsSeekEnd = some .fromEnd) hstands hq.symm rfl
          (not_not.mp (not_or.mp hst).1)
      have hn : n = content.length := by
        have h0 := hend rfl
        rw [show int32 (0 : UInt32).toNat = 0 from rfl, add_zero] at h0
        exact Int.ofNat_inj.mp h0
      have hd : dword m (tnfsStatusOff + 1) = n := by
        have hd := dword_le32 (tnfsHeader f.conn f.seq tnfsLseek ++ [tnfsOk]) [] n hlt
        rw [List.append_nil, ← hm] at hd
        exact hd
      rw [hr]
      refine ⟨hstands'.hasOpen rfl rfl rfl (by rintro ⟨⟩), ?_⟩
      change (UInt32.ofNat (dword m (tnfsStatusOff + 1))).toNat = _
      rw [hd, UInt32.toNat_ofNat', Nat.mod_eq_of_lt hlt, hn]

/-- A READ whose reply `tnfs_read_at` takes. -/
theorem read_command (hk : Keeps world abs content pos) {want p : ℕ} (hpos : 0 < want)
    (hwant : want ≤ tnfsIoChunk) (hf : w.StandsAt pos me f p)
    {r : Wire σ × TnfsFile × Except EspErr Bytes} {m bs : Bytes}
    (hr : r = run (wired world clock fate me) w (tnfsCommand f tnfsRead (readPayload f.fd want)))
    (hm : r.2.2 = .ok m) (hbs : readReply want m = some bs) :
    bs <+: content.drop p ∧ 0 < bs.length ∧ bs.length ≤ want ∧ r.2.1 = { f with seq := f.seq + 1 } ∧
      r.1.StandsAt pos me r.2.1 (p + bs.length) := by
  obtain ⟨s, fd, hholds, hfile, hat⟩ := hf
  have hchunk : tnfsIoChunk = 1024 := rfl
  have hrun : run world w.card (handle s tnfsRead (readPayload f.fd want)) = _ := run_hRead hfile hwant
  have hlen : tnfsHdrLen + (readPayload f.fd want).length ≤ tnfsMsgCap := by
    simp [readPayload, le16, tnfsHdrLen, tnfsMsgCap, tnfsIoChunk]
  have bare : ∀ st : UInt8, m = tnfsHeader f.conn f.seq tnfsRead ++ [st] → False := by
    rintro st rfl
    rw [readReply, if_pos (.inr (show _ < tnfsStatusOff +
      3 by simp [tnfsHeader, le16, tnfsStatusOff]))] at hbs
    cases hbs
  cases hans : (world w.card (.read fd want)).2 with
  | error e =>
    rw [hans] at hrun
    obtain ⟨hreply, -⟩ := hholds.command_same (by decide) (by decide) hlen hrun
      (by simp [tnfsMsgCap, tnfsHdrLen, tnfsIoChunk]) hr hm
    exact (bare _ hreply).elim
  | ok d =>
    obtain ⟨hnext, hle, hpos'⟩ := hk.read _ _ _ _ _ hat hans
    rw [hans] at hrun
    dsimp only at hrun
    split at hrun
    · obtain ⟨hreply, -⟩ := hholds.command_same (by decide) (by decide) hlen hrun
        (by simp [tnfsMsgCap, tnfsHdrLen, tnfsIoChunk]) hr hm
      exact (bare _ hreply).elim
    · next hsome =>
      have hbody : ([tnfsOk] ++ le16 d.length ++ d).length ≤ tnfsMsgCap - tnfsHdrLen := by
        have hcap : tnfsMsgCap - tnfsHdrLen = 1028 := rfl
        simp only [List.length_append, List.length_singleton, length_le16]
        omega
      obtain ⟨hreply, hcard, hfile', s', hholds', hfiles⟩ :=
        hholds.command_same (by decide) (by decide) hlen hrun hbody hr hm
      have hdpos : 0 < d.length := by omega
      have hread : readReply want m = some d := by
        rw [hreply]
        exact Reply.read_data (by omega) want hdpos hle
      obtain rfl : d = bs := Option.some.inj (hread.symm.trans hbs)
      refine ⟨hnext, hdpos, hle, hfile', s', fd, hholds', ?_, ?_⟩
      · rw [file_congr hfiles, hfile', hfile]
      · rw [hcard, hpos']

/-- What comes next of what comes next. -/
theorem drop_append_next {bs cs : Bytes} {n : ℕ} (h : bs <+: content.drop n)
    (h' : cs <+: content.drop (n + bs.length)) :
    bs ++ cs <+: content.drop n := by
  obtain ⟨t, ht⟩ := h
  have hdrop : content.drop (n + bs.length) = t := by
    rw [← List.drop_drop, ← ht, List.drop_left']
    rfl
  rw [hdrop] at h'
  obtain ⟨u, hu⟩ := h'
  exact ⟨u, by rw [← ht, ← hu, List.append_assoc]⟩

/-- The loop of `tnfs_read_at`, when it succeeds. -/
theorem readLoop_run (hk : Keeps world abs content pos) (rounds : ℕ) {off : UInt32} {dst : Bytes}
    {len : ℕ} (hf : w.HasOpen pos me f) (hrounds : len ≤ rounds) (hin : off.toNat + len < 2 ^ 32)
    {r : Wire σ × TnfsFile × Except EspErr Bytes} {data : Bytes}
    (hr : r = run (wired world clock fate me) w (readLoop f off dst len rounds)) (hok : r.2.2 = .ok data) :
    ∃ bs, data = dst ++ bs ∧ bs.length = len ∧ bs <+: content.drop off.toNat ∧ r.1.HasOpen pos me r.2.1 := by
  induction rounds generalizing w f off dst len with
  | zero =>
    rw [hr] at hok ⊢
    obtain rfl : dst = data := Except.ok.inj hok
    exact ⟨[], by simp, by simp; omega, List.nil_prefix, hf⟩
  | succ rounds ih =>
    unfold readLoop at hr
    split at hr
    · next hzero =>
      rw [hr] at hok ⊢
      obtain rfl : dst = data := Except.ok.inj hok
      exact ⟨[], by simp, by simp [hzero], List.nil_prefix, hf⟩
    · next hmore =>
      rw [run_bind] at hr
      generalize hq : run (wired world clock fate me) w (tnfsSeek f off) = q at hr
      obtain ⟨w', f', e | _⟩ := q
      · rw [hr] at hok
        cases hok
      · obtain ⟨hstands, hvalid, hpos, -⟩ := tnfsSeek_run hk hf hq.symm rfl
        dsimp only at hr hstands hvalid hpos
        rw [run_bind] at hr
        generalize hc : run (wired world clock fate me) w'
          (tnfsCommand f' tnfsRead (readPayload f'.fd (min len tnfsIoChunk))) = c₁ at hr
        obtain ⟨w₂, f₂, e | m⟩ := c₁
        · rw [hr] at hok
          cases hok
        · dsimp only at hr
          cases hread : readReply (min len tnfsIoChunk) m with
          | none =>
            rw [hread] at hr
            rw [hr] at hok
            cases hok
          | some bs =>
            rw [hread] at hr
            have hchunk : tnfsIoChunk = 1024 := rfl
            obtain ⟨hnext, hbpos, hble, hfile, hstands'⟩ :=
              read_command hk (by omega) (min_le_right _ _) hstands hc.symm rfl hread
            dsimp only at hfile hstands'
            have hblen : bs.length ≤ len := hble.trans (min_le_left _ _)
            have hoff : (off + UInt32.ofNat bs.length).toNat = off.toNat + bs.length := by
              rw [UInt32.toNat_add, UInt32.toNat_ofNat', Nat.mod_eq_of_lt
                (by omega : bs.length < 2 ^ 32), Nat.mod_eq_of_lt (by omega)]
            have hopen : w₂.HasOpen pos me (f₂.advance bs.length) := by
              refine hstands'.hasOpen rfl rfl rfl fun _ => ?_
              have hp : f₂.pos = off := by rw [hfile]; exact hpos
              change (f₂.pos + UInt32.ofNat bs.length).toNat = _
              rw [hp, hoff]
            obtain ⟨cs, hdata, hclen, hcs, hopen'⟩ := ih hopen (by omega) (by rw [hoff]; omega) hr
            rw [hoff] at hcs
            refine ⟨bs ++ cs, by rw [hdata, List.append_assoc], ?_, drop_append_next hnext hcs, hopen'⟩
            rw [List.length_append]
            omega

/-- `tnfs_read_at`, when it succeeds, gives what the file has there. -/
theorem tnfsReadAt_run (hk : Keeps world abs content pos) {off : UInt32} {len : ℕ} (hf : w.HasOpen pos me f)
    (hin : off.toNat + len < 2 ^ 32) {r : Wire σ × TnfsFile × Except EspErr Bytes} {data : Bytes}
    (hr : r = run (wired world clock fate me) w (tnfsReadAt f off len)) (hok : r.2.2 = .ok data) :
    data.length = len ∧ data <+: content.drop off.toNat ∧ r.1.HasOpen pos me r.2.1 := by
  obtain ⟨bs, hdata, hlen, hnext, hopen⟩ := readLoop_run hk len hf le_rfl hin hr hok
  rw [List.nil_append] at hdata
  subst hdata
  exact ⟨hlen, hnext, hopen⟩

/-! ### Opening -/

variable {path : CStr}

/-- What the server makes of an OPEN: it is refused, or the guarded open takes a free slot. -/
theorem run_hOpen {flags : ℕ} (hpath : IsCString path) (hroot : s.root = [])
    (hres : resolvePath .zero path = .ok abs) (hflags : flags < 65536) (card : σ) :
    (∃ st, st ≠ tnfsOk ∧ st ≠ tnfsEagain ∧
      (run world card (hOpen s (openPayload flags path))).2 = (s, [st])) ∨
      ∃ slot fd, slot < tnfsdMaxFiles ∧
        (run world card (openGuarded abs (openFlagsOf flags))).2 = some (.ok fd) ∧
        run world card (hOpen s (openPayload flags path)) =
          ((run world card (openGuarded abs (openFlagsOf flags))).1,
            { s with files := Function.update s.files slot (some fd) },
            [tnfsOk, UInt8.ofNat slot]) := by
  have hlong : ¬ (openPayload flags path).length < 5 := by
    simp only [openPayload, List.length_append, List.length_cons, length_le16]
    omega
  have harg : cstrArg ((openPayload flags path).drop 4) = some path := cstrArg_path hpath
  have hword : word (openPayload flags path) 0 = flags := by
    have hword := word_le16 [] (le16 0x01A4 ++ (CStr.bytes path ++ [0])) flags hflags
    simpa only [openPayload, List.nil_append, List.append_assoc, List.length_nil] using hword
  rw [hOpen, if_neg hlong, harg]
  dsimp only
  rw [resolvePath_root hroot, hres, hword]
  dsimp only
  cases hslot : firstSlot tnfsdMaxFiles fun i => (s.files i).isNone with
  | none => exact .inl ⟨tnfsEmfile, by decide, by decide, rfl⟩
  | some slot =>
    dsimp only
    rw [run_bind]
    generalize run world card (openGuarded abs (openFlagsOf flags)) = q
    match q with
    | (_, none) => exact .inl ⟨tnfsEbusy, by decide, by decide, rfl⟩
    | (_, some (.error e)) => exact .inl ⟨errnoToTnfs e, errnoToTnfs_ne_ok e, by cases e <;> decide, rfl⟩
    | (_, some (.ok fd)) => exact .inr ⟨slot, fd, (firstSlot_some hslot).1, rfl, rfl⟩

/-- How the server takes an OPEN: it refuses it, or the new descriptor stands at the front of the file. -/
def OpensAt (world : σ → (c : SysCall) → σ × c.Answer) (pos : σ → ℕ → Option ℕ) (flags : ℕ)
    (path : CStr) : Prop :=
  ∀ (s : Session) (card : σ), s.root = [] →
    (∃ st, st ≠ tnfsOk ∧ st ≠ tnfsEagain ∧
      (run world card (hOpen s (openPayload flags path))).2 = (s, [st])) ∨
      ∃ slot fd card', slot < tnfsdMaxFiles ∧ pos card' fd = some 0 ∧
        run world card (hOpen s (openPayload flags path)) =
        (card', { s with files := Function.update s.files slot (some fd) }, [tnfsOk, UInt8.ofNat slot])

theorem opensAt_rdonly (hpath : IsCString path) (hres : resolvePath .zero path = .ok abs)
    (hk : Keeps world abs content pos) :
    OpensAt world pos tnfsORdonly path := by
  intro s card hroot
  refine (run_hOpen hpath hroot hres (by decide) card).imp_right ?_
  rintro ⟨slot, fd, hslot, hans, hrun⟩
  have hflags : openFlagsOf tnfsORdonly = rdonlyFlags := by decide
  refine ⟨slot, fd, _, hslot, ?_, hrun⟩
  rw [hflags, openGuarded, if_neg (by decide)] at hans ⊢
  simp only [sysOpen, run_bind, run_ask, run_pure] at hans ⊢
  exact hk.openAt _ _ (Option.some.inj hans)

/-- `tnfs_open` up to the size, when it succeeds. -/
theorem tnfsOpenFile_run {flags : ℕ} (hopens : OpensAt world pos flags path) (hw : w.Gone)
    {r : Wire σ × TnfsFile × Except EspErr Unit}
    (hr : r = run (wired world clock fate me) w (tnfsOpenFile flags path)) (hok : r.2.2 = .ok ()) :
    r.1.StandsAt pos me r.2.1 0 := by
  have fails : ∀ {w' : Wire σ} {f' : TnfsFile} {e : EspErr} {P : Prop},
    r = run (wired world clock fate me) w' (failOpen f' e) → P := by
    intro w' f' e P hfail
    rw [hfail, failOpen, run_bind, run_pure] at hok
    cases hok
  rw [tnfsOpenFile, run_bind] at hr
  generalize hq : run (wired world clock fate me) w (tnfsMountRoot ⟨0, 0, 0, 0, 0, false⟩) = q at hr
  obtain ⟨w', f', e | _⟩ := q
  · rw [hr] at hok
    cases hok
  · obtain ⟨s, hholds, -⟩ := (tnfsMountRoot_run hw hq.symm).1 rfl
    dsimp only at hr hholds
    split at hr
    · exact fails hr
    · next hshort =>
      rw [run_bind] at hr
      generalize hc : run (wired world clock fate me) w'
        (tnfsCommand f' tnfsOpen (openPayload flags path)) = c₁ at hr
      have hlen : tnfsHdrLen + (openPayload flags path).length ≤ tnfsMsgCap := by
        have hcap : tnfsMsgCap = 1032 ∧ tnfsHdrLen = 4 := ⟨rfl, rfl⟩
        simp only [openPayload, List.length_append, List.length_cons, List.length_nil,
          length_le16, FdcSds.length_bytes]
        omega
      have hcommand := (hholds.command (by decide) (by decide) hlen hc.symm).1
      obtain ⟨w₂, f₂, e | m⟩ := c₁
      · exact fails hr
      · obtain ⟨s', hreply, hholds', hfiles, -, hcard⟩ := hcommand m rfl
        dsimp only at hr hholds'
        cases hh : handleReply m with
        | none =>
          rw [hh] at hr
          exact fails hr
        | some h =>
          rw [hh] at hr
          obtain ⟨h0, h1⟩ := (handleReply_cases hreply).1 h hh
          have hhandle : ∀ pl, handle s tnfsOpen pl = hOpen s pl := fun _ => rfl
          rw [hhandle] at h0 h1 hfiles hcard
          rcases hopens s w'.card hholds.root with ⟨st, hst, -, hbody⟩ | ⟨slot, fd, card', hslot, hpos, hrun⟩
          · rw [hbody] at h0
            exact absurd h0 hst
          · have hnat : (UInt8.ofNat slot).toNat = slot := by
              have hmax : tnfsdMaxFiles = 4 := rfl
              simp only [UInt8.toNat_ofNat']
              omega
            rw [hrun] at h1 hfiles hcard
            obtain rfl : UInt8.ofNat slot = h := h1
            rw [hr]
            refine ⟨s', fd, hholds'.same rfl rfl, ?_, ?_⟩
            · change s'.file (UInt8.ofNat slot) = some fd
              rw [Session.file, hnat, if_pos hslot, hfiles]
              exact Function.update_self ..
            · change pos w₂.card fd = some 0
              rw [hcard]
              exact hpos

/-- The question for the size of the open file will be answered. -/
def Wire.SizeAnswered (world : σ → (c : SysCall) → σ × c.Answer) (clock : ℕ → ℕ) (fate : ℕ → Fate)
    (me : Peer) (w : Wire σ) (f : TnfsFile) : Prop :=
  ∃ s fd, w.Holds me f s ∧ s.file f.fd = some fd ∧ (∃ n, (world w.card (.lseek fd 0 .fromEnd)).2 = .ok n) ∧
    answeredIn clock fate tnfsRetries w.sent s.lastActiveUs = true

/-- `tnfs_query_size` succeeds when it is answered. -/
theorem tnfsQuerySize_answered {p : ℕ} (hf : w.StandsAt pos me f p) :
    (run (wired world clock fate me) w (tnfsQuerySize f)).2.2 = .ok () ↔
      w.SizeAnswered world clock fate me f := by
  have hlen : tnfsHdrLen + (seekPayload f.fd tnfsSeekEnd 0).length ≤ tnfsMsgCap := by
    simp [seekPayload, le32, tnfsHdrLen, tnfsMsgCap, tnfsIoChunk]
  obtain ⟨s, fd, hholds, hfile, hpos⟩ := hf
  have hrun : run world w.card (handle s tnfsLseek (seekPayload f.fd tnfsSeekEnd 0)) = _ :=
    run_hLseek hfile rfl 0
  have hzero : int32 (0 : UInt32).toNat = 0 := rfl
  rw [hzero] at hrun
  rw [tnfsQuerySize, run_bind]
  generalize hq : run (wired world clock fate me) w
    (tnfsCommand f tnfsLseek (seekPayload f.fd tnfsSeekEnd 0)) = q
  cases hans : (world w.card (.lseek fd 0 .fromEnd)).2 with
  | error e =>
    rw [hans] at hrun
    refine iff_of_false ?_ ?_
    · obtain ⟨w', f', e' | m⟩ := q
      · rintro ⟨⟩
      · obtain ⟨hreply, -⟩ :=
          hholds.command_same (by decide) (by decide) hlen hrun
            (by simp [tnfsMsgCap, tnfsHdrLen, tnfsIoChunk]) hq.symm rfl
        have hst : replyStatus m ≠ tnfsOk := by
          rw [hreply]
          exact errnoToTnfs_ne_ok e
        dsimp only
        rw [if_pos (.inl hst)]
        rintro ⟨⟩
    · rintro ⟨s', fd', hholds', hfile', ⟨n, hn⟩, -⟩
      obtain rfl : s' = s := hholds'.slot.symm.trans hholds.slot
      obtain rfl : fd' = fd := Option.some.inj (hfile'.symm.trans hfile)
      rw [hans] at hn
      cases hn
  | ok n =>
    rw [hans] at hrun
    dsimp only at hrun
    have hagain : replyStatus (ranReply world f tnfsLseek (seekPayload f.fd tnfsSeekEnd 0) w.card s) ≠
      tnfsEagain := by
      rw [ranReply, hrun]
      exact (by decide : tnfsOk ≠ tnfsEagain)
    have hanswered := @Wire.Holds.answered _ world clock fate me _ _ _ tnfsLseek _ hholds (by decide)
      (by decide) hlen hagain
    rw [hq] at hanswered
    constructor
    · intro hok
      refine ⟨s, fd, hholds, hfile, ⟨n, hans⟩, hanswered.mp ?_⟩
      obtain ⟨w', f', e | m⟩ := q
      · cases hok
      · exact ⟨m, rfl⟩
    · rintro ⟨s', fd', hholds', -, -, hin⟩
      obtain rfl : s' = s := hholds'.slot.symm.trans hholds.slot
      obtain ⟨m, hm⟩ := hanswered.mpr hin
      obtain ⟨w', f', e | m⟩ := q
      · cases hm
      · obtain ⟨hreply, -⟩ := hholds.command_same (by decide) (by decide) hlen hrun
          (by simp [le32, tnfsMsgCap, tnfsHdrLen, tnfsIoChunk]) hq.symm rfl
        have hst : replyStatus m = tnfsOk := by
          rw [hreply]
          rfl
        have hlong : ¬ m.length < tnfsStatusOff + 5 := by
          rw [hreply]
          simp [tnfsHeader, le16, le32, tnfsStatusOff]
        dsimp only
        rw [if_neg (not_or.mpr ⟨not_not.mpr hst, hlong⟩)]
        rfl

/-- A question for the size that is not answered leaves it as it was. -/
theorem tnfsQuerySize_size (hfail : (run (wired world clock fate me) w (tnfsQuerySize f)).2.2 ≠ .ok ()) :
    (run (wired world clock fate me) w (tnfsQuerySize f)).2.1.size = f.size := by
  have hsize : (run (wired world clock fate me) w
    (tnfsCommand f tnfsLseek (seekPayload f.fd tnfsSeekEnd 0))).2.1.size = f.size := by
    rw [tnfsCommand]
    split
    · rfl
    · rw [run_bind]
      split <;> rfl
  rw [tnfsQuerySize, run_bind] at hfail ⊢
  generalize run (wired world clock fate me) w
    (tnfsCommand f tnfsLseek (seekPayload f.fd tnfsSeekEnd 0)) = q at hsize hfail ⊢
  obtain ⟨w', f', e | m⟩ := q
  · exact hsize
  · dsimp only at hfail ⊢
    split
    · exact hsize
    · next hgood =>
      rw [if_neg hgood] at hfail
      exact absurd rfl hfail

/-- `tnfs_open` of a file that is there opens it at its length, or without a size when that is not
    answered. -/
theorem tnfsOpenMode_run {writable : Bool}
    (hopens : OpensAt world pos (openModeFlags writable false) path) (hk : Keeps world abs content pos)
    (hw : w.Gone) {opened : Wire σ × TnfsFile × Except EspErr Unit}
    (hopened : opened = run (wired world clock fate me) w
      (tnfsOpenFile (openModeFlags writable false) path)) {r : Wire σ × Except EspErr TnfsFile}
    (hr : r = run (wired world clock fate me) w (tnfsOpenPath path writable false)) :
    (opened.2.2 ≠ .ok () ∧ ∃ e, r.2 = .error e) ∨
      opened.2.2 = .ok () ∧ ∃ f', r.2 = .ok f' ∧
        (opened.1.SizeAnswered world clock fate me opened.2.1 → r.1.HasOpen pos me f' ∧
          f'.size.toNat = content.length) ∧
        (¬ opened.1.SizeAnswered world clock fate me opened.2.1 → f'.size = 0) := by
  have hstands := tnfsOpenFile_run hopens hw hopened
  rw [tnfsOpenPath, run_bind, ← hopened] at hr
  obtain ⟨w', f', e | _⟩ := opened
  · exact .inl ⟨(by rintro ⟨⟩), e, by rw [hr]; rfl⟩
  · obtain ⟨s, fd, hholds, hfile, hpos⟩ := hstands rfl
    have hstands' : w'.StandsAt pos me { f' with size := 0 } 0 := ⟨s, fd, hholds.same rfl rfl, hfile, hpos⟩
    have hsame : w'.SizeAnswered world clock fate me { f' with size := 0 } ↔
      w'.SizeAnswered world clock fate me f' := by
      constructor <;> rintro ⟨s', fd', hholds', h⟩ <;> exact ⟨s', fd', hholds'.same rfl rfl, h⟩
    have hanswered := (@tnfsQuerySize_answered _ world clock fate _ _ _ _ _ hstands').trans hsame
    dsimp only at hr
    rw [run_bind] at hr
    rw [tnfsOpened, if_neg (by decide), run_bind] at hr
    generalize hq : run (wired world clock fate me) w' (tnfsQuerySize { f' with size := 0 }) =
      q at hr hanswered
    obtain ⟨w₂, f₂, o⟩ := q
    refine .inr ⟨rfl, f₂.forget, by rw [hr]; rfl, fun h => ?_, fun h => ?_⟩
    · obtain ⟨hopen, hsize⟩ := tnfsQuerySize_run hk hstands' hq.symm (hanswered.mpr h)
      rw [hr]
      exact ⟨hopen.forget, hsize⟩
    · have hsize := tnfsQuerySize_size (by rw [hq]; exact fun hok => h (hanswered.mp hok))
      rw [hq] at hsize
      exact hsize

/-- To read. -/
theorem tnfsOpenPath_run (hpath : IsCString path) (hres : resolvePath .zero path = .ok abs)
    (hk : Keeps world abs content pos) (hw : w.Gone) {opened : Wire σ × TnfsFile × Except EspErr Unit}
    (hopened : opened = run (wired world clock fate me) w (tnfsOpenFile tnfsORdonly path))
    {r : Wire σ × Except EspErr TnfsFile}
    (hr : r = run (wired world clock fate me) w (tnfsOpenPath path false false)) :
    (opened.2.2 ≠ .ok () ∧ ∃ e, r.2 = .error e) ∨
      opened.2.2 = .ok () ∧ ∃ f', r.2 = .ok f' ∧
        (opened.1.SizeAnswered world clock fate me opened.2.1 → r.1.HasOpen pos me f' ∧
          f'.size.toNat = content.length) ∧
        (¬ opened.1.SizeAnswered world clock fate me opened.2.1 → f'.size = 0) := by
  have hflags : openModeFlags false false = tnfsORdonly := rfl
  have hopens := opensAt_rdonly hpath hres hk
  rw [← hflags] at hopens hopened
  exact tnfsOpenMode_run hopens hk hw hopened hr

/-- Where a seek in a file leads. -/
def seekTarget (content : Bytes) (p : ℕ) (off : ℤ) : Whence → ℤ
  | .set => off
  | .cur => p + off
  | .fromEnd => content.length + off

/-- A card with one file, which is open, and where it stands. -/
def oneFile (content : Bytes) (p : ℕ) : (c : SysCall) → ℕ × c.Answer
  | .open _ _ => (0, .ok 0)
  | .read _ n => (p + ((content.drop p).take n).length, .ok ((content.drop p).take n))
  | .lseek _ off wh =>
    if 0 ≤ seekTarget content p off wh ∧ seekTarget content p off wh < 2 ^ 32 then
      ((seekTarget content p off wh).toNat, .ok (seekTarget content p off wh).toNat)
    else (p, .error .einval)
  | c => (p, (Daemon.numberedCard 0 c).2)

theorem oneFile_keeps (content : Bytes) (abs : CStr) :
    Keeps (oneFile content) abs content fun p _ => some p where
  openAt _ _ _ := rfl
  read := by
    rintro card fd n p bs ⟨⟩ hbs
    obtain rfl : (content.drop card).take n = bs := Except.ok.inj hbs
    exact ⟨List.take_prefix .., List.length_take_le .., rfl⟩
  lseek := by
    rintro card fd off wh p r ⟨⟩ hr
    unfold oneFile at hr ⊢
    dsimp only at hr ⊢
    by_cases hin : 0 ≤ seekTarget content card off wh ∧ seekTarget content card off wh < 2 ^ 32
    · rw [if_pos hin] at hr ⊢
      obtain rfl := Except.ok.inj hr
      refine ⟨by omega, rfl, ?_, ?_⟩ <;> rintro rfl <;> exact Int.toNat_of_nonneg hin.1
    · rw [if_neg hin] at hr
      cases hr

end Tnfsd

end FdcSds
