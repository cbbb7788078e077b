import FdcSds.Config.Batches
import FdcSds.Net.RemoteFile
import FdcSds.Schemes.Sums
import FdcSds.Sd.Stdio

/-! `copy <src> <dst>` (`cmd_copy`, `copy_open_dest`): a whole file, between the card and TNFS servers.

    The source is opened before the destination, and the destination is emptied when it is opened. A file
    of the card is read to its end; a remote one up to the size its server gave when it was opened.

        open src ─▶ open dst (empty) ─▶ read 512 ─▶ write ⟲ ─▶ close both ─▶ copied n bytes -/

namespace FdcSds
open Schemes Prog

/-! ### The command -/

/-- An end of a copy: a name on the card, or the path in a `tnfs://` URL. -/
inductive Endpoint where
  | sd (name : CStr)
  | url (path : CStr)

def Endpoint.remote : Endpoint → Bool
  | .sd _ => false
  | .url _ => true

/-- What the command prints when it fails. Otherwise it prints how many bytes it copied. -/
inductive CopyError where
  | offline
  | badName
  | inUse (drive : ℕ)
  | errno (e : Errno)
  | remote (e : EspErr)
  | readError
  | remoteReadError
  | writeError
  | remoteWriteError
  | closeError
  deriving DecidableEq

/-- The calls of a copy: on files of the card, on the source's socket and on the destination's. -/
abbrev Copy : Type → Type := Prog (StdioCall ⊕ (NetCall ⊕ NetCall))
    (Either StdioCall.Answer (Either NetCall.Answer NetCall.Answer))

def onCard {α : Type} (p : Prog StdioCall StdioCall.Answer α) : Copy α := p.inl
def onSource {α : Type} (p : Net α) : Copy α := p.inl.inr
def onDest {α : Type} (p : Net α) : Copy α := p.inr.inr

/-- `sin`, or `rin` and `total`. -/
inductive CopyIn where
  | sin
  | rin (f : TnfsFile) (total : UInt32)

/-- `sout` or `rout`. -/
inductive CopyOut where
  | sout
  | rout (f : TnfsFile)

def copyBuf : ℕ := 512

def openIn (sh : Shell) : Endpoint → Copy (Except CopyError CopyIn)
  | .url path => do
    match ← onSource (tnfsOpenPath path false false) with
    | .error e => pure (.error (.remote e))
    | .ok f => pure (.ok (.rin f f.size))
  | .sd name =>
    match sh.resolve name with
    | none => pure (.error .badName)
    | some path => do
      match ← onCard (.ask (StdioCall.fopen .sin path)) with
      | .error e => pure (.error (.errno e))
      | .ok () => pure (.ok .sin)

/-- `copy_open_dest`. -/
def copyOpenDest (sh : Shell) : Endpoint → Copy (Except CopyError CopyOut)
  | .url path => do
    match ← onDest (tnfsOpenPath path true true) with
    | .error e => pure (.error (.remote e))
    | .ok f => pure (.ok (.rout f))
  | .sd name =>
    match sh.resolve name with
    | none => pure (.error .badName)
    | some path => do
      match ← onCard (.ask (StdioCall.changeBegin path)) with
      | some drive => pure (.error (.inUse drive))
      | none => do
        let opened ← onCard (.ask (StdioCall.fopen .sout path))
        onCard (.ask StdioCall.changeEnd)
        match opened with
        | .error e => pure (.error (.errno e))
        | .ok () => pure (.ok .sout)

/-- The next bytes of the source, none at its end. -/
def copyRead (off : UInt32) : CopyIn → Copy (CopyIn × Except CopyError Bytes)
  | .rin f total =>
    if total ≤ off then pure (.rin f total, .ok [])
    else do
      match ← onSource (tnfsReadAt f off (min copyBuf (total - off).toNat)) with
      | (f, .error _) => pure (.rin f total, .error .remoteReadError)
      | (f, .ok bs) => pure (.rin f total, .ok bs)
  | .sin => do
    let bs ← onCard (.ask (StdioCall.fread copyBuf))
    if bs.length = 0 then do
      let bad ← onCard (.ask StdioCall.ferror)
      pure (.sin, if bad then .error .readError else .ok [])
    else pure (.sin, .ok bs)

def copyWrite (off : UInt32) (bs : Bytes) : CopyOut → Copy (CopyOut × Except CopyError Unit)
  | .rout f => do
    match ← onDest (tnfsWriteAt f off bs) with
    | (f, .error _) => pure (.rout f, .error .remoteWriteError)
    | (f, .ok ()) => pure (.rout f, .ok ())
  | .sout => do
    let put ← onCard (.ask (StdioCall.fwrite bs))
    pure (.sout, if put = bs.length then .ok () else .error .writeError)

/-- The loop of `cmd_copy`, up to so many rounds of it. -/
def copyLoop (src : CopyIn) (dst : CopyOut) (off : UInt32) :
    ℕ → Copy (Option (CopyIn × CopyOut × Except CopyError UInt32))
  | 0 => pure none
  | rounds + 1 => do
    match ← copyRead off src with
    | (src, .error e) => pure (some (src, dst, .error e))
    | (src, .ok []) => pure (some (src, dst, .ok off))
    | (src, .ok (b :: bs)) =>
      match ← copyWrite off (b :: bs) dst with
      | (dst, .error e) => pure (some (src, dst, .error e))
      | (dst, .ok ()) => copyLoop src dst (off + UInt32.ofNat (b :: bs).length) rounds

def closeIn : CopyIn → Copy Unit
  | .rin f _ => onSource (tnfsCloseFile f)
  | .sin => do
    let _ ← onCard (.ask (StdioCall.fclose .sin))
    pure ()

/-- Whether nothing was lost at the close. -/
def closeOut : CopyOut → Copy Bool
  | .rout f => do
    onDest (tnfsCloseFile f)
    pure true
  | .sout => onCard (.ask (StdioCall.fclose .sout))

/-- `cmd_copy`, of a source that is no web server, for so many rounds of its loop. -/
def cmdCopy (sh : Shell) (online : Bool) (src dst : Endpoint) (rounds : ℕ) :
    Copy (Option (Except CopyError UInt32)) :=
  if (src.remote || dst.remote) && !online then pure (some (.error .offline))
  else do
    match ← openIn sh src with
    | .error e => pure (some (.error e))
    | .ok i =>
      match ← copyOpenDest sh dst with
      | .error e => do
        closeIn i
        pure (some (.error e))
      | .ok o =>
        match ← copyLoop i o 0 rounds with
        | none => pure none
        | some (i, o, r) => do
          closeIn i
          let closed ← closeOut o
          match r with
          | .error e => pure (some (.error e))
          | .ok off => pure (some (if closed then .ok off else .error .closeError))

/-! ### What its parts do -/

namespace Stdio

variable {s : Stdio} {path : CStr}

/-- A source that opens. -/
theorem call_fopen_sin (h : (s.call (.fopen .sin path)).2 = .ok ()) :
    ∃ i, s.names path = .file i ∧ (s.call (.fopen .sin path)).1 =
      { s with
        time := s.time + 1
        source := i
        size := (s.data i).length
        cut := false
        pos := 0
        bad := false } := by
  unfold call at h ⊢
  dsimp only at h ⊢
  split at h
  · cases h
  · next hfair =>
    rw [if_neg hfair]
    split at h
    · cases h
    · cases h
    · next i hi => exact ⟨i, hi, rfl⟩

/-- A destination that opens is empty then, and known by its path. The other files stay, the source's too
    unless it is the same file. -/
theorem call_fopen_sout (h : (s.call (.fopen .sout path)).2 = .ok ()) :
    ∃ i s', (s.call (.fopen .sout path)).1 = s' ∧ s'.dest = i ∧ s'.names path = .file i ∧
      s'.data = Function.update s.data i [] ∧
      (s.names path = .file i ∨ s.names path = .absent ∧ i = none) ∧
        (∀ p, s.names p ≠ .absent → s'.names p = s.names p) ∧
      s'.source = s.source ∧ s'.size = s.size ∧ s'.pos = s.pos ∧ s'.bad = s.bad ∧
      s'.weather = s.weather ∧ (s'.cut = true ↔ s.cut = true ∨ s.names path = .file s.source) := by
  unfold call at h ⊢
  dsimp only at h ⊢
  split at h
  · cases h
  · next hfair =>
    rw [if_neg hfair]
    split at h
    · next hno =>
      refine ⟨none, _, rfl, rfl, Function.update_self .., rfl, .inr ⟨hno, rfl⟩, ?_, rfl, rfl, rfl, rfl,
        rfl, by simp [hno, write]⟩
      intro p hp
      refine Function.update_of_ne ?_ ..
      rintro rfl
      exact hp hno
    · cases h
    · next i hi =>
      exact ⟨i, _, rfl, rfl, hi, rfl, .inl hi, fun _ _ => rfl, rfl, rfl, rfl, rfl, rfl, by simp [hi, write]⟩

/-- The files are the same in both, and the destination is. -/
structure Same (a b : Stdio) : Prop where
  names : b.names = a.names
  data : b.data = a.data
  dest : b.dest = a.dest
  weather : b.weather = a.weather

theorem Same.trans {a b c : Stdio} (h : Same a b) (h' : Same b c) : Same a c :=
  ⟨h'.names.trans h.names, h'.data.trans h.data, h'.dest.trans h.dest, h'.weather.trans h.weather⟩

theorem reads_front (s : Stdio) (n : ℕ) : s.reads n <+: s.left := List.take_prefix ..

/-- A read that does not fail gives something, unless nothing is left. -/
theorem reads_nil {n : ℕ} (hn : 0 < n) (hfair : (s.weather s.time).fails = false)
    (h : s.reads n = []) : s.left = [] := by
  rw [reads, hfair, List.take_eq_nil_iff] at h
  refine h.resolve_left ?_
  simp only [Bool.false_eq_true, if_false]
  omega

theorem puts_full {bs : Bytes} (h : (s.puts bs).length = bs.length) : s.puts bs = bs := by
  rw [puts] at h ⊢
  split
  · next hfails =>
    rw [if_pos hfails, List.length_take] at h
    exact List.take_of_length_le (by omega)
  · rfl

end Stdio

namespace Tnfsd

variable {σ τ : Type} {world : σ → (c : SysCall) → σ × c.Answer} {clock : ℕ → ℕ} {fate : ℕ → Fate} {me : Peer}
  {other : τ → (c : NetCall) → τ × c.Answer} {abs : CStr} {content : Bytes} {pos : σ → ℕ → Option ℕ}
  {s : Stdio × Wire σ × τ} {off : UInt32} {n : ℕ}

/-- The card, the source's server behind its network, and the destination's. -/
abbrev copyWorld (world : σ → (c : SysCall) → σ × c.Answer) (clock : ℕ → ℕ) (fate : ℕ → Fate) (me : Peer)
    (other : τ → (c : NetCall) → τ × c.Answer) :=
  both Stdio.call (both (wired world clock fate me) other)

@[simp] theorem run_onCard {α : Type} (p : Prog StdioCall StdioCall.Answer α) :
    run (copyWorld world clock fate me other) s (onCard p) =
      (((run Stdio.call s.1 p).1, s.2), (run Stdio.call s.1 p).2) :=
  run_inl s p

@[simp] theorem run_onSource {α : Type} (p : Net α) :
    run (copyWorld world clock fate me other) s (onSource p) =
      ((s.1, (run (wired world clock fate me) s.2.1 p).1, s.2.2),
        (run (wired world clock fate me) s.2.1 p).2) := by
  simp only [onSource, run_inr, run_inl]

/-- The source has given `n` bytes of `content`, and gives the rest: an open file of the card that is not
    the destination or was empty, or an open file of the server whose size is known, or one without bytes. -/
def Supplies (world : σ → (c : SysCall) → σ × c.Answer) (pos : σ → ℕ → Option ℕ) (me : Peer)
    (content : Bytes) (off : UInt32) (n : ℕ) (s : Stdio × Wire σ × τ) : CopyIn → Prop
  | .sin => (s.1.cut = false ∧ s.1.source ≠ s.1.dest ∧ s.1.data s.1.source = content ∧ s.1.pos = n) ∨
      (content = [] ∧ s.1.cut = true ∧ s.1.size = 0)
  | .rin f total =>
      ((∃ abs, Keeps world abs content pos) ∧ s.2.1.HasOpen pos me f ∧
        total.toNat = content.length ∧ off.toNat = n) ∨
      (content = [] ∧ total = 0)

/-- A round's read: it fails, or the source is at its end, or it gives what is next. -/
theorem copyRead_run {i : CopyIn} (hi : Supplies world pos me content off n s i)
    {r : (Stdio × Wire σ × τ) × CopyIn × Except CopyError Bytes}
    (hr : r = run (copyWorld world clock fate me other) s (copyRead off i)) :
    Stdio.Same s.1 r.1.1 ∧ ((∃ e, r.2.2 = .error e) ∨ (r.2.2 = .ok [] ∧ content.length ≤ n) ∨
      ∃ bs, bs ≠ [] ∧ r.2.2 = .ok bs ∧ bs <+: content.drop n ∧
        Supplies world pos me content (off + UInt32.ofNat bs.length) (n + bs.length) r.1 r.2.1) := by
  cases i with
  | rin f total =>
    rw [copyRead] at hr
    split at hr
    · next hend =>
      rw [hr]
      refine ⟨⟨rfl, rfl, rfl, rfl⟩, .inr (.inl ⟨rfl, ?_⟩)⟩
      rcases hi with ⟨-, -, htotal, hoff⟩ | ⟨rfl, -⟩
      · rw [← htotal, ← hoff]
        exact hend
      · exact Nat.zero_le _
    · next hmore =>
      obtain ⟨⟨abs, hk⟩, hopen, htotal, hoff⟩ := hi.resolve_right fun h => hmore (h.2 ▸ UInt32.zero_le)
      have hlt : off.toNat < total.toNat := UInt32.lt_iff_toNat_lt.mp (UInt32.not_le.mp hmore)
      have hleft : (total - off).toNat = total.toNat - off.toNat :=
        UInt32.toNat_sub_of_le _ _ (UInt32.le_of_lt (UInt32.not_le.mp hmore))
      have hbuf : copyBuf = 512 := rfl
      have hin : off.toNat + min copyBuf (total - off).toNat < 2 ^ 32 := by
        have hmax := total.toNat_lt
        omega
      rw [run_bind, run_onSource] at hr
      generalize hq : run (wired world clock fate me) s.2.1
        (tnfsReadAt f off (min copyBuf (total - off).toNat)) = q at hr
      obtain ⟨w', f', e | bs⟩ := q
      · rw [hr]
        exact ⟨⟨rfl, rfl, rfl, rfl⟩, .inl ⟨_, rfl⟩⟩
      · obtain ⟨hlen, hnext, hopen'⟩ := tnfsReadAt_run hk hopen hin hq.symm rfl
        have hoff' : (off + UInt32.ofNat bs.length).toNat = off.toNat + bs.length := by
          rw [UInt32.toNat_add, UInt32.toNat_ofNat', Nat.mod_eq_of_lt (by omega : bs.length < 2 ^ 32),
            Nat.mod_eq_of_lt (by omega)]
        rw [hr]
        refine ⟨⟨rfl, rfl, rfl, rfl⟩, .inr (.inr ⟨bs, ?_, rfl, hoff ▸ hnext,
          .inl ⟨⟨abs, hk⟩, hopen', htotal, by rw [hoff', hoff]⟩⟩)⟩
        rintro rfl
        simp only [List.length_nil] at hlen
        omega
  | sin =>
    have hread : Stdio.call s.1 (.fread copyBuf) =
      ({ s.1 with
          time := s.1.time + 1
          pos := s.1.pos + (s.1.reads copyBuf).length
          bad := s.1.bad || (s.1.weather s.1.time).fails }, s.1.reads copyBuf) := rfl
    rw [copyRead, run_bind, run_onCard, run_ask, hread] at hr
    dsimp only at hr
    split at hr
    · next hnone =>
      have hnil : s.1.reads copyBuf = [] := List.length_eq_zero_iff.mp hnone
      rw [run_bind, run_onCard, run_ask] at hr
      cases hbad : s.1.bad || (s.1.weather s.1.time).fails with
      | true =>
        rw [hr]
        exact ⟨⟨rfl, rfl, rfl, rfl⟩, .inl ⟨.readError, by simp [Stdio.call, hbad]⟩⟩
      | false =>
        have hleft : s.1.left = [] := Stdio.reads_nil (by decide) (Bool.or_eq_false_iff.mp hbad).2 hnil
        rw [hr]
        refine ⟨⟨rfl, rfl, rfl, rfl⟩, .inr (.inl ⟨by simp [Stdio.call, hbad], ?_⟩)⟩
        rcases hi with ⟨hcut, -, hdata, hpos⟩ | ⟨rfl, -⟩
        · rw [Stdio.left, hcut, hdata, hpos] at hleft
          exact List.drop_eq_nil_iff.mp hleft
        · exact Nat.zero_le _
    · next hsome =>
      rw [hr]
      rcases hi with ⟨hcut, hne, hdata, hpos⟩ | ⟨-, hcut, hsize⟩
      · refine ⟨⟨rfl, rfl, rfl, rfl⟩, .inr (.inr ⟨s.1.reads copyBuf, ?_, rfl, ?_,
          .inl ⟨hcut, hne, hdata, ?_⟩⟩)⟩
        · rintro hnil
          exact hsome (congrArg List.length hnil)
        · have hnext := s.1.reads_front copyBuf
          rwa [Stdio.left, hcut, hdata, hpos] at hnext
        · exact congrArg (· + (s.1.reads copyBuf).length) hpos
      · exact absurd (by simp [Stdio.reads, Stdio.left, hcut, hsize]) hsome

/-- A round's write, when it succeeds. -/
theorem copyWrite_run {bs : Bytes} {r : (Stdio × Wire σ × τ) × CopyOut × Except CopyError Unit}
    (hr : r = run (copyWorld world clock fate me other) s (copyWrite off bs .sout)) :
    r.2.1 = .sout ∧ r.1.2 = s.2 ∧
      (r.2.2 = .ok () → r.1.1 = ({ s.1 with time := s.1.time + 1 } : Stdio).write
        (s.1.data s.1.dest ++ bs)) := by
  rw [copyWrite, run_bind, run_onCard, run_ask] at hr
  rw [hr]
  refine ⟨rfl, rfl, fun hok => ?_⟩
  have hall : (s.1.puts bs).length = bs.length := by
    by_contra hshort
    exact absurd (hok.symm.trans (if_neg hshort)) (by rintro ⟨⟩)
  have hput : s.1.puts bs = bs := Stdio.puts_full hall
  change ({ s.1 with time := s.1.time + 1 } : Stdio).write (s.1.data s.1.dest ++ s.1.puts bs) = _
  rw [hput]

/-- The destination holds the first `n` bytes of `content`, and nothing else has changed since it was
    opened. -/
structure Filled (content : Bytes) (n : ℕ) (a b : Stdio) : Prop where
  names : b.names = a.names
  dest : b.dest = a.dest
  data : b.data = Function.update a.data a.dest (content.take n)

theorem Filled.next {a b c : Stdio} {bs : Bytes} (h : Filled content n a b)
    (hwrote : c = ({ b with time := b.time + 1 } : Stdio).write (b.data b.dest ++ bs))
    (hnext : bs <+: content.drop n) :
    Filled content (n + bs.length) a c := by
  have htake : content.take (n + bs.length) = content.take n ++ bs := by
    rw [List.take_add, ← List.prefix_iff_eq_take.mp hnext]
  rw [hwrote]
  refine ⟨h.names, h.dest, ?_⟩
  change Function.update b.data b.dest (b.data b.dest ++ bs) = _
  rw [h.data, h.dest, Function.update_self, Function.update_idem, htake]

/-- A write to the destination leaves the source as it was. -/
theorem Supplies.wrote {i : CopyIn} {s' : Stdio × Wire σ × τ} {bs : Bytes}
    (h : Supplies world pos me content off n s i)
    (hwrote : s'.1 = ({ s.1 with time := s.1.time + 1 } : Stdio).write bs) (hnet : s'.2 = s.2) :
    Supplies world pos me content off n s' i := by
  cases i with
  | rin f total =>
    rw [Supplies, hnet]
    exact h
  | sin =>
    rw [Supplies, hwrote]
    rcases h with ⟨hcut, hne, hdata, hpos⟩ | hempty
    · refine .inl ⟨hcut, hne, ?_, hpos⟩
      exact (Function.update_of_ne hne ..).trans hdata
    · exact .inr hempty

/-- The loop, when it succeeds, has copied everything. -/
theorem copyLoop_run (rounds : ℕ) {i : CopyIn} {a : Stdio}
    (hi : Supplies world pos me content off n s i) (hfilled : Filled content n a s.1)
    {r : (Stdio × Wire σ × τ) × Option (CopyIn × CopyOut × Except CopyError UInt32)}
    (hr : r = run (copyWorld world clock fate me other) s (copyLoop i .sout off rounds)) {i' : CopyIn}
    {o : CopyOut} {end_ : UInt32} (hok : r.2 = some (i', o, .ok end_)) :
    o = .sout ∧ Filled content content.length a r.1.1 := by
  induction rounds generalizing s i off n with
  | zero =>
    rw [hr] at hok
    cases hok
  | succ rounds ih =>
    rw [copyLoop, run_bind] at hr
    generalize hq : run (copyWorld world clock fate me other) s (copyRead off i) = q at hr
    obtain ⟨⟨hnames, hdata, hdest, -⟩, hread⟩ := copyRead_run hi hq.symm
    have hfilled' : Filled content n a q.1.1 :=
      ⟨hnames.trans hfilled.names, hdest.trans hfilled.dest, hdata.trans hfilled.data⟩
    obtain ⟨s', i₁, x⟩ := q
    rcases hread with ⟨e, rfl⟩ | ⟨rfl, hend⟩ | ⟨bs, hne, rfl, hnext, hi'⟩
    · rw [hr] at hok
      cases hok
    · rw [hr] at hok ⊢
      cases hok
      refine ⟨rfl, hfilled'.names, hfilled'.dest, ?_⟩
      rw [List.take_length, ← List.take_of_length_le hend]
      exact hfilled'.data
    · obtain ⟨b, bs, rfl⟩ := List.exists_cons_of_ne_nil hne
      dsimp only at hr
      rw [run_bind] at hr
      generalize hw : run (copyWorld world clock fate me other) s' (copyWrite off (b :: bs) .sout) = q₂ at hr
      obtain ⟨hout, hnet, hwrote⟩ := copyWrite_run hw.symm
      obtain ⟨s₂, o₂, e | _⟩ := q₂
      · rw [hr] at hok
        cases hok
      · obtain rfl : o₂ = .sout := hout
        dsimp only at hr hwrote hnet
        exact ih (hi'.wrote (hwrote rfl) hnet) (hfilled'.next (hwrote rfl) hnext) hr

/-! ### Opening and closing -/

variable {sh : Shell} {src dst path : CStr}

theorem openIn_sd_run {r : (Stdio × Wire σ × τ) × Except CopyError CopyIn} {i : CopyIn}
    (hr : r = run (copyWorld world clock fate me other) s (openIn sh (.sd src))) (hok : r.2 = .ok i) :
    i = .sin ∧ ∃ p, sh.resolve src = some p ∧ (s.1.call (.fopen .sin p)).2 = .ok () ∧
      r.1 = ((s.1.call (.fopen .sin p)).1, s.2) := by
  rw [openIn] at hr
  split at hr
  · rw [hr] at hok
    cases hok
  · next p hp =>
    rw [run_bind, run_onCard, run_ask] at hr
    cases hans : (s.1.call (.fopen .sin p)).2 with
    | error e =>
      rw [hans] at hr
      rw [hr] at hok
      cases hok
    | ok u =>
      rw [hans] at hr
      rw [hr] at hok ⊢
      cases hok
      exact ⟨rfl, p, hp, hans, rfl⟩

/-- Nothing on the card changes when a destination is refused or does not open. -/
theorem copyOpenDest_run {r : (Stdio × Wire σ × τ) × Except CopyError CopyOut} {o : CopyOut}
    (hr : r = run (copyWorld world clock fate me other) s (copyOpenDest sh (.sd dst))) (hok : r.2 = .ok o) :
    o = .sout ∧ ∃ q, sh.resolve dst = some q ∧ s.1.guard q = none ∧ (s.1.call (.fopen .sout q)).2 = .ok () ∧
      r.1 = ((s.1.call (.fopen .sout q)).1, s.2) := by
  rw [copyOpenDest] at hr
  split at hr
  · rw [hr] at hok
    cases hok
  · next q hq =>
    rw [run_bind, run_onCard, run_ask] at hr
    cases hguard : s.1.guard q with
    | some drive =>
      have hcall : Stdio.call s.1 (.changeBegin q) = (s.1, some drive) := congrArg (Prod.mk s.1) hguard
      rw [hcall] at hr
      rw [hr] at hok
      cases hok
    | none =>
      have hcall : Stdio.call s.1 (.changeBegin q) = (s.1, none) := congrArg (Prod.mk s.1) hguard
      rw [hcall] at hr
      dsimp only at hr
      rw [run_bind, run_onCard, run_ask, run_bind, run_onCard, run_ask] at hr
      cases hans : (s.1.call (.fopen .sout q)).2 with
      | error e =>
        rw [hans] at hr
        rw [hr] at hok
        cases hok
      | ok u =>
        rw [hans] at hr
        rw [hr] at hok ⊢
        cases hok
        exact ⟨rfl, q, hq, hguard, hans, rfl⟩

theorem closeIn_run (i : CopyIn) :
    Stdio.Same s.1 (run (copyWorld world clock fate me other) s (closeIn i)).1.1 := by
  cases i with
  | rin f total =>
    rw [closeIn, run_onSource]
    exact ⟨rfl, rfl, rfl, rfl⟩
  | sin =>
    rw [closeIn, run_bind, run_onCard, run_ask]
    exact ⟨rfl, rfl, rfl, rfl⟩

theorem closeOut_run {r : (Stdio × Wire σ × τ) × Bool}
    (hr : r = run (copyWorld world clock fate me other) s (closeOut .sout)) (hok : r.2 = true) :
    Stdio.Same s.1 r.1.1 := by
  rw [closeOut, run_onCard, run_ask] at hr
  rw [hr] at hok ⊢
  unfold Stdio.call at hok ⊢
  dsimp only at hok ⊢
  split
  · next hfails =>
    rw [if_pos hfails] at hok
    cases hok
  · exact ⟨rfl, rfl, rfl, rfl⟩

/-- A copy to the card that succeeds opened both ends, and its loop succeeded. -/
theorem cmdCopy_run {online : Bool} {e : Endpoint} {rounds : ℕ}
    {r : (Stdio × Wire σ × τ) × Option (Except CopyError UInt32)} {k : UInt32}
    (hr : r = run (copyWorld world clock fate me other) s (cmdCopy sh online e (.sd dst) rounds))
    (hok : r.2 = some (.ok k)) :
    ∃ s₁ i q s₃ i' o end_, run (copyWorld world clock fate me other) s (openIn sh e) = (s₁, .ok i) ∧
      sh.resolve dst = some q ∧
      s₁.1.guard q = none ∧ (s₁.1.call (.fopen .sout q)).2 = .ok () ∧
      run (copyWorld world clock fate me other) ((s₁.1.call (.fopen .sout q)).1, s₁.2)
        (copyLoop i .sout 0 rounds) =
        (s₃, some (i', o, .ok end_)) ∧ (o = .sout → Stdio.Same s₃.1 r.1.1) := by
  rw [cmdCopy] at hr
  split at hr
  · rw [hr] at hok
    cases hok
  · rw [run_bind] at hr
    generalize run (copyWorld world clock fate me other) s (openIn sh e) = opened at hr ⊢
    obtain ⟨s₁, x | i⟩ := opened
    · rw [hr] at hok
      cases hok
    · dsimp only at hr
      rw [run_bind] at hr
      generalize hd : run (copyWorld world clock fate me other) s₁ (copyOpenDest sh (.sd dst)) = d at hr
      obtain ⟨s₂, x | o⟩ := d
      · dsimp only at hr
        rw [run_bind, run_pure] at hr
        rw [hr] at hok
        cases hok
      · obtain ⟨ho, q, hq, hguard, hans, hs⟩ := copyOpenDest_run hd.symm rfl
        dsimp only at hr ho hs
        subst ho hs
        rw [run_bind] at hr
        generalize hl : run (copyWorld world clock fate me other) ((s₁.1.call (.fopen .sout q)).1, s₁.2)
          (copyLoop i .sout 0 rounds) = l at hr
        obtain ⟨s₃, _ | ⟨i', o, x | end_⟩⟩ := l
        · rw [hr] at hok
          cases hok
        · dsimp only at hr
          rw [run_bind, run_bind, run_pure] at hr
          rw [hr] at hok
          cases hok
        · refine ⟨s₁, i, q, s₃, i', o, end_, rfl, hq, hguard, hans, hl, ?_⟩
          rintro rfl
          dsimp only at hr
          rw [run_bind] at hr
          have hclosed := @closeIn_run _ _ world clock fate me other s₃ i'
          generalize run (copyWorld world clock fate me other) s₃ (closeIn i') = s₄ at hr hclosed
          rw [run_bind] at hr
          generalize hout : run (copyWorld world clock fate me other) s₄.1 (closeOut .sout) = c₁ at hr
          obtain ⟨s₅, _ | _⟩ := c₁
          · rw [hr] at hok
            cases hok
          · rw [hr]
            exact hclosed.trans (closeOut_run hout.symm rfl)

/-! ### Whole copies -/

/-- A destination that can be opened. -/
def Opens (sh : Shell) (v : Volume) (guard : CStr → Option ℕ) (dst : CStr) : Prop :=
  ∃ q, sh.resolve dst = some q ∧ guard q = none ∧ Stdio.namesOf v q ≠ .folder

/-- Both names mean one file of the card, it has content, and nothing keeps it from being opened. -/
def Overwrites (sh : Shell) (v : Volume) (files : Loc → Bytes) (guard : CStr → Option ℕ)
    (src dst : CStr) : Prop :=
  ∃ p q l, sh.resolve src = some p ∧ sh.resolve dst = some q ∧ v.card.denotes p = some l ∧
    v.card.denotes q = some l ∧
    v.regular l = true ∧ files l ≠ [] ∧ guard q = none

/-- The destination has what the source had, and the source still has it. -/
def CopiedOver (sh : Shell) (src dst : CStr) (before after : Stdio) : Prop :=
  ∃ p q content, sh.resolve src = some p ∧ sh.resolve dst = some q ∧ before.contentOf p = some content ∧
    after.contentOf p = some content ∧ after.contentOf q = some content

/-- The destination has `content`. -/
def CopiedTo (sh : Shell) (dst : CStr) (content : Bytes) (after : Stdio) : Prop :=
  ∃ q, sh.resolve dst = some q ∧ after.contentOf q = some content

variable {v : Volume} {files : Loc → Bytes} {guard : CStr → Option ℕ} {x : Wire σ × τ}

theorem namesOf_file {q : CStr} {i : Option Loc} (h : Stdio.namesOf v q = .file i) :
    ∃ l, i = some l ∧ v.card.denotes q = some l ∧ v.regular l = true := by
  unfold Stdio.namesOf at h
  split at h
  · cases h
  · next l hl =>
    split at h
    · next hreg =>
      cases h
      exact ⟨l, rfl, hl, hreg⟩
    · cases h

/-- Between two names of the card, other than for one file. -/
theorem copy_sd (hdistinct : ¬ Overwrites sh v files guard src dst) (weather : ℕ → Weather)
    {online : Bool} {rounds : ℕ} {r : (Stdio × Wire σ × τ) × Option (Except CopyError UInt32)}
    {k : UInt32} (hr : r = run (copyWorld world clock fate me other) (Stdio.start v files guard weather, x)
      (cmdCopy sh online (.sd src) (.sd dst) rounds))
    (hok : r.2 = some (.ok k)) : CopiedOver sh src dst (Stdio.start v files guard weather) r.1.1 := by
  obtain ⟨s₁, i, q, s₃, i', o, end_, hin, hq, hguard, hdst, hloop, hclosed⟩ := cmdCopy_run hr hok
  obtain ⟨hi, p, hp, hsrc, hs₁⟩ := openIn_sd_run hin.symm rfl
  dsimp only at hi hs₁
  subst hi hs₁
  obtain ⟨a, hsource, hopened⟩ := Stdio.call_fopen_sin hsrc
  rw [hopened] at hguard hdst hloop
  obtain ⟨b, st, hcall, hb, hname, hdata, hdest, hstay, hsame, hsize, hpos, -, -, hcut⟩ :=
    Stdio.call_fopen_sout hdst
  rw [hcall] at hloop
  obtain ⟨l, rfl, hl, hreg⟩ := namesOf_file hsource
  have hsupplies : Supplies world (fun _ _ => none) me (files l) 0 0 (st, x) .sin := by
    by_cases hone : Stdio.namesOf v q = .file (some l)
    · obtain ⟨m, hm, hdenotes, -⟩ := namesOf_file hone
      obtain rfl : l = m := Option.some.inj hm
      have hempty : files l = [] := by
        by_contra hfull
        exact hdistinct ⟨p, q, l, hp, hq, hl, hdenotes, hreg, hfull, hguard⟩
      refine .inr ⟨hempty, hcut.mpr (.inr hone), ?_⟩
      rw [hsize]
      exact congrArg List.length hempty
    · have hne : some l ≠ b := by
        rintro rfl
        rcases hdest with hq' | ⟨-, ⟨⟩⟩
        exact hone hq'
      refine .inl ⟨?_, ?_, ?_, hpos⟩
      · rw [Bool.eq_false_iff]
        rintro htrue
        rcases hcut.mp htrue with ⟨⟨⟩⟩ | hq'
        exact hone hq'
      · rw [hsame, hb]
        exact hne
      · rw [hsame, hdata]
        exact Function.update_of_ne hne ..
  have hfilled : Filled (files l) 0 st st := by
    refine ⟨rfl, rfl, ?_⟩
    rw [List.take_zero, hdata, hb, Function.update_idem]
  obtain ⟨rfl, hnames, -, hfull⟩ := copyLoop_run rounds hsupplies hfilled hloop.symm rfl
  have hend := hclosed rfl
  have hbefore : (Stdio.start v files guard weather).names p = .file (some l) := hsource
  have hafter : r.1.1.data = Function.update st.data b (files l) := by
    rw [hend.data, hfull, hb, List.take_length]
  refine ⟨p, q, files l, hp, hq, ?_, ?_, ?_⟩
  · rw [Stdio.contentOf, hbefore]
    rfl
  · rw [Stdio.contentOf, hend.names, hnames, hstay p (by rw [hbefore]; rintro ⟨⟩)]
    dsimp only
    rw [hbefore]
    dsimp only
    rw [hafter, hdata, Function.update_idem]
    by_cases hone : some l = b
    · rw [← hone, Function.update_self]
    · rw [Function.update_of_ne hone]
      rfl
  · rw [Stdio.contentOf, hend.names, hnames, hname]
    dsimp only
    rw [hafter, Function.update_self]

/-! ### Copies of nothing -/

/-- No call fails, and nothing is read of a file that was cut short. -/
def fair (_ : ℕ) : Weather := ⟨false, 0, []⟩

theorem closeOut_fair (h : s.1.weather = fair) :
    ∃ s', run (copyWorld world clock fate me other) s (closeOut .sout) = (s', true) ∧
      Stdio.Same s.1 s'.1 := by
  have hcall : Stdio.call s.1 (.fclose .sout) = ({ s.1 with time := s.1.time + 1 }, true) := by
    simp [Stdio.call, h, fair]
  refine ⟨({ s.1 with time := s.1.time + 1 }, s.2), ?_, rfl, rfl, rfl, rfl⟩
  rw [closeOut, run_onCard, run_ask, hcall]

theorem copyOpenDest_opens {q : CStr} (hq : sh.resolve dst = some q) (hguard : s.1.guard q = none)
    (hdst : (s.1.call (.fopen .sout q)).2 = .ok ()) :
    run (copyWorld world clock fate me other) s (copyOpenDest sh (.sd dst)) =
      (((s.1.call (.fopen .sout q)).1, s.2), .ok .sout) := by
  have hcall : Stdio.call s.1 (.changeBegin q) = (s.1, none) := congrArg (Prod.mk s.1) hguard
  rw [copyOpenDest, hq]
  dsimp only
  rw [run_bind, run_onCard, run_ask, hcall]
  dsimp only
  rw [run_bind, run_onCard, run_ask, run_bind, run_onCard, run_ask, hdst]
  rfl

/-- When the source gives nothing at first, the copy is empty, and the command says so. -/
theorem cmdCopy_empty {online : Bool} {e : Endpoint} {q : CStr} {s₁ s₃ : Stdio × Wire σ × τ}
    {i i' : CopyIn} (honline : (e.remote && !online) = false)
    (hin : run (copyWorld world clock fate me other) s (openIn sh e) = (s₁, .ok i))
    (hq : sh.resolve dst = some q) (hguard : s₁.1.guard q = none)
    (hdst : (s₁.1.call (.fopen .sout q)).2 = .ok ())
    (hread : run (copyWorld world clock fate me other) ((s₁.1.call (.fopen .sout q)).1, s₁.2)
      (copyRead 0 i) = (s₃, i', .ok [])) (hsame : Stdio.Same (s₁.1.call (.fopen .sout q)).1 s₃.1)
    (hfair : s₃.1.weather = fair) :
    ∃ s', run (copyWorld world clock fate me other) s (cmdCopy sh online e (.sd dst) 1) = (s', some (.ok 0)) ∧
      s'.1.contentOf q = some [] := by
  obtain ⟨b, st, hcall, hb, hname, hdata, -⟩ := Stdio.call_fopen_sout hdst
  have hopen := @copyOpenDest_opens _ _ world clock fate me other _ sh dst q hq hguard hdst
  rw [hcall] at hread hsame hopen
  have hclosed := @closeIn_run _ _ world clock fate me other s₃ i'
  obtain ⟨s₅, hout, hsame'⟩ := @closeOut_fair _ _ world clock fate me other
    (run (copyWorld world clock fate me other) s₃ (closeIn i')).1
    (hclosed.weather.trans hfair)
  have hend := (hsame.trans hclosed).trans hsame'
  refine ⟨s₅, ?_, ?_⟩
  · have hgo : ((e.remote || (Endpoint.sd dst).remote) && !online) = false := by
      rwa [Endpoint.remote.eq_def (.sd dst), Bool.or_false]
    rw [cmdCopy, if_neg (by rw [hgo]; decide), run_bind, hin]
    dsimp only
    rw [run_bind, hopen]
    dsimp only
    rw [copyLoop, run_bind, run_bind, hread]
    dsimp only
    rw [run_pure]
    dsimp only
    rw [run_bind, run_bind, hout]
    rfl
  · rw [Stdio.contentOf, hend.names, hname]
    dsimp only
    rw [hend.data, hdata, Function.update_self]

theorem openIn_opens {p : CStr} (hp : sh.resolve src = some p)
    (hsrc : (s.1.call (.fopen .sin p)).2 = .ok ()) :
    run (copyWorld world clock fate me other) s (openIn sh (.sd src)) =
      (((s.1.call (.fopen .sin p)).1, s.2), .ok .sin) := by
  rw [openIn, hp]
  dsimp only
  rw [run_bind, run_onCard, run_ask, hsrc]
  rfl

theorem fopen_sin_fair {a : Stdio} {p : CStr} {i : Option Loc} (hfair : a.weather = fair)
    (hp : a.names p = .file i) :
    (a.call (.fopen .sin p)).2 = .ok () := by
  simp [Stdio.call, hfair, fair, hp]

theorem fopen_sout_fair {a : Stdio} {q : CStr} (hfair : a.weather = fair) (hq : a.names q ≠ .folder) :
    (a.call (.fopen .sout q)).2 = .ok () := by
  cases hname : a.names q with
  | folder => exact absurd hname hq
  | absent => simp [Stdio.call, hfair, fair, hname]
  | file i => simp [Stdio.call, hfair, fair, hname]

/-- Nothing is read of a file that was cut short. -/
theorem copyRead_cut (hcut : s.1.cut = true) (hbad : s.1.bad = false) (hfair : s.1.weather = fair) :
    ∃ s₃, run (copyWorld world clock fate me other) s (copyRead off .sin) = (s₃, .sin, .ok []) ∧
      Stdio.Same s.1 s₃.1 := by
  have hnone : s.1.reads copyBuf = [] := by simp [Stdio.reads, Stdio.left, hcut, hfair, fair]
  have hread : Stdio.call s.1 (.fread copyBuf) = ({ s.1 with time := s.1.time + 1 }, []) := by
    simp [Stdio.call, hnone, hbad, hfair, fair]
  have hferror : Stdio.call { s.1 with time := s.1.time + 1 } .ferror =
    ({ s.1 with time := s.1.time + 1 }, false) := by
    simp [Stdio.call, hbad]
  refine ⟨({ s.1 with time := s.1.time + 1 }, s.2), ?_, rfl, rfl, rfl, rfl⟩
  rw [copyRead, run_bind, run_onCard, run_ask, hread]
  dsimp only
  rw [if_pos List.length_nil, run_bind, run_onCard, run_ask, hferror]
  rfl

/-- A copy of a file over itself succeeds, and leaves it empty. -/
theorem copy_sd_loses (hover : Overwrites sh v files guard src dst) (online : Bool) :
    ∃ s', run (copyWorld world clock fate me other) (Stdio.start v files guard fair, x)
      (cmdCopy sh online (.sd src) (.sd dst) 1) =
        (s', some (.ok 0)) ∧ ¬ CopiedOver sh src dst (Stdio.start v files guard fair) s'.1 := by
  obtain ⟨p, q, l, hp, hq, hl, hm, hreg, hfull, hguard⟩ := hover
  have hnamed : ∀ c, v.card.denotes c = some l →
    (Stdio.start v files guard fair).names c = .file (some l) := by
    intro c hc
    simp [Stdio.start, Stdio.namesOf, hc, hreg]
  have hsrc := fopen_sin_fair rfl (hnamed p hl)
  obtain ⟨i, hi, hopened⟩ := Stdio.call_fopen_sin hsrc
  obtain rfl : i = some l := by
    have hsame := hi.symm.trans (hnamed p hl)
    cases hsame
    rfl
  have hin := @openIn_opens _ _ world clock fate me other (Stdio.start v files guard fair, x) sh src p hp hsrc
  generalize (Stdio.start v files guard fair).call (.fopen .sin p) = opened at hopened hin
  obtain ⟨a, ans⟩ := opened
  dsimp only at hopened hin
  have hdst : (a.call (.fopen .sout q)).2 = .ok () := by
    refine fopen_sout_fair (by rw [hopened]; rfl) ?_
    rw [hopened]
    dsimp only
    rw [hnamed q hm]
    rintro ⟨⟩
  obtain ⟨b, st, hcall, hb, hname, hdata, -, -, -, -, -, hbad, hweather, hcut⟩ := Stdio.call_fopen_sout hdst
  have hcut' : st.cut = true := by
    rw [hcut, hopened]
    exact .inr (hnamed q hm)
  obtain ⟨s₃, hread, hsame⟩ := @copyRead_cut _ _ world clock fate me other (st, x) 0 hcut'
    (by rw [hbad, hopened])
    (by rw [hweather, hopened]; rfl)
  obtain ⟨s', hrun, hend⟩ := @cmdCopy_empty _ _ _ _ _ _ _ _ _ _ online _ q _ _ _ _ rfl hin hq
    (by rw [hopened]; exact hguard) hdst
    (by rw [hcall]; exact hread) (by rw [hcall]; exact hsame)
    (by rw [hsame.weather, hweather, hopened]; rfl)
  refine ⟨s', hrun, ?_⟩
  rintro ⟨p', q', content, hp', hq', hbefore, -, hafter⟩
  obtain rfl : p' = p := Option.some.inj (hp'.symm.trans hp)
  obtain rfl : q' = q := Option.some.inj (hq'.symm.trans hq)
  rw [hend] at hafter
  rw [Stdio.contentOf, hnamed p' hl, ← hafter] at hbefore
  exact hfull (Option.some.inj hbefore)

/-! ### Copies from a server -/

theorem openIn_url_run {r : (Stdio × Wire σ × τ) × Except CopyError CopyIn}
    (hr : r = run (copyWorld world clock fate me other) s (openIn sh (.url path)))
    {q : Wire σ × Except EspErr TnfsFile}
    (hq : q = run (wired world clock fate me) s.2.1 (tnfsOpenPath path false false)) :
    r.1 = (s.1, q.1, s.2.2) ∧ (∀ f, q.2 = .ok f → r.2 = .ok (.rin f f.size)) ∧ ∀ e, q.2 = .error e →
      r.2 = .error (.remote e) := by
  rw [openIn, run_bind, run_onSource, ← hq] at hr
  obtain ⟨w', e | f⟩ := q <;> rw [hr] <;> refine ⟨rfl, ?_, ?_⟩
  · rintro f ⟨⟩
  · rintro e ⟨⟩
    rfl
  · rintro f ⟨⟩
    rfl
  · rintro e ⟨⟩

/-- A copy from a server to the card brings the whole file, whenever it says so, just when the file is
    empty, or the copy cannot begin, or the server's answer with the size comes through. -/
theorem copy_url (hpath : IsCString path) (hres : resolvePath .zero path = .ok abs)
    (hk : Keeps world abs content pos) (hw : x.1.Gone) {opened : Wire σ × TnfsFile × Except EspErr Unit}
    (hopened : opened = run (wired world clock fate me) x.1 (tnfsOpenFile tnfsORdonly path)) (online : Bool) :
    (∀ (weather : ℕ → Weather) (rounds : ℕ) (k : UInt32)
      (r : (Stdio × Wire σ × τ) × Option (Except CopyError UInt32)),
        r = run (copyWorld world clock fate me other) (Stdio.start v files guard weather, x)
          (cmdCopy sh online (.url path) (.sd dst) rounds) →
        r.2 = some (.ok k) → CopiedTo sh dst content r.1.1) ↔
      content = [] ∨ online = false ∨ ¬ Opens sh v guard dst ∨
        (opened.2.2 = .ok () → opened.1.SizeAnswered world clock fate me opened.2.1) := by
  have hpath_run := tnfsOpenPath_run hpath hres hk hw hopened rfl
  generalize hq : run (wired world clock fate me) x.1 (tnfsOpenPath path false false) = q at hpath_run
  constructor
  · intro hall
    by_contra hnot
    simp only [not_or, Classical.not_imp] at hnot
    obtain ⟨hfull, honline, hopens, hok, hunknown⟩ := hnot
    have honline : online = true := by simpa using honline
    obtain ⟨q', hq', hguard, hfolder⟩ := not_not.mp hopens
    obtain ⟨-, f', hf', -, hzero⟩ := hpath_run.resolve_left fun h => h.1 hok
    obtain ⟨hs₁, hgot, -⟩ := @openIn_url_run _ _ world clock fate me other
      (Stdio.start v files guard fair, x) sh path _ rfl q hq.symm
    have hin : run (copyWorld world clock fate me other) (Stdio.start v files guard fair, x)
      (openIn sh (.url path)) =
        ((Stdio.start v files guard fair, q.1, x.2), .ok (.rin f' f'.size)) := Prod.ext hs₁ (hgot f' hf')
    have hdst : ((Stdio.start v files guard fair).call (.fopen .sout q')).2 = .ok () :=
      fopen_sout_fair rfl hfolder
    have hread : ∀ st : Stdio × Wire σ × τ, run (copyWorld world clock fate me other) st
      (copyRead 0 (.rin f' f'.size)) =
        (st, .rin f' f'.size, .ok []) := by
      intro st
      rw [copyRead, hzero hunknown, if_pos (UInt32.le_refl 0)]
      rfl
    obtain ⟨b, st, hcall, -, -, -, -, -, -, -, -, -, hweather, -⟩ := Stdio.call_fopen_sout hdst
    obtain ⟨s', hrun, hend⟩ := @cmdCopy_empty _ _ world clock fate me other _ _ _ online
      _ _ _ _ _ _ (by simp [honline]) hin hq'
      hguard hdst (hread _)
      ⟨rfl, rfl, rfl, rfl⟩ (by rw [hcall]; exact hweather)
    obtain ⟨q₂, hq₂, hafter⟩ := hall fair 1 0 _ hrun.symm rfl
    obtain rfl : q₂ = q' := Option.some.inj (hq₂.symm.trans hq')
    exact hfull (Option.some.inj (hafter.symm.trans hend))
  · intro hcase weather rounds k r hr hok
    obtain ⟨s₁, i, q', s₃, i', o, end_, hin, hq', hguard, hdst, hloop, hclosed⟩ := cmdCopy_run hr hok
    obtain ⟨hs₁, hgot, hfail⟩ := openIn_url_run hin.symm hq.symm
    dsimp only at hs₁ hgot hfail
    subst hs₁
    rcases hpath_run with ⟨-, e, he⟩ | ⟨hok', f', hf', hknown, hunknown⟩
    · exact absurd (hfail e he) (by rintro ⟨⟩)
    · obtain rfl : i = .rin f' f'.size := Except.ok.inj (hgot f' hf')
      obtain ⟨b, st, hcall, hb, hname, hdata, hdest, -⟩ := Stdio.call_fopen_sout hdst
      rw [hcall] at hloop
      have hsupplies : Supplies world pos me content 0 0 (st, q.1, x.2) (.rin f' f'.size) := by
        by_cases hanswered : opened.1.SizeAnswered world clock fate me opened.2.1
        · obtain ⟨hopen, hsize⟩ := hknown hanswered
          exact .inl ⟨⟨abs, hk⟩, hopen, hsize, rfl⟩
        · refine .inr ⟨?_, hunknown hanswered⟩
          rcases hcase with hempty | hoff | hno | hyes
          · exact hempty
          · have hrefused : (((Endpoint.url path).remote || (Endpoint.sd dst).remote) && !false) = true := rfl
            rw [hoff, cmdCopy, if_pos hrefused] at hr
            rw [hr] at hok
            cases hok
          · refine absurd ⟨q', hq', hguard, ?_⟩ hno
            intro hfolder
            have hnamed : (Stdio.start v files guard weather).names q' = .folder := hfolder
            rw [hnamed] at hdest
            rcases hdest with ⟨⟨⟩⟩ | ⟨⟨⟩, -⟩
          · exact absurd (hyes hok') hanswered
      have hfilled : Filled content 0 st st := by
        refine ⟨rfl, rfl, ?_⟩
        rw [List.take_zero, hdata, hb, Function.update_idem]
      obtain ⟨rfl, hnames, -, hfull⟩ := copyLoop_run rounds hsupplies hfilled hloop.symm rfl
      have hend := hclosed rfl
      refine ⟨q', hq', ?_⟩
      rw [Stdio.contentOf, hend.names, hnames, hname]
      dsimp only
      rw [hend.data, hfull, hb, List.take_length, Function.update_self]

/-- For every pair of names on the card, a copy that says it succeeded has left both files with what the
    source had, just when it is not a copy of a file with content over itself; and for every file of a
    server and every pattern of losses, a copy to the card that says it succeeded has brought the whole
    file, just when the file is empty, the copy cannot begin, or the answer with the size comes through. -/
theorem copy_complete (sh : Shell) (v : Volume) (files : Loc → Bytes) (guard : CStr → Option ℕ)
    (dst : CStr) (online : Bool) (world : σ → (c : SysCall) → σ × c.Answer) (clock : ℕ → ℕ)
    (fate : ℕ → Fate) (me : Peer) (other : τ → (c : NetCall) → τ × c.Answer) (x : Wire σ × τ) :
    (∀ src : CStr,
      (∀ (weather : ℕ → Weather) (rounds : ℕ) (k : UInt32)
        (r : (Stdio × Wire σ × τ) × Option (Except CopyError UInt32)),
          r = run (copyWorld world clock fate me other) (Stdio.start v files guard weather, x)
            (cmdCopy sh online (.sd src) (.sd dst) rounds) →
          r.2 = some (.ok k) → CopiedOver sh src dst (Stdio.start v files guard weather) r.1.1) ↔
        ¬ Overwrites sh v files guard src dst) ∧
    (∀ (path abs : CStr) (content : Bytes) (pos : σ → ℕ → Option ℕ)
      (opened : Wire σ × TnfsFile × Except EspErr Unit),
      IsCString path → resolvePath .zero path = .ok abs → Keeps world abs content pos → x.1.Gone →
      opened = run (wired world clock fate me) x.1 (tnfsOpenFile tnfsORdonly path) →
      ((∀ (weather : ℕ → Weather) (rounds : ℕ) (k : UInt32)
        (r : (Stdio × Wire σ × τ) × Option (Except CopyError UInt32)),
          r = run (copyWorld world clock fate me other) (Stdio.start v files guard weather, x)
            (cmdCopy sh online (.url path) (.sd dst) rounds) →
          r.2 = some (.ok k) → CopiedTo sh dst content r.1.1) ↔
        content = [] ∨ online = false ∨ ¬ Opens sh v guard dst ∨
          (opened.2.2 = .ok () → opened.1.SizeAnswered world clock fate me opened.2.1))) := by
  constructor
  · intro src
    constructor
    · intro hall hover
      obtain ⟨s', hrun, hlost⟩ := @copy_sd_loses _ _ world clock fate me other sh src dst v
        files guard x hover online
      exact hlost (hall fair 1 0 _ hrun.symm rfl)
    · intro hdistinct weather rounds k r hr hok
      exact copy_sd hdistinct weather hr hok
  · intro path abs content pos opened hpath hres hk hw hopened
    exact copy_url hpath hres hk hw hopened online

/-! ### A card, and a server with one file -/

/-- One file in the root. -/
def oneDisk : Contents where
  entries := [([], ⟨"A.DSK".toList, "A.DSK".toList⟩)]
  regular l := l == ["A.DSK".toList]
  plain := by decide
  dots := by decide
  one := by decide
  root := by decide

def prompt : Shell := ⟨true, [], fun _ => [], false⟩

/-- The destination's server, which is not there. -/
def noServer (u : Unit) : (c : NetCall) → Unit × c.Answer
  | .send _ => (u, true)
  | .await _ _ => (u, none)
  | .delay _ => (u, ())

/-- The answers to the question for the size are lost. -/
def sizeLost (n : ℕ) : Fate := if 2 ≤ n ∧ n < 5 then .lost else .answered

def idleWire : Wire ℕ := ⟨0, ⟨fun _ => .zero, 1⟩, 0, []⟩

def smallWorld (fate : ℕ → Fate) := copyWorld (oneFile [7]) (fun _ => 0) fate ⟨1, 1⟩ noServer

def smallStart (weather : ℕ → Weather) : Stdio × Wire ℕ × Unit :=
  (Stdio.start oneDisk.volume (fun _ => [7]) (fun _ => none) weather, idleWire, ())

theorem opened_small (fate : ℕ → Fate)
    (h : (run (wired (oneFile [7]) (fun _ => 0) fate ⟨1, 1⟩) idleWire
      (tnfsOpenFile tnfsORdonly ['/', 'B'])).2.2 = .ok ()) :
    let opened := run (wired (oneFile [7]) (fun _ => 0) fate ⟨1, 1⟩) idleWire
      (tnfsOpenFile tnfsORdonly ['/', 'B'])
    (run (wired (oneFile [7]) (fun _ => 0) fate ⟨1, 1⟩) opened.1 (tnfsQuerySize opened.2.1)).2.2 = .ok () ↔
      opened.1.SizeAnswered (oneFile [7]) (fun _ => 0) fate ⟨1, 1⟩ opened.2.1 :=
  tnfsQuerySize_answered
    (tnfsOpenFile_run (opensAt_rdonly (by simp [IsCString]) (by decide +kernel)
      (oneFile_keeps [7] "/sd/B".toList))
      ⟨fun _ => rfl, rfl⟩ rfl h)

/-- From a server that is heard the copy is whole. When the answers with the size are lost it need not be. -/
theorem copy_complete_small :
    (¬ ∀ (weather : ℕ → Weather) (rounds : ℕ) (k : UInt32)
      (r : (Stdio × Wire ℕ × Unit) × Option (Except CopyError UInt32)),
        r = run (smallWorld sizeLost) (smallStart weather)
          (cmdCopy prompt true (.url ['/', 'B']) (.sd ['C']) rounds) →
        r.2 = some (.ok k) → CopiedTo prompt ['C'] [7] r.1.1) ∧
      ∀ (weather : ℕ → Weather) (rounds : ℕ) (k : UInt32)
      (r : (Stdio × Wire ℕ × Unit) × Option (Except CopyError UInt32)),
        r = run (smallWorld fun _ => .answered) (smallStart weather)
          (cmdCopy prompt true (.url ['/', 'B']) (.sd ['C']) rounds) →
        r.2 = some (.ok k) → CopiedTo prompt ['C'] [7] r.1.1 := by
  have hopens : Opens prompt oneDisk.volume (fun _ => none) ['C'] :=
    ⟨"/sd/C".toList, by decide +kernel, rfl, by decide +kernel⟩
  have hwhole := fun fate =>
    (copy_complete prompt oneDisk.volume (fun _ => [7]) (fun _ => none) ['C'] true (oneFile [7])
      (fun _ => 0) fate ⟨1, 1⟩ noServer
      (idleWire, ())).2 ['/', 'B'] "/sd/B".toList [7] (fun p _ => some p)
        _ (by simp [IsCString]) (by decide +kernel)
      (oneFile_keeps [7] _)
    ⟨fun _ => rfl, rfl⟩ rfl
  constructor
  · refine mt (hwhole sizeLost).mp ?_
    have hok : (run (wired (oneFile [7]) (fun _ => 0) sizeLost ⟨1, 1⟩) idleWire
      (tnfsOpenFile tnfsORdonly ['/', 'B'])).2.2 = .ok () := by
      decide +kernel
    rintro (⟨⟨⟩⟩ | ⟨⟨⟩⟩ | hno | hyes)
    · exact hno hopens
    · exact absurd ((opened_small _ hok).mpr (hyes hok)) (by decide +kernel)
  · refine (hwhole fun _ => .answered).mpr (.inr (.inr (.inr ?_)))
    intro hok
    exact (opened_small _ hok).mp (by decide +kernel)

/-- Two names of one file, and a server whose answer with the size is lost: both copies say that they
    succeeded, with the file gone and with nothing of it there. -/
theorem copy_loses :
    (∃ s', run (smallWorld fun _ => .answered) (smallStart fair)
      (cmdCopy prompt true (.sd "a.dsk".toList) (.sd "A.DSK".toList) 1) =
        (s', some (.ok 0)) ∧ ¬ CopiedOver prompt "a.dsk".toList "A.DSK".toList (smallStart fair).1 s'.1) ∧
      ∃ s', run (smallWorld sizeLost) (smallStart fair)
        (cmdCopy prompt true (.url ['/', 'B']) (.sd ['C']) 1) = (s', some (.ok 0)) ∧
        ¬ CopiedTo prompt ['C'] [7] s'.1 := by
  constructor
  · refine copy_sd_loses ⟨"/sd/a.dsk".toList, "/sd/A.DSK".toList, ["A.DSK".toList], ?_, ?_, ?_, ?_, ?_,
      ?_, rfl⟩ true <;> decide +kernel
  · refine ⟨_, Prod.ext rfl (by decide +kernel), ?_⟩
    rintro ⟨q, hq, hcontent⟩
    obtain rfl : q = "/sd/C".toList := Option.some.inj (hq.symm.trans (by decide +kernel))
    have hempty :
        (run (smallWorld sizeLost) (smallStart fair)
          (cmdCopy prompt true (.url ['/', 'B']) (.sd ['C']) 1)).1.1.contentOf "/sd/C".toList =
        some [] := by
      decide +kernel
    exact absurd (hempty.symm.trans hcontent) (by decide)

end Tnfsd

end FdcSds
