import FdcSds.Net.Framing

/-! What the replies of the TNFS server say.

    `Reply` is the content of a reply and `Reply.body` the bytes behind its header. A reply that a command
    can get (`Fits`) is taken off a stream whole by `tcp_response`, and its callers read in it what it
    says; but for the end of a file, which READ answers with a bare status where the client looks for a
    count.

        handler ──▶ Reply ──body──▶ bytes ──tcp_response──▶ bytes ──callers──▶ what the Reply says -/

namespace FdcSds.Tnfsd
open Schemes

inductive Reply where
  | failed (status : UInt8)
  | busy (ms : ℕ)
  | done
  | mounted (ms : ℕ)
  | file (h : UInt8)
  | dir (h : UInt8)
  | listing (h : UInt8) (count : ℕ)
  | moved (pos : ℕ)
  | wrote (n : ℕ)
  | data (bytes : Bytes)
  | name (x : CStr)
  | batch (status : UInt8) (pos : ℕ) (entries : List DirEntry)

namespace Reply

/-- The bytes behind the header. -/
def body : Reply → Bytes
  | failed st => [st]
  | busy ms => [tnfsEagain] ++ le16 ms
  | done => [tnfsOk]
  | mounted ms => [tnfsOk, tnfsVerLo, tnfsVerHi] ++ le16 ms
  | file h | dir h => [tnfsOk, h]
  | listing h count => [tnfsOk, h] ++ le16 count
  | moved pos => [tnfsOk] ++ le32 pos
  | wrote n => [tnfsOk] ++ le16 n
  | data d => [tnfsOk] ++ le16 d.length ++ d
  | name x => [tnfsOk] ++ CStr.bytes x ++ [0]
  | batch st pos es => [tnfsOk, UInt8.ofNat es.length, st] ++ le16 pos ++ es.flatMap DirEntry.bytes

/-- The replies a command of the client can get, and the bounds of their fields. -/
def Fits (cmd : UInt8) : Reply → Prop
  | failed st => st ≠ tnfsOk ∧ st ≠ tnfsEagain
  | busy ms => cmd = tnfsMount ∧ ms < 65536
  | done => cmd = tnfsUmount ∨ cmd = tnfsClose ∨ cmd = tnfsClosedir
  | mounted _ => cmd = tnfsMount
  | file _ => cmd = tnfsOpen
  | dir _ => cmd = tnfsOpendir
  | listing _ _ => cmd = tnfsOpendirx
  | moved pos => cmd = tnfsLseek ∧ pos < 2 ^ 32
  | wrote n => cmd = tnfsWrite ∧ n < 65536
  | data d => cmd = tnfsRead ∧ d.length ≤ tnfsIoChunk
  | name x => cmd = tnfsReaddir ∧ WireName x
  | batch _ _ es => cmd = tnfsReaddirx ∧ es.length < 256 ∧ (∀ e ∈ es, WireName e.name) ∧
      5 + (es.flatMap DirEntry.bytes).length ≤ tnfsMsgCap - tnfsHdrLen

/-- In the reply `m`, from session `sid`, the client's callers read what it says. `tnfs_read_at` and
    `tnfs_write_at` take no empty reply, and no more than they asked for. -/
def ReadIn (sid : UInt16) (m : Bytes) : Reply → Prop
  | failed st => replyStatus m = st
  | busy ms => replyStatus m = tnfsEagain ∧ backoffMs m = if ms = 0 then 100 else ms
  | done => replyStatus m = tnfsOk
  | mounted _ => mountReply m = some sid
  | file h | dir h | listing h _ => handleReply m = some h
  | moved pos => (positionReply m).map UInt32.toNat = some pos
  | wrote n => ∀ want, 0 < n → n ≤ want → writeReply want m = some n
  | data d => ∀ want, 0 < d.length → d.length ≤ want → readReply want m = some d
  | name x => replyStatus m = tnfsOk ∧ basicName m = x
  | batch st _ es => listxReply m = some ((es.map DirEntry.listed, true), st &&& tnfsDirstatusEof != 0)

/-- A reply the client takes off a stream whole, and reads right. -/
structure Decoded (cmd : UInt8) (sid : UInt16) (m : Bytes) (r : Reply) : Prop where
  framed : Frames (tcpResponse cmd) m m
  read : r.ReadIn sid m

variable {cmd seq st : UInt8} {sid : UInt16} {r : Reply} {resp more : Bytes}

/-! ### The header and the status -/

theorem length_tnfsHeader (sid : UInt16) (seq cmd : UInt8) :
    (tnfsHeader sid seq cmd).length = tnfsHdrLen := rfl

theorem replyStatus_header (rest : Bytes) : replyStatus (tnfsHeader sid seq cmd ++ st :: rest) = st := rfl

theorem word_header (rest : Bytes) : UInt16.ofNat (word (tnfsHeader sid seq cmd ++ rest) 0) = sid := by
  have hword : word (tnfsHeader sid seq cmd ++ rest) 0 = sid.toNat := by
    simpa [tnfsHeader] using word_le16 [] ([seq, cmd] ++ rest) sid.toNat sid.toNat_lt
  rw [hword, UInt16.ofNat_toNat]

/-- The number behind the status. -/
theorem word_behind (sid : UInt16) (seq cmd st : UInt8) (rest : Bytes) {n : ℕ} (hn : n < 65536) :
    word (tnfsHeader sid seq cmd ++ [st] ++ le16 n ++ rest) (tnfsStatusOff + 1) = n :=
  word_le16 (tnfsHeader sid seq cmd ++ [st]) rest n hn

/-- What is left of `tcp_response` behind the status. -/
def tcpBehind (cmd : UInt8) (resp : Bytes) : TcpReader Bytes :=
  if replyStatus resp = tnfsEagain then do
    let ms ← tcpReadExact 2
    pure (resp ++ ms)
  else if replyStatus resp = tnfsOk ∨ (cmd = tnfsRead ∧ replyStatus resp = tnfsEof) then do
    let extra ← tcpReadExact (tcpExtra cmd)
    tcpRest cmd (resp ++ extra)
  else pure resp

theorem tcpResponse_eq (cmd : UInt8) :
    tcpResponse cmd = tcpReadExact (tnfsStatusOff + 1) >>= fun resp => tcpBehind cmd resp := rfl

theorem frames_header {m : Bytes} (h : Frames (tcpBehind cmd (tnfsHeader sid seq cmd ++ [st])) more m) :
    Frames (tcpResponse cmd) (tnfsHeader sid seq cmd ++ [st] ++ more) m := by
  rw [tcpResponse_eq]
  have hfive : Frames (tcpReadExact (tnfsStatusOff + 1)) (tnfsHeader sid seq cmd ++ [st])
      (tnfsHeader sid seq cmd ++ [st]) := tcpReadExact_frames rfl
  exact hfive.bind h

/-- A good reply: the fixed bytes, then the rest by command. -/
theorem frames_ok {extra m : Bytes} (hextra : extra.length = tcpExtra cmd)
    (h : Frames (tcpRest cmd (tnfsHeader sid seq cmd ++ [tnfsOk] ++ extra)) more m) :
    Frames (tcpResponse cmd) (tnfsHeader sid seq cmd ++ tnfsOk :: (extra ++ more)) m := by
  have hread : Frames (tcpReadExact (tcpExtra cmd)) extra extra := tcpReadExact_frames hextra
  have hok : replyStatus (tnfsHeader sid seq cmd ++ [tnfsOk]) = tnfsOk := replyStatus_header []
  have hbehind : Frames (tcpBehind cmd (tnfsHeader sid seq cmd ++ [tnfsOk])) (extra ++ more) m := by
    rw [tcpBehind, hok, if_neg (by decide), if_pos (.inl rfl)]
    exact hread.bind h
  simpa using frames_header hbehind

/-- A good reply of a command whose replies have no data, name or entries. -/
theorem frames_fixed {extra : Bytes} (hextra : extra.length = tcpExtra cmd) (hread : cmd ≠ tnfsRead)
    (hreaddir : cmd ≠ tnfsReaddir) (hreaddirx : cmd ≠ tnfsReaddirx) :
    Frames (tcpResponse cmd) (tnfsHeader sid seq cmd ++ tnfsOk :: extra)
      (tnfsHeader sid seq cmd ++ tnfsOk :: extra) := by
  have hrest : Frames (tcpRest cmd (tnfsHeader sid seq cmd ++ [tnfsOk] ++ extra)) []
      (tnfsHeader sid seq cmd ++ [tnfsOk] ++ extra) := by
    rw [tcpRest, if_neg hread, if_neg hreaddir, if_neg hreaddirx]
    exact frames_pure _
  simpa using frames_ok hextra hrest

/-- A bare status but for OK and EAGAIN. -/
theorem frames_failed (hok : st ≠ tnfsOk) (hagain : st ≠ tnfsEagain)
    (hend : ¬ (cmd = tnfsRead ∧ st = tnfsEof)) :
    Frames (tcpResponse cmd) (tnfsHeader sid seq cmd ++ [st]) (tnfsHeader sid seq cmd ++ [st]) := by
  have hst : replyStatus (tnfsHeader sid seq cmd ++ [st]) = st := replyStatus_header []
  have hbehind : Frames (tcpBehind cmd (tnfsHeader sid seq cmd ++ [st])) []
    (tnfsHeader sid seq cmd ++ [st]) := by
    rw [tcpBehind, hst, if_neg hagain, if_neg (not_or.mpr ⟨hok, hend⟩)]
    exact frames_pure _
  simpa using frames_header hbehind

/-- The end of a file: the client looks for a count that is not there. -/
theorem read_eof_short : (tcpResponse tnfsRead).run (tnfsHeader sid seq tnfsRead ++ [tnfsEof]) =
      .error .timeout := by
  have hfive : Frames (tcpReadExact (tnfsStatusOff + 1)) (tnfsHeader sid seq tnfsRead ++ [tnfsEof])
      (tnfsHeader sid seq tnfsRead ++ [tnfsEof]) := tcpReadExact_frames rfl
  have hst : replyStatus (tnfsHeader sid seq tnfsRead ++ [tnfsEof]) = tnfsEof := replyStatus_header []
  have hrun := hfive.run_bind (f := tcpBehind tnfsRead) []
  rw [List.append_nil] at hrun
  rw [tcpResponse_eq, hrun, tcpBehind, hst, if_neg (by decide), if_pos (.inr ⟨rfl, rfl⟩)]
  exact run_bind_error (readExact_short (by decide))

/-! ### Data, names and entries -/

theorem frames_data {d : Bytes} (hlen : d.length ≤ tnfsIoChunk) :
    Frames (tcpResponse tnfsRead) (tnfsHeader sid seq tnfsRead ++ (data d).body)
      (tnfsHeader sid seq tnfsRead ++ (data d).body) := by
  have hbound : tnfsIoChunk = 1024 := rfl
  have hcnt : word (tnfsHeader sid seq tnfsRead ++ [tnfsOk] ++ le16 d.length)
    (tnfsStatusOff + 1) = d.length := by
    have h := word_behind sid seq tnfsRead tnfsOk [] (n := d.length) (by omega)
    rwa [List.append_nil] at h
  have hrest : Frames (tcpRest tnfsRead (tnfsHeader sid seq tnfsRead ++ [tnfsOk] ++ le16 d.length)) d
      (tnfsHeader sid seq tnfsRead ++ [tnfsOk] ++ le16 d.length ++ d) := by
    rw [tcpRest, if_pos rfl, tcpData, hcnt, if_neg ?_]
    · exact (tcpReadExact_frames rfl).bind_pure _
    · have hcap : tnfsMsgCap = 1032 := rfl
      simp only [List.length_append, length_tnfsHeader, length_le16, List.length_singleton, tnfsHdrLen]
      omega
  simpa [body] using frames_ok (by rfl) hrest

theorem frames_name {x : CStr} (hx : WireName x) :
    Frames (tcpResponse tnfsReaddir) (tnfsHeader sid seq tnfsReaddir ++ (name x).body)
      (tnfsHeader sid seq tnfsReaddir ++ (name x).body) := by
  have hshort : x.length < 256 := hx.short
  have hcap : tnfsMsgCap = 1032 := rfl
  have hrest : Frames (tcpRest tnfsReaddir (tnfsHeader sid seq tnfsReaddir ++ [tnfsOk] ++ []))
      (CStr.bytes x ++ [0]) (tnfsHeader sid seq tnfsReaddir ++ [tnfsOk] ++ [] ++ (CStr.bytes x ++ [0])) := by
    rw [tcpRest, if_neg (by decide), if_pos rfl]
    refine tcpName_frames (fun b => hx.isCString.bytes_ne_zero) ?_ ?_
    · rw [FdcSds.length_bytes]
      omega
    · simp only [List.length_append, length_tnfsHeader, FdcSds.length_bytes, List.length_singleton,
        List.length_nil, tnfsHdrLen]
      omega
  simpa [body] using frames_ok (by rfl) hrest

theorem frames_batch {pos : ℕ} {es : List DirEntry} (hcount : es.length < 256)
    (hes : ∀ e ∈ es, WireName e.name)
    (hroom : 5 + (es.flatMap DirEntry.bytes).length ≤ tnfsMsgCap - tnfsHdrLen) :
    Frames (tcpResponse tnfsReaddirx) (tnfsHeader sid seq tnfsReaddirx ++ (batch st pos es).body)
      (tnfsHeader sid seq tnfsReaddirx ++ (batch st pos es).body) := by
  have hcap : tnfsMsgCap = 1032 := rfl
  have hhdr : tnfsHdrLen = 4 := rfl
  have hcounts : Frames (tcpReadExact 4) ([UInt8.ofNat es.length, st] ++ le16 pos)
    ([UInt8.ofNat es.length, st] ++ le16 pos) :=
    tcpReadExact_frames rfl
  have hnum : (([UInt8.ofNat es.length, st] ++ le16 pos).getD 0 0).toNat = es.length := by
    simp only [List.cons_append, List.getD_cons_zero, UInt8.toNat_ofNat']
    exact Nat.mod_eq_of_lt hcount
  have hrest : Frames (tcpRest tnfsReaddirx (tnfsHeader sid seq tnfsReaddirx ++ [tnfsOk] ++ []))
      ([UInt8.ofNat es.length, st] ++ le16 pos ++ es.flatMap DirEntry.bytes)
      (tnfsHeader sid seq tnfsReaddirx ++ [tnfsOk] ++ [] ++ ([UInt8.ofNat es.length, st] ++ le16 pos) ++
        es.flatMap DirEntry.bytes) := by
    rw [tcpRest, if_neg (by decide), if_neg (by decide), if_pos rfl]
    refine hcounts.bind ?_
    rw [hnum]
    refine tcpEntries_frames hes ?_
    simp only [List.length_append, length_tnfsHeader, length_le16, List.length_nil, List.length_cons]
    omega
  simpa [body] using frames_ok (by rfl) hrest

/-! ### What the callers read -/

theorem read_data {d : Bytes} (hlen : d.length ≤ tnfsIoChunk) :
    (data d).ReadIn sid (tnfsHeader sid seq cmd ++ (data d).body) := by
  have hbound : tnfsIoChunk = 1024 := rfl
  intro want hpos hwant
  have hst : replyStatus (tnfsHeader sid seq cmd ++ (data d).body) = tnfsOk := rfl
  have hcnt : word (tnfsHeader sid seq cmd ++ (data d).body) (tnfsStatusOff + 1) = d.length := by
    simpa [body] using word_behind sid seq cmd tnfsOk d (n := d.length) (by omega)
  have hlong : (tnfsHeader sid seq cmd ++ (data d).body).length = tnfsStatusOff + 3 + d.length := by
    simp only [body, List.length_append, length_tnfsHeader, length_le16, List.length_singleton,
      tnfsHdrLen, tnfsStatusOff]
    omega
  have hdata : slice (tnfsHeader sid seq cmd ++ (data d).body) (tnfsStatusOff + 3) d.length = d := by
    have hpre : tnfsHeader sid seq cmd ++ (data d).body =
      (tnfsHeader sid seq cmd ++ [tnfsOk] ++ le16 d.length) ++ d := by
      simp [body]
    have hdrop : (tnfsHeader sid seq cmd ++ [tnfsOk] ++ le16 d.length ++ d).drop (tnfsStatusOff + 3) =
      d := List.drop_left' rfl
    rw [slice, hpre, hdrop, List.take_length]
  rw [readReply, hst, hlong, if_neg (by simp), hcnt]
  dsimp only
  rw [if_neg (by omega), hdata]

theorem read_wrote {n : ℕ} (hn : n < 65536) :
    (wrote n).ReadIn sid (tnfsHeader sid seq cmd ++ (wrote n).body) := by
  intro want hpos hwant
  have hst : replyStatus (tnfsHeader sid seq cmd ++ (wrote n).body) = tnfsOk := rfl
  have hcnt : word (tnfsHeader sid seq cmd ++ (wrote n).body) (tnfsStatusOff + 1) = n := by
    simpa [body] using word_behind sid seq cmd tnfsOk [] (n := n) hn
  have hlong : (tnfsHeader sid seq cmd ++ (wrote n).body).length = tnfsStatusOff + 3 := rfl
  rw [writeReply, hst, hlong, if_neg (by simp), hcnt]
  dsimp only
  rw [if_neg (by omega)]

theorem read_moved {pos : ℕ} (hpos : pos < 2 ^ 32) :
    (moved pos).ReadIn sid (tnfsHeader sid seq cmd ++ (moved pos).body) := by
  have hst : replyStatus (tnfsHeader sid seq cmd ++ (moved pos).body) = tnfsOk := rfl
  have hlong : (tnfsHeader sid seq cmd ++ (moved pos).body).length = tnfsStatusOff + 5 := rfl
  have hat : dword (tnfsHeader sid seq cmd ++ (moved pos).body) (tnfsStatusOff + 1) = pos := by
    have h := dword_le32 (tnfsHeader sid seq cmd ++ [tnfsOk]) [] pos hpos
    rw [List.append_nil, List.append_assoc] at h
    exact h
  rw [ReadIn, positionReply, hst, hlong, if_neg (by simp), hat]
  simp only [Option.map_some, Option.some.injEq, UInt32.toNat_ofNat']
  exact Nat.mod_eq_of_lt hpos

theorem read_name {x : CStr} (hx : WireName x) :
    (name x).ReadIn sid (tnfsHeader sid seq cmd ++ (name x).body) := by
  have hdrop : (tnfsHeader sid seq cmd ++ (name x).body).drop (tnfsStatusOff + 1) = CStr.bytes x ++ [0] := by
    have hpre : tnfsHeader sid seq cmd ++ (name x).body = (tnfsHeader sid seq cmd ++ [tnfsOk]) ++
      (CStr.bytes x ++ [0]) := by
      simp [body]
    rw [hpre]
    exact List.drop_left' rfl
  refine ⟨rfl, ?_⟩
  rw [basicName, hdrop, if_pos (.inl (by simp)), hx.cstr_bytes]

theorem read_batch {pos : ℕ} {es : List DirEntry} (hcount : es.length < 256)
    (hes : ∀ e ∈ es, WireName e.name) :
    (batch st pos es).ReadIn sid (tnfsHeader sid seq cmd ++ (batch st pos es).body) := by
  have hst : replyStatus (tnfsHeader sid seq cmd ++ (batch st pos es).body) = tnfsOk := rfl
  have hlong : ¬ (tnfsHeader sid seq cmd ++ (batch st pos es).body).length < tnfsStatusOff + 1 + 4 := by
    simp only [body, List.length_append, length_tnfsHeader, length_le16, List.length_cons,
      List.length_nil, tnfsHdrLen, tnfsStatusOff]
    omega
  have hdrop : (tnfsHeader sid seq cmd ++ (batch st pos es).body).drop (tnfsStatusOff + 5) =
    es.flatMap DirEntry.bytes := by
    have hpre : tnfsHeader sid seq cmd ++ (batch st pos es).body =
        (tnfsHeader sid seq cmd ++ [tnfsOk, UInt8.ofNat es.length, st] ++ le16 pos) ++
          es.flatMap DirEntry.bytes := by
      simp [body]
    rw [hpre]
    exact List.drop_left' rfl
  have hnum : ((tnfsHeader sid seq cmd ++ (batch st pos es).body).getD (tnfsStatusOff + 1) 0).toNat =
    es.length := by
    show (UInt8.ofNat es.length).toNat = es.length
    simp only [UInt8.toNat_ofNat']
    exact Nat.mod_eq_of_lt hcount
  rw [ReadIn, listxReply, if_neg (not_or.mpr ⟨by simp [hst], hlong⟩), hnum, hdrop, listxBatch_eq hes]
  rfl

theorem read_busy {ms : ℕ} (hms : ms < 65536) :
    (busy ms).ReadIn sid (tnfsHeader sid seq cmd ++ (busy ms).body) := by
  refine ⟨rfl, ?_⟩
  have hlong : tnfsStatusOff + 3 ≤ (tnfsHeader sid seq cmd ++ (busy ms).body).length := le_rfl
  have hms' : word (tnfsHeader sid seq cmd ++ (busy ms).body) (tnfsStatusOff + 1) = ms := by
    simpa [body] using word_behind sid seq cmd tnfsEagain [] (n := ms) hms
  rw [backoffMs, if_pos hlong, hms']

/-- An EAGAIN, with its two bytes. -/
theorem frames_busy (ms : ℕ) : Frames (tcpResponse cmd) (tnfsHeader sid seq cmd ++ (busy ms).body)
    (tnfsHeader sid seq cmd ++ (busy ms).body) := by
  have hst : replyStatus (tnfsHeader sid seq cmd ++ [tnfsEagain]) = tnfsEagain := replyStatus_header []
  have hms : Frames (tcpReadExact 2) (le16 ms) (le16 ms) := tcpReadExact_frames rfl
  have hbehind : Frames (tcpBehind cmd (tnfsHeader sid seq cmd ++ [tnfsEagain])) (le16 ms)
      (tnfsHeader sid seq cmd ++ [tnfsEagain] ++ le16 ms) := by
    rw [tcpBehind, hst, if_pos rfl]
    exact hms.bind_pure _
  simpa [body] using frames_header hbehind

/-- Every reply a command can get is taken off a stream whole and read right, but for the end of a file. -/
theorem Fits.decoded (h : r.Fits cmd) (hend : ¬ (cmd = tnfsRead ∧ r = failed tnfsEof)) :
    r.Decoded cmd sid (tnfsHeader sid seq cmd ++ r.body) := by
  cases r with
  | failed st =>
    refine ⟨frames_failed h.1 h.2 ?_, rfl⟩
    rintro ⟨hcmd, rfl⟩
    exact hend ⟨hcmd, rfl⟩
  | busy ms => exact ⟨frames_busy ms, read_busy h.2⟩
  | done =>
    have hextra : ([] : Bytes).length = tcpExtra cmd := by
      rcases h with rfl | rfl | rfl <;> rfl
    have hne : cmd ≠ tnfsRead ∧ cmd ≠ tnfsReaddir ∧ cmd ≠ tnfsReaddirx := by
      rcases h with rfl | rfl | rfl <;> decide
    exact ⟨frames_fixed hextra hne.1 hne.2.1 hne.2.2, rfl⟩
  | mounted ms =>
    subst (h : cmd = tnfsMount)
    refine ⟨frames_fixed (by rfl) (by decide) (by decide) (by decide), ?_⟩
    have hst : replyStatus (tnfsHeader sid seq tnfsMount ++ (mounted ms).body) = tnfsOk := rfl
    rw [ReadIn, mountReply, hst, if_neg (by simp), word_header]
  | file x =>
    subst (h : cmd = tnfsOpen)
    exact ⟨frames_fixed (by rfl) (by decide) (by decide) (by decide), rfl⟩
  | dir x =>
    subst (h : cmd = tnfsOpendir)
    exact ⟨frames_fixed (by rfl) (by decide) (by decide) (by decide), rfl⟩
  | listing x count =>
    subst (h : cmd = tnfsOpendirx)
    exact ⟨frames_fixed (by rfl) (by decide) (by decide) (by decide), rfl⟩
  | moved pos =>
    obtain ⟨rfl, hpos⟩ := h
    exact ⟨frames_fixed (by rfl) (by decide) (by decide) (by decide), read_moved hpos⟩
  | wrote n =>
    obtain ⟨rfl, hn⟩ := h
    exact ⟨frames_fixed (by rfl) (by decide) (by decide) (by decide), read_wrote hn⟩
  | data d =>
    obtain ⟨rfl, hlen⟩ := h
    exact ⟨frames_data hlen, read_data hlen⟩
  | name x =>
    obtain ⟨rfl, hx⟩ := h
    exact ⟨frames_name hx, read_name hx⟩
  | batch st pos es =>
    obtain ⟨rfl, hcount, hes, hroom⟩ := h
    exact ⟨frames_batch hcount hes hroom, read_batch hcount hes⟩

/-- The whole reply fits the reply buffer of the server. -/
theorem Fits.short (h : r.Fits cmd) : r.body.length ≤ tnfsMsgCap - tnfsHdrLen := by
  have hcap : tnfsMsgCap - tnfsHdrLen = 1028 := rfl
  have hbound : tnfsIoChunk = 1024 := rfl
  rw [hcap]
  cases r with
  | data d =>
    obtain ⟨-, hlen⟩ := h
    simp only [body, List.length_append, length_le16, List.length_singleton]
    omega
  | name x =>
    obtain ⟨-, hx⟩ := h
    have hshort : x.length < 256 := hx.short
    simp only [body, List.length_append, FdcSds.length_bytes, List.length_singleton]
    omega
  | batch st pos es =>
    obtain ⟨-, -, -, hroom⟩ := h
    simp only [body, List.length_append, length_le16, List.length_cons, List.length_nil]
    omega
  | _ => simp [body]

end Reply

end FdcSds.Tnfsd
