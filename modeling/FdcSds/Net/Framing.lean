import FdcSds.Net.TnfsClient
import FdcSds.Net.TnfsServer
import FdcSds.Schemes.Readers

/-! How the TNFS client takes a reply off a TCP stream, and what it reads in it.

    A reply has no length. `tcp_response` derives it from the command and the status: a fixed number of
    bytes behind the status, a counted block (READ), a string to its NUL (READDIR), or counted entries
    that each end in such a string (READDIRX).

        session(2) seq cmd status │ extra │ data, name, or entries
        └──────── 5 bytes ───────┘ by cmd   by what came before              -/

namespace FdcSds
open Schemes

/-! ### The stream -/

abbrev TcpReader : Type → Type := Reader EspErr UInt8

/-- `tcp_read_exact`, whose failure is the receive timeout (or the close) of the socket. -/
def tcpReadExact (n : ℕ) : TcpReader Bytes := readExact .timeout n

/-- How many bytes stand behind the status of a good reply, before any data or name. -/
def tcpExtra (cmd : UInt8) : ℕ :=
  if cmd = tnfsMount then 4          -- version(2) + retry(2)
  else if cmd = tnfsOpen then 1      -- fd
  else if cmd = tnfsOpendir then 1   -- dir handle
  else if cmd = tnfsOpendirx then 3  -- dir handle(1) + entry count(2)
  else if cmd = tnfsLseek then 4     -- position
  else if cmd = tnfsWrite then 2     -- count
  else if cmd = tnfsRead then 2      -- count, then that many data bytes
  else 0

/-- The data of a READ reply; `resp` is the reply so far, here and below. -/
def tcpData (resp : Bytes) : TcpReader Bytes :=
  let cnt := word resp (tnfsStatusOff + 1)
  if tnfsMsgCap < resp.length + cnt then throw .fail
  else do
    let data ← tcpReadExact cnt
    pure (resp ++ data)

/-- A name, read byte by byte to its NUL. A reply has no more bytes than there are rounds. -/
def tcpName : ℕ → Bytes → TcpReader Bytes
  | 0, _ => throw .fail
  | rounds + 1, resp =>
    if tnfsMsgCap ≤ resp.length then throw .fail
    else do
      let b ← tcpReadExact 1
      if b = [0] then pure (resp ++ b) else tcpName rounds (resp ++ b)

/-- The entries of a READDIRX reply. -/
def tcpEntries : ℕ → Bytes → TcpReader Bytes
  | 0, resp => pure resp
  | count + 1, resp =>
    if tnfsMsgCap < resp.length + tnfsReaddirxFixed then throw .fail
    else do
      let fixed ← tcpReadExact tnfsReaddirxFixed
      let resp ← tcpName tnfsMsgCap (resp ++ fixed)
      tcpEntries count resp

/-- What follows the fixed bytes of a good reply. -/
def tcpRest (cmd : UInt8) (resp : Bytes) : TcpReader Bytes :=
  if cmd = tnfsRead then tcpData resp
  else if cmd = tnfsReaddir then tcpName tnfsMsgCap resp
  else if cmd = tnfsReaddirx then do
    let counts ← tcpReadExact 4
    tcpEntries (counts.getD 0 0).toNat (resp ++ counts)
  else pure resp

/-- `tcp_response`. -/
def tcpResponse (cmd : UInt8) : TcpReader Bytes := do
  let resp ← tcpReadExact (tnfsStatusOff + 1)
  let status := replyStatus resp
  if status = tnfsEagain then do
    let ms ← tcpReadExact 2   -- backoff ms
    pure (resp ++ ms)
  else if status = tnfsOk ∨ (cmd = tnfsRead ∧ status = tnfsEof) then do
    let extra ← tcpReadExact (tcpExtra cmd)
    tcpRest cmd (resp ++ extra)
  else pure resp

/-! ### What the callers read -/

/-- The session id that `tnfs_mount_root` takes from the header. -/
def mountReply (m : Bytes) : Option UInt16 :=
  if replyStatus m ≠ tnfsOk then none else some (UInt16.ofNat (word m 0))

/-- The handle that OPEN, OPENDIR and OPENDIRX give. -/
def handleReply (m : Bytes) : Option UInt8 :=
  if replyStatus m ≠ tnfsOk ∨ m.length < tnfsStatusOff + 2 then none else some (m.getD (tnfsStatusOff + 1) 0)

/-- The position that `tnfs_query_size` takes for the size. -/
def positionReply (m : Bytes) : Option UInt32 :=
  if replyStatus m ≠ tnfsOk ∨ m.length < tnfsStatusOff + 5 then none
  else some (UInt32.ofNat (dword m (tnfsStatusOff + 1)))

/-- The name in a READDIR reply, as `tnfs_list_basic` makes a string of it: without a NUL, it puts one
    behind the reply, or over its last byte where the buffer is full. -/
def basicName (m : Bytes) : CStr :=
  let name := m.drop (tnfsStatusOff + 1)
  if name.contains 0 ∨ m.length < tnfsMsgCap then cstr name else cstr name.dropLast

/-- What a listing calls back with: a name, and whether it is a directory. -/
abbrev Listed : Type := CStr × Bool

/-- The loop of `tnfs_listx` over the entries of a reply: what it calls back with, and whether the reply
    had all the entries. -/
def listxBatch : ℕ → Bytes → List Listed × Bool
  | 0, _ => ([], true)
  | count + 1, p =>
    if p.length ≤ tnfsReaddirxFixed then ([], false)
    else
      let name := p.drop tnfsReaddirxFixed
      if name.contains 0 then
        let next := listxBatch count (name.drop ((cstr name).length + 1))
        if cstr name = [] then next
        else ((cstr name, p.getD 0 0 &&& tnfsDirentryDir != 0) :: next.1, next.2)
      else ([], false)

/-- The entries `tnfs_listx` finds in a READDIRX reply, and whether it is the last one. -/
def listxReply (m : Bytes) : Option ((List Listed × Bool) × Bool) :=
  if replyStatus m ≠ tnfsOk ∨ m.length < tnfsStatusOff + 1 + 4 then none
  else some (listxBatch (m.getD (tnfsStatusOff + 1) 0).toNat (m.drop (tnfsStatusOff + 5)),
    m.getD (tnfsStatusOff + 2) 0 &&& tnfsDirstatusEof != 0)

/-! ### Names and entries on the wire -/

/-- What `readdir` gives as a name: a C string in `char d_name[256]`, and not an empty one. -/
structure WireName (x : CStr) : Prop where
  ne : x ≠ []
  byte : ∀ c ∈ x, 0 < c.toNat ∧ c.toNat < 256
  short : x.length < Tnfsd.tnfsdNameCap

/-- A string of bytes but NUL. -/
def IsCString (x : CStr) : Prop := ∀ c ∈ x, 0 < c.toNat ∧ c.toNat < 256

variable {x : CStr}

theorem WireName.isCString (h : WireName x) : IsCString x := h.byte

theorem IsCString.toNat_byte (h : IsCString x) {c : Char} (hc : c ∈ x) :
    (UInt8.ofNat c.toNat).toNat = c.toNat := by
  simp only [UInt8.toNat_ofNat']
  exact Nat.mod_eq_of_lt (h c hc).2

/-- There is no NUL in it. -/
theorem IsCString.bytes_ne_zero (h : IsCString x) {b : UInt8} (hb : b ∈ CStr.bytes x) : b ≠ 0 := by
  obtain ⟨c, hc, rfl⟩ := List.mem_map.mp hb
  intro hzero
  have hnat := congrArg UInt8.toNat hzero
  rw [h.toNat_byte hc] at hnat
  exact absurd hnat (h c hc).1.ne'

@[simp] theorem length_bytes (x : CStr) : (CStr.bytes x).length = x.length := List.length_map _

/-- A string reads back up to its NUL, whatever follows. -/
theorem IsCString.cstr_bytes (h : IsCString x) (rest : Bytes) : cstr (CStr.bytes x ++ 0 :: rest) = x := by
  have hall : ∀ b ∈ CStr.bytes x, decide (b ≠ 0) = true := fun b hb => decide_eq_true (h.bytes_ne_zero hb)
  rw [cstr, List.takeWhile_append_of_pos hall, List.takeWhile_cons_of_neg (by decide), List.append_nil,
    CStr.bytes, List.map_map]
  refine (List.map_congr_left fun c hc => ?_).trans (List.map_id x)
  rw [Function.comp_apply, h.toNat_byte hc, Char.ofNat_toNat]
  rfl

theorem WireName.cstr_bytes (h : WireName x) (rest : Bytes) : cstr (CStr.bytes x ++ 0 :: rest) = x :=
  h.isCString.cstr_bytes rest

/-- READDIR clamps no name that came from `readdir`. -/
theorem WireName.take_bytes (hx : WireName x) :
    (CStr.bytes x).take (tnfsMsgCap - tnfsHdrLen - 2) = CStr.bytes x := by
  have hshort : x.length < 256 := hx.short
  have hcap : tnfsMsgCap - tnfsHdrLen - 2 = 1026 := rfl
  refine List.take_of_length_le ?_
  rw [length_bytes, hcap]
  omega

theorem tcpReadExact_frames {b : Bytes} {n : ℕ} (h : b.length = n) : Frames (tcpReadExact n) b b :=
  readExact_frames h

/-- `tcp_response` reads a name to its NUL, where the reply has room for it. -/
theorem tcpName_frames {bs resp : Bytes} {rounds : ℕ} (hne : ∀ b ∈ bs, b ≠ 0) (hrounds : bs.length < rounds)
    (hroom : resp.length + bs.length < tnfsMsgCap) :
    Frames (tcpName rounds resp) (bs ++ [0]) (resp ++ (bs ++ [0])) := by
  induction bs generalizing resp rounds with
  | nil =>
    obtain ⟨rounds, rfl⟩ := Nat.exists_eq_add_of_lt hrounds
    rw [List.length_nil, Nat.add_zero] at hroom
    rw [List.length_nil, Nat.zero_add, tcpName, if_neg (Nat.not_le.mpr hroom)]
    have hone : Frames (tcpReadExact 1) [(0 : UInt8)] [0] := tcpReadExact_frames rfl
    refine hone.bind (y := []) ?_
    rw [if_pos rfl]
    exact frames_pure _
  | cons b bs ih =>
    obtain ⟨rounds, rfl⟩ := Nat.exists_eq_add_of_lt hrounds
    rw [List.length_cons] at hroom
    have hb : ¬ [b] = [0] := by simpa using hne b List.mem_cons_self
    have hone : Frames (tcpReadExact 1) [b] [b] := tcpReadExact_frames rfl
    have hnext : Frames (tcpName (bs.length + 1 + rounds) (resp ++ [b])) (bs ++ [0])
      (resp ++ [b] ++ (bs ++ [0])) :=
      ih (fun b' hb' => hne b' (List.mem_cons_of_mem _ hb'))
      (by omega) (by rw [List.length_append, List.length_singleton]; omega)
    rw [List.length_cons, tcpName, if_neg (by omega)]
    refine hone.bind (y := bs ++ [0]) ?_
    rw [if_neg hb]
    simpa using hnext

namespace Tnfsd

/-- The bytes of an entry before its name. -/
def DirEntry.fixed (e : DirEntry) : Bytes := [e.flags] ++ le32 e.size ++ le32 e.mtime ++ le32 e.ctime

/-- What a listing calls back with for an entry. -/
def DirEntry.listed (e : DirEntry) : Listed := (e.name, e.flags &&& tnfsDirentryDir != 0)

variable {e : DirEntry} {es : List DirEntry}

theorem DirEntry.length_fixed (e : DirEntry) : e.fixed.length = tnfsReaddirxFixed := rfl

theorem DirEntry.bytes_eq (e : DirEntry) : e.bytes = e.fixed ++ (CStr.bytes e.name ++ [0]) :=
  List.append_assoc ..

theorem DirEntry.length_bytes (e : DirEntry) : e.bytes.length = tnfsReaddirxFixed + e.name.length + 1 := by
  rw [bytes_eq, List.length_append, length_fixed, List.length_append, FdcSds.length_bytes]
  rfl

/-- `tcp_response` reads the entries of a reply one by one. -/
theorem tcpEntries_frames {resp : Bytes} (hes : ∀ e ∈ es, WireName e.name)
    (hroom : resp.length + (es.flatMap DirEntry.bytes).length ≤ tnfsMsgCap) :
    Frames (tcpEntries es.length resp) (es.flatMap DirEntry.bytes) (resp ++ es.flatMap DirEntry.bytes) := by
  induction es generalizing resp with
  | nil =>
    rw [List.flatMap_nil, List.append_nil]
    exact frames_pure resp
  | cons e es ih =>
    have hname : WireName e.name := hes e List.mem_cons_self
    rw [List.flatMap_cons, List.length_append, e.length_bytes] at hroom
    rw [List.length_cons, tcpEntries, if_neg (by omega), List.flatMap_cons, e.bytes_eq, List.append_assoc]
    have hfixed : Frames (tcpReadExact tnfsReaddirxFixed) e.fixed e.fixed :=
      tcpReadExact_frames e.length_fixed
    refine hfixed.bind ?_
    have hread : Frames (tcpName tnfsMsgCap (resp ++ e.fixed)) (CStr.bytes e.name ++ [0])
        (resp ++ e.fixed ++ (CStr.bytes e.name ++ [0])) :=
      tcpName_frames (fun b => hname.isCString.bytes_ne_zero)
      (by rw [FdcSds.length_bytes]; omega)
      (by rw [List.length_append, e.length_fixed, FdcSds.length_bytes]; omega)
    refine hread.bind ?_
    have hrest := @ih (resp ++ e.fixed ++ (CStr.bytes e.name ++ [0]))
      (fun e' he' => hes e' (List.mem_cons_of_mem _ he'))
      (by simp only [List.length_append, e.length_fixed, FdcSds.length_bytes, List.length_singleton]; omega)
    simpa only [List.append_assoc] using hrest

/-- `tnfs_listx` calls back for every entry of a reply. -/
theorem listxBatch_eq (hes : ∀ e ∈ es, WireName e.name) :
    listxBatch es.length (es.flatMap DirEntry.bytes) = (es.map DirEntry.listed, true) := by
  induction es with
  | nil => rfl
  | cons e es ih =>
    have hname : WireName e.name := hes e List.mem_cons_self
    have hdrop : (List.flatMap DirEntry.bytes (e :: es)).drop tnfsReaddirxFixed =
        CStr.bytes e.name ++ 0 :: es.flatMap DirEntry.bytes := by
      rw [List.flatMap_cons, e.bytes_eq, List.append_assoc,
        List.drop_append_of_le_length (by rw [e.length_fixed]),
        List.drop_of_length_le (by rw [e.length_fixed]), List.nil_append, List.append_assoc,
          List.singleton_append]
    have hlong : ¬ (List.flatMap DirEntry.bytes (e :: es)).length ≤ tnfsReaddirxFixed := by
      rw [List.flatMap_cons, List.length_append, e.length_bytes]
      omega
    have hcstr : cstr (CStr.bytes e.name ++ 0 :: es.flatMap DirEntry.bytes) = e.name := hname.cstr_bytes _
    have hnext : (CStr.bytes e.name ++ 0 :: es.flatMap DirEntry.bytes).drop (e.name.length + 1) =
        es.flatMap DirEntry.bytes := by
      rw [← FdcSds.length_bytes, List.drop_append]
      simp
    rw [List.length_cons, listxBatch, if_neg hlong]
    simp only [hdrop, hcstr, hnext, if_neg hname.ne, ih fun e' he' => hes e' (List.mem_cons_of_mem _ he')]
    simp [DirEntry.listed, DirEntry.bytes_eq, DirEntry.fixed]

end Tnfsd

end FdcSds
