import FdcSds.Fdc.Refinement

/-! `dump` (`cmd_dump`, `dump_line`): a track as hexadecimal lines.

    A line has the offset, sixteen columns of three characters, and the bytes again as text. Its columns
    read back as the bytes, and they are the bytes of the image.

        00000010: 48 65 6c 6c 6f 0d 0a                             Hello..  -/

namespace FdcSds
open Schemes

/-! ### Lines -/

/-- `%02x`. -/
def hex2 (b : UInt8) : CStr := [Nat.digitChar (b.toNat / 16), Nat.digitChar (b.toNat % 16)]

/-- `%08lx`. -/
def hex8 (off : UInt32) : CStr := (List.range 8).map fun i => Nat.digitChar (off.toNat / 16 ^ (7 - i) % 16)

/-- The byte as text. -/
def dumpChar (b : UInt8) : Char := if 32 ≤ b ∧ b < 127 then Char.ofNat b.toNat else '.'

/-- The columns of `dump_line`. -/
def dumpCells : ℕ → Bytes → CStr
  | 0, _ => []
  | n + 1, [] => [' ', ' ', ' '] ++ dumpCells n []
  | n + 1, b :: p => hex2 b ++ ' ' :: dumpCells n p

/-- `dump_line`. -/
def dumpLine (off : UInt32) (p : Bytes) : CStr :=
  hex8 off ++ [':', ' '] ++ (dumpCells 16 p ++ ' ' :: p.map dumpChar ++ ['\r', '\n'])

/-- The lines of `cmd_dump`. -/
def dumpLines (data : Bytes) : List CStr :=
  (List.range ((data.length + 15) / 16)).map fun i => dumpLine (.ofNat (16 * i)) (slice data (16 * i) 16)

/-- The line above them. -/
def dumpHeader (drive : ℕ) (track : UInt32) (len : ℕ) : CStr :=
  "drive ".toList ++ Nat.toDigits 10 drive ++ " track ".toList ++
    Nat.toDigits 10 track.toNat ++ ", ".toList ++
    Nat.toDigits 10 len ++ " bytes:\r\n".toList

/-! ### The command -/

/-- `DUMP_DEFAULT_LEN`. -/
def dumpDefaultLen : ℕ := 256

/-- What `cmd_dump` says when there is nothing to show. -/
inductive DumpError where
  | outOfMemory
  | readFailed (e : EspErr)
  | noTrack
  deriving DecidableEq

namespace Disk

/-- What `cmd_dump` writes. -/
def dumpText (drive : ℕ) (track : UInt32) (len : ℕ) (data : Bytes) : List CStr :=
  dumpHeader drive track len :: dumpLines data

/-- `cmd_dump`, of the track its arguments name, or of the loaded one; `mem` is whether its buffer could
    be had. -/
def cmdDump (w : Disk) (mem : Bool) (args : Option (ℕ × UInt32 × ℕ)) : Disk × Except DumpError (List CStr) :=
  if mem = false then (w, .error .outOfMemory)
  else match args with
  | some (drive, track, len) =>
    match w.diskReadTrack drive track len with
    | (w, .error e) => (w, .error (.readFailed e))
    | (w, .ok data) => (w, .ok (dumpText drive track len data))
  | none =>
    -- what `disk_copy_track_buffer` gives
    if w.cache.valid ∧ w.cache.len ≠ 0 then
      (w, .ok (dumpText w.cache.drive w.cache.track w.cache.len (w.buf.take w.cache.len)))
    else
      match w.diskReadTrack 0 0 dumpDefaultLen with
      | (w, .error _) => (w, .error .noTrack)
      | (w, .ok data) => (w, .ok (dumpText 0 0 dumpDefaultLen data))

end Disk

/-! ### Reading a dump -/

/-- The value of a hexadecimal digit. -/
def hexValue (ch : Char) : ℕ := if ch.toNat < 58 then ch.toNat - 48 else ch.toNat - 87

/-- The bytes in the columns. -/
def cellBytes : ℕ → CStr → Bytes
  | n + 1, x :: y :: _ :: rest =>
    if x = ' ' then [] else UInt8.ofNat (16 * hexValue x + hexValue y) :: cellBytes n rest
  | _, _ => []

/-- The bytes of a line. -/
def lineBytes (line : CStr) : Bytes := cellBytes 16 (line.drop 10)

/-- The offset of a line. -/
def lineOffset (line : CStr) : ℕ := (line.take 8).foldl (fun n ch => 16 * n + hexValue ch) 0

theorem hexValue_digitChar {n : ℕ} (h : n < 16) : hexValue (Nat.digitChar n) = n ∧ Nat.digitChar n ≠ ' ' := by
  interval_cases n <;> decide

theorem length_hex8 (off : UInt32) : (hex8 off).length = 8 := rfl

theorem length_dumpCells (n : ℕ) (p : Bytes) : (dumpCells n p).length = 3 * n := by
  induction n generalizing p with
  | zero => rfl
  | succ n ih =>
    cases p <;> simp only [dumpCells, hex2, List.length_append, List.length_cons,
      List.length_nil, ih] <;> omega

theorem cellBytes_dumpCells {n : ℕ} {p : Bytes} (h : p.length ≤ n) (rest : CStr) :
    cellBytes n (dumpCells n p ++ rest) = p := by
  induction n generalizing p with
  | zero =>
    rw [List.length_eq_zero_iff.mp (Nat.le_zero.mp h)]
    rfl
  | succ n ih =>
    cases p with
    | nil => rfl
    | cons b p =>
      have hb := b.toNat_lt
      obtain ⟨hhigh, hno⟩ := hexValue_digitChar (n := b.toNat / 16) (by omega)
      obtain ⟨hlow, -⟩ := hexValue_digitChar (n := b.toNat % 16) (by omega)
      have hbyte : UInt8.ofNat (16 * (b.toNat / 16) + b.toNat % 16) = b := by
        rw [Nat.div_add_mod, UInt8.ofNat_toNat]
      have hrest' := ih (Nat.le_of_succ_le_succ h)
      simp only [dumpCells, hex2, List.cons_append, List.nil_append, cellBytes, if_neg hno,
        hhigh, hlow, hbyte, hrest']

/-- A line reads back as its bytes. -/
theorem lineBytes_dumpLine (off : UInt32) {p : Bytes} (h : p.length ≤ 16) :
    lineBytes (dumpLine off p) = p := by
  have hdrop : (dumpLine off p).drop 10 = dumpCells 16 p ++ (' ' :: p.map dumpChar ++ ['\r', '\n']) := by
    have hten : (hex8 off ++ [':', ' ']).length = 10 := rfl
    rw [dumpLine, ← hten, List.drop_left, List.append_assoc]
  rw [lineBytes, hdrop, cellBytes_dumpCells h]

/-- Its digits give the offset. -/
theorem lineOffset_dumpLine (off : UInt32) (p : Bytes) : lineOffset (dumpLine off p) = off.toNat := by
  have htake : (dumpLine off p).take 8 = hex8 off := by
    rw [dumpLine, List.append_assoc, ← length_hex8 off, List.take_left]
  have hlt := off.toNat_lt
  have hdigit : ∀ i, hexValue (Nat.digitChar (off.toNat / 16 ^ i % 16)) = off.toNat / 16 ^ i % 16 := fun i =>
    (hexValue_digitChar (Nat.mod_lt _ (by decide))).1
  rw [lineOffset, htake, hex8]
  simp only [List.range, List.range.loop, List.map_cons, List.map_nil, List.foldl_cons,
    List.foldl_nil, hdigit]
  omega

/-- A line fits its buffer of 96. -/
theorem length_dumpLine (off : UInt32) {p : Bytes} (h : p.length ≤ 16) : (dumpLine off p).length < 96 := by
  simp only [dumpLine, List.length_append, length_hex8, length_dumpCells, List.length_cons,
    List.length_nil, List.length_map]
  omega

theorem length_slice_le (c : Bytes) (off len : ℕ) : (slice c off len).length ≤ len := List.length_take_le ..

/-- The lines read back as the bytes. -/
theorem lineBytes_dumpLines (data : Bytes) : (dumpLines data).flatMap lineBytes = data := by
  have hline : ∀ i, lineBytes (dumpLine (.ofNat (16 * i)) (slice data (16 * i) 16)) = slice data
    (16 * i) 16 := fun i =>
    lineBytes_dumpLine _ (length_slice_le ..)
  rw [dumpLines, List.flatMap_map]
  simp only [hline]
  rw [flatMap_slices, List.take_of_length_le (by omega)]

/-- Their offsets go up in steps of sixteen. -/
theorem lineOffset_dumpLines {data : Bytes} (h : data.length < 2 ^ 32) :
    (dumpLines data).map lineOffset = (List.range ((data.length + 15) / 16)).map (16 * ·) := by
  rw [dumpLines, List.map_map]
  refine List.map_congr_left fun i hi => ?_
  have hlt : 16 * i < 2 ^ 32 := by
    have hin := List.mem_range.mp hi
    omega
  exact (lineOffset_dumpLine ..).trans (UInt32.toNat_ofNat_of_lt' hlt)

namespace Disk

/-- The lines are a dump of this track of what the image has. -/
structure Shows (w : Disk) (drive : ℕ) (track : UInt32) (len : ℕ) (lines : List CStr) : Prop where
  header : lines.head? = some (dumpHeader drive track len)
  served : ∃ b, w.Serves drive track len b ∧ lines.tail.flatMap lineBytes = w.trackOf w.img b track len
  offsets : lines.tail.map lineOffset = (List.range ((len + 15) / 16)).map (16 * ·)

variable {w : Disk} {drive len b : ℕ} {track : UInt32}

theorem shows_track (hz : w.Sized w.img) (hs : w.Serves drive track len b) :
    w.Shows drive track len (dumpText drive track len (w.trackOf w.img b track len)) := by
  have hlen := hs.trackOf_length hz
  have hle := hs.len_le
  refine ⟨rfl, ⟨b, hs, lineBytes_dumpLines _⟩, ?_⟩
  have hsmall : (w.trackOf w.img b track len).length < 2 ^ 32 := by
    rw [hlen]
    exact Nat.lt_of_le_of_lt hle (by decide)
  exact (lineOffset_dumpLines hsmall).trans (by rw [hlen])

/-- The track that a dump with these arguments is of: the one they name, or the loaded one, or the start
    of drive 0. -/
def dumped (w : Disk) : Option (ℕ × UInt32 × ℕ) → ℕ × UInt32 × ℕ
  | some named => named
  | none => if w.cache.valid then (w.cache.drive, w.cache.track, w.cache.len) else (0, 0, dumpDefaultLen)

/-- What a dump with these arguments gives. -/
def DumpOf (w : Disk) (mem : Bool) (args : Option (ℕ × UInt32 × ℕ)) : Except DumpError (List CStr) → Prop
  | .ok lines => mem = true ∧ w.Shows (w.dumped args).1 (w.dumped args).2.1 (w.dumped args).2.2 lines
  | .error .outOfMemory => mem = false
  | .error _ => mem = true ∧ ∀ b, ¬ w.Serves (w.dumped args).1 (w.dumped args).2.1 (w.dumped args).2.2 b

/-- A dump that reads its track. -/
theorem read_dump (hc : w.Coherent w.img) (hz : w.Sized w.img) (drive : ℕ) (track : UInt32) (len : ℕ) :
    ∃ w' r, w.diskReadTrack drive track len = (w', r) ∧ w'.img = w.img ∧ w'.drv = w.drv ∧ w'.Coherent w.img ∧
      ((∃ e, r = .error e ∧ ∀ b, ¬ w.Serves drive track len b) ∨
        ∃ data, r = .ok data ∧ w.Shows drive track len (dumpText drive track len data)) := by
  obtain ⟨w', r, hcall, hcoh, hdrv, -, himg, hcase⟩ := diskReadTrack_spec hc hz drive track len
  refine ⟨w', r, hcall, himg, hdrv, hcoh, ?_⟩
  rcases hcase with hfail | ⟨b, hs, hr⟩
  · exact .inl hfail
  · exact .inr ⟨_, hr, shows_track hz hs⟩

end Disk

end FdcSds
