import Mathlib.Data.Nat.Bitwise
import Mathlib.Tactic.IntervalCases
import FdcSds.Schemes.Bytes

/-! The FDC+ block layout and disk geometry (`include/protocol.h`).

    A command or response block is ten bytes: a four-byte mnemonic, two little-endian words, and the
    16-bit sum of the first eight bytes. The geometry helpers compute in 32 bits; `inBounds_iff` shows
    that the guarded comparison is the exact one, so no product wraps on a track that passes.

        0      4       6       8       10
        │ mnem │ word1 │ word2 │ cksum │                                  -/

namespace FdcSds
open Schemes

def fdcBlockLen : ℕ := 10
def fdcCmdLen : ℕ := 4
def fdcChecksumLen : ℕ := 2
def fdcOffWord1 : ℕ := 4
def fdcOffWord2 : ℕ := 6
def fdcOffCksum : ℕ := 8

def fdcRespOk : UInt16 := 0
def fdcRespNotReady : UInt16 := 1
def fdcRespCsumErr : UInt16 := 2
def fdcRespWriteErr : UInt16 := 3

/-- The shared track buffer holds one track of at most this many bytes. -/
def diskTrackBufSize : ℕ := 8192

/-- Drives are numbered `0 … diskMaxDrive - 1`. -/
def diskMaxDrive : ℕ := 4

/-- The 16-bit sum of the bytes. -/
def fdcChecksum16 (data : Bytes) : UInt16 := data.foldl (fun sum b => sum + b.toUInt16) 0

/-- The little-endian word at `off`. -/
def fdcReadLe16 (p : Bytes) (off : ℕ) : UInt16 :=
  (p.getD off 0).toUInt16 ||| (p.getD (off + 1) 0).toUInt16 <<< 8

/-- The two bytes `fdc_write_le16` stores. -/
def fdcWriteLe16 (v : UInt16) : Bytes := [v.toUInt8, (v >>> 8).toUInt8]

/-- Store the sum of bytes 0..7 in bytes 8..9. -/
def fdcBlockFinalize (block : Bytes) : Bytes :=
  patch block fdcOffCksum (fdcWriteLe16 (fdcChecksum16 (block.take fdcOffCksum)))

/-- The trailing checksum matches the first eight bytes. -/
def fdcBlockValid (block : Bytes) : Bool :=
  fdcReadLe16 block fdcOffCksum == fdcChecksum16 (block.take fdcOffCksum)

/-- READ/WRIT drive: the top nibble of Word1. -/
def fdcWord1Drive (word1 : UInt16) : UInt8 := (word1 >>> 12).toUInt8

/-- READ/WRIT track: the low twelve bits of Word1. -/
def fdcWord1Track (word1 : UInt16) : UInt16 := word1 &&& 0x0FFF

def diskTrackOffset (track trackLen : UInt32) : UInt32 := track * trackLen

/-- The whole track fits inside the image; the multiply is guarded against overflow. -/
def diskTrackInBounds (track trackLen imageSize : UInt32) : Bool :=
  if trackLen == 0 then false
  else if 0xFFFFFFFF / trackLen < track then false
  else
    let off := track * trackLen
    if imageSize < off then false else trackLen ≤ imageSize - off

/-- The STAT mount bitmap: bit `i` for drive `i`, at most sixteen drives. -/
def diskStatusBitmapOf (mounted : List Bool) : UInt16 :=
  (mounted.take 16).zipIdx.foldl (fun bits p => if p.1 then bits ||| 1 <<< UInt16.ofNat p.2 else bits) 0

/-! ### The helpers in exact integers -/

theorem checksum_foldl (data : Bytes) (sum : UInt16) :
    (data.foldl (fun sum b => sum + b.toUInt16) sum).toNat = (sum.toNat + byteSum data) % 65536 := by
  induction data generalizing sum with
  | nil => simp only [List.foldl_nil, byteSum_nil, Nat.add_zero]; have := sum.toNat_lt; omega
  | cons b data ih =>
    rw [List.foldl_cons, ih, UInt16.toNat_add, UInt8.toNat_toUInt16, byteSum_cons]; omega

/-- The checksum is the byte sum modulo 2^16. -/
theorem toNat_checksum16 (data : Bytes) : (fdcChecksum16 data).toNat = byteSum data % 65536 := by
  rw [fdcChecksum16, checksum_foldl]; simp

theorem or_shift8 (a b : UInt8) : (a.toUInt16 ||| b.toUInt16 <<< 8).toNat = a.toNat + 256 * b.toNat := by
  have ha := a.toNat_lt
  have hb := b.toNat_lt
  rw [UInt16.toNat_or, UInt16.toNat_shiftLeft, UInt8.toNat_toUInt16, UInt8.toNat_toUInt16]
  have h8 : (8 : UInt16).toNat % 16 = 8 := rfl
  rw [h8, Nat.mod_eq_of_lt (by rw [Nat.shiftLeft_eq]; omega), Nat.or_comm,
    ← Nat.shiftLeft_add_eq_or_of_lt (by omega), Nat.shiftLeft_eq]
  omega

theorem toNat_readLe16 (p : Bytes) (off : ℕ) : (fdcReadLe16 p off).toNat = word p off := by
  rw [fdcReadLe16, or_shift8, word]

theorem writeLe16_eq (v : UInt16) : fdcWriteLe16 v = le16 v.toNat := by
  have hv := v.toNat_lt
  simp only [fdcWriteLe16, le16, List.cons.injEq, and_true]
  constructor <;> apply UInt8.toNat.inj <;>
    simp only [UInt16.toNat_toUInt8, UInt8.toNat_ofNat', UInt16.toNat_shiftRight]
  · omega
  · rw [show (8 : UInt16).toNat % 16 = 8 from rfl, Nat.shiftRight_eq_div_pow]; omega

/-- A received block is valid iff its last word is the sum of its first eight bytes. -/
theorem blockValid_iff (block : Bytes) :
    fdcBlockValid block = true ↔ word block fdcOffCksum = byteSum (block.take fdcOffCksum) % 65536 := by
  rw [fdcBlockValid, beq_iff_eq, ← toNat_readLe16, ← toNat_checksum16]
  exact ⟨fun h => by rw [h], fun h => UInt16.toNat.inj h⟩

theorem toNat_word1Drive (w : UInt16) : (fdcWord1Drive w).toNat = w.toNat / 4096 := by
  have hw := w.toNat_lt
  rw [fdcWord1Drive, UInt16.toNat_toUInt8, UInt16.toNat_shiftRight,
    show (12 : UInt16).toNat % 16 = 12 from rfl, Nat.shiftRight_eq_div_pow]
  omega

theorem toNat_word1Track (w : UInt16) : (fdcWord1Track w).toNat = w.toNat % 4096 := by
  rw [fdcWord1Track, UInt16.toNat_and, show (0x0FFF : UInt16).toNat = 2 ^ 12 - 1 from rfl,
    Nat.and_two_pow_sub_one_eq_mod]

/-- The guarded 32-bit test accepts exactly the tracks that lie inside the image. -/
theorem inBounds_iff (track trackLen imageSize : UInt32) :
    diskTrackInBounds track trackLen imageSize = true ↔
      0 < trackLen.toNat ∧ (track.toNat + 1) * trackLen.toNat ≤ imageSize.toNat := by
  have hs := imageSize.toNat_lt
  unfold diskTrackInBounds
  by_cases h0 : trackLen = 0
  · simp [h0]
  have hpos : 0 < trackLen.toNat := by
    rcases Nat.eq_zero_or_pos trackLen.toNat with h | h
    · exact absurd (UInt32.toNat.inj (by simpa using h)) h0
    · exact h
  rw [if_neg (by simpa using h0)]
  have hdiv : ((0xFFFFFFFF : UInt32) / trackLen).toNat = 4294967295 / trackLen.toNat := by
    rw [UInt32.toNat_div]; rfl
  by_cases hov : (0xFFFFFFFF : UInt32) / trackLen < track
  · rw [if_pos hov]
    rw [UInt32.lt_iff_toNat_lt, hdiv, Nat.div_lt_iff_lt_mul hpos] at hov
    simp only [Bool.false_eq_true, false_iff, not_and]
    intro _ hle
    rw [Nat.add_mul, Nat.one_mul] at hle
    omega
  rw [if_neg hov]
  rw [UInt32.lt_iff_toNat_lt, hdiv, Nat.not_lt, Nat.le_div_iff_mul_le hpos] at hov
  have hmul : (track * trackLen).toNat = track.toNat * trackLen.toNat := by
    rw [UInt32.toNat_mul, Nat.mod_eq_of_lt (by omega)]
  rw [Nat.add_mul, Nat.one_mul]
  by_cases hoff : imageSize < track * trackLen
  · rw [if_pos hoff]
    rw [UInt32.lt_iff_toNat_lt, hmul] at hoff
    simp only [Bool.false_eq_true, false_iff, not_and]
    intro _; omega
  · rw [if_neg hoff, decide_eq_true_eq, UInt32.le_iff_toNat_le]
    rw [UInt32.lt_iff_toNat_lt, hmul, Nat.not_lt] at hoff
    rw [UInt32.toNat_sub_of_le _ _ (UInt32.le_iff_toNat_le.mpr (by rw [hmul]; exact hoff)), hmul]
    omega

/-- A track inside the image starts at the exact product: the 32-bit offset does not wrap. -/
theorem toNat_trackOffset {track trackLen imageSize : UInt32}
    (h : diskTrackInBounds track trackLen imageSize = true) :
    (diskTrackOffset track trackLen).toNat = track.toNat * trackLen.toNat := by
  have hs := imageSize.toNat_lt
  obtain ⟨_, hle⟩ := (inBounds_iff ..).mp h
  rw [Nat.add_mul, Nat.one_mul] at hle
  rw [diskTrackOffset, UInt32.toNat_mul, Nat.mod_eq_of_lt (by omega)]

/-- Four drives: bit `n` of the bitmap is set iff drive `n` is mounted. -/
theorem testBit_statusBitmap (f : ℕ → Bool) (n : ℕ) :
    (diskStatusBitmapOf ((List.range 4).map f)).toNat.testBit n = (decide (n < 4) && f n) := by
  have hr : (List.range 4).map f = [f 0, f 1, f 2, f 3] := rfl
  have hlow : ∀ (a b c d : Bool) (k : Fin 4),
      (diskStatusBitmapOf [a, b, c, d]).toNat.testBit k = [a, b, c, d].get k := by decide
  have hsmall : ∀ a b c d : Bool, (diskStatusBitmapOf [a, b, c, d]).toNat < 2 ^ 4 := by decide
  rw [hr]
  rcases Nat.lt_or_ge n 4 with hn | hn
  · rw [hlow _ _ _ _ ⟨n, hn⟩, decide_eq_true hn, Bool.true_and]
    interval_cases n <;> rfl
  · rw [decide_eq_false (by omega), Bool.false_and]
    exact Nat.testBit_lt_two_pow (Nat.lt_of_lt_of_le (hsmall ..) (Nat.pow_le_pow_right (by omega) hn))

end FdcSds
