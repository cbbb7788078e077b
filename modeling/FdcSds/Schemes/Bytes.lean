import Mathlib.Tactic.Common
import Mathlib.Data.List.Basic
import Mathlib.Algebra.Order.Ring.Nat

/-! Byte strings: slices, patches, little-endian numbers.

    `slice c off len` reads `len` bytes at `off`; `patch c off data` writes `data` at `off` and leaves
    every other byte alone. `memcpy` is C's `memcpy` onto the front of a buffer. `le16` / `word`
    encode and decode 16-bit little-endian numbers on naturals, so that bounds are plain arithmetic.

        c      │······│████ data ████│······│      patch c off data
               0     off        off+data.length                        -/

namespace Schemes

/-- A string of bytes. -/
abbrev Bytes := List UInt8

/-- The `len` bytes of `c` at `off` (fewer when `c` ends first). -/
def slice (c : Bytes) (off len : ℕ) : Bytes := (c.drop off).take len

/-- `c` with `data` written over the bytes at `off`. -/
def patch (c : Bytes) (off : ℕ) (data : Bytes) : Bytes :=
  c.take off ++ data ++ c.drop (off + data.length)

/-- Copy `src` onto the front of the buffer `dst`. -/
def memcpy (dst src : Bytes) : Bytes := src ++ dst.drop src.length

theorem length_slice {c : Bytes} {off len : ℕ} (h : off + len ≤ c.length) :
    (slice c off len).length = len := by
  simp only [slice, List.length_take, List.length_drop]; omega

theorem length_patch {c : Bytes} {off : ℕ} {data : Bytes} (h : off + data.length ≤ c.length) :
    (patch c off data).length = c.length := by
  simp only [patch, List.length_append, List.length_take, List.length_drop]; omega

/-- What was written is what is read back. -/
theorem slice_patch {c : Bytes} {off : ℕ} {data : Bytes} (h : off + data.length ≤ c.length) :
    slice (patch c off data) off data.length = data := by
  have hl : (c.take off).length = off := by rw [List.length_take]; omega
  rw [slice, patch, List.append_assoc, List.drop_append_of_le_length (by omega),
    List.drop_of_length_le (by omega), List.nil_append, List.take_left]

/-- A byte outside the written range keeps its value. -/
theorem getElem?_patch_of_outside {m : Bytes} {off : ℕ} {data : Bytes} {i : ℕ}
    (h : off + data.length ≤ m.length) (hi : i < off ∨ off + data.length ≤ i) :
    (patch m off data)[i]? = m[i]? := by
  have hl : (m.take off).length = off := by rw [List.length_take]; omega
  rcases hi with hi | hi
  · rw [patch, List.append_assoc, List.getElem?_append_left (by omega), List.getElem?_take_of_lt hi]
  · rw [patch, List.getElem?_append_right (by rw [List.length_append]; omega), List.getElem?_drop,
      List.length_append, hl]
    congr 1; omega

/-- A part that the written range does not touch keeps its bytes. -/
theorem slice_patch_apart {c : Bytes} {off : ℕ} {data : Bytes} {off' len : ℕ}
    (h : off + data.length ≤ c.length) (hapart : off' + len ≤ off ∨ off + data.length ≤ off') :
    slice (patch c off data) off' len = slice c off' len := by
  refine List.ext_getElem? fun i => ?_
  rw [slice, slice, List.getElem?_take, List.getElem?_take]
  split
  · rw [List.getElem?_drop, List.getElem?_drop]
    exact getElem?_patch_of_outside h (by omega)
  · rfl

/-- A string that agrees with another piece by piece is a prefix of it. -/
theorem prefix_of_slices {a b : Bytes} {n len : ℕ} (ha : a.length = n * len)
    (h : ∀ t < n, slice b (t * len) len = slice a (t * len) len) : a <+: b := by
  have hall : ∀ k ≤ n, b.take (k * len) = a.take (k * len) := by
    intro k
    induction k with
    | zero => simp
    | succ k ih =>
      intro hk
      have hpiece : (b.drop (k * len)).take len = (a.drop (k * len)).take len := h k (by omega)
      rw [Nat.succ_mul, List.take_add, List.take_add, ih (by omega), hpiece]
  have htake := hall n le_rfl
  rw [List.take_of_length_le ha.le] at htake
  exact List.prefix_iff_eq_take.mpr (by rw [ha, htake])

/-- The pieces of a string, one behind the other. -/
theorem flatMap_slices (c : Bytes) (n len : ℕ) :
    (List.range n).flatMap (fun i => slice c (len * i) len) = c.take (len * n) := by
  induction n with
  | zero => simp
  | succ n ih =>
    have hlast : [n].flatMap (fun i => slice c (len * i) len) = (c.drop (len * n)).take len :=
      List.flatMap_singleton ..
    rw [List.range_succ, List.flatMap_append, ih, hlast, Nat.mul_succ, List.take_add]

/-- Overwriting a middle part of the same length. -/
theorem patch_middle (pre mid post data : Bytes) (off : ℕ) (hoff : pre.length = off)
    (hmid : mid.length = data.length) : patch (pre ++ mid ++ post) off data = pre ++ data ++ post := by
  subst hoff
  have htake : (pre ++ mid ++ post).take pre.length = pre := by
    rw [List.append_assoc, List.take_left]
  have hdrop : (pre ++ mid ++ post).drop (pre.length + data.length) = post := by
    rw [← hmid, ← List.length_append, List.drop_left]
  rw [patch, htake, hdrop]

/-- Only the last of two writes to the same range shows. -/
theorem patch_patch {c a b : Bytes} {off : ℕ} (hab : a.length = b.length)
    (hin : off + a.length ≤ c.length) : patch (patch c off a) off b = patch c off b := by
  have hpre : (c.take off).length = off := by rw [List.length_take]; omega
  calc patch (patch c off a) off b
      = c.take off ++ b ++ c.drop (off + a.length) := patch_middle _ a _ b off hpre hab
    _ = patch c off b := by rw [patch, hab]

/-- Writing what is there changes nothing. -/
theorem patch_slice {c : Bytes} {off len : ℕ} (hin : off + len ≤ c.length) :
    patch c off (slice c off len) = c := by
  rw [patch, length_slice hin, slice, List.append_assoc, ← List.drop_drop, List.take_append_drop,
    List.take_append_drop]

/-- `bs'` is `bs` with `data` at `off`, and nothing else that was there is changed. Where `data` begins
    behind the end of `bs`, what lies between is left open. -/
structure Overwritten (bs : Bytes) (off : ℕ) (data bs' : Bytes) : Prop where
  there : ∀ i < data.length, bs'[off + i]? = data[i]?
  elsewhere : ∀ i < bs.length, i < off ∨ off + data.length ≤ i → bs'[i]? = bs[i]?
  length : bs'.length = if data = [] then bs.length else max bs.length (off + data.length)

/-- `bs'` begins with `bs`, and goes to `off` at most where it is longer. -/
structure Extended (bs : Bytes) (off : ℕ) (bs' : Bytes) : Prop where
  front : bs <+: bs'
  length : bs'.length ≤ max bs.length off

theorem Extended.refl (bs : Bytes) (off : ℕ) : Extended bs off bs := ⟨List.prefix_rfl, Nat.le_max_left _ _⟩

/-- Within the string there is nothing to extend. -/
theorem Extended.eq {bs bs' : Bytes} {off : ℕ} (h : Extended bs off bs') (hoff : off ≤ bs.length) :
    bs' = bs :=
  (h.front.eq_of_length (le_antisymm h.front.length_le (by rw [← max_eq_left hoff]; exact h.length))).symm

theorem Overwritten.nil (bs : Bytes) (off : ℕ) : Overwritten bs off [] bs where
  there := by
    rintro i ⟨⟩
  elsewhere := fun _ _ _ => rfl
  length := rfl

section Overwriting
variable {bs bs' bs'' data data' : Bytes} {off : ℕ}

theorem Overwritten.length_of_ne_nil (h : Overwritten bs off data bs') (hne : data ≠ []) :
    bs'.length = max bs.length (off + data.length) := by
  rw [h.length, if_neg hne]

/-- Writing where the string was extended for it. -/
theorem Overwritten.of_extended (hext : Extended bs off bs')
    (h : Overwritten bs' off data bs'') (hne : data ≠ []) :
    Overwritten bs off data bs'' where
  there := h.there
  elsewhere := by
    intro i hi hout
    rw [h.elsewhere i (Nat.lt_of_lt_of_le hi hext.front.length_le) hout]
    exact (List.prefix_iff_getElem?.mp hext.front i hi).trans (List.getElem?_eq_getElem hi).symm
  length := by
    have hle := hext.front.length_le
    have hbound := hext.length
    rw [if_neg hne, h.length_of_ne_nil hne]
    omega

/-- Writing on from where the first part ended. -/
theorem Overwritten.append (h : Overwritten bs off data bs')
    (h' : Overwritten bs' (off + data.length) data' bs'') (hne : data ≠ []) :
    Overwritten bs off (data ++ data') bs'' := by
  have hlen := h.length_of_ne_nil hne
  have hlen' := h'.length
  refine ⟨fun i hi => ?_, fun i hi hout => ?_, ?_⟩
  · rw [List.length_append] at hi
    by_cases hfirst : i < data.length
    · rw [h'.elsewhere (off + i) (by omega) (by omega), h.there i hfirst, List.getElem?_append_left hfirst]
    · rw [List.getElem?_append_right (by omega), ← h'.there (i - data.length) (by omega)]
      congr 1
      omega
  · rw [List.length_append] at hout
    rw [h'.elsewhere i (by omega) (by omega), h.elsewhere i hi (by omega)]
  · have hne' : data ++ data' ≠ [] := fun h => hne (List.append_eq_nil_iff.mp h).1
    rw [if_neg hne', hlen', List.length_append]
    split
    · next hnil =>
      rw [hnil, hlen]
      rfl
    · omega

/-- A patch writes. -/
theorem overwritten_patch (h : off ≤ bs.length) : Overwritten bs off data (patch bs off data) := by
  have hfront : (bs.take off).length = off := by rw [List.length_take]; omega
  have hlen : (patch bs off data).length = off + data.length + (bs.length - (off + data.length)) := by
    rw [patch, List.length_append, List.length_append, hfront, List.length_drop]
  refine ⟨fun i hi => ?_, fun i hi hout => ?_, ?_⟩
  · rw [patch, List.append_assoc, List.getElem?_append_right (by omega), List.getElem?_append_left (by omega)]
    congr 1
    omega
  · rcases hout with hout | hout
    · rw [patch, List.append_assoc, List.getElem?_append_left (by omega), List.getElem?_take_of_lt hout]
    · rw [patch, List.getElem?_append_right (by rw [List.length_append]; omega), List.getElem?_drop,
        List.length_append, hfront]
      congr 1
      omega
  · rw [hlen]
    split
    · next hnil =>
      rw [hnil, List.length_nil]
      omega
    · omega

end Overwriting

theorem take_memcpy {dst src : Bytes} {n : ℕ} (h : src.length = n) :
    (memcpy dst src).take n = src := by
  rw [memcpy, ← h, List.take_left]

/-! ### Little-endian 16-bit words -/

/-- The two bytes of `n mod 2^16`, low byte first. -/
def le16 (n : ℕ) : Bytes := [UInt8.ofNat (n % 256), UInt8.ofNat (n / 256 % 256)]

/-- The 16-bit word at `off` of a block (missing bytes read as zero). -/
def word (c : Bytes) (off : ℕ) : ℕ := (c.getD off 0).toNat + 256 * (c.getD (off + 1) 0).toNat

@[simp] theorem length_le16 (n : ℕ) : (le16 n).length = 2 := rfl

theorem word_lt (c : Bytes) (off : ℕ) : word c off < 65536 := by
  have h₀ := (c.getD off 0).toNat_lt
  have h₁ := (c.getD (off + 1) 0).toNat_lt
  simp only [word]; omega

theorem le16_mod (n : ℕ) : le16 (n % 65536) = le16 n := by
  simp only [le16, List.cons.injEq, and_true]
  constructor <;> congr 1 <;> omega

/-- A word written little-endian reads back as itself, wherever it stands. -/
theorem word_le16 (pre post : Bytes) (n : ℕ) (hn : n < 65536) :
    word (pre ++ le16 n ++ post) pre.length = n := by
  have h₀ : (pre ++ le16 n ++ post).getD pre.length 0 = UInt8.ofNat (n % 256) := by
    simp [le16, List.getD_eq_getElem?_getD]
  have h₁ : (pre ++ le16 n ++ post).getD (pre.length + 1) 0 = UInt8.ofNat (n / 256 % 256) := by
    simp [le16, List.getD_eq_getElem?_getD]
  rw [word, h₀, h₁]
  simp only [UInt8.toNat_ofNat']
  omega

/-! ### Little-endian 32-bit words -/

/-- The four bytes of `n mod 2^32`, low byte first. -/
def le32 (n : ℕ) : Bytes := le16 n ++ le16 (n / 65536)

/-- The 32-bit word at `off` of a block. -/
def dword (c : Bytes) (off : ℕ) : ℕ := word c off + 65536 * word c (off + 2)

@[simp] theorem length_le32 (n : ℕ) : (le32 n).length = 4 := rfl

/-- A double word written little-endian reads back as itself. -/
theorem dword_le32 (pre post : Bytes) (n : ℕ) (hn : n < 2 ^ 32) :
    dword (pre ++ le32 n ++ post) pre.length = n := by
  have h₀ : word (pre ++ le32 n ++ post) pre.length = n % 65536 := by
    have := word_le16 pre (le16 (n / 65536) ++ post) (n % 65536) (Nat.mod_lt _ (by decide))
    have hle : le16 (n % 65536) = le16 n := by
      simp only [le16, List.cons.injEq, and_true]
      constructor <;> congr 1 <;> omega
    rw [hle] at this
    rw [le32, ← List.append_assoc, List.append_assoc (pre ++ le16 n)]
    exact this
  have h₁ : word (pre ++ le32 n ++ post) (pre.length + 2) = n / 65536 := by
    have := word_le16 (pre ++ le16 n) post (n / 65536) (by omega)
    rw [List.length_append, length_le16] at this
    rw [le32, ← List.append_assoc]
    exact this
  rw [dword, h₀, h₁]
  omega

/-- The sum of the bytes as a natural number. -/
def byteSum (c : Bytes) : ℕ := (c.map UInt8.toNat).sum

@[simp] theorem byteSum_nil : byteSum [] = 0 := rfl

@[simp] theorem byteSum_cons (b : UInt8) (c : Bytes) : byteSum (b :: c) = b.toNat + byteSum c := by
  simp [byteSum]

end Schemes
