import FdcSds.Schemes.Bytes

/-! Additive checksums.

    A body is closed by the sum of its bytes, modulo 2^16 and little-endian. Replacing one byte moves the
    sum by less than 256, or the stored word by less than 2^16, so it never goes unnoticed.

        │ c ………………………… │ Σc │          -/

namespace Schemes

variable {c body : Bytes} {i n : ℕ} {b : UInt8}

/-- The body, closed by its sum. -/
def withSum (c : Bytes) : Bytes := c ++ le16 (byteSum c % 65536)

/-- The word behind the first `n` bytes is their sum. -/
def Summed (n : ℕ) (body : Bytes) : Prop := word body n = byteSum (body.take n) % 65536

instance (n : ℕ) (body : Bytes) : Decidable (Summed n body) := inferInstanceAs (Decidable (_ = _))

@[simp] theorem length_withSum (c : Bytes) : (withSum c).length = c.length + 2 := by simp [withSum]

theorem withSum_summed (c : Bytes) : Summed c.length (withSum c) := by
  have hword : word (c ++ le16 (byteSum c % 65536) ++ []) c.length = byteSum c % 65536 :=
    word_le16 _ _ _ (Nat.mod_lt _ (by decide))
  rw [List.append_nil] at hword
  rw [Summed, withSum, hword, List.take_left]

theorem byteSum_set (hi : i < c.length) (b : UInt8) : byteSum (c.set i b) + (c.getD i 0).toNat =
      byteSum c + b.toNat := by
  induction c generalizing i with
  | nil => cases hi
  | cons a c ih =>
    cases i with
    | zero =>
      rw [List.set_cons_zero, byteSum_cons, byteSum_cons, List.getD_cons_zero]
      omega
    | succ i =>
      have hrest := ih (Nat.lt_of_succ_lt_succ hi)
      rw [List.set_cons_succ, byteSum_cons, byteSum_cons, List.getD_cons_succ]
      omega

theorem toNat_ne {a b : UInt8} (h : b ≠ a) : b.toNat ≠ a.toNat := fun hsame => h (UInt8.toNat.inj hsame)

/-- The sum of the bytes moves, also modulo 2^16. -/
theorem byteSum_set_ne (hi : i < c.length) (hb : b ≠ c.getD i 0) :
    byteSum (c.set i b) % 65536 ≠ byteSum c % 65536 := by
  have hsum := byteSum_set hi b
  have hne := toNat_ne hb
  have hold := (c.getD i 0).toNat_lt
  have hnew := b.toNat_lt
  omega

theorem getD_set_ne {j : ℕ} (h : i ≠ j) : (body.set i b).getD j 0 = body.getD j 0 := by
  rw [List.getD_eq_getElem?_getD, List.getD_eq_getElem?_getD, List.getElem?_set_ne h]

theorem getD_set_self (h : i < body.length) : (body.set i b).getD i 0 = b := by
  rw [List.getD_eq_getElem?_getD, List.getElem?_set_self h]
  rfl

/-- One byte that is replaced, of the body or of the sum behind it, is noticed. -/
theorem Summed.set_ne (h : Summed n body) (hlen : body.length = n + 2) (hi : i < body.length)
    (hb : b ≠ body.getD i 0) :
    ¬Summed n (body.set i b) := by
  intro hset
  rw [Summed] at h hset
  have hne := toNat_ne hb
  by_cases hin : i < n
  · -- the word stands, the sum has moved
    have hword : word (body.set i b) n = word body n := by
      rw [word, word, getD_set_ne (Nat.ne_of_lt hin), getD_set_ne (Nat.ne_of_lt (Nat.lt_succ_of_lt hin))]
    have hfront : i < (body.take n).length := by
      rw [List.length_take]
      omega
    have hold : b ≠ (body.take n).getD i 0 := by
      rwa [List.getD_eq_getElem?_getD, List.getElem?_take_of_lt hin, ← List.getD_eq_getElem?_getD]
    rw [hword, h, List.take_set] at hset
    exact byteSum_set_ne hfront hold hset.symm
  · -- the sum stands, the word has moved
    have hback : (body.set i b).take n = body.take n := List.take_set_of_le (Nat.le_of_not_lt hin)
    rw [hback, ← h, word, word] at hset
    obtain rfl | rfl : i = n ∨ i = n + 1 := by omega
    · rw [getD_set_self hi, getD_set_ne (by omega)] at hset
      omega
    · rw [getD_set_ne (by omega), getD_set_self hi] at hset
      omega

end Schemes
