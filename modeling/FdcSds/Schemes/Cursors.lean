import Mathlib.Tactic.Common
import Mathlib.Data.List.Basic

/-! A read cursor and a write cursor over one buffer.

    What is kept goes to the front; the write cursor stands behind it and lags the read cursor by a gap.
    Keeping an element moves both cursors and shifts the gap, dropping one moves the read cursor only.

        │ kept │ gap │ unread │
               ▲     ▲
             write  read          -/

namespace Schemes

namespace Cursors

variable {α : Type} (kept gap unread : List α) (a b : α)

/-- Writing at the write cursor, when something is behind it. -/
theorem set_write (rest : List α) (hrest : rest ≠ []) :
    (kept ++ rest).set kept.length b = kept ++ b :: rest.tail := by
  obtain ⟨c, cs, rfl⟩ := List.exists_cons_of_ne_nil hrest
  rw [List.set_append_right _ _ (Nat.le_refl _), Nat.sub_self, List.set_cons_zero, List.tail_cons]

/-- The element under the read cursor is kept: nothing unread is lost. -/
theorem keep : (kept ++ gap ++ b :: unread).set kept.length b = kept ++ [b] ++
      (gap ++ [b]).tail ++ unread := by
  have hsplit : kept ++ gap ++ b :: unread = kept ++ (gap ++ [b] ++ unread) := by simp
  have htail : (gap ++ [b] ++ unread).tail = (gap ++ [b]).tail ++ unread :=
    List.tail_append_of_ne_nil (by simp)
  rw [hsplit, set_write _ _ _ (by simp), htail]
  simp

theorem length_keep : (gap ++ [b]).tail.length = gap.length := by simp

/-- The element under the read cursor is dropped. -/
theorem skip : kept ++ gap ++ b :: unread = kept ++ (gap ++ [b]) ++ unread := by simp

/-- A mark behind what is kept, when the read cursor is past something that was dropped. -/
theorem close (hgap : gap ≠ []) : (kept ++ gap ++ unread).set kept.length a = kept ++ [a] ++
      gap.tail ++ unread := by
  rw [List.append_assoc, set_write _ _ _ (by simp [hgap]), List.tail_append_of_ne_nil hgap]
  simp

/-- What is under the read cursor. -/
theorem getD_read (d : α) : (kept ++ gap ++ b :: unread).getD (kept.length + gap.length) d = b := by
  rw [← List.length_append, List.getD_eq_getElem?_getD,
    List.getElem?_append_right (Nat.le_refl _), Nat.sub_self]
  rfl

end Cursors

end Schemes
