import FdcSds.Schemes.Content
import FdcSds.Sd.Vfs

/-! What the program relies on in the card's file calls.

    `Posix` states the documented behaviour of `read`, `write` and `lseek` on a descriptor: `file s fd`
    is what the file behind `fd` holds and `pos s fd` where it stands. It says nothing about calls that
    fail. `Slate` is a card with a single file, on which runs can be computed. -/

namespace FdcSds
open Schemes

/-- The biggest file a FAT volume holds, in bytes. -/
def fatFileMax : ℕ := 2 ^ 32 - 1

/-- The file calls of `world` do what POSIX says. -/
structure Posix {σ : Type} (world : σ → (c : SysCall) → σ × c.Answer) (file : σ → ℕ → Content)
    (pos : σ → ℕ → ℕ) : Prop where
  read : ∀ s fd n r, (world s (.read fd n)).2 = .ok r →
    r.length ≤ n ∧ (file s fd).Holds (pos s fd) r ∧ file (world s (.read fd n)).1 fd = file s fd ∧
      pos (world s (.read fd n)).1 fd = pos s fd + r.length
  write : ∀ s fd data w, (world s (.write fd data)).2 = .ok w →
    w ≤ data.length ∧
      (file s fd).Written (pos s fd) (data.take w) (file (world s (.write fd data)).1 fd) ∧
      pos (world s (.write fd data)).1 fd = pos s fd + w
  seek : ∀ s fd off r, (world s (.lseek fd off .set)).2 = .ok r →
    0 ≤ off ∧ (file s fd).Extends off.toNat (file (world s (.lseek fd off .set)).1 fd) ∧
      pos (world s (.lseek fd off .set)).1 fd = off.toNat
  fits : ∀ s fd i, fatFileMax ≤ i → file s fd i = none

/-- A card with one file and one position. -/
structure Slate where
  contents : Bytes
  pos : ℕ
  fits : contents.length ≤ fatFileMax

namespace Slate

/-- The bytes after a write at the position; a gap before it reads as zero. -/
def after (s : Slate) (data : Bytes) : Bytes :=
  s.contents.take s.pos ++ List.replicate (s.pos - s.contents.length) 0 ++ data ++
    s.contents.drop (s.pos + data.length)

def moved (s : Slate) (off : ℤ) : Slate × Except Errno ℕ :=
  if 0 ≤ off then ({ s with pos := off.toNat }, .ok off.toNat) else (s, .error .einval)

/-- Every OPEN gives the same descriptor, and there is nothing else on the card. -/
def call (s : Slate) : (c : SysCall) → Slate × c.Answer
  | .open _ _ => ({ s with pos := 0 }, .ok 3)
  | .read _ n =>
    let r := slice s.contents s.pos n
    ({ s with pos := s.pos + r.length }, .ok r)
  | .write _ data =>
    if h : (s.after data).length ≤ fatFileMax then
      ({ contents := s.after data, pos := s.pos + data.length, fits := h }, .ok data.length)
    else (s, .error .enospc)
  | .lseek _ off .set => s.moved off
  | .lseek _ off .cur => s.moved (s.pos + off)
  | .lseek _ off .fromEnd => s.moved (s.contents.length + off)
  | .stat _ => (s, .error .enoent)
  | .mkdir _ | .rmdir _ | .unlink _ | .rename _ _ => (s, .error .enoent)
  | .opendir _ => (s, .error .enotdir)
  | .readdir _ => (s, none)
  | .close _ | .rewinddir _ | .closedir _ | .changeEnd => (s, ())
  | .changeBegin _ => (s, none)

def file (s : Slate) (_ : ℕ) : Content := fun i => s.contents[i]?

theorem after_written (s : Slate) (data : Bytes) :
    Content.Written (fun i => s.contents[i]?) s.pos data fun i => (s.after data)[i]? := by
  have hgap : (s.contents.take s.pos ++ List.replicate (s.pos - s.contents.length) 0).length = s.pos := by
    simp only [List.length_append, List.length_take, List.length_replicate]
    omega
  have hbehind : ∀ i, s.pos + data.length ≤ i → (s.after data)[i]? = s.contents[i]? := by
    intro i hi
    rw [after, List.getElem?_append_right (by rw [List.length_append, hgap]; omega), List.getElem?_drop,
      List.length_append, hgap]
    congr 1
    omega
  refine ⟨fun k hk => ?_, fun i hi hout => ?_, hbehind⟩
  · simp only [after]
    rw [List.getElem?_append_left (by rw [List.length_append, hgap]; omega),
      List.getElem?_append_right (by omega), hgap]
    congr 1
    omega
  · rcases hout with hlt | hge
    · have hin : i < s.contents.length := by simpa using hi
      simp only [after]
      rw [List.getElem?_append_left (by rw [List.length_append, hgap]; omega),
        List.getElem?_append_left (by omega), List.getElem?_append_left (by rw [List.length_take]; omega),
        List.getElem?_take_of_lt hlt]
    · exact hbehind i hge

/-- The one-file card behaves as documented. -/
theorem posix : Posix call file fun s _ => s.pos where
  read := by
    rintro s fd n r ⟨⟩
    refine ⟨List.length_take_le .., fun k hk => ?_, rfl, rfl⟩
    have hlt : k < n := lt_of_lt_of_le hk (List.length_take_le ..)
    simp only [file, slice, List.getElem?_take_of_lt hlt, List.getElem?_drop]
  write := by
    intro s fd data w hok
    simp only [call] at hok ⊢
    split at hok
    · next hfits =>
      cases hok
      rw [dif_pos hfits, List.take_length]
      exact ⟨le_rfl, s.after_written data, rfl⟩
    · cases hok
  seek := by
    intro s fd off r hok
    simp only [call, moved] at hok ⊢
    split at hok
    · next hoff =>
      rw [if_pos hoff]
      exact ⟨hoff, .refl, rfl⟩
    · cases hok
  fits := by
    intro s fd i hi
    have := s.fits
    exact List.getElem?_eq_none (by omega)

end Slate

end FdcSds
