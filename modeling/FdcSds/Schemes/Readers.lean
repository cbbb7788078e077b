import Mathlib.Tactic.Common
import Mathlib.Data.List.Basic

/-! Readers of a stream.

    A reader takes something off the front of a stream, or fails. It frames `x` as `a` when, whatever
    follows `x` in the stream, it takes exactly `x` and gives `a`: messages without a length of their
    own can then stand one behind the other.

        stream   x ++ rest  ──reader──▶  a,  rest          for every rest          -/

namespace Schemes

/-- A program that takes tokens off a stream, or fails. -/
abbrev Reader (ε T α : Type) : Type := StateT (List T) (Except ε) α

variable {ε T α β : Type}

/-- The reader takes exactly `x` off the stream, and makes `a` of it. -/
def Frames (p : Reader ε T α) (x : List T) (a : α) : Prop := ∀ rest, p.run (x ++ rest) = .ok (a, rest)

/-- The next `n` tokens; `e` when the stream ends before. -/
def readExact (e : ε) (n : ℕ) : Reader ε T (List T) := fun s =>
  if n ≤ s.length then .ok (s.take n, s.drop n) else .error e

variable {p : Reader ε T α} {f : α → Reader ε T β} {x y : List T} {a : α} {b : β} {e : ε} {n : ℕ}

theorem frames_pure (a : α) : Frames (pure a : Reader ε T α) [] a := fun _ => rfl

/-- The rule of sequence: what the parts take stands one behind the other. -/
theorem Frames.bind (hp : Frames p x a) (hf : Frames (f a) y b) : Frames (p >>= f) (x ++ y) b := by
  intro rest
  rw [StateT.run_bind, List.append_assoc, hp]
  exact hf rest

/-- A reader that takes nothing more after its first part. -/
theorem Frames.bind_pure (hp : Frames p x a) (g : α → β) : Frames (p >>= fun a => pure (g a)) x (g a) := by
  have h := hp.bind (f := fun a => pure (g a)) (frames_pure (g a))
  rwa [List.append_nil] at h

theorem readExact_frames (h : x.length = n) : Frames (readExact e n) x x := by
  intro rest
  subst h
  show (if x.length ≤ (x ++ rest).length then _ else _) = _
  rw [if_pos (by simp), List.take_left, List.drop_left]

theorem readExact_short {s : List T} (h : s.length < n) :
    (readExact e n : Reader ε T (List T)).run s = .error e :=
  if_neg (Nat.not_le.mpr h)

/-- A sequence fails where its first part does. -/
theorem run_bind_error {s : List T} {e : ε} (h : p.run s = .error e) : (p >>= f).run s = .error e := by
  rw [StateT.run_bind, h]
  rfl

/-- A sequence goes on where its first part stops. -/
theorem Frames.run_bind (hp : Frames p x a) (rest : List T) : (p >>= f).run (x ++ rest) = (f a).run rest := by
  rw [StateT.run_bind, hp]
  rfl

end Schemes
