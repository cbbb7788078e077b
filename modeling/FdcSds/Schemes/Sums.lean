import FdcSds.Schemes.Programs

/-! Programs over calls of two kinds.

    A program over calls `C` is one over `C ⊕ D` that makes no call of the other kind. Two worlds side by
    side answer both kinds, each in its own state; the part of a program that makes calls of one kind runs
    as in its own world, and leaves the other state alone.

        inl p : C-calls only          inr q : D-calls only          both w₁ w₂ : answers to either -/

namespace Schemes

namespace Prog

variable {C D : Type} {R : C → Type} {S : D → Type} {α β σ τ : Type}

/-- The answers to calls of two kinds. -/
abbrev Either (R : C → Type) (S : D → Type) : C ⊕ D → Type := Sum.elim R S

def inl : Prog C R α → Prog (C ⊕ D) (Either R S) α
  | .ret a => .ret a
  | .call c k => .call (.inl c) fun r => (k r).inl

def inr : Prog D S α → Prog (C ⊕ D) (Either R S) α
  | .ret a => .ret a
  | .call d k => .call (.inr d) fun r => (k r).inr

/-- Two worlds side by side. -/
def both (world : σ → (c : C) → σ × R c) (world' : τ → (d : D) → τ × S d) (s : σ × τ) :
    (e : C ⊕ D) → (σ × τ) × Either R S e
  | .inl c => (((world s.1 c).1, s.2), (world s.1 c).2)
  | .inr d => ((s.1, (world' s.2 d).1), (world' s.2 d).2)

variable {world : σ → (c : C) → σ × R c} {world' : τ → (d : D) → τ × S d}

@[simp] theorem run_inl (s : σ × τ) (p : Prog C R α) :
    run (both world world') s p.inl = (((run world s.1 p).1, s.2), (run world s.1 p).2) := by
  induction p generalizing s with
  | ret a => rfl
  | call c k ih => exact ih _ _

@[simp] theorem run_inr (s : σ × τ) (p : Prog D S α) :
    run (both world world') s p.inr = ((s.1, (run world' s.2 p).1), (run world' s.2 p).2) := by
  induction p generalizing s with
  | ret a => rfl
  | call d k ih => exact ih _ _

end Prog

end Schemes
