import Mathlib.Tactic.Common

/-! Programs over calls.

    A program is a tree: it returns, or makes a call and goes on with the answer. `C` is the type of
    calls and `R c` the type of answers to `c`. `run` plays a program against a world that answers each
    call at once; a machine that interleaves programs keeps the rest of each as its program point and
    takes one call at a time.

        ret a            call c ──answer r : R c──▶ k r            -/

namespace Schemes

/-- A program over calls `C` with answers `R`. -/
inductive Prog (C : Type) (R : C → Type) (α : Type) where
  | ret (a : α)
  | call (c : C) (k : R c → Prog C R α)

namespace Prog

variable {C : Type} {R : C → Type} {α β σ : Type}

def bind : Prog C R α → (α → Prog C R β) → Prog C R β
  | .ret a, f => f a
  | .call c k, f => .call c fun r => (k r).bind f

instance : Monad (Prog C R) where
  pure := .ret
  bind := .bind

/-- A single call. -/
def ask (c : C) : Prog C R (R c) := .call c .ret

/-- Play a program against a world that answers each call at once. -/
def run (world : σ → (c : C) → σ × R c) : σ → Prog C R α → σ × α
  | s, .ret a => (s, a)
  | s, .call c k => run world (world s c).1 (k (world s c).2)

variable {world : σ → (c : C) → σ × R c}

@[simp] theorem run_pure (s : σ) (a : α) : run world s (pure a : Prog C R α) = (s, a) := rfl

@[simp] theorem run_ask (s : σ) (c : C) : run world s (ask c) = world s c := rfl

theorem run_bind_eq (s : σ) (p : Prog C R α) (f : α → Prog C R β) :
    run world s (p.bind f) = run world (run world s p).1 (f (run world s p).2) := by
  induction p generalizing s with
  | ret a => rfl
  | call c k ih => exact ih _ _

/-- A sequence runs its parts one after the other. -/
@[simp] theorem run_bind (s : σ) (p : Prog C R α) (f : α → Prog C R β) :
    run world s (p >>= f) = run world (run world s p).1 (f (run world s p).2) := run_bind_eq s p f

/-- Whatever the calls answer, the result satisfies `P`. -/
def Ensures (P : α → Prop) : Prog C R α → Prop
  | .ret a => P a
  | .call _ k => ∀ r, (k r).Ensures P

variable {P : α → Prop} {Q : β → Prop} {p : Prog C R α} {f : α → Prog C R β}

@[simp] theorem ensures_pure {a : α} : (pure a : Prog C R α).Ensures P ↔ P a := Iff.rfl

@[simp] theorem ensures_ask {c : C} {P : R c → Prop} : (ask c : Prog C R (R c)).Ensures P ↔ ∀ r, P r :=
  Iff.rfl

theorem ensures_of_forall (h : ∀ a, P a) : p.Ensures P := by
  induction p with
  | ret a => exact h a
  | call c k ih => exact fun r => ih r

theorem ensures_ite {c : Prop} [Decidable c] {q : Prog C R α} (hp : p.Ensures P) (hq : q.Ensures P) :
    (if c then p else q).Ensures P := by
  split
  · exact hp
  · exact hq

theorem Ensures.bind (hp : p.Ensures fun a => (f a).Ensures Q) : (p >>= f).Ensures Q := by
  induction p with
  | ret a => exact hp
  | call c k ih => exact fun r => ih r (hp r)

theorem Ensures.mono {P' : α → Prop} (h : p.Ensures P) (hle : ∀ a, P a → P' a) : p.Ensures P' := by
  induction p with
  | ret a => exact hle a h
  | call c k ih => exact fun r => ih r (h r)

theorem Ensures.and {P' : α → Prop} (h : p.Ensures P) (h' : p.Ensures P') :
    p.Ensures fun a => P a ∧ P' a := by
  induction p with
  | ret a => exact ⟨h, h'⟩
  | call c k ih => exact fun r => ih r (h r) (h' r)

/-- The first part does not matter to what the second one ensures. -/
theorem Ensures.bind_of_forall (h : ∀ a, (f a).Ensures Q) : (p >>= f).Ensures Q :=
  Ensures.bind (ensures_of_forall h)

/-- What a program ensures holds of its result in every world. -/
theorem Ensures.run (h : p.Ensures P) (world : σ → (c : C) → σ × R c) (s : σ) :
    P (Prog.run world s p).2 := by
  induction p generalizing s with
  | ret a => exact h
  | call c k ih => exact ih _ (h _) _

end Prog

end Schemes
