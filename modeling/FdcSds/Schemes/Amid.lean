import FdcSds.Schemes.Programs
import Mathlib.Logic.Relation

/-! Programs amid others.

    Between any two calls of a program, others may change the state. `E` is a change of theirs, `O` a call of
    the program's own with its answer, which the world may choose. `Amid E O s p s' a`: begun in `s`, the
    program may end in `s'` with `a`. What the others keep can be carried from call to call, so the rules are
    those of a program that runs alone.

        s ──E──▶ ──E──▶ ──O, call c──▶ ──E──▶ ──O──▶ … ──E──▶ s' -/

namespace Schemes.Prog

variable {C : Type} {R : C → Type} {α β σ : Type}

inductive Amid (E : σ → σ → Prop) (O : σ → (c : C) → σ → R c → Prop) : σ → Prog C R α → σ → α → Prop where
  | ret (s : σ) (a : α) : Amid E O s (.ret a) s a
  | other {s s' s'' : σ} {p : Prog C R α} {a : α} (h : E s s') (rest : Amid E O s' p s'' a) :
      Amid E O s p s'' a
  | own {s s' s'' : σ} {c : C} {k : R c → Prog C R α} {r : R c} {a : α} (h : O s c s' r)
      (rest : Amid E O s' (k r) s'' a) :
      Amid E O s (.call c k) s'' a

variable {E : σ → σ → Prop} {O : σ → (c : C) → σ → R c → Prop} {s s' s'' : σ} {p : Prog C R α}
    {f : α → Prog C R β} {a : α} {b : β}

/-- What every change of the others keeps, any number of them keeps. -/
theorem keeps_all {I : σ → Prop} (hkeep : ∀ s s', I s → E s s' → I s')
    (h : Relation.ReflTransGen E s s') (hs : I s) : I s' := by
  induction h with
  | refl => exact hs
  | tail _ hmove ih => exact hkeep _ _ ih hmove

/-- Once it has returned only the others go on. -/
theorem Amid.ret_inv {a' : α} (h : Amid E O s (pure a) s' a') : a' = a ∧ Relation.ReflTransGen E s s' := by
  generalize hp : (pure a : Prog C R α) = p at h
  induction h with
  | ret s a' =>
    cases hp
    exact ⟨rfl, .refl⟩
  | other hmove _ ih =>
    obtain ⟨ha, hrest⟩ := ih hp
    exact ⟨ha, .head hmove hrest⟩
  | own => cases hp

/-- A call: the others, the call itself, and the rest. -/
theorem Amid.ask_inv {c : C} {k : R c → Prog C R β} (h : Amid E O s (ask c >>= k) s' b) :
    ∃ s₁ s₂ r, Relation.ReflTransGen E s s₁ ∧ O s₁ c s₂ r ∧ Amid E O s₂ (k r) s' b := by
  have hcall : (ask c >>= k) = .call c k := rfl
  rw [hcall] at h
  generalize hp : Prog.call c k = p at h
  induction h with
  | ret => cases hp
  | other hmove _ ih =>
    obtain ⟨s₁, s₂, r, hothers, hown, hrest⟩ := ih hp
    exact ⟨s₁, s₂, r, .head hmove hothers, hown, hrest⟩
  | own hown hrest =>
    cases hp
    exact ⟨_, _, _, .refl, hown, hrest⟩

/-- A sequence runs its parts one after the other. -/
theorem Amid.bind_inv (h : Amid E O s (p >>= f) s' b) :
    ∃ s₁ a, Amid E O s p s₁ a ∧ Amid E O s₁ (f a) s' b := by
  generalize hq : p >>= f = q at h
  induction h generalizing p with
  | ret s b =>
    cases p with
    | ret a =>
      have hrest : f a = .ret b := hq
      refine ⟨s, a, .ret s a, ?_⟩
      rw [hrest]
      exact .ret s b
    | call => cases hq
  | other hmove _ ih =>
    obtain ⟨s₁, a, hfirst, hrest⟩ := ih hq
    exact ⟨s₁, a, .other hmove hfirst, hrest⟩
  | @own s _ _ c k _ _ hown hrest ih =>
    cases p with
    | ret a =>
      have hcall : f a = .call c k := hq
      refine ⟨s, a, .ret s a, ?_⟩
      rw [hcall]
      exact .own hown hrest
    | call c' k' =>
      cases hq
      obtain ⟨s₁, a, hfirst, hrest'⟩ := ih rfl
      exact ⟨s₁, a, .own hown hfirst, hrest'⟩

/-- A run with nobody else is one of the runs amid others. What it is played on may have more to it,
    which `π` leaves out. -/
theorem Amid.of_run {τ : Type} {π : τ → σ} {world : τ → (c : C) → τ × R c} {I : τ → Prop} {t : τ}
    (hworld : ∀ t c, I t → O (π t) c (π (world t c).1) (world t c).2 ∧ I (world t c).1) (ht : I t) :
    Amid E O (π t) p (π (run world t p).1) (run world t p).2 ∧ I (run world t p).1 := by
  induction p generalizing t with
  | ret a => exact ⟨.ret (π t) a, ht⟩
  | call c k ih =>
    obtain ⟨hown, hnext⟩ := hworld t c ht
    obtain ⟨hrest, hend⟩ := ih _ hnext
    exact ⟨.own hown hrest, hend⟩

end Schemes.Prog
