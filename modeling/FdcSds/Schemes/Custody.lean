import Mathlib.Tactic.Common
import Mathlib.Logic.Equiv.Basic

/-! Custody of tokens.

    Tokens are numbered in the order they are made; at any time the tokens made so far are spread over
    places. `Custody n held` says that each of the `n` tokens is held at exactly one place and that
    nothing else is held. It is the no-loss, no-duplication half of every ownership argument: a step
    makes a token (`alloc`), carries tokens from place to place (`relocate`), or does neither
    (`congr`); what a place *means* is up to the user.

        held l x  ⟺  x < n ∧ owner x = l                                         -/

namespace Schemes

variable {L : Type} {n : ℕ} {held held' : L → ℕ → Prop}

/-- Each of the tokens `0 … n-1` is held at exactly one place, and no other token at any. -/
def Custody (n : ℕ) (held : L → ℕ → Prop) : Prop :=
  ∃ owner : ℕ → L, ∀ l x, held l x ↔ x < n ∧ owner x = l

namespace Custody

theorem lt (h : Custody n held) {l : L} {x : ℕ} (hx : held l x) : x < n := by
  obtain ⟨owner, ho⟩ := h
  exact ((ho l x).mp hx).1

/-- No token is in two places. -/
theorem unique (h : Custody n held) {l l' : L} {x : ℕ} (hx : held l x) (hx' : held l' x) : l = l' := by
  obtain ⟨owner, ho⟩ := h
  exact ((ho l x).mp hx).2.symm.trans ((ho l' x).mp hx').2

/-- No token is lost. -/
theorem exists_holder (h : Custody n held) {x : ℕ} (hx : x < n) : ∃ l, held l x := by
  obtain ⟨owner, ho⟩ := h
  exact ⟨owner x, (ho _ x).mpr ⟨hx, rfl⟩⟩

theorem congr (h : Custody n held) (heq : ∀ l x, held' l x ↔ held l x) : Custody n held' := by
  obtain ⟨owner, ho⟩ := h
  exact ⟨owner, fun l x => (heq l x).trans (ho l x)⟩

/-- Tokens are carried: where a token goes depends on the token and on where it was. -/
theorem relocate (h : Custody n held) (f : ℕ → L → L)
    (heq : ∀ l x, held' l x ↔ ∃ l₀, held l₀ x ∧ f x l₀ = l) : Custody n held' := by
  obtain ⟨owner, ho⟩ := h
  refine ⟨fun x => f x (owner x), fun l x => (heq l x).trans ⟨?_, ?_⟩⟩
  · rintro ⟨l₀, hl₀, rfl⟩
    obtain ⟨hx, rfl⟩ := (ho l₀ x).mp hl₀
    exact ⟨hx, rfl⟩
  · rintro ⟨hx, rfl⟩
    exact ⟨owner x, (ho _ x).mpr ⟨hx, rfl⟩, rfl⟩

/-- One token goes from `p` to `q`; every other place keeps what it holds. -/
theorem move (h : Custody n held) {b : ℕ} {p q : L} (hb : held p b) (hpq : p ≠ q)
    (hfrom : ∀ x, held' p x ↔ held p x ∧ x ≠ b) (hto : ∀ x, held' q x ↔ held q x ∨ x = b)
    (hother : ∀ l, l ≠ p → l ≠ q → ∀ x, held' l x ↔ held l x) : Custody n held' := by
  classical
  refine h.relocate (fun x l => if x = b then q else l) fun l x => ?_
  by_cases hx : x = b
  · subst hx
    simp only [if_true]
    constructor
    · intro hl
      refine ⟨p, hb, ?_⟩
      by_contra hne
      by_cases hlp : l = p
      · subst hlp; exact ((hfrom x).mp hl).2 rfl
      · exact hlp (h.unique ((hother l hlp (Ne.symm hne) x).mp hl) hb)
    · rintro ⟨-, -, rfl⟩
      exact (hto x).mpr (.inr rfl)
  · simp only [if_neg hx, exists_eq_right]
    by_cases hlp : l = p
    · subst hlp; rw [hfrom]; exact and_iff_left hx
    by_cases hlq : l = q
    · subst hlq; rw [hto]; exact or_iff_left hx
    · exact hother l hlp hlq x

/-- Two places trade all they hold. -/
theorem swap [DecidableEq L] (h : Custody n held) (p q : L)
    (heq : ∀ l x, held' l x ↔ held (Equiv.swap p q l) x) : Custody n held' := by
  refine h.relocate (fun _ l => Equiv.swap p q l) fun l x => (heq l x).trans ⟨?_, ?_⟩
  · intro hl
    exact ⟨_, hl, Equiv.swap_apply_self ..⟩
  · rintro ⟨l₀, hl₀, rfl⟩
    rwa [Equiv.swap_apply_self]

/-- The next token is made and held at `p`. -/
theorem alloc (h : Custody n held) (p : L)
    (heq : ∀ l x, held' l x ↔ held l x ∨ (l = p ∧ x = n)) : Custody (n + 1) held' := by
  obtain ⟨owner, ho⟩ := h
  refine ⟨fun x => if x = n then p else owner x, fun l x => (heq l x).trans ?_⟩
  rw [ho l x]
  by_cases hx : x = n
  · subst hx
    simp only [Nat.lt_irrefl, false_and, and_true, false_or, if_true, Nat.lt_succ_self, true_and]
    exact eq_comm
  · simp only [hx, and_false, or_false, if_false]
    have : x < n ↔ x < n + 1 := by omega
    rw [this]

end Custody

end Schemes
