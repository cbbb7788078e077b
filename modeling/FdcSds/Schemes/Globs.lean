import Mathlib.Tactic.Common
import Mathlib.Data.List.Basic
import Mathlib.Data.List.Forall2

/-! Patterns of single elements and runs.

    A piece of a pattern takes one element that it accepts, or a run of elements. A run may be pinned: one
    that would start at an element it is pinned to takes that element and no more. A search that has to
    place a run tries its starts from left to right, and goes for good with the first that leads to the
    next run: whatever fits behind a later one fits behind that one too.

        run │ tried: a b c │ run      the first try that comes to the next run is as good as any
              └ a later try ─┘                                                                    -/

namespace Schemes

/-- A piece of a pattern: one element, or a run that may be pinned. -/
inductive Piece (α : Type) where
  | one (ok : α → Bool)
  | run (pin : α → Bool)

variable {α : Type} {p : Piece α} {ps r : List (Piece α)} {a : α} {as ss : List α} {ok pin : α → Bool}

namespace Piece

/-- The piece takes this element and nothing else. -/
def steps : Piece α → α → Bool
  | .one ok, a => ok a
  | .run pin, a => pin a

/-- What a piece may take, whether it is pinned or not. -/
def Takes : Piece α → List α → Prop
  | .one ok, part => ∃ a, part = [a] ∧ ok a = true
  | .run _, _ => True

end Piece

namespace Glob

/-- The elements can be dealt out to the pieces in order. -/
def Splits (ps : List (Piece α)) (as : List α) : Prop := ∃ parts : List (List α), parts.flatten = as ∧
      List.Forall₂ Piece.Takes ps parts

/-- They can, with every run that starts at an element it is pinned to taking just that element. -/
def Fits : List (Piece α) → List α → Prop
  | [], as => as = []
  | .one ok :: ps, as => ∃ a rest, as = a :: rest ∧ ok a = true ∧ Fits ps rest
  | .run pin :: ps, as => ∃ n, (∀ a ∈ as.head?, pin a = true → n = 1) ∧ Fits ps (as.drop n)

/-- Some end of the list fits. -/
def Somewhere (ps : List (Piece α)) (as : List α) : Prop := ∃ k, Fits ps (as.drop k)

/-! ### Splitting -/

theorem splits_nil : Splits ([] : List (Piece α)) as ↔ as = [] := by
  constructor
  · rintro ⟨parts, rfl, hparts⟩
    cases hparts
    rfl
  · rintro rfl
    exact ⟨[], rfl, .nil⟩

theorem splits_one : Splits (.one ok :: ps) as ↔ ∃ a rest, as = a :: rest ∧ ok a = true ∧ Splits ps rest := by
  constructor
  · rintro ⟨_, rfl, hparts⟩
    cases hparts with
    | cons htakes hrest =>
      obtain ⟨a, rfl, hok⟩ := htakes
      exact ⟨a, _, rfl, hok, _, rfl, hrest⟩
  · rintro ⟨a, rest, rfl, hok, parts, rfl, hparts⟩
    exact ⟨[a] :: parts, rfl, .cons ⟨a, rfl, hok⟩ hparts⟩

theorem splits_run : Splits (.run pin :: ps) as ↔ ∃ n, Splits ps (as.drop n) := by
  constructor
  · rintro ⟨_, rfl, hparts⟩
    cases hparts with
    | @cons _ part _ rest _ hrest =>
      refine ⟨part.length, rest, ?_, hrest⟩
      rw [List.flatten_cons, List.drop_left]
  · rintro ⟨n, parts, hflat, hparts⟩
    refine ⟨as.take n :: parts, ?_, .cons trivial hparts⟩
    rw [List.flatten_cons, hflat, List.take_append_drop]

/-- What fits splits. -/
theorem Fits.splits (h : Fits ps as) : Splits ps as := by
  induction ps generalizing as with
  | nil => exact splits_nil.mpr h
  | cons p ps ih =>
    cases p with
    | one ok =>
      obtain ⟨a, rest, rfl, hok, hrest⟩ := h
      exact splits_one.mpr ⟨a, rest, rfl, hok, ih hrest⟩
    | run pin =>
      obtain ⟨n, -, hrest⟩ := h
      exact splits_run.mpr ⟨n, ih hrest⟩

/-- What splits fits, when no run is pinned to any of it. -/
theorem Splits.fits (h : Splits ps as) (hfree : ∀ pin, Piece.run pin ∈ ps → ∀ a ∈ as, pin a = false) :
    Fits ps as := by
  induction ps generalizing as with
  | nil => exact splits_nil.mp h
  | cons p ps ih =>
    have hlater : ∀ pin, Piece.run pin ∈ ps → ∀ a ∈ as, pin a = false :=
      fun pin hmem => hfree pin (List.mem_cons_of_mem _ hmem)
    cases p with
    | one ok =>
      obtain ⟨a, rest, rfl, hok, hrest⟩ := splits_one.mp h
      exact ⟨a, rest, rfl, hok, ih hrest fun pin hmem b hb => hlater pin hmem b (List.mem_cons_of_mem _ hb)⟩
    | run pin =>
      obtain ⟨n, hrest⟩ := splits_run.mp h
      refine ⟨n, fun a ha hpin => ?_, ih hrest fun pin hmem b hb =>
        hlater pin hmem b (List.mem_of_mem_drop hb)⟩
      rw [hfree pin (List.mem_cons_self ..) a (List.mem_of_mem_head? ha)] at hpin
      cases hpin

/-! ### Fitting -/

/-- Only runs fit the empty list. -/
theorem fits_nil : Fits ps ([] : List α) ↔ ∀ p ∈ ps, ∃ pin, p = .run pin := by
  induction ps with
  | nil => simp [Fits]
  | cons p ps ih =>
    rw [List.forall_mem_cons, ← ih]
    cases p with
    | one ok => simp [Fits]
    | run pin => simp [Fits]

theorem fits_step (h : p.steps a = true) : Fits (p :: ps) (a :: as) ↔ Fits ps as := by
  cases p with
  | one ok =>
    constructor
    · rintro ⟨b, rest, heq, -, hrest⟩
      cases heq
      exact hrest
    · exact fun hrest => ⟨a, as, rfl, h, hrest⟩
  | run pin =>
    constructor
    · rintro ⟨n, hone, hrest⟩
      obtain rfl := hone a rfl h
      exact hrest
    · exact fun hrest => ⟨1, fun _ _ _ => rfl, hrest⟩

theorem fits_run (h : pin a = false) : Fits (.run pin :: ps) (a :: as) ↔ Somewhere ps (a :: as) := by
  constructor
  · rintro ⟨n, -, hrest⟩
    exact ⟨n, hrest⟩
  · rintro ⟨n, hrest⟩
    refine ⟨n, fun b hb hpin => ?_, hrest⟩
    obtain rfl : a = b := Option.some.inj hb
    rw [h] at hpin
    cases hpin

theorem fits_one_not (h : ok a = false) : ¬Fits (.one ok :: ps) (a :: as) := by
  rintro ⟨b, rest, heq, hok, -⟩
  cases heq
  rw [h] at hok
  cases hok

theorem somewhere_nil : Somewhere ps ([] : List α) ↔ Fits ps [] := by simp [Somewhere]

theorem somewhere_cons : Somewhere ps (a :: as) ↔ Fits ps (a :: as) ∨ Somewhere ps as := by
  constructor
  · rintro ⟨_ | k, hk⟩
    · exact .inl hk
    · exact .inr ⟨k, hk⟩
  · rintro (h | ⟨k, hk⟩)
    · exact ⟨0, h⟩
    · exact ⟨k + 1, hk⟩

/-- Behind a run there is only less to place. -/
theorem Somewhere.behind_run (h : Somewhere (.run pin :: ps) as) : Somewhere ps as := by
  obtain ⟨k, n, -, hrest⟩ := h
  exact ⟨k + n, by rwa [← List.drop_drop]⟩

theorem Somewhere.step (hp : p.steps a = true) (h : Somewhere (p :: ps) (a :: as)) : Somewhere ps as := by
  rcases somewhere_cons.mp h with hfits | hlater
  · exact ⟨0, (fits_step hp).mp hfits⟩
  · cases p with
    | one ok =>
      obtain ⟨k, b, rest, heq, -, hrest⟩ := hlater
      refine ⟨k + 1, ?_⟩
      rwa [← List.drop_drop, heq]
    | run pin => exact hlater.behind_run

/-! ### Tries -/

/-- A try at `r` from the start of `ss` has come to `ps` and `as`, one element a piece. -/
structure Reaches (r : List (Piece α)) (ss : List α) (ps : List (Piece α)) (as : List α) : Prop where
  same : Fits r ss ↔ Fits ps as
  later : Somewhere r ss → Somewhere ps as
  short : as.length ≤ ss.length

theorem Reaches.refl (ps : List (Piece α)) (as : List α) : Reaches ps as ps as := ⟨Iff.rfl, id, Nat.le_refl _⟩

theorem Reaches.step (h : Reaches r ss (p :: ps) (a :: as)) (hp : p.steps a = true) : Reaches r ss ps as :=
  ⟨h.same.trans (fits_step hp), fun hr => (h.later hr).step hp, Nat.le_of_succ_le h.short⟩

/-- A try that comes to the next run decides. -/
theorem Reaches.commit (h : Reaches r ss (.run pin :: ps) (a :: as)) (hpin : pin a = false) :
    Somewhere r ss ↔ Somewhere ps (a :: as) := by
  constructor
  · exact fun hr => (h.later hr).behind_run
  · intro hps
    have hfits : Fits r ss := h.same.mpr ((fits_run hpin).mpr hps)
    exact ⟨0, hfits⟩

/-- A try that comes to the end of the list decides. -/
theorem Reaches.ended (h : Reaches r ss ps []) : Somewhere r ss ↔ Fits ps [] := by
  constructor
  · exact fun hr => somewhere_nil.mp (h.later hr)
  · exact fun hps => ⟨0, h.same.mpr hps⟩

/-- A try that fails leaves the later ones. -/
theorem Reaches.failed {s : α} (h : Reaches r (s :: ss) ps as) (hno : ¬Fits ps as) :
    Somewhere r (s :: ss) ↔ Somewhere r ss := by
  rw [somewhere_cons, or_iff_right (mt h.same.mp hno)]

end Glob

end Schemes
