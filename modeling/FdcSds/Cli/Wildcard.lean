import FdcSds.Net.TnfsServer
import FdcSds.Schemes.Globs
import Mathlib.Data.List.TakeWhile

/-! `wildcard_match_ci` (`include/wildcard.h`), step by step.

    The matcher compares before it looks for a `*`, so a `*` of the pattern that stands at a `*` of the
    name takes that character like any other. For the rest it backtracks to its latest `*` only, and that
    is enough: it always ends, and accepts just what fits with such stars pinned. Names without `*` it
    matches as documented.

        pat  * a *      name  x a * b       the second * is pinned to the one in the name        -/

namespace FdcSds
open Schemes

/-! ### The loop -/

/-- `pat` and `str`, and `star` and `ss` once a `*` was seen. -/
structure Matcher where
  pat : CStr
  str : CStr
  star : Option (CStr × CStr)

namespace Matcher

/-- Let the latest `*` swallow one more character. -/
def backtrack (m : Matcher) : Matcher ⊕ Bool :=
  match m.star with
  | some (resume, _ :: ss) => .inl ⟨resume, ss, some (resume, ss)⟩
  | _ => .inr false

/-- One round of the loop, or the answer behind it. -/
def step (m : Matcher) : Matcher ⊕ Bool :=
  match m.str with
  | [] => .inr (m.pat.dropWhile (· == '*')).isEmpty
  | c :: str =>
    match m.pat with
    | [] => m.backtrack
    | p :: pat =>
      if p == '?' || p.toLower == c.toLower then .inl ⟨pat, str, m.star⟩
      else if p == '*' then .inl ⟨pat, c :: str, some (pat, c :: str)⟩
      else m.backtrack

/-- So many rounds; `none` when there is no answer yet. -/
def rounds : ℕ → Matcher → Option Bool
  | 0, _ => none
  | n + 1, m => match m.step with
    | .inl m => m.rounds n
    | .inr b => some b

def start (pat str : CStr) : Matcher := ⟨pat, str, none⟩

end Matcher

/-! ### What a pattern means -/

/-- What a character of a pattern may take. -/
def Takes (p : Char) (part : CStr) : Prop :=
  if p = '*' then True
  else if p = '?' then part.length = 1
  else ∃ c, part = [c] ∧ p.toLower = c.toLower

/-- The name can be split so that every character of the pattern takes its part. -/
def Matches (pat name : CStr) : Prop := ∃ parts : List CStr, parts.flatten = name ∧
      List.Forall₂ Takes pat parts

/-- A character of a pattern as the matcher tries it. -/
def piece (p : Char) : Piece Char :=
  if p = '?' then .one fun _ => true
  else if p = '*' then .run fun c => p.toLower == c.toLower
  else .one fun c => p.toLower == c.toLower

/-- The name can be split so that every character of the pattern takes its part, and a `*` that comes to
    stand at a `*` of the name takes that one. -/
def MatchesPinned (pat name : CStr) : Prop := Glob.Fits (pat.map piece) name

variable {pat name : CStr} {p c : Char} {m m' : Matcher}

theorem steps_piece (p c : Char) : (piece p).steps c = (p == '?' || p.toLower == c.toLower) := by
  unfold piece
  split
  · next h => simp [Piece.steps, h]
  · next h =>
    have hne : (p == '?') = false := by simpa using h
    split <;> rw [hne, Bool.false_or, Piece.steps]

theorem takes_piece (p : Char) (part : CStr) : (piece p).Takes part ↔ Takes p part := by
  unfold piece Takes
  by_cases hq : p = '?'
  · subst hq
    simp [Piece.Takes, List.length_eq_one_iff]
  · by_cases hstar : p = '*'
    · simp [hstar, Piece.Takes]
    · simp [hq, hstar, Piece.Takes]

theorem matches_iff_splits : Matches pat name ↔ Glob.Splits (pat.map piece) name := by
  have htakes : (fun p part => (piece p).Takes part) = Takes := funext fun p => funext fun part =>
    propext (takes_piece p part)
  unfold Matches Glob.Splits
  simp only [List.forall₂_map_left_iff, htakes]

theorem MatchesPinned.matches (h : MatchesPinned pat name) : Matches pat name :=
  matches_iff_splits.mpr h.splits

/-- Only `*` is a run, pinned to `*`. -/
theorem piece_run {pin : Char → Bool} (h : piece p = .run pin) : p = '*' ∧ ∀ c, pin c = true → c = '*' := by
  unfold piece at h
  split at h
  · cases h
  · split at h
    · next hstar =>
      subst hstar
      cases h
      exact ⟨rfl, fun c hc => eq_of_toLower (by decide) (eq_of_beq hc).symm⟩
    · cases h

/-- In a name without `*` no star is pinned. -/
theorem Matches.pinned (h : Matches pat name) (hname : '*' ∉ name) : MatchesPinned pat name := by
  refine (matches_iff_splits.mp h).fits fun pin hmem c hc => ?_
  obtain ⟨p, -, hp⟩ := List.mem_map.mp hmem
  cases hpin : pin c with
  | false => rfl
  | true =>
    have hstar := (piece_run hp).2 c hpin
    exact absurd (hstar ▸ hc) hname

theorem isEmpty_dropWhile_iff {s : CStr} : (s.dropWhile (· == '*')).isEmpty = true ↔ ∀ x ∈ s, x = '*' := by
  rw [List.isEmpty_iff, List.dropWhile_eq_nil_iff]
  simp

/-- The stars at the end take the empty rest. -/
theorem fits_stars : (pat.dropWhile (· == '*')).isEmpty = true ↔ Glob.Fits (pat.map piece) [] := by
  rw [isEmpty_dropWhile_iff, Glob.fits_nil, List.forall_mem_map]
  refine forall₂_congr fun x _ => ?_
  constructor
  · rintro rfl
    exact ⟨_, rfl⟩
  · rintro ⟨pin, hpin⟩
    exact (piece_run hpin).1

/-! ### The invariant -/

namespace Matcher

/-- What the matcher is to find out: whether the rest fits, or what is behind the star anywhere. -/
def Means (m : Matcher) : Prop :=
  match m.star with
  | none => Glob.Fits (m.pat.map piece) m.str
  | some (resume, ss) => Glob.Somewhere (resume.map piece) ss

/-- The matcher is in a try of what is behind its star. -/
def Trying (m : Matcher) : Prop :=
  ∀ resume ss, m.star = some (resume, ss) → Glob.Reaches (resume.map piece) ss (m.pat.map piece) m.str

/-- Backtracking, when the try at hand fails. -/
theorem backtrack_means {c : Char} {str : CStr} (hstr : m.str = c :: str) (h : m.Trying)
    (hno : ¬Glob.Fits (m.pat.map piece) (c :: str)) :
    (∃ m', m.backtrack = .inl m' ∧ m'.Trying ∧ (m.Means ↔ m'.Means)) ∨
      (m.backtrack = .inr false ∧ ¬m.Means) := by
  obtain ⟨pat, str', star⟩ := m
  obtain rfl : str' = c :: str := hstr
  cases star with
  | none => exact .inr ⟨rfl, hno⟩
  | some saved =>
    obtain ⟨resume, ss⟩ := saved
    have htry := h resume ss rfl
    cases ss with
    | nil => exact absurd htry.short (by simp)
    | cons s ss =>
      refine .inl ⟨_, rfl, ?_, htry.failed hno⟩
      rintro resume' ss' ⟨⟩
      exact .refl _ _

/-- One round keeps the invariant and the meaning; an answer is right. -/
theorem step_means (h : m.Trying) : (∃ m', m.step = .inl m' ∧ m'.Trying ∧ (m.Means ↔ m'.Means)) ∨
    ∃ b, m.step = .inr b ∧ (b = true ↔ m.Means) := by
  have hback : ∀ {c str}, m.str = c :: str → m.step = m.backtrack → ¬Glob.Fits (m.pat.map piece) (c :: str) →
      (∃ m', m.step = .inl m' ∧ m'.Trying ∧ (m.Means ↔ m'.Means)) ∨ ∃ b, m.step = .inr b ∧
        (b = true ↔ m.Means) := by
    intro c str hstr hstep hno
    rw [hstep]
    rcases backtrack_means hstr h hno with hmore | ⟨hend, hno'⟩
    · exact .inl hmore
    · exact .inr ⟨false, hend, iff_of_false (by decide) hno'⟩
  obtain ⟨pat, str, star⟩ := m
  cases str with
  | nil =>
    refine .inr ⟨_, rfl, fits_stars.trans ?_⟩
    cases star with
    | none => exact Iff.rfl
    | some saved => exact (h _ _ rfl).ended.symm
  | cons c str =>
    cases pat with
    | nil => exact hback rfl rfl (List.cons_ne_nil c str)
    | cons p pat =>
      cases hp : p == '?' || p.toLower == c.toLower with
      | true =>
        have hsteps : (piece p).steps c = true := (steps_piece p c).trans hp
        refine .inl ⟨⟨pat, str, star⟩,
          by simp only [step, hp, if_true], fun resume ss hss => (h resume ss hss).step hsteps, ?_⟩
        cases star with
        | none => exact Glob.fits_step hsteps
        | some saved => exact Iff.rfl
      | false =>
        have hsteps : (piece p).steps c = false := (steps_piece p c).trans hp
        by_cases hstar : p = '*'
        · subst hstar
          have hpiece : piece '*' = .run fun c => '*'.toLower == c.toLower := rfl
          have hpin : ('*'.toLower == c.toLower) = false := hsteps
          refine .inl ⟨⟨pat, c :: str, some (pat, c :: str)⟩, by simp only [step, hp]; rfl, ?_, ?_⟩
          · rintro resume ss ⟨⟩
            exact .refl _ _
          · cases star with
            | none => exact Glob.fits_run hpin
            | some saved => exact (h _ _ rfl).commit hpin
        · refine hback rfl (by simp [step, hp, hstar]) ?_
          have hpiece : piece p = .one fun c => p.toLower == c.toLower := by
            have hq : p ≠ '?' := by
              rintro rfl
              simp at hp
            rw [piece, if_neg hq, if_neg hstar]
          rw [List.map_cons, hpiece]
          exact Glob.fits_one_not (by rw [hpiece] at hsteps; exact hsteps)

/-- However many rounds it takes, the answer is right. -/
theorem rounds_means {n : ℕ} {b : Bool} (h : m.Trying) (hb : m.rounds n = some b) : b = true ↔ m.Means := by
  induction n generalizing m with
  | zero => cases hb
  | succ n ih =>
    rw [rounds] at hb
    rcases step_means h with ⟨m', hstep, htry, hmeans⟩ | ⟨b', hstep, hb'⟩
    · rw [hstep] at hb
      exact (ih htry hb).trans hmeans.symm
    · rw [hstep] at hb
      cases hb
      exact hb'

/-! ### It ends -/

/-- How often the matcher can still backtrack. -/
def slack (m : Matcher) : ℕ := m.star.elim m.str.length fun saved => saved.2.length

/-- Nothing is longer than the pattern, and what is left is not longer than what the star started at. -/
structure Within (len : ℕ) (m : Matcher) : Prop where
  pat : m.pat.length ≤ len
  star : ∀ resume ss, m.star = some (resume, ss) → resume.length ≤ len ∧ m.str.length ≤ ss.length

/-- How many rounds are left at most. -/
def left (len : ℕ) (m : Matcher) : ℕ := m.slack * (len + 1) + m.pat.length

variable {len : ℕ}

theorem Within.slack_ge (h : m.Within len) : m.str.length ≤ m.slack := by
  obtain ⟨pat, str, _ | ⟨resume, ss⟩⟩ := m
  · exact Nat.le_refl _
  · exact (h.star resume ss rfl).2

theorem backtrack_within {c : Char} {str : CStr} (hstr : m.str = c :: str) (h : m.Within len) :
    (∃ m', m.backtrack = .inl m' ∧ m'.Within len ∧ m'.left len < m.left len) ∨ m.backtrack = .inr false := by
  obtain ⟨pat, str', star⟩ := m
  obtain rfl : str' = c :: str := hstr
  cases star with
  | none => exact .inr rfl
  | some saved =>
    obtain ⟨resume, ss⟩ := saved
    obtain ⟨hlen, hshort⟩ := h.star resume ss rfl
    cases ss with
    | nil => exact absurd hshort (by simp)
    | cons s ss =>
      refine .inl ⟨_, rfl, ⟨hlen, ?_⟩, ?_⟩
      · rintro resume' ss' ⟨⟩
        exact ⟨hlen, Nat.le_refl _⟩
      · simp only [left, slack, Option.elim_some, List.length_cons, Nat.succ_mul]
        omega

theorem step_within (h : m.Within len) :
    (∃ m', m.step = .inl m' ∧ m'.Within len ∧ m'.left len < m.left len) ∨ ∃ b, m.step = .inr b := by
  obtain ⟨pat, str, star⟩ := m
  cases str with
  | nil => exact .inr ⟨_, rfl⟩
  | cons c str =>
    have hback : (∃ m', backtrack ⟨pat, c :: str, star⟩ = .inl m' ∧ m'.Within len ∧
      m'.left len < left len ⟨pat, c :: str, star⟩) ∨
        ∃ b, backtrack ⟨pat, c :: str, star⟩ = .inr b :=
      (backtrack_within rfl h).imp_right fun hend => ⟨false, hend⟩
    cases pat with
    | nil => exact hback
    | cons p pat =>
      have hpat : pat.length ≤ len := Nat.le_of_succ_le h.pat
      have hslack := h.slack_ge
      simp only [step]
      split
      · refine .inl ⟨_, rfl, ⟨hpat, fun resume ss hss => ?_⟩, ?_⟩
        · obtain ⟨hlen, hshort⟩ := h.star resume ss hss
          exact ⟨hlen, Nat.le_of_succ_le hshort⟩
        · have hless : slack ⟨pat, str, star⟩ ≤ slack ⟨p :: pat, c :: str, star⟩ := by
            cases star with
            | none => exact Nat.le_succ _
            | some saved => exact Nat.le_refl _
          have hmul := Nat.mul_le_mul_right (len + 1) hless
          simp only [left, List.length_cons]
          omega
      · split
        · refine .inl ⟨_, rfl, ⟨hpat, ?_⟩, ?_⟩
          · rintro resume ss ⟨⟩
            exact ⟨hpat, Nat.le_refl _⟩
          · have hmul := Nat.mul_le_mul_right (len + 1) hslack
            simp only [left, slack, Option.elim_some, List.length_cons] at hmul ⊢
            omega
        · exact hback

theorem rounds_within (n : ℕ) (h : m.Within len) (hn : m.left len < n) : ∃ b, m.rounds n = some b := by
  induction n generalizing m with
  | zero => cases hn
  | succ n ih =>
    rcases step_within h with ⟨m', hstep, hwithin, hless⟩ | ⟨b, hstep⟩
    · obtain ⟨b, hb⟩ := ih hwithin (by omega)
      exact ⟨b, by rw [rounds, hstep]; exact hb⟩
    · exact ⟨b, by rw [rounds, hstep]⟩

theorem start_within (pat str : CStr) : (start pat str).Within pat.length :=
  ⟨Nat.le_refl _, by rintro resume ss ⟨⟩⟩

theorem start_trying (pat str : CStr) : (start pat str).Trying := by
  rintro resume ss ⟨⟩

end Matcher

open Tnfsd (wildcardLoop wildcardMatchCi)

/-- A round of the loop with fuel. -/
theorem wildcardLoop_step (n : ℕ) (m : Matcher) :
    wildcardLoop (n + 1) m.pat m.str m.star =
      m.step.elim (fun m => wildcardLoop n m.pat m.str m.star) id := by
  obtain ⟨pat, str, star⟩ := m
  cases str with
  | nil => rfl
  | cons c str =>
    cases pat with
    | nil => rcases star with _ | ⟨resume, _ | ⟨s, ss⟩⟩ <;> rfl
    | cons p pat =>
      by_cases hq : p = '?'
      · subst hq
        rfl
      · have hq' : (p == '?') = false := by simpa using hq
        rcases star with _ | ⟨resume, _ | ⟨s, ss⟩⟩ <;>
        · simp only [wildcardLoop, Matcher.step, Matcher.backtrack, hq', Bool.false_or]
          cases p.toLower == c.toLower <;> cases p == '*' <;> rfl

/-- The loop with fuel takes the same rounds. -/
theorem wildcardLoop_rounds (n : ℕ) (m : Matcher) :
    wildcardLoop n m.pat m.str m.star = (m.rounds n).getD false := by
  induction n generalizing m with
  | zero => rfl
  | succ n ih =>
    rw [wildcardLoop_step, Matcher.rounds]
    cases m.step with
    | inl m' => exact ih m'
    | inr b => rfl

/-- The loop ends, and its answer is the one of `wildcard_match_ci` as it is modelled elsewhere. -/
theorem wildcardMatchCi_rounds (pat name : CStr) : ∃ n b, (Matcher.start pat name).rounds n = some b ∧
      wildcardMatchCi pat name = b := by
  have hleft : (Matcher.start pat name).left pat.length < (pat.length + name.length + 1) *
    (name.length + 2) := by
    have hmul : (pat.length + 1) * name.length ≤ (pat.length + name.length + 1) * name.length :=
      Nat.mul_le_mul_right _ (by omega)
    change name.length * (pat.length + 1) + pat.length < _
    rw [Nat.mul_comm, Nat.mul_add]
    omega
  obtain ⟨b, hb⟩ := Matcher.rounds_within _ (Matcher.start_within pat name) hleft
  refine ⟨_, b, hb, ?_⟩
  have hloop := wildcardLoop_rounds ((pat.length + name.length + 1) * (name.length + 2))
    (Matcher.start pat name)
  rw [hb] at hloop
  exact hloop

/-- The matcher accepts just the names that match with their stars pinned. -/
theorem wildcardMatchCi_iff_pinned (pat name : CStr) : wildcardMatchCi pat name = true ↔
      MatchesPinned pat name := by
  obtain ⟨n, b, hb, heq⟩ := wildcardMatchCi_rounds pat name
  rw [heq]
  exact Matcher.rounds_means (Matcher.start_trying pat name) hb

/-- CORRECT, except for some names with a `*`: the loop always ends, never accepts a name that does not
    match, and rejects one that does just when that cannot be split with the stars pinned. -/
theorem wildcard_exact (pat name : CStr) :
    (∃ n b, (Matcher.start pat name).rounds n = some b) ∧
      ((∀ n b, (Matcher.start pat name).rounds n = some b → (b = true ↔ Matches pat name)) ↔
        (Matches pat name → MatchesPinned pat name)) := by
  obtain ⟨n, b, hb, -⟩ := wildcardMatchCi_rounds pat name
  have hright : ∀ n b, (Matcher.start pat name).rounds n = some b → (b = true ↔ MatchesPinned pat name) :=
    fun n b hb => Matcher.rounds_means (Matcher.start_trying pat name) hb
  refine ⟨⟨n, b, hb⟩, fun h hmatch => (hright n b hb).mp ((h n b hb).mpr hmatch), fun h n b hb => ?_⟩
  exact (hright n b hb).trans ⟨MatchesPinned.matches, h⟩

/-- `*` should match `*x`, and does not. -/
theorem wildcard_star_in_name :
    ¬∀ n b, (Matcher.start ['*'] ['*', 'x']).rounds n = some b → (b = true ↔ Matches ['*'] ['*', 'x']) := by
  intro h
  have hmatch : Matches ['*'] ['*', 'x'] := ⟨[['*', 'x']], rfl, .cons trivial .nil⟩
  exact absurd ((h 2 false rfl).mpr hmatch) (by decide)

end FdcSds
