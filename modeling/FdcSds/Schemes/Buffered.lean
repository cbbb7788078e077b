import Mathlib.Logic.Function.Basic
import FdcSds.Schemes.Bytes
import FdcSds.Schemes.Runs

/-! A file behind two caches.

    Bytes a program writes wait in order (`pending`), then go through one cached sector, and reach the
    card a whole sector at a time; a run of bytes that fills a sector may skip the cache. Which step comes
    next is left open. What the file reads as (`view`) is the card under the cached sector under the
    pending bytes; no step of the caches changes it.

        pending  (off,b) (off,b) …  ──put──▶ [cached sector] ──writeBack──▶ card
              └──────────────── direct, a whole sector ────────────────────▶       -/

namespace Schemes
open Runs

/-- The one sector a cache holds. -/
structure Sector where
  number : ℕ
  bytes : ℕ → UInt8
  dirty : Bool

/-- A file, its bytes numbered from its start. -/
structure Buffered where
  card : ℕ → UInt8
  sector : Option Sector
  pending : List (ℕ × UInt8)

inductive CacheStep where
  | load (n : ℕ)
  | put
  | writeBack
  | direct (n : ℕ)

/-- Single bytes written one after the other. -/
def overlay : (ℕ → UInt8) → List (ℕ × UInt8) → ℕ → UInt8
  | g, [] => g
  | g, p :: ps => overlay (Function.update g p.1 p.2) ps

namespace Buffered

/-- The cached sector has bytes the card has not. -/
def dirty (f : Buffered) : Bool := match f.sector with | some s => s.dirty | none => false

/-- The file under the pending bytes. -/
def cached (unit : ℕ) (f : Buffered) (off : ℕ) : UInt8 :=
  match f.sector with
  | some s => if off / unit = s.number then s.bytes off else f.card off
  | none => f.card off

/-- What the file reads as. -/
def view (unit : ℕ) (f : Buffered) : ℕ → UInt8 := overlay (f.cached unit) f.pending

/-- A byte to write. -/
def push (f : Buffered) (off : ℕ) (b : UInt8) : Buffered := { f with pending := f.pending ++ [(off, b)] }

/-- Give up on the bytes that wait. -/
def forget (f : Buffered) : Buffered := { f with pending := [] }

/-- One step of the caches. -/
def step (unit : ℕ) (f : Buffered) : CacheStep → Option Buffered
  | .load n => when (f.dirty = false) { f with sector := some ⟨n, f.card, false⟩ }
  | .put =>
    match f.pending, f.sector with
    | p :: rest, some s =>
      when (p.1 / unit = s.number)
        { f with
          pending := rest
          sector := some { s with bytes := Function.update s.bytes p.1 p.2, dirty := true } }
    | _, _ => none
  | .writeBack =>
    match f.sector with
    | some s =>
      some { f with
        card := fun off => if off / unit = s.number then s.bytes off else f.card off
        sector := some { s with dirty := false } }
    | none => none
  | .direct n =>
    let run := f.pending.take unit
    when (run.map Prod.fst = List.range' (n * unit) unit)
      { card := overlay f.card run
        sector := f.sector.map fun s => if s.number = n then ⟨n, overlay s.bytes run, false⟩ else s
        pending := f.pending.drop unit }

end Buffered

/-! ### Bytes one after the other -/

theorem overlay_append (g : ℕ → UInt8) (ps qs : List (ℕ × UInt8)) :
    overlay g (ps ++ qs) = overlay (overlay g ps) qs := by
  induction ps generalizing g with
  | nil => rfl
  | cons p ps ih => exact ih _

/-- A byte nobody wrote is as it was. -/
theorem overlay_of_not_mem {g : ℕ → UInt8} {ps : List (ℕ × UInt8)} {off : ℕ} (h : off ∉ ps.map Prod.fst) :
    overlay g ps off = g off := by
  induction ps generalizing g with
  | nil => rfl
  | cons p ps ih =>
    rw [List.map_cons, List.mem_cons, not_or] at h
    rw [overlay, ih h.2, Function.update_of_ne h.1]

/-- What a written byte is does not depend on what it was. -/
theorem overlay_congr {g g' : ℕ → UInt8} {ps : List (ℕ × UInt8)} {off : ℕ}
    (h : off ∈ ps.map Prod.fst ∨ g off = g' off) :
    overlay g ps off = overlay g' ps off := by
  induction ps generalizing g g' with
  | nil =>
    rcases h with h | h
    · cases h
    · exact h
  | cons p ps ih =>
    refine ih ?_
    by_cases hp : off = p.1
    · subst hp
      exact .inr (by simp)
    · rcases h with h | h
      · rw [List.map_cons, List.mem_cons] at h
        exact .inl (h.resolve_left hp)
      · exact .inr (by rw [Function.update_of_ne hp, Function.update_of_ne hp, h])

namespace Buffered

variable {unit : ℕ} {f f' : Buffered} {a : CacheStep} {Z : ℕ → Prop}

theorem view_push (off : ℕ) (b : UInt8) : (f.push off b).view unit = Function.update (f.view unit) off b := by
  simp only [view, push]
  exact overlay_append _ _ _

theorem view_of_empty (h : f.pending = []) : f.view unit = f.cached unit := by
  rw [view, h, overlay]

/-- A clean sector is the card's. -/
def Coherent (unit : ℕ) (f : Buffered) : Prop :=
  ∀ s, f.sector = some s → s.dirty = false → ∀ off, off / unit = s.number → s.bytes off = f.card off

/-- Only bytes of `Z` are on their way to the card. -/
structure Within (unit : ℕ) (Z : ℕ → Prop) (f : Buffered) : Prop where
  pending : ∀ p ∈ f.pending, Z p.1
  sector : ∀ s, f.sector = some s → ∀ off, off / unit = s.number → ¬ Z off → s.bytes off = f.card off

/-- A clean cache is the card. -/
theorem Coherent.cached (h : f.Coherent unit) (hclean : f.dirty = false) : f.cached unit = f.card := by
  funext off
  unfold Buffered.cached
  cases hs : f.sector with
  | none => rfl
  | some s =>
    have hdirty : s.dirty = false := by simpa [dirty, hs] using hclean
    by_cases hoff : off / unit = s.number
    · simpa [hoff] using h s hs hdirty off hoff
    · simp [hoff]

/-- With nothing pending and the sector clean, the card has the file. -/
theorem Coherent.card (h : f.Coherent unit) (hempty : f.pending = []) (hclean : f.dirty = false) :
    f.card = f.view unit :=
  (h.cached hclean).symm.trans (view_of_empty hempty).symm

/-- So nothing is on its way. -/
theorem Coherent.within (h : f.Coherent unit) (hempty : f.pending = [])
    (hclean : f.dirty = false) (Z : ℕ → Prop) :
    f.Within unit Z := by
  refine ⟨fun p hp => ?_, fun s hs off hoff _ => ?_⟩
  · rw [hempty] at hp
    cases hp
  · have hdirty : s.dirty = false := by simpa [dirty, hs] using hclean
    exact h s hs hdirty off hoff

theorem Within.mono (h : f.Within unit Z) {Z' : ℕ → Prop} (hle : ∀ off, Z off → Z' off) : f.Within unit Z' :=
  ⟨fun p hp => hle _ (h.pending p hp), fun s hs off hoff hout =>
    h.sector s hs off hoff fun hin => hout (hle off hin)⟩

theorem Within.push (h : f.Within unit Z) {off : ℕ} (hoff : Z off) (b : UInt8) :
    (f.push off b).Within unit Z := by
  refine ⟨fun p hp => ?_, h.sector⟩
  rcases List.mem_append.mp hp with hp | hp
  · exact h.pending p hp
  · rw [List.mem_singleton.mp hp]
    exact hoff

theorem Within.forget (h : f.Within unit Z) : f.forget.Within unit Z :=
  ⟨by rintro p ⟨⟩, h.sector⟩

/-! ### The steps of the caches -/

/-- The offsets of a whole sector. -/
theorem mem_sector (hunit : 0 < unit) {n off : ℕ} : off ∈ List.range' (n * unit) unit ↔ off / unit = n := by
  rw [List.mem_range'_1, Nat.div_eq_iff hunit]
  omega

/-- The caches' steps do not change what the file reads as. -/
theorem step_view (hunit : 0 < unit) (hc : f.Coherent unit) (hstep : f.step unit a = some f') :
    f'.view unit = f.view unit := by
  cases a with
  | load n =>
    obtain ⟨hclean, rfl⟩ := when_eq_some.mp hstep
    have hsame : Buffered.cached unit { f with sector := some ⟨n, f.card, false⟩ } = f.cached unit := by
      rw [hc.cached hclean]
      funext off
      simp [cached]
    rw [view, view, hsame]
  | put =>
    simp only [step] at hstep
    split at hstep
    · next p rest s hpending hsector =>
      obtain ⟨hp, rfl⟩ := when_eq_some.mp hstep
      have hput : Buffered.cached unit
        ⟨f.card, some ⟨s.number, Function.update s.bytes p.1 p.2, true⟩, rest⟩ =
          Function.update (f.cached unit) p.1 p.2 := by
        funext off
        by_cases hoff : off = p.1
        · subst hoff
          simp [cached, hp]
        · simp [cached, hsector, hoff]
      rw [view, view, hpending, overlay, hput]
    · cases hstep
  | writeBack =>
    simp only [step] at hstep
    split at hstep
    · next s hsector =>
      cases hstep
      have hsame : Buffered.cached unit
          ⟨fun off => if off / unit = s.number then s.bytes off else f.card off,
            some ⟨s.number, s.bytes, false⟩,
            f.pending⟩ = f.cached unit := by
        funext off
        by_cases hoff : off / unit = s.number <;> simp [cached, hsector, hoff]
      rw [view, view, hsame]
    · cases hstep
  | direct n =>
    obtain ⟨hrun, rfl⟩ := when_eq_some.mp hstep
    have hmem (off : ℕ) : off ∈ (f.pending.take unit).map Prod.fst ↔ off / unit = n := by
      rw [hrun, mem_sector hunit]
    have hsame : Buffered.cached unit
        ⟨overlay f.card (f.pending.take unit),
          f.sector.map fun s => if s.number = n then ⟨n, overlay s.bytes (f.pending.take unit), false⟩ else s,
          f.pending.drop unit⟩ = overlay (f.cached unit) (f.pending.take unit) := by
      funext off
      by_cases hoff : off / unit = n
      · -- a byte of the sector is the one written, whatever was under it
        have hin := (hmem off).mpr hoff
        cases hs : f.sector with
        | none => exact overlay_congr (.inl hin)
        | some s =>
          by_cases hn : s.number = n
          · simpa [cached, hn, hoff] using overlay_congr (.inl hin)
          · simpa [cached, hn, hoff, Ne.symm hn] using overlay_congr (.inl hin)
      · have hout : off ∉ (f.pending.take unit).map Prod.fst := fun hin => hoff ((hmem off).mp hin)
        cases hs : f.sector with
        | none => simp [cached, overlay_of_not_mem hout, hs]
        | some s =>
          by_cases hn : s.number = n
          · simp [cached, overlay_of_not_mem hout, hs, hn, hoff]
          · simp [cached, overlay_of_not_mem hout, hs, hn]
    rw [view, hsame, ← overlay_append, List.take_append_drop, view]

theorem step_coherent (hunit : 0 < unit) (hc : f.Coherent unit) (hstep : f.step unit a = some f') :
    f'.Coherent unit := by
  cases a with
  | load n =>
    obtain ⟨-, rfl⟩ := when_eq_some.mp hstep
    rintro s ⟨⟩ - off -
    rfl
  | put =>
    simp only [step] at hstep
    split at hstep
    · obtain ⟨-, rfl⟩ := when_eq_some.mp hstep
      rintro s ⟨⟩ ⟨⟩
    · cases hstep
  | writeBack =>
    simp only [step] at hstep
    split at hstep
    · cases hstep
      rintro s ⟨⟩ - off hoff
      exact (if_pos hoff).symm
    · cases hstep
  | direct n =>
    obtain ⟨hrun, rfl⟩ := when_eq_some.mp hstep
    rintro s hs hclean off hoff
    obtain ⟨s₀, hs₀, rfl⟩ := Option.map_eq_some_iff.mp hs
    by_cases hn : s₀.number = n
    · rw [if_pos hn] at hoff ⊢
      exact overlay_congr (.inl (by rw [hrun, mem_sector hunit]; exact hoff))
    · rw [if_neg hn] at hoff hclean ⊢
      have hout : off ∉ (f.pending.take unit).map Prod.fst := by
        rw [hrun, mem_sector hunit, hoff]
        exact hn
      exact (hc s₀ hs₀ hclean off hoff).trans (overlay_of_not_mem hout).symm

/-- What does not wait does not come to wait. -/
theorem step_pending (hempty : f.pending = []) (hstep : f.step unit a = some f') : f'.pending = [] := by
  cases a with
  | load n =>
    obtain ⟨-, rfl⟩ := when_eq_some.mp hstep
    exact hempty
  | put => simp [step, hempty] at hstep
  | writeBack =>
    simp only [step] at hstep
    split at hstep
    · cases hstep
      exact hempty
    · cases hstep
  | direct n =>
    obtain ⟨-, rfl⟩ := when_eq_some.mp hstep
    simp [hempty]

/-- What is on its way stays in `Z`, and the card changes nowhere else. -/
theorem step_within (hw : f.Within unit Z) (hstep : f.step unit a = some f') :
    f'.Within unit Z ∧ ∀ off, ¬ Z off → f'.card off = f.card off := by
  cases a with
  | load n =>
    obtain ⟨-, rfl⟩ := when_eq_some.mp hstep
    refine ⟨⟨hw.pending, ?_⟩, fun _ _ => rfl⟩
    rintro s ⟨⟩ off - -
    rfl
  | put =>
    simp only [step] at hstep
    split at hstep
    · next p rest s hpending hsector =>
      obtain ⟨-, rfl⟩ := when_eq_some.mp hstep
      have hmem : ∀ q ∈ p :: rest, Z q.1 := hpending ▸ hw.pending
      refine ⟨⟨fun q hq => hmem q (List.mem_cons_of_mem _ hq), ?_⟩, fun _ _ => rfl⟩
      rintro s' ⟨⟩ off hoff hout
      have hne : off ≠ p.1 := by
        rintro rfl
        exact hout (hmem p List.mem_cons_self)
      simpa [hne] using hw.sector s hsector off hoff hout
    · cases hstep
  | writeBack =>
    simp only [step] at hstep
    split at hstep
    · next s hsector =>
      cases hstep
      refine ⟨⟨hw.pending, ?_⟩, fun off hout => ?_⟩
      · rintro s' ⟨⟩ off hoff -
        exact (if_pos hoff).symm
      · by_cases hoff : off / unit = s.number
        · simpa [hoff] using hw.sector s hsector off hoff hout
        · simp [hoff]
    · cases hstep
  | direct n =>
    obtain ⟨hrun, rfl⟩ := when_eq_some.mp hstep
    have hkept (off : ℕ) (hout : ¬ Z off) : off ∉ (f.pending.take unit).map Prod.fst := by
      intro hin
      obtain ⟨p, hp, rfl⟩ := List.mem_map.mp hin
      exact hout (hw.pending p (List.mem_of_mem_take hp))
    refine ⟨⟨fun p hp => hw.pending p (List.mem_of_mem_drop hp), ?_⟩, fun off hout =>
      overlay_of_not_mem (hkept off hout)⟩
    rintro s hs off hoff hout
    obtain ⟨s₀, hs₀, rfl⟩ := Option.map_eq_some_iff.mp hs
    refine Eq.trans ?_ (overlay_of_not_mem (hkept off hout)).symm
    by_cases hn : s₀.number = n
    · rw [if_pos hn] at hoff ⊢
      exact (overlay_of_not_mem (hkept off hout)).trans (hw.sector s₀ hs₀ off (hoff.trans hn.symm) hout)
    · rw [if_neg hn] at hoff ⊢
      exact hw.sector s₀ hs₀ off hoff hout

end Buffered

end Schemes
