import FdcSds.Schemes.Bytes

/-! File contents, byte by byte.

    `f i` is byte `i` of a file, `none` past its end. A write past the end leaves a gap whose bytes may
    be anything, so what a write does is a relation: the data stands where it was put, every byte the
    file had elsewhere is still there, and nothing is added behind the data.

        f    ████████████
        g    ████████████????│ data │        Written f off data g
                             off                                   -/

namespace Schemes

/-- Byte `i` of a file, `none` past its end. -/
abbrev Content := ℕ → Option UInt8

namespace Content

/-- `data` stands at `off`. -/
def Holds (f : Content) (off : ℕ) (data : Bytes) : Prop := ∀ k < data.length, f (off + k) = data[k]?

/-- Every byte of `f` is still in `g`. -/
def Keeps (f g : Content) : Prop := ∀ i, f i ≠ none → g i = f i

/-- `g` is `f`, perhaps made longer, up to `off` at most. -/
structure Extends (f : Content) (off : ℕ) (g : Content) : Prop where
  kept : f.Keeps g
  beyond : ∀ i, off ≤ i → g i = f i

/-- `g` is `f` with `data` written at `off`. -/
structure Written (f : Content) (off : ℕ) (data : Bytes) (g : Content) : Prop where
  holds : g.Holds off data
  kept : ∀ i, f i ≠ none → i < off ∨ off + data.length ≤ i → g i = f i
  beyond : ∀ i, off + data.length ≤ i → g i = f i

variable {f g h : Content} {off : ℕ} {a b : Bytes}

theorem Keeps.refl : f.Keeps f := fun _ _ => rfl

theorem Keeps.trans (hfg : f.Keeps g) (hgh : g.Keeps h) : f.Keeps h := by
  intro i hi
  have hg := hfg i hi
  exact (hgh i (hg ▸ hi)).trans hg

theorem Holds.nil : f.Holds off [] := by
  rintro k ⟨⟩

/-- Two pieces side by side. -/
theorem Holds.append (ha : f.Holds off a) (hb : f.Holds (off + a.length) b) : f.Holds off (a ++ b) := by
  intro k hk
  rw [List.length_append] at hk
  by_cases hlt : k < a.length
  · rw [ha k hlt, List.getElem?_append_left hlt]
  · rw [List.getElem?_append_right (by omega), ← hb (k - a.length) (by omega)]
    congr 1
    omega

/-- What stands in a file still stands where its bytes are kept. -/
theorem Holds.keeps (ha : f.Holds off a) (hfg : f.Keeps g) : g.Holds off a := by
  intro k hk
  have hbyte := ha k hk
  rw [hfg _ (by simp [hbyte, hk]), hbyte]

theorem Extends.refl : f.Extends off f := ⟨.refl, fun _ _ => rfl⟩

theorem Written.nil (hext : f.Extends off g) : f.Written off [] g :=
  ⟨.nil, fun i hi _ => hext.kept i hi, fun i hi => hext.beyond i hi⟩

/-- A file made longer up to `off`, then written at `off`. -/
theorem Extends.written (hext : f.Extends off g) (hw : g.Written off a h) : f.Written off a h := by
  refine ⟨hw.holds, fun i hi hout => ?_, fun i hi => ?_⟩
  · have hg := hext.kept i hi
    exact (hw.kept i (hg ▸ hi) hout).trans hg
  · exact (hw.beyond i hi).trans (hext.beyond i (by omega))

/-- A write and the next one, right behind it. -/
theorem Written.append (ha : f.Written off a g) (hb : g.Written (off + a.length) b h) :
    f.Written off (a ++ b) h := by
  have hkeep : ∀ i, g i ≠ none → i < off + a.length → h i = g i := fun i hi hlt => hb.kept i hi (.inl hlt)
  refine ⟨Holds.append ?_ hb.holds, ?_, ?_⟩
  · intro k hk
    have hbyte := ha.holds k hk
    rw [hkeep _ (by simp [hbyte, hk]) (by omega), hbyte]
  · rintro i hi hout
    rw [List.length_append] at hout
    have hg := ha.kept i hi (by omega)
    exact (hb.kept i (hg ▸ hi) (by omega)).trans hg
  · intro i hi
    rw [List.length_append] at hi
    exact (hb.beyond i (by omega)).trans (ha.beyond i (by omega))

end Content

end Schemes
