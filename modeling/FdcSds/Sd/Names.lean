import FdcSds.Sd.Vfs
import Mathlib.Data.List.Infix

/-! Path components.

    `segments` splits a name at `'/'`, empty pieces included; `components` leaves the empty ones out. A
    name is clean when no piece is empty or `".."` and there is no backslash. `sd_path` accepts a name
    only when it is clean but for a trailing `'/'`, and puts `/sd/` in front.

        "a/b/c"  segments  [a, b, c]        "/a//b/"  components  [a, b] -/

namespace FdcSds

/-- The pieces between slashes. -/
def segments : CStr → List CStr
  | [] => [[]]
  | c :: s => if c = '/' then [] :: segments s else (segments s).modifyHead (c :: ·)

/-- The non-empty pieces between slashes. -/
def components (s : CStr) : List CStr := (segments s).filter (· ≠ [])

theorem segments_ne_nil (s : CStr) : segments s ≠ [] := by
  induction s with
  | nil => exact List.cons_ne_nil _ _
  | cons c s ih =>
    simp only [segments]
    split
    · exact List.cons_ne_nil _ _
    · cases h : segments s with
      | nil => exact absurd h ih
      | cons x xs => exact List.cons_ne_nil _ _

/-- A slash between two names separates their pieces. -/
theorem segments_append (a b : CStr) : segments (a ++ '/' :: b) = segments a ++ segments b := by
  induction a with
  | nil => rfl
  | cons c a ih =>
    simp only [List.cons_append, segments, ih]
    split
    · rfl
    · cases h : segments a with
      | nil => exact absurd h (segments_ne_nil a)
      | cons x xs => rfl

theorem segments_of_no_slash {s : CStr} (h : '/' ∉ s) : segments s = [s] := by
  induction s with
  | nil => rfl
  | cons c s ih =>
    rw [List.mem_cons, not_or] at h
    simp only [segments, if_neg (Ne.symm h.1), ih h.2, List.modifyHead_cons]

theorem components_append (a b : CStr) : components (a ++ '/' :: b) = components a ++ components b := by
  simp only [components, segments_append, List.filter_append]

theorem components_nil : components [] = [] := rfl

/-- No piece is empty or `".."`, and there is no backslash. -/
structure CleanName (s : CStr) : Prop where
  pieces : ∀ x ∈ segments s, x ≠ [] ∧ x ≠ ['.', '.']
  backslash : '\\' ∉ s

theorem CleanName.ne_nil {s : CStr} (h : CleanName s) : s ≠ [] := by
  rintro rfl
  exact (h.pieces [] (List.mem_singleton_self _)).1 rfl

/-- Two clean names joined by a slash. -/
theorem CleanName.join {a b : CStr} (ha : CleanName a) (hb : CleanName b) : CleanName (a ++ '/' :: b) where
  pieces := by
    intro x hx
    rw [segments_append, List.mem_append] at hx
    exact hx.elim (ha.pieces x) (hb.pieces x)
  backslash := by
    simp only [List.mem_append, List.mem_cons, not_or]
    exact ⟨ha.backslash, by decide, hb.backslash⟩

/-- A clean name does not end in a slash. -/
theorem CleanName.not_slash_end {s : CStr} (h : CleanName s) : s.getLast? ≠ some '/' := by
  intro hend
  obtain ⟨init, rfl⟩ := List.getLast?_eq_some_iff.mp hend
  have hempty : [] ∈ segments (init ++ ['/']) := by
    rw [segments_append]
    simp [segments]
  exact (h.pieces [] hempty).1 rfl

/-- A single piece that is neither empty nor `".."`. -/
theorem CleanName.single {s : CStr} (hne : s ≠ []) (hslash : '/' ∉ s) (hback : '\\' ∉ s)
    (hdots : s ≠ ['.', '.']) : CleanName s where
  pieces := by
    intro x hx
    rw [segments_of_no_slash hslash, List.mem_singleton] at hx
    subst hx
    exact ⟨hne, hdots⟩
  backslash := hback

/-- The paths a call names. -/
def SysCall.paths : SysCall → List CStr
  | .open p _ | .stat p | .mkdir p | .rmdir p | .unlink p | .opendir p | .changeBegin p => [p]
  | .rename old new => [old, new]
  | .read _ _ | .write _ _ | .lseek _ _ _ | .close _ | .readdir _ | .rewinddir _ | .closedir _
  | .changeEnd => []

/-- What FAT allows as the name of a directory entry, of what matters here. -/
structure EntryName (name : CStr) : Prop where
  ne_nil : name ≠ []
  slash : '/' ∉ name
  backslash : '\\' ∉ name

/-! ### `sd_path` -/

theorem sdPathLoop_iff (s seg : CStr) : sdPathLoop s seg = true ↔
    (∀ x ∈ (segments s).modifyHead (seg ++ ·), x ≠ ['.', '.']) ∧
      ∀ x ∈ ((segments s).modifyHead (seg ++ ·)).dropLast, x ≠ [] := by
  induction s generalizing seg with
  | nil => simp [sdPathLoop, segments]
  | cons c s ih =>
    by_cases hc : c = '/'
    · subst hc
      have hne := segments_ne_nil s
      have hhead : (segments s).modifyHead (([] : CStr) ++ ·) = segments s := by
        cases h : segments s with
        | nil => rfl
        | cons x xs => rfl
      simp only [sdPathLoop, beq_self_eq_true, if_true, Bool.and_eq_true, bne_iff_ne, ih [], hhead,
        segments, List.modifyHead_cons, List.append_nil, List.mem_cons, forall_eq_or_imp,
        List.dropLast_cons_of_ne_nil hne]
      tauto
    · have hhead : (segments (c :: s)).modifyHead (seg ++ ·) =
          (segments s).modifyHead ((seg ++ [c]) ++ ·) := by
        cases h : segments s with
        | nil => exact absurd h (segments_ne_nil s)
        | cons x xs => simp [segments, hc, h]
      have hloop : sdPathLoop (c :: s) seg = sdPathLoop s (seg ++ [c]) := by simp [sdPathLoop, hc]
      rw [hloop, ih, hhead]

/-- Only a name that ends in a slash has an empty last piece. -/
theorem last_segment_nil {s : CStr} (h : (segments s).getLast? = some []) :
    s = [] ∨ s.getLast? = some '/' := by
  induction s with
  | nil => exact .inl rfl
  | cons c s ih =>
    refine .inr ?_
    cases hs : segments s with
    | nil => exact absurd hs (segments_ne_nil s)
    | cons x xs =>
      by_cases hc : c = '/'
      · subst hc
        have hlast : (segments s).getLast? = some [] := by
          rw [hs]
          simpa [segments, hs, List.getLast?_cons_cons] using h
        rcases ih hlast with rfl | hend
        · rfl
        · rw [List.getLast?_cons, hend]
          rfl
      · cases xs with
        | nil => simp [segments, hc, hs] at h
        | cons y ys =>
          have hlast : (segments s).getLast? = some [] := by
            rw [hs]
            simpa [segments, hc, hs, List.getLast?_cons_cons] using h
          rcases ih hlast with rfl | hend
          · cases hs
          · rw [List.getLast?_cons, hend]
            rfl

/-- What `sd_path` accepts, if it does not end in a slash, is clean, and it puts `/sd/` in front. -/
theorem sdPath_some {name path : CStr} {cap : ℕ} (h : sdPath name cap = some path)
    (hend : name.getLast? ≠ some '/') :
    path = sdMountPoint ++ '/' :: name ∧ CleanName name ∧ path.length < cap := by
  unfold sdPath at h
  split at h
  · cases h
  next hname =>
  split at h
  · cases h
  next hloop =>
  dsimp only at h
  split at h
  next hlen =>
    cases h
    simp only [Bool.or_eq_true, not_or, List.isEmpty_iff, List.contains_iff_mem] at hname
    simp only [Bool.not_eq_true', Bool.not_eq_false, sdPathLoop_iff] at hloop
    obtain ⟨⟨hne, hback⟩, -⟩ := hname
    refine ⟨by simp, ⟨fun x hx => ?_, hback⟩, hlen⟩
    obtain ⟨hdots, hinner⟩ := hloop
    have hhead : (segments name).modifyHead (([] : CStr) ++ ·) = segments name := by
      cases hs : segments name with
      | nil => rfl
      | cons y ys => rfl
    rw [hhead] at hdots hinner
    refine ⟨?_, hdots x hx⟩
    -- an inner piece was checked; the last one is empty only behind a trailing slash
    rintro rfl
    have hsplit := List.dropLast_append_getLast (segments_ne_nil name)
    rw [← hsplit, List.mem_append, List.mem_singleton] at hx
    rcases hx with hx | hlast
    · exact hinner [] hx rfl
    · refine absurd (last_segment_nil ?_) (not_or.mpr ⟨hne, hend⟩)
      rw [List.getLast?_eq_some_getLast (segments_ne_nil name), ← hlast]
  · cases h

end FdcSds
