import FdcSds.Sd.Names

/-! `sd_path` (`src/disk/sd.c`), with its buffer and the length it returns.

    The component loop steps over the slash behind a component and ends at the NUL, so what would stand
    behind a last slash is never looked at: a clean name with one slash at its end is let through, and
    every other name is accepted just when it is clean and fits.

        "a/b" ──▶ "/sd/a/b", 7        "a//b", "/a", "a/.." ──▶ -1        "a/" ──▶ "/sd/a/", 6 -/

namespace FdcSds

/-- The path `sd_path` makes of a name. -/
def underRoot (name : CStr) : CStr := sdMountPoint ++ '/' :: name

variable {name front : CStr}

/-! ### What the loop lets through -/

/-- A name is clean, or clean but for a slash at its end. -/
def NearlyClean (name : CStr) : Prop := CleanName name ∨ ∃ front, name = front ++ ['/'] ∧ CleanName front

theorem segments_slash (front : CStr) : segments (front ++ ['/']) = segments front ++ [[]] :=
  segments_append front []

/-- The first piece of a name that starts with a slash is empty. -/
theorem segments_head {s : CStr} (h : s.head? = some '/') : [] ∈ segments s := by
  obtain ⟨rest, rfl⟩ := List.head?_eq_some_iff.mp h
  simp [segments]

theorem sdPathLoop_clean : sdPathLoop name [] = true ↔
    (∀ x ∈ segments name, x ≠ ['.', '.']) ∧ ∀ x ∈ (segments name).dropLast, x ≠ [] := by
  have hhead : (segments name).modifyHead (([] : CStr) ++ ·) = segments name := by
    cases hs : segments name with
    | nil => rfl
    | cons x xs => rfl
  rw [sdPathLoop_iff, hhead]

/-- The checks before the buffer is written. -/
theorem sdPath_checks : (name ≠ [] ∧ '\\' ∉ name ∧ name.head? ≠ some '/' ∧ sdPathLoop name [] = true) ↔
      NearlyClean name := by
  rw [sdPathLoop_clean]
  constructor
  · rintro ⟨hne, hback, -, hdots, hinner⟩
    by_cases hlast : (segments name).getLast? = some []
    · rcases last_segment_nil hlast with rfl | hend
      · exact absurd rfl hne
      · obtain ⟨front, rfl⟩ := List.getLast?_eq_some_iff.mp hend
        rw [segments_slash] at hdots hinner
        rw [List.dropLast_concat] at hinner
        refine .inr ⟨front, rfl, ⟨fun x hx => ⟨hinner x hx, hdots x (List.mem_append_left _ hx)⟩, ?_⟩⟩
        exact fun hmem => hback (List.mem_append_left _ hmem)
    · refine .inl ⟨fun x hx => ⟨?_, hdots x hx⟩, hback⟩
      rintro rfl
      rw [← List.dropLast_append_getLast (segments_ne_nil name), List.mem_append, List.mem_singleton] at hx
      rcases hx with hx | hx
      · exact hinner [] hx rfl
      · rw [List.getLast?_eq_some_getLast (segments_ne_nil name), ← hx] at hlast
        exact hlast rfl
  · rintro (hclean | ⟨front, rfl, hclean⟩)
    · refine ⟨hclean.ne_nil, hclean.backslash, fun hhead => (hclean.pieces _ (segments_head hhead)).1 rfl,
        fun x hx => (hclean.pieces x hx).2, fun x hx => (hclean.pieces x (List.mem_of_mem_dropLast hx)).1⟩
    · rw [segments_slash, List.dropLast_concat]
      refine ⟨by simp, by simp [hclean.backslash], fun hhead => ?_, ?_, fun x hx => (hclean.pieces x hx).1⟩
      · rw [List.head?_append_of_ne_nil _ hclean.ne_nil] at hhead
        exact (hclean.pieces _ (segments_head hhead)).1 rfl
      · intro x hx
        rcases List.mem_append.mp hx with hx | hx
        · exact (hclean.pieces x hx).2
        · rw [List.mem_singleton.mp hx]
          decide

/-! ### The buffer -/

namespace InPlace

/-- `snprintf` of a text: its length, and the buffer, cut short and ended with NUL. -/
def snprintf (buf text : List Char) : ℤ × List Char :=
  let put := text.take (buf.length - 1) ++ ['\x00']
  (text.length, if buf.length = 0 then buf else put ++ buf.drop put.length)

/-- `sd_path`, where a NULL name is `none` and `buf` is what the buffer of `len` bytes held before. -/
def sdPath (name : Option CStr) (buf : List Char) : ℤ × List Char :=
  match name with
  | none => (-1, buf)
  | some name =>
    if name.isEmpty then (-1, buf)
    else if name.contains '\\' || name.head? == some '/' then (-1, buf)
    else if !sdPathLoop name [] then (-1, buf)
    else
      let (n, out) := snprintf buf (sdMountPoint ++ ['/'] ++ name)
      if n < 0 ∨ buf.length ≤ n.toNat then (-1, out) else (n, out)

variable {buf : List Char}

theorem snprintf_fits {text : List Char} (h : text.length < buf.length) :
    snprintf buf text = ((text.length : ℤ), text ++ '\x00' :: buf.drop (text.length + 1)) := by
  have htake : text.take (buf.length - 1) = text := List.take_of_length_le (by omega)
  have hlen : (text ++ ['\x00']).length = text.length + 1 := by simp
  rw [snprintf, if_neg (by omega), htake, hlen, List.append_assoc]
  rfl

/-- What `sd_path` returns and leaves. -/
theorem sdPath_cases (name : CStr) (buf : List Char) :
    ((NearlyClean name ∧ (underRoot name).length < buf.length) ∧
        sdPath (some name) buf =
          (((underRoot name).length : ℤ),
            underRoot name ++ '\x00' :: buf.drop ((underRoot name).length + 1))) ∨
      (¬(NearlyClean name ∧ (underRoot name).length < buf.length) ∧ (sdPath (some name) buf).1 = -1) := by
  have hpath : sdMountPoint ++ ['/'] ++ name = underRoot name := by simp [underRoot]
  by_cases hclean : NearlyClean name
  · obtain ⟨hne, hback, hhead, hloop⟩ := sdPath_checks.mpr hclean
    have hchecked : sdPath (some name) buf = if (snprintf buf (underRoot name)).1 < 0 ∨
        buf.length ≤ (snprintf buf (underRoot name)).1.toNat then (-1, (snprintf buf (underRoot name)).2)
        else snprintf buf (underRoot name) := by
      rw [sdPath, if_neg (by simpa using hne), if_neg (by simp [hback, hhead]), hloop, hpath]
      rfl
    by_cases hfits : (underRoot name).length < buf.length
    · refine .inl ⟨⟨hclean, hfits⟩, ?_⟩
      rw [hchecked, snprintf_fits hfits, if_neg]
      rintro (hneg | hlong) <;> omega
    · refine .inr ⟨fun h => hfits h.2, ?_⟩
      have hlen : (snprintf buf (underRoot name)).1 = (underRoot name).length := rfl
      rw [hchecked, if_pos (.inr (by rw [hlen]; omega))]
  · refine .inr ⟨fun h => hclean h.1, ?_⟩
    have hfails := mt sdPath_checks.mp hclean
    rw [sdPath]
    split
    · rfl
    next hne =>
    split
    · rfl
    next hfirst =>
    split
    · rfl
    next hloop =>
    simp only [Bool.or_eq_true, not_or, List.contains_iff_mem, beq_iff_eq] at hfirst
    simp only [Bool.not_eq_true', Bool.not_eq_false] at hloop
    exact absurd ⟨by simpa using hne, hfirst.1, hfirst.2, hloop⟩ hfails

/-- The buffer and the length are what the path of the abstract `sd_path` says. -/
theorem sdPath_eq (name : CStr) (buf : List Char) :
    (sdPath (some name) buf).1 = (FdcSds.sdPath name buf.length).elim (-1) fun path => (path.length : ℤ) := by
  have hpath : sdMountPoint ++ ['/'] ++ name = underRoot name := by simp [underRoot]
  by_cases hclean : NearlyClean name
  · obtain ⟨hne, hback, hhead, hloop⟩ := sdPath_checks.mpr hclean
    have habs : FdcSds.sdPath name buf.length = if (underRoot name).length <
      buf.length then some (underRoot name) else none := by
      rw [FdcSds.sdPath, if_neg (by simp [hne, hback, hhead]), hloop, hpath]
      rfl
    rcases sdPath_cases name buf with ⟨⟨-, hfits⟩, heq⟩ | ⟨hno, heq⟩
    · rw [heq, habs, if_pos hfits]
      rfl
    · rw [heq, habs, if_neg fun hfits => hno ⟨hclean, hfits⟩]
      rfl
  · have hnone : FdcSds.sdPath name buf.length = none := by
      have hfails := mt sdPath_checks.mp hclean
      unfold FdcSds.sdPath
      split
      · rfl
      next hfirst =>
      split
      · rfl
      next hloop =>
      simp only [Bool.or_eq_true, not_or, List.isEmpty_iff, List.contains_iff_mem, beq_iff_eq] at hfirst
      simp only [Bool.not_eq_true', Bool.not_eq_false] at hloop
      exact absurd ⟨hfirst.1.1, hfirst.1.2, hfirst.2, hloop⟩ hfails
    rcases sdPath_cases name buf with ⟨⟨h, -⟩, -⟩ | ⟨-, heq⟩
    · exact absurd h hclean
    · rw [heq, hnone]
      rfl

/-- `sd_path` accepts what is clean and fits, and nothing else, and then the buffer has the path and its
    NUL. -/
def Confines (name : CStr) (buf : List Char) : Prop :=
  (0 ≤ (sdPath (some name) buf).1 ↔ CleanName name ∧ (underRoot name).length + 1 ≤ buf.length) ∧
    (0 ≤ (sdPath (some name) buf).1 → (sdPath (some name) buf).1 = (underRoot name).length ∧
      (sdPath (some name) buf).2.take ((underRoot name).length + 1) = underRoot name ++ ['\x00'])

/-- CORRECT, except for a clean name with one slash at its end that fits: that one is accepted too. -/
theorem sdPath_confines (name : CStr) (buf : List Char) :
    Confines name buf ↔ ¬∃ front, name = front ++ ['/'] ∧ CleanName front ∧
      (underRoot name).length < buf.length := by
  rcases sdPath_cases name buf with ⟨⟨hnear, hfits⟩, heq⟩ | ⟨hno, heq⟩
  · have hnonneg : 0 ≤ (sdPath (some name) buf).1 := by
      rw [heq]
      exact Int.natCast_nonneg _
    constructor
    · rintro ⟨hiff, -⟩ ⟨front, rfl, -, -⟩
      exact (hiff.mp hnonneg).1.not_slash_end (by simp)
    · intro hnone
      have hclean : CleanName name := hnear.resolve_right fun ⟨front, hname, hfront⟩ =>
        hnone ⟨front, hname, hfront, hfits⟩
      refine ⟨iff_of_true hnonneg ⟨hclean, hfits⟩, fun _ => ?_⟩
      rw [heq]
      refine ⟨rfl, ?_⟩
      dsimp only
      rw [List.append_cons, List.take_left' (by simp)]
  · have hneg : ¬0 ≤ (sdPath (some name) buf).1 := by
      rw [heq]
      decide
    refine iff_of_true ⟨iff_of_false hneg fun h => hno ⟨.inl h.1, h.2⟩, fun h => absurd h hneg⟩ ?_
    rintro ⟨front, hname, hfront, hfits⟩
    exact hno ⟨.inr ⟨front, hname, hfront⟩, hfits⟩

/-- A trailing slash is an empty last component, and is let through. -/
theorem sdPath_trailing : ¬Confines ['a', '/'] (List.replicate 16 ' ') := by
  rintro ⟨hiff, -⟩
  exact (hiff.mp (by decide)).1.not_slash_end rfl

end InPlace

end FdcSds
