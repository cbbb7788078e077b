import FdcSds.Cli.Nesting
import Mathlib.Data.List.Nodup

/-! Which command a word means (`cli_match`).

    A name or an alias means its command; so does what begins the words of one command only. To type more
    of a word never changes what it means.

        word ─▶ named? ─▶ that command
                  └─▶ begins the words of ─▶ one: that command
                                          ─▶ none, or many                           -/

namespace FdcSds

/-- What may be typed for a command. -/
def CliCommand.words (t : CliCommand) : List CStr := t.name :: t.aliasName.toList

/-- Letter case aside, the word is one of them. -/
def CliCommand.Named (t : CliCommand) (tok : CStr) : Prop := ∃ w ∈ t.words, foldCase tok = foldCase w

/-- Letter case aside, the word begins one of them. -/
def CliCommand.Begins (t : CliCommand) (tok : CStr) : Prop := ∃ w ∈ t.words, foldCase tok <+: foldCase w

section

variable {t u : CliCommand} {tok tok' : CStr}

theorem named_iff : (sameText tok t.name || t.aliasName.any (sameText tok)) = true ↔ t.Named tok := by
  cases h : t.aliasName <;> simp [CliCommand.Named, CliCommand.words, sameText, h]

theorem begins_iff : (abbreviates tok t.name || t.aliasName.any (abbreviates tok)) = true ↔ t.Begins tok := by
  cases h : t.aliasName <;> simp [CliCommand.Begins, CliCommand.words, abbreviates, h]

theorem CliCommand.Named.begins (h : t.Named tok) : t.Begins tok := by
  obtain ⟨w, hw, heq⟩ := h
  exact ⟨w, hw, heq ▸ List.prefix_rfl⟩

/-! ### The table -/

/-- No word means two commands. -/
theorem nodup_words : (cliCommands.flatMap fun t => t.words.map foldCase).Nodup := by decide +kernel

theorem nodup_commands : cliCommands.Nodup := by
  have hnames : (cliCommands.map CliCommand.name).Nodup := by decide +kernel
  exact List.Nodup.of_map _ hnames

/-- No word of a command begins another of it. -/
theorem words_apart : ∀ t ∈ cliCommands, ∀ v ∈ t.words, ∀ w ∈ t.words, foldCase v <+: foldCase w →
      foldCase v = foldCase w := by
  decide +kernel

theorem named_unique (ht : t ∈ cliCommands) (hu : u ∈ cliCommands) (h : t.Named tok)
    (h' : u.Named tok) : t = u := by
  by_contra hne
  obtain ⟨v, hv, hv'⟩ := h
  obtain ⟨w, hw, hw'⟩ := h'
  have happart := (List.nodup_flatMap.1 nodup_words).2
  have hsymm : Std.Symm (Function.onFun List.Disjoint fun t : CliCommand => t.words.map foldCase) :=
    ⟨fun _ _ h => h.symm⟩
  have hdisjoint := happart.forall ht hu hne
  exact hdisjoint (List.mem_map_of_mem hv) (by rw [← hv', hw']; exact List.mem_map_of_mem hw)

/-! ### What is found -/

theorem find_named (h : (cliCommands.find? fun t => sameText tok t.name ||
      t.aliasName.any (sameText tok)) = some t) :
    t ∈ cliCommands ∧ t.Named tok := by
  have hfound := List.find?_some h
  exact ⟨List.mem_of_find?_eq_some h, named_iff.1 hfound⟩

theorem mem_begun : u ∈ cliCommands.filter
      (fun t => abbreviates tok t.name || t.aliasName.any (abbreviates tok)) ↔
    u ∈ cliCommands ∧ u.Begins tok := by
  rw [List.mem_filter, begins_iff]

/-- What `cli_match` finds, by the words of the table. -/
theorem cliMatch_cases (tok : CStr) :
    (∃ t ∈ cliCommands, t.Named tok ∧ cliMatch tok = .hit t) ∨
      (∀ u ∈ cliCommands, ¬ u.Named tok) ∧
        ((∀ u ∈ cliCommands, ¬ u.Begins tok) ∧ cliMatch tok = .none ∨
          (∃ t ∈ cliCommands, t.Begins tok ∧ (∀ u ∈ cliCommands, u.Begins tok → u = t) ∧
            cliMatch tok = .hit t) ∨
          (∃ t ∈ cliCommands, ∃ u ∈ cliCommands, t ≠ u ∧ t.Begins tok ∧ u.Begins tok) ∧
            cliMatch tok = .ambiguous) := by
  unfold cliMatch
  split
  · next t hfind =>
    obtain ⟨ht, hnamed⟩ := find_named hfind
    exact .inl ⟨t, ht, hnamed, rfl⟩
  · next hfind =>
    refine .inr ⟨fun u hu hnamed => ?_, ?_⟩
    · exact List.find?_eq_none.1 hfind u hu (named_iff.2 hnamed)
    · have hmem := fun u => @mem_begun u tok
      have hnodup := nodup_commands.filter fun t => abbreviates tok t.name ||
        t.aliasName.any (abbreviates tok)
      split
      · next hnil =>
        rw [hnil] at hmem
        exact .inl ⟨fun u hu hbegins => List.not_mem_nil ((hmem u).2 ⟨hu, hbegins⟩), rfl⟩
      · next t hone =>
        rw [hone] at hmem
        obtain ⟨ht, hbegins⟩ := (hmem t).1 List.mem_cons_self
        exact .inr (.inl ⟨t, ht, hbegins, fun u hu h => List.mem_singleton.1 ((hmem u).2 ⟨hu, h⟩), rfl⟩)
      · next hnil hone =>
        refine .inr (.inr ⟨?_, rfl⟩)
        rcases hl : cliCommands.filter
          (fun t => abbreviates tok t.name || t.aliasName.any (abbreviates tok)) with _ | ⟨t, _ | ⟨v, rest⟩⟩
        · exact absurd hl hnil
        · exact absurd hl (hone t)
        · rw [hl] at hmem hnodup
          obtain ⟨ht, htb⟩ := (hmem t).1 List.mem_cons_self
          obtain ⟨hv, hvb⟩ := (hmem v).1 (List.mem_cons_of_mem _ List.mem_cons_self)
          have hne : t ≠ v := by
            rintro rfl
            exact (List.nodup_cons.1 hnodup).1 List.mem_cons_self
          exact ⟨t, ht, v, hv, hne, htb, hvb⟩

theorem cliMatch_hit : cliMatch tok = .hit t ↔
    t ∈ cliCommands ∧ (t.Named tok ∨ t.Begins tok ∧ ∀ u ∈ cliCommands, u.Begins tok → u = t) := by
  rcases cliMatch_cases tok with ⟨v, hv, hnamed, hres⟩ | ⟨hno, ⟨hnone, hres⟩ | ⟨v, hv, hbegins, honly, hres⟩ |
    ⟨⟨v, hv, w, hw, hne, hvb, hwb⟩, hres⟩⟩ <;> rw [hres]
  · constructor
    · rintro ⟨⟩
      exact ⟨hv, .inl hnamed⟩
    · rintro ⟨ht, htn | ⟨-, honly⟩⟩
      · rw [named_unique hv ht hnamed htn]
      · rw [honly v hv hnamed.begins]
  · refine ⟨by rintro ⟨⟩, ?_⟩
    rintro ⟨ht, htn | ⟨htb, -⟩⟩
    · exact absurd htn.begins (hnone t ht)
    · exact absurd htb (hnone t ht)
  · constructor
    · rintro ⟨⟩
      exact ⟨hv, .inr ⟨hbegins, honly⟩⟩
    · rintro ⟨ht, htn | ⟨htb, -⟩⟩
      · exact absurd htn (hno t ht)
      · rw [honly t ht htb]
  · refine ⟨by rintro ⟨⟩, ?_⟩
    rintro ⟨ht, htn | ⟨-, honly⟩⟩
    · exact absurd htn (hno t ht)
    · exact absurd ((honly v hv hvb).trans (honly w hw hwb).symm) hne

theorem cliMatch_none : cliMatch tok = .none ↔ ∀ u ∈ cliCommands, ¬ u.Begins tok := by
  rcases cliMatch_cases tok with ⟨v, hv, hnamed, hres⟩ | ⟨-, ⟨hnone, hres⟩ | ⟨v, hv, hbegins, -, hres⟩ |
    ⟨⟨v, hv, -, -, -, hvb, -⟩, hres⟩⟩ <;> rw [hres]
  · exact ⟨by rintro ⟨⟩, fun h => absurd hnamed.begins (h v hv)⟩
  · exact ⟨fun _ => hnone, fun _ => rfl⟩
  · exact ⟨by rintro ⟨⟩, fun h => absurd hbegins (h v hv)⟩
  · exact ⟨by rintro ⟨⟩, fun h => absurd hvb (h v hv)⟩

theorem cliMatch_ambiguous : cliMatch tok = .ambiguous ↔ (∀ u ∈ cliCommands, ¬ u.Named tok) ∧
    ∃ v ∈ cliCommands, ∃ w ∈ cliCommands, v ≠ w ∧ v.Begins tok ∧ w.Begins tok := by
  rcases cliMatch_cases tok with ⟨v, hv, hnamed, hres⟩ | ⟨hno,
    ⟨hnone, hres⟩ | ⟨v, hv, -, honly, hres⟩ | ⟨hmany, hres⟩⟩ <;>
    rw [hres]
  · exact ⟨by rintro ⟨⟩, fun h => absurd hnamed (h.1 v hv)⟩
  · refine ⟨by rintro ⟨⟩, ?_⟩
    rintro ⟨-, v, hv, -, -, -, hvb, -⟩
    exact absurd hvb (hnone v hv)
  · refine ⟨by rintro ⟨⟩, ?_⟩
    rintro ⟨-, x, hx, y, hy, hne, hxb, hyb⟩
    exact absurd ((honly x hx hxb).trans (honly y hy hyb).symm) hne
  · exact ⟨fun _ => ⟨hno, hmany⟩, fun _ => rfl⟩

/-- A word means the command it names, or else the only one whose words it begins; it is unknown when it
    begins none, and ambiguous when it names none and begins several. -/
theorem cliMatch_exact (tok : CStr) :
    (∀ t, cliMatch tok = .hit t ↔
      t ∈ cliCommands ∧ (t.Named tok ∨ t.Begins tok ∧ ∀ u ∈ cliCommands, u.Begins tok → u = t)) ∧
    (cliMatch tok = .none ↔ ∀ u ∈ cliCommands, ¬ u.Begins tok) ∧
    (cliMatch tok = .ambiguous ↔ (∀ u ∈ cliCommands, ¬ u.Named tok) ∧
      ∃ v ∈ cliCommands, ∃ w ∈ cliCommands, v ≠ w ∧ v.Begins tok ∧ w.Begins tok) :=
  ⟨fun _ => cliMatch_hit, cliMatch_none, cliMatch_ambiguous⟩

/-! ### Typing on -/

/-- A longer word begins fewer. -/
theorem CliCommand.Begins.shorter (h : t.Begins tok') (hlonger : foldCase tok <+: foldCase tok') :
    t.Begins tok := by
  obtain ⟨w, hw, hpre⟩ := h
  exact ⟨w, hw, hlonger.trans hpre⟩

/-- To type more of a word of the command that is meant changes nothing. -/
theorem cliMatch_stays (h : cliMatch tok = .hit t) (hlonger : foldCase tok <+: foldCase tok')
    (hbegins : t.Begins tok') :
    cliMatch tok' = .hit t := by
  obtain ⟨ht, hnamed | ⟨-, honly⟩⟩ := cliMatch_hit.1 h
  · obtain ⟨v, hv, hsame⟩ := hnamed
    obtain ⟨w, hw, hpre⟩ := hbegins
    -- A whole word begins no other word of its command, so nothing was typed.
    rw [hsame] at hlonger
    have hwords := words_apart t ht v hv w hw (hlonger.trans hpre)
    have hlength : (foldCase tok').length = (foldCase w).length :=
      le_antisymm hpre.length_le (hwords ▸ hlonger.length_le)
    exact cliMatch_hit.2 ⟨ht, .inl ⟨w, hw, hpre.eq_of_length hlength⟩⟩
  · exact cliMatch_hit.2 ⟨ht, .inr ⟨hbegins, fun u hu hub => honly u hu (hub.shorter hlonger)⟩⟩

/-- `sa` is `save`, and so is `sav`. -/
theorem cliMatch_stays_sav : cliMatch "sav".toList = .hit (plain "save" "write") := by
  have hsa : cliMatch "SA".toList = .hit (plain "save" "write") := rfl
  exact cliMatch_stays hsa (by decide) ⟨"save".toList, by decide, by decide⟩

end
end FdcSds
