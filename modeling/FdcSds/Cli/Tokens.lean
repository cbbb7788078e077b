import FdcSds.Schemes.Bytes
import FdcSds.Schemes.Cursors

/-! The tokenizer of `cli_dispatch`.

    A line is cut into words in its own buffer: each word is compacted onto itself, its quotes taken out,
    and closed with a NUL. The write cursor never runs ahead of the read cursor.

        mount 1 "BLANK 8MB.DSK"   ──▶   mount␀1␀BLANK 8MB.DSK␀·
        ▲     ▲ ▲                       argv: where each word starts -/

namespace FdcSds
open Schemes

def cliMaxArgs : ℕ := 8

def space : UInt8 := 0x20
def tab : UInt8 := 0x09
def quote : UInt8 := 0x22

/-- Between words. -/
def isBlank (b : UInt8) : Bool := b == space || b == tab

/-! ### In the buffer -/

/-- `*p`. -/
def cell (buf : Bytes) (p : ℕ) : UInt8 := buf.getD p 0

/-- The string at `p`. -/
def stringAt (buf : Bytes) (p : ℕ) : Bytes := (buf.drop p).takeWhile (· ≠ 0)

/-- `p`, past the blanks; `fuel` bounds the loop, as it does below. -/
def skipBlanks (buf : Bytes) (p : ℕ) : ℕ → ℕ
  | 0 => p
  | fuel + 1 => if isBlank (cell buf p) then skipBlanks buf (p + 1) fuel else p

/-- The loop over one word: the buffer, `p` and `dst` after it. -/
def compact (buf : Bytes) (p dst : ℕ) (inQuote : Bool) : ℕ → Bytes × ℕ × ℕ
  | 0 => (buf, p, dst)
  | fuel + 1 =>
    if cell buf p = 0 then (buf, p, dst)
    else if cell buf p = quote then compact buf (p + 1) dst (!inQuote) fuel
    else if !inQuote && isBlank (cell buf p) then (buf, p, dst)
    else compact (buf.set dst (cell buf p)) (p + 1) (dst + 1) inQuote fuel

/-- The loop over the line, with so many slots of `argv` left. -/
def tokenLoop (buf : Bytes) (p : ℕ) (argv : List ℕ) : ℕ → Bytes × List ℕ
  | 0 => (buf, argv)
  | slots + 1 =>
    if cell buf p = 0 then (buf, argv)
    else
      let p := skipBlanks buf p buf.length
      if cell buf p = 0 then (buf, argv)
      else
        let (word, q, dst) := compact buf p p false buf.length
        tokenLoop (word.set dst 0) (if cell word q = 0 then q else q + 1) (argv ++ [p]) slots

/-- The tokenizer: the buffer afterwards, and where the words start in it. -/
def tokenize (line : Bytes) : Bytes × List ℕ := tokenLoop line 0 [] cliMaxArgs

/-- The words a handler is called with. -/
def argvOf (line : Bytes) : List Bytes := (tokenize line).2.map (stringAt (tokenize line).1)

/-! ### By the grammar -/

/-- A character of a line is a separator, a quote, or of a word. -/
inductive Mark where
  | sep
  | quote
  | char (b : UInt8)
  deriving DecidableEq

def Mark.char? : Mark → Option UInt8
  | .char b => some b
  | _ => none

/-- A quote turns quoting on or off, and blanks separate outside of quotes. -/
def marks (inQuote : Bool) : Bytes → List Mark
  | [] => []
  | b :: line =>
    if b = FdcSds.quote then .quote :: marks (!inQuote) line
    else if !inQuote && isBlank b then .sep :: marks inQuote line
    else .char b :: marks inQuote line

/-- The words of a line: the runs between separators, without their quotes. -/
def words (line : Bytes) : List Bytes :=
  (((marks false line).splitOn .sep).filter (· ≠ [])).map fun run => run.filterMap Mark.char?

variable {line unread rest kept gap done : Bytes} {b : UInt8} {p : ℕ} {argv : List ℕ} {inQuote : Bool}

/-! ### Words -/

@[simp] theorem words_nil : words [] = [] := rfl

theorem words_blank (hb : isBlank b = true) : words (b :: line) = words line := by
  have hquote : b ≠ quote := by
    rintro rfl
    exact absurd hb (by decide)
  have hmarks : marks false (b :: line) = .sep :: marks false line := by simp [marks, hquote, hb]
  rw [words, hmarks, List.splitOn_cons_eq_if_modifyHead]
  simp [words]

/-- A word, up to the separator behind it. -/
theorem words_cons {run : List Mark} (hmarks : marks false line = run ++ .sep :: marks false rest)
    (hsep : .sep ∉ run) (hrun : run ≠ []) :
    words line = run.filterMap Mark.char? :: words rest := by
  rw [words, hmarks, List.splitOn_append_cons_self_of_not_mem hsep,
    List.filter_cons_of_pos (by simpa using hrun)]
  rfl

/-- The last word. -/
theorem words_last (hsep : .sep ∉ marks false line) (hrun : marks false line ≠ []) :
    words line = [(marks false line).filterMap Mark.char?] := by
  rw [words, List.splitOn_eq_singleton hsep]
  simp [hrun]

/-! ### Cursors -/

theorem cell_read (b : UInt8) (unread : Bytes) :
    cell (kept ++ gap ++ b :: unread) (kept.length + gap.length) = b :=
  Cursors.getD_read ..

theorem cell_front (b : UInt8) (unread : Bytes) : cell (done ++ b :: unread) done.length = b := by
  have h := @cell_read done [] b unread
  rwa [List.append_nil, List.length_nil, Nat.add_zero] at h

theorem stringAt_closed (hzero : 0 ∉ kept) (rest : Bytes) :
    stringAt (done ++ kept ++ 0 :: rest) done.length = kept := by
  rw [stringAt, List.append_assoc, List.drop_left, List.takeWhile_append_of_pos (by
    intro b hb
    have hne : b ≠ 0 := by
      rintro rfl
      exact hzero hb
    simpa using hne)]
  simp

theorem skipBlanks_run (hzero : 0 ∉ unread) (fuel : ℕ) (hfuel : unread.length ≤ fuel) :
    ∃ blanks left, unread = blanks ++ left ∧ words unread = words left ∧
      (∀ b ∈ left.head?, isBlank b = false) ∧
      skipBlanks (done ++ (unread ++ 0 :: rest)) done.length fuel = (done ++ blanks).length := by
  induction unread generalizing done fuel with
  | nil =>
    refine ⟨[], [], rfl, rfl, by simp, ?_⟩
    cases fuel with
    | zero => simp [skipBlanks]
    | succ fuel =>
      have hcell : cell (done ++ ([] ++ 0 :: rest)) done.length = 0 := cell_front 0 rest
      rw [skipBlanks, hcell, if_neg (by decide), List.append_nil]
  | cons b unread ih =>
    obtain ⟨fuel, rfl⟩ := Nat.exists_eq_add_one.mpr (Nat.lt_of_lt_of_le (Nat.succ_pos _) hfuel)
    have hcell : cell (done ++ (b :: unread ++ 0 :: rest)) done.length = b := cell_front b _
    rw [skipBlanks, hcell]
    by_cases hb : isBlank b = true
    · obtain ⟨blanks, left, hsplit, hwords, hhead, hskip⟩ :=
        @ih (done ++ [b]) (fun h => hzero (List.mem_cons_of_mem _ h)) fuel
        (Nat.le_of_succ_le_succ hfuel)
      refine ⟨b :: blanks, left, by rw [hsplit]; rfl, (words_blank hb).trans hwords, hhead, ?_⟩
      rw [if_pos hb]
      simpa using hskip
    · refine ⟨[], b :: unread, rfl, rfl, by simpa using hb, ?_⟩
      rw [if_neg hb, List.append_nil]

/-- The text of a run. -/
abbrev textOf (run : List Mark) : Bytes := run.filterMap Mark.char?

/-- The loop over one word keeps its text, and stops at the separator or at the end. -/
theorem compact_run (hzero : 0 ∉ unread) (fuel : ℕ) (hfuel : unread.length ≤ fuel) :
    ∃ run gap' left, compact (kept ++ gap ++ (unread ++ 0 :: rest)) (kept.length + gap.length)
      kept.length inQuote fuel =
        (kept ++ textOf run ++ gap' ++ (left ++ 0 :: rest), (kept ++ textOf run ++ gap').length,
          (kept ++ textOf run).length) ∧
      (textOf run).length + gap'.length + left.length = gap.length + unread.length ∧
        .sep ∉ run ∧ 0 ∉ textOf run ∧
      (left = [] ∧ marks inQuote unread = run ∨
        ∃ d u, left = d :: u ∧ d ≠ 0 ∧ 0 ∉ u ∧ marks inQuote unread = run ++ .sep :: marks false u) := by
  induction unread generalizing kept gap inQuote fuel with
  | nil =>
    refine ⟨[], gap, [], ?_, by simp, by simp, by simp, .inl ⟨rfl, rfl⟩⟩
    have hcell : cell (kept ++ gap ++ ([] ++ 0 :: rest)) (kept.length + gap.length) = 0 := cell_read 0 rest
    cases fuel with
    | zero => simp [compact]
    | succ fuel => rw [compact, if_pos hcell]; simp
  | cons b unread ih =>
    obtain ⟨fuel, rfl⟩ := Nat.exists_eq_add_one.mpr (Nat.lt_of_lt_of_le (Nat.succ_pos _) hfuel)
    have hcell : cell (kept ++ gap ++ (b :: unread ++ 0 :: rest)) (kept.length + gap.length) = b :=
      cell_read b _
    have hb : b ≠ 0 := fun h => hzero (h ▸ List.mem_cons_self)
    have hzero' : 0 ∉ unread := fun h => hzero (List.mem_cons_of_mem _ h)
    have hfuel' : unread.length ≤ fuel := Nat.le_of_succ_le_succ hfuel
    rw [compact, hcell, if_neg hb]
    by_cases hquote : b = quote
    · -- a quote is dropped
      obtain ⟨run, gap', left, hrun, hlen', hsep, htext, hleft⟩ :=
        @ih kept (gap ++ [b]) (!inQuote) hzero' fuel hfuel'
      have htextq : textOf (.quote :: run) = textOf run := rfl
      refine ⟨.quote :: run, gap', left, ?_, ?_, by simpa using hsep, htext, ?_⟩
      · rw [if_pos hquote]
        have hskip : kept ++ gap ++ (b :: unread ++ 0 :: rest) = kept ++ (gap ++ [b]) ++
          (unread ++ 0 :: rest) := Cursors.skip ..
        have hlen : kept.length + gap.length + 1 = kept.length + (gap ++ [b]).length := by simp; omega
        rw [hskip, hlen]
        exact hrun
      · rw [htextq, hlen']
        simp
        omega
      · have hmarks : marks inQuote (b :: unread) = .quote :: marks (!inQuote) unread := by
          simp [marks, hquote]
        rw [hmarks]
        rcases hleft with ⟨rfl, hend⟩ | ⟨d, u, rfl, hd, hu, hend⟩
        · exact .inl ⟨rfl, by rw [hend]⟩
        · exact .inr ⟨d, u, rfl, hd, hu, by rw [hend]; rfl⟩
    · rw [if_neg hquote]
      by_cases hblank : (!inQuote && isBlank b) = true
      · -- a separator ends the word
        rw [if_pos hblank]
        refine ⟨[], gap, b :: unread, by simp, by simp, by simp, by simp,
          .inr ⟨b, unread, rfl, hb, hzero', ?_⟩⟩
        have hout : inQuote = false := by simpa using (Bool.and_eq_true_iff.mp hblank).1
        simp [marks, hquote, hout, (Bool.and_eq_true_iff.mp hblank).2]
      · -- anything else is kept
        rw [if_neg hblank]
        obtain ⟨run, gap', left, hrun, hlen', hsep, htext, hleft⟩ :=
          @ih (kept ++ [b]) (gap ++ [b]).tail inQuote hzero' fuel hfuel'
        have hmarks : marks inQuote (b :: unread) = .char b :: marks inQuote unread := by
          rw [marks, if_neg hquote, if_neg hblank]
        have htextb : textOf (.char b :: run) = b :: textOf run := rfl
        rw [Cursors.length_keep] at hlen'
        refine ⟨.char b :: run, gap', left, ?_,
          by rw [htextb]; simp only [List.length_cons]; omega, by simpa using hsep,
          by rw [htextb]; simpa using ⟨hb.symm, by simpa using htext⟩, ?_⟩
        · have hkeep : (kept ++ gap ++ (b :: unread ++ 0 :: rest)).set kept.length b =
              kept ++ [b] ++ (gap ++ [b]).tail ++ (unread ++ 0 :: rest) := Cursors.keep ..
          have hlen : kept.length + gap.length + 1 = (kept ++ [b]).length + (gap ++ [b]).tail.length := by
            rw [Cursors.length_keep]
            simp
            omega
          have hdst : kept.length + 1 = (kept ++ [b]).length := by simp
          rw [hkeep, hlen, hdst, hrun, htextb]
          simp
        · rw [hmarks]
          rcases hleft with ⟨rfl, hend⟩ | ⟨d, u, rfl, hd, hu, hend⟩
          · exact .inl ⟨rfl, by rw [hend]⟩
          · exact .inr ⟨d, u, rfl, hd, hu, by rw [hend]; rfl⟩

theorem tokenLoop_end {buf : Bytes} (h : cell buf p = 0) (slots : ℕ) :
    tokenLoop buf p argv slots = (buf, argv) := by
  cases slots with
  | zero => rfl
  | succ slots => rw [tokenLoop, if_pos h]

/-- A word that is not empty of marks. -/
theorem marks_ne_nil (hb : ∀ b ∈ unread.head?, isBlank b = false) {run : List Mark}
    (h : marks false unread = run ++ .sep :: marks false rest) : run ≠ [] := by
  rintro rfl
  cases unread with
  | nil => cases h
  | cons b unread =>
    have hb' : isBlank b = false := hb b rfl
    rw [marks] at h
    split at h
    · cases h
    · rw [if_neg (by simp [hb'])] at h
      cases h

/-- What the words in front are does not depend on what is behind them. -/
def Settled (done : Bytes) (argv : List ℕ) (toks : List Bytes) : Prop :=
  ∀ tail, argv.map (stringAt (done ++ tail)) = toks

theorem Settled.blanks {toks : List Bytes} (h : Settled done argv toks) (blanks : Bytes) :
    Settled (done ++ blanks) argv toks := by
  intro tail
  rw [List.append_assoc]
  exact h _

theorem Settled.close {toks : List Bytes} (h : Settled done argv toks) {word : Bytes}
    (hword : 0 ∉ word) (gap : Bytes) :
    Settled (done ++ word ++ [0] ++ gap) (argv ++ [done.length]) (toks ++ [word]) := by
  intro tail
  have hsplit : done ++ word ++ [0] ++ gap ++ tail = done ++ word ++ 0 :: (gap ++ tail) := by simp
  have hold := h (word ++ 0 :: (gap ++ tail))
  rw [← List.append_assoc] at hold
  rw [hsplit, List.map_append, hold, List.map_singleton, stringAt_closed hword]

/-- One word of the line: the last, or one with a separator behind it. -/
theorem word_run (hzero : 0 ∉ unread) (hhead : ∀ b ∈ unread.head?, isBlank b = false)
    (hne : unread ≠ []) (fuel : ℕ) (hfuel : unread.length ≤ fuel) :
    ∃ buf q dst w gap, compact (done ++ (unread ++ 0 :: rest)) done.length done.length false fuel =
      (buf, q, dst) ∧ 0 ∉ w ∧
      (words unread = [w] ∧ cell buf q = 0 ∧ cell (buf.set dst 0) q = 0 ∧
        buf.set dst 0 = done ++ w ++ [0] ++ gap ++ rest ∧
          w.length + gap.length = unread.length ∨
        ∃ u, words unread = w :: words u ∧ 0 ∉ u ∧ cell buf q ≠ 0 ∧
          buf.set dst 0 = done ++ w ++ [0] ++ gap ++ (u ++ 0 :: rest) ∧
          q + 1 = (done ++ w ++ [0] ++ gap).length ∧
            w.length + 1 + gap.length + u.length = unread.length) := by
  obtain ⟨run, gap, left, hrun, hlen, hsep, htext, hleft⟩ :=
    @compact_run unread rest done [] false hzero fuel hfuel
  rw [List.append_nil, List.length_nil, Nat.add_zero] at hrun
  rw [List.length_nil, Nat.zero_add] at hlen
  rcases hleft with ⟨rfl, hmarks⟩ | ⟨d, u, rfl, hd, hu, hmarks⟩
  · have hclose : (done ++ textOf run ++ gap ++ ([] ++ 0 :: rest)).set (done ++ textOf run).length 0 =
        done ++ textOf run ++ [0] ++ (gap ++ [0]).tail ++ rest := by
      have hskip : done ++ textOf run ++ gap ++ ([] ++ 0 :: rest) = done ++ textOf run ++
        (gap ++ [0]) ++ rest := Cursors.skip ..
      rw [hskip]
      exact Cursors.close _ _ _ _ (by simp)
    refine ⟨_, _, _, textOf run, (gap ++ [0]).tail, hrun, htext, .inl ⟨?_, ?_, ?_, hclose, ?_⟩⟩
    · rw [← hmarks]
      refine words_last (by rwa [hmarks]) ?_
      obtain ⟨b, s, rfl⟩ := List.exists_cons_of_ne_nil hne
      rw [marks]
      split
      · simp
      · split <;> simp
    · exact cell_front 0 rest
    · rw [hclose]
      cases gap with
      | nil =>
        have hsplit : done ++ textOf run ++ [0] ++ ([] ++ [0] : Bytes).tail ++ rest = done ++
          textOf run ++ 0 :: rest := by simp
        rw [List.append_nil, hsplit]
        exact cell_front 0 rest
      | cons g gap =>
        have hsplit : done ++ textOf run ++ [0] ++ (g :: gap ++ [0]).tail ++ rest = done ++
          textOf run ++ [0] ++ gap ++ 0 :: rest := by simp
        have hlong : (done ++ textOf run ++ g :: gap).length = (done ++ textOf run ++ [0] ++ gap).length := by
          simp
        rw [hsplit, hlong]
        exact cell_front 0 rest
    · simpa using hlen
  · refine ⟨_, _, _, textOf run, (gap ++ [d]).tail, hrun, htext, .inr ⟨u, ?_, hu, ?_, ?_, ?_, ?_⟩⟩
    · exact words_cons hmarks hsep (marks_ne_nil hhead hmarks)
    · have hcell : cell (done ++ textOf run ++ gap ++ (d :: u ++ 0 :: rest))
        (done ++ textOf run ++ gap).length = d := cell_front d _
      rwa [hcell]
    · have hskip : done ++ textOf run ++ gap ++ (d :: u ++ 0 :: rest) = done ++ textOf run ++
        (gap ++ [d]) ++ (u ++ 0 :: rest) :=
        Cursors.skip ..
      rw [hskip]
      exact Cursors.close _ _ _ _ (by simp)
    · simp
      omega
    · simp at hlen ⊢
      omega

/-- The loop over the line splits what is unread, and leaves what is behind the line. -/
theorem tokenLoop_run (slots : ℕ) {toks : List Bytes} (hzero : 0 ∉ unread) (hargv : Settled done argv toks) :
    (tokenLoop (done ++ (unread ++ 0 :: rest)) done.length argv slots).2.map
        (stringAt (tokenLoop (done ++ (unread ++ 0 :: rest)) done.length argv slots).1) = toks ++
          (words unread).take slots ∧
      ∃ front, (tokenLoop (done ++ (unread ++ 0 :: rest)) done.length argv slots).1 = front ++ rest ∧
        front.length = done.length + unread.length + 1 := by
  induction slots generalizing done unread argv toks with
  | zero =>
    refine ⟨by rw [List.take_zero, List.append_nil]; exact hargv _, done ++ unread ++ [0], ?_, ?_⟩
    · simp [tokenLoop]
    · simp
      omega
  | succ slots ih =>
    obtain ⟨blanks, left, hsplit, hwords, hhead, hskip⟩ := @skipBlanks_run _ rest done hzero
      (done ++ (unread ++ 0 :: rest)).length (by simp; omega)
    have hbuf : done ++ (unread ++ 0 :: rest) = (done ++ blanks) ++ (left ++ 0 :: rest) := by
      rw [hsplit]
      simp
    have hsettled : Settled (done ++ blanks) argv toks := hargv.blanks blanks
    have hleft : 0 ∉ left := fun h => hzero (hsplit ▸ List.mem_append_right _ h)
    have hlong : (done ++ blanks).length + left.length = done.length + unread.length := by
      rw [hsplit]
      simp
      omega
    rw [tokenLoop, hskip, hwords, ← hlong]
    have hnone : left = [] → ∀ r, r = (done ++ (unread ++ 0 :: rest), argv) →
        r.2.map (stringAt r.1) = toks ++ (words left).take (slots + 1) ∧
          ∃ front, r.1 = front ++ rest ∧ front.length = (done ++ blanks).length + left.length + 1 := by
      rintro rfl r rfl
      refine ⟨?_, done ++ blanks ++ [0], ?_, by simp; omega⟩
      · rw [words_nil, List.take_nil, List.append_nil]
        exact hargv _
      rw [hbuf]
      simp
    have hthere : cell (done ++ (unread ++ 0 :: rest)) (done ++ blanks).length = 0 ↔ left = [] := by
      rw [hbuf]
      cases left with
      | nil => exact iff_of_true (cell_front 0 rest) rfl
      | cons c left =>
        have hcell : cell (done ++ blanks ++ (c :: left ++ 0 :: rest)) (done ++ blanks).length = c :=
          cell_front c _
        refine iff_of_false ?_ (by simp)
        rw [hcell]
        exact fun h => hleft (h ▸ List.mem_cons_self)
    by_cases hfirst : cell (done ++ (unread ++ 0 :: rest)) done.length = 0
    · rw [if_pos hfirst]
      refine hnone ?_ _ rfl
      cases unread with
      | nil => exact (List.nil_eq_append_iff.mp hsplit).2
      | cons b unread =>
        have hcell : cell (done ++ (b :: unread ++ 0 :: rest)) done.length = b := cell_front b _
        exact absurd (hcell.symm.trans hfirst) fun h => hzero (h ▸ List.mem_cons_self)
    · rw [if_neg hfirst]
      by_cases hend : left = []
      · rw [if_pos (hthere.mpr hend)]
        exact hnone hend _ rfl
      · rw [if_neg (mt hthere.mp hend), hbuf]
        obtain ⟨buf, q, dst, w, gap, hcompact, hw, hlast | ⟨u, hnext, hu, hcell, hset, hq, hlen⟩⟩ :=
          @word_run left rest (done ++ blanks) hleft hhead hend
            (done ++ blanks ++ (left ++ 0 :: rest)).length (by simp; omega)
        · obtain ⟨hnext, hcell, hstop, hset, hlen⟩ := hlast
          rw [hcompact]
          dsimp only
          rw [if_pos hcell, tokenLoop_end hstop, hnext, hset]
          refine ⟨?_, done ++ blanks ++ w ++ [0] ++ gap, rfl, ?_⟩
          · rw [List.take_succ_cons, List.take_nil]
            exact hsettled.close hw gap rest
          · simp only [List.length_append, List.length_singleton] at hlen ⊢
            omega
        · rw [hcompact]
          dsimp only
          rw [if_neg hcell, hset, hq, hnext]
          obtain ⟨hargv', front, hfront, hflen⟩ := ih hu (hsettled.close hw gap)
          refine ⟨?_, front, hfront, ?_⟩
          · rw [hargv', List.append_assoc]
            rfl
          · rw [hflen]
            simp only [List.length_append, List.length_singleton] at hlen ⊢
            omega

/-- The words a handler is called with are the first eight of the line, and what is behind the line is
    as it was. -/
theorem argv_words (line rest : Bytes) (hzero : 0 ∉ line) :
    argvOf (line ++ 0 :: rest) = (words line).take cliMaxArgs ∧
      (tokenize (line ++ 0 :: rest)).1.drop (line.length + 1) = rest ∧
      (tokenize (line ++ 0 :: rest)).1.length = (line ++ 0 :: rest).length := by
  obtain ⟨hargv, front, hfront, hlen⟩ := @tokenLoop_run line rest [] [] cliMaxArgs [] hzero (fun _ => rfl)
  rw [List.nil_append, List.nil_append] at hargv
  rw [List.nil_append] at hfront
  rw [List.length_nil, Nat.zero_add] at hlen
  refine ⟨hargv, ?_, ?_⟩
  · change (tokenLoop (line ++ 0 :: rest) 0 [] cliMaxArgs).1.drop _ = _
    rw [List.length_nil] at hfront
    rw [hfront, ← hlen, List.drop_left]
  · change (tokenLoop (line ++ 0 :: rest) 0 [] cliMaxArgs).1.length = _
    rw [List.length_nil] at hfront
    rw [hfront, List.length_append, hlen]
    simp
    omega

/-- `a "b c" ""x` -/
def quotedLine : Bytes := [0x61, 0x20, 0x22, 0x62, 0x20, 0x63, 0x22, 0x20, 0x22, 0x22, 0x78]

theorem argv_words_quoted :
    argvOf (quotedLine ++ [0, 0x7A]) = [[0x61], [0x62, 0x20, 0x63], [0x78]] ∧
      (tokenize (quotedLine ++ [0, 0x7A])).1.drop 12 = [0x7A] := by
  have h := argv_words quotedLine [0x7A] (by decide)
  exact ⟨h.1.trans (by decide), h.2.1⟩

end FdcSds
