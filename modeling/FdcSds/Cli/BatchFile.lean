import FdcSds.Cli.Editor
import Mathlib.Data.List.TakeWhile

/-! The lines of a batch file (`run_batch_file`).

    A file is read with `fgets` in pieces of at most 201 bytes. A piece without LF at its end is taken for
    the front of a line that is too long, and the rest of that line is dropped.

        fgets ──ends in LF──▶ strip CR, LF ─▶ strip blanks ─▶ not empty, not # ─▶ dispatch
          └─ no LF at the end ─▶ drop up to the next LF                                     -/

namespace FdcSds
open Schemes

def hash : UInt8 := 0x23

/-! ### The code -/

/-- `fgets`, of at most so many bytes: the piece, and what is left of the file. -/
def fgets : ℕ → Bytes → Bytes × Bytes
  | 0, file => ([], file)
  | _ + 1, [] => ([], [])
  | room + 1, b :: file => if b = lf then ([b], file) else (b :: (fgets room file).1, (fgets room file).2)

/-- The loop over `fgetc`, up to LF or the end of the file. -/
def discardLine (file : Bytes) : Bytes := (file.dropWhile (· ≠ lf)).drop 1

/-- A string without the CRs and LFs at its end. -/
def stripEnd (text : Bytes) : Bytes := (text.reverse.dropWhile fun b => b == lf || b == cr).reverse

def stripBlanks (text : Bytes) : Bytes := text.dropWhile isBlank

/-- A line is to be dispatched: it is not blank, and no comment. -/
def isCommand (text : Bytes) : Bool := stripBlanks text != [] && (stripBlanks text).head? != some hash

/-- The loop of `run_batch_file`: the lines it passes to `cli_dispatch`. Each round reads a byte or more,
    so no more rounds are made than the file has bytes. -/
def batchLoop : ℕ → Bytes → List Bytes
  | 0, _ => []
  | rounds + 1, file =>
    if file = [] then []
    else
      let buf := (fgets (cliLineMax + 1) file).1.takeWhile (· ≠ 0)
      let rest := (fgets (cliLineMax + 1) file).2
      if buf.getLast? ≠ some lf then batchLoop rounds (discardLine rest)
      else if isCommand (stripEnd buf) then stripBlanks (stripEnd buf) :: batchLoop rounds rest
      else batchLoop rounds rest

/-- `run_batch_file`: the lines it dispatches. -/
def batchLines (file : Bytes) : List Bytes := batchLoop file.length file

/-! ### The lines of a file -/

inductive LineEnd where
  | lf | crlf | eof
  deriving DecidableEq

/-- A line that is ended by LF, from what is in front of the LF. -/
def endedLine (text : Bytes) : Bytes × LineEnd :=
  if text.getLast? = some cr then (text.dropLast, .crlf) else (text, .lf)

/-- What is behind the last LF. -/
def lastLine (text : Bytes) : List (Bytes × LineEnd) := if text = [] then [] else [(text, .eof)]

/-- The lines of a file and how each ends. -/
def fileLines (file : Bytes) : List (Bytes × LineEnd) :=
  (file.splitOn lf).dropLast.map endedLine ++ lastLine ((file.splitOn lf).getLast (List.splitOn_ne_nil _ _))

/-- A line that is to run. -/
def runs (text : Bytes) : Bool := decide (text.length ≤ cliLineMax) && isCommand text

/-- What should be dispatched for a line. -/
def refCommand (l : Bytes × LineEnd) : Option Bytes := if runs l.1 then some (stripBlanks l.1) else none

/-- What should be dispatched for a file. -/
def refBatch (file : Bytes) : List Bytes := (fileLines file).filterMap refCommand

/-- A line the code can take: it has an LF, and fits into the buffer with its line end; and it does not end
    in a CR. -/
def Taken (l : Bytes × LineEnd) : Prop := l.2 ≠ .eof ∧ (l.2 = .crlf → l.1.length < cliLineMax) ∧
      l.1.getLast? ≠ some cr

instance (l : Bytes × LineEnd) : Decidable (Taken l) := inferInstanceAs (Decidable (_ ∧ _))

/-! ### One line -/

/-- What the code dispatches for a line. -/
def codeCommand (l : Bytes × LineEnd) : Option Bytes :=
  match l.2 with
  | .eof => none
  | .lf => if runs l.1 then some (stripBlanks l.1) else none
  | .crlf =>
    if l.1.length < cliLineMax ∧ isCommand (stripEnd l.1) =
      true then some (stripBlanks (stripEnd l.1)) else none

theorem stripEnd_lf (text : Bytes) : stripEnd (text ++ [lf]) = stripEnd text := by
  rw [stripEnd, List.reverse_append, List.reverse_singleton, List.singleton_append,
    List.dropWhile_cons_of_pos (by decide), stripEnd]

theorem stripEnd_cr (text : Bytes) : stripEnd (text ++ [cr]) = stripEnd text := by
  rw [stripEnd, List.reverse_append, List.reverse_singleton, List.singleton_append,
    List.dropWhile_cons_of_pos (by decide), stripEnd]

/-- A text that does not end in CR or LF is left alone. -/
theorem stripEnd_self {text : Bytes} (hcr : text.getLast? ≠ some cr) (hlf : lf ∉ text) :
    stripEnd text = text := by
  rcases List.eq_nil_or_concat text with rfl | ⟨front, b, rfl⟩
  · rfl
  · have hb : (b == lf || b == cr) = false := by
      have hblf : b ≠ lf := by
        rintro rfl
        exact hlf (by simp)
      have hbcr : b ≠ cr := by simpa using hcr
      simp [hblf, hbcr]
    rw [List.concat_eq_append, stripEnd, List.reverse_append, List.reverse_singleton, List.singleton_append,
      List.dropWhile_cons_of_neg (by simp [hb])]
    simp

/-- What the code dispatches for the text in front of an LF. -/
theorem codeCommand_ended {text : Bytes} (hlf : lf ∉ text) :
    codeCommand (endedLine text) =
      if text.length ≤ cliLineMax ∧ isCommand (stripEnd text) =
        true then some (stripBlanks (stripEnd text)) else none := by
  by_cases hcr : text.getLast? = some cr
  · obtain ⟨front, rfl⟩ : ∃ front, text = front ++ [cr] := by
      exact List.getLast?_eq_some_iff.mp hcr
    rw [endedLine, if_pos hcr, codeCommand, stripEnd_cr]
    simp only [List.dropLast_concat, List.length_append, List.length_singleton, Nat.succ_le_iff]
  · rw [endedLine, if_neg hcr, codeCommand, stripEnd_self hcr hlf]
    simp [runs]

/-! ### Reading -/

section

variable {piece rest : Bytes} {n : ℕ}

theorem fgets_line (hlf : lf ∉ piece) (hn : piece.length < n) (rest : Bytes) :
    fgets n (piece ++ lf :: rest) = (piece ++ [lf], rest) := by
  induction piece generalizing n with
  | nil =>
    obtain ⟨n, rfl⟩ := Nat.exists_eq_add_one.mpr hn
    rw [List.nil_append, fgets, if_pos rfl]
    rfl
  | cons b piece ih =>
    obtain ⟨n, rfl⟩ := Nat.exists_eq_add_one.mpr (Nat.lt_of_le_of_lt (Nat.zero_le _) hn)
    have hb : b ≠ lf := fun h => hlf (h ▸ List.mem_cons_self)
    rw [List.cons_append, fgets, if_neg hb, ih (fun h => hlf (List.mem_cons_of_mem _ h))
      (Nat.lt_of_succ_lt_succ hn)]
    rfl

theorem fgets_full (hlf : lf ∉ piece) (hn : n ≤ piece.length) (rest : Bytes) :
    fgets n (piece ++ rest) = (piece.take n, piece.drop n ++ rest) := by
  induction piece generalizing n with
  | nil =>
    obtain rfl : n = 0 := Nat.le_zero.mp hn
    rw [fgets]
    rfl
  | cons b piece ih =>
    cases n with
    | zero => rfl
    | succ n =>
      have hb : b ≠ lf := fun h => hlf (h ▸ List.mem_cons_self)
      rw [List.cons_append, fgets, if_neg hb, ih (fun h => hlf (List.mem_cons_of_mem _ h))
        (Nat.le_of_succ_le_succ hn)]
      rfl

theorem fgets_last (hlf : lf ∉ piece) : fgets n piece = (piece.take n, piece.drop n) := by
  induction piece generalizing n with
  | nil => cases n <;> rfl
  | cons b piece ih =>
    cases n with
    | zero => rfl
    | succ n =>
      have hb : b ≠ lf := fun h => hlf (h ▸ List.mem_cons_self)
      rw [fgets, if_neg hb, ih (fun h => hlf (List.mem_cons_of_mem _ h))]
      rfl

theorem discardLine_line (hlf : lf ∉ piece) (rest : Bytes) : discardLine (piece ++ lf :: rest) = rest := by
  have hall : ∀ b ∈ piece, decide (b ≠ lf) = true := by
    intro b hb
    have hne : b ≠ lf := fun h => hlf (h ▸ hb)
    simpa using hne
  rw [discardLine, List.dropWhile_append_of_pos hall, List.dropWhile_cons_of_neg (by simp)]
  rfl

theorem discardLine_last (hlf : lf ∉ piece) : discardLine piece = [] := by
  have hall : ∀ b ∈ piece, decide (b ≠ lf) = true := by
    intro b hb
    have hne : b ≠ lf := fun h => hlf (h ▸ hb)
    simpa using hne
  rw [discardLine, List.dropWhile_eq_nil_iff.mpr hall]
  rfl

theorem takeWhile_string {text : Bytes} (hzero : 0 ∉ text) : text.takeWhile (· ≠ 0) = text := by
  rw [List.takeWhile_eq_self_iff]
  intro b hb
  have hne : b ≠ 0 := fun h => hzero (h ▸ hb)
  simpa using hne

/-! ### The loop -/

theorem batchLoop_nil (rounds : ℕ) : batchLoop rounds [] = [] := by
  cases rounds with
  | zero => rfl
  | succ rounds => rw [batchLoop, if_pos rfl]

/-- One round takes one line that has an LF. -/
theorem batchLoop_line (hlf : lf ∉ piece) (hzero : 0 ∉ piece) (rounds : ℕ) (rest : Bytes) :
    batchLoop (rounds + 1) (piece ++ lf :: rest) = (codeCommand (endedLine piece)).toList ++
      batchLoop rounds rest := by
  rw [codeCommand_ended hlf, batchLoop, if_neg (by simp)]
  dsimp only
  by_cases hfits : piece.length ≤ cliLineMax
  · have hbuf : (piece ++ [lf]).takeWhile (· ≠ 0) = piece ++ [lf] :=
      takeWhile_string (by simpa [hzero] using by decide)
    rw [fgets_line hlf (Nat.lt_succ_of_le hfits), hbuf, if_neg (by simp), stripEnd_lf]
    by_cases hrun : isCommand (stripEnd piece) = true
    · rw [if_pos hrun, if_pos ⟨hfits, hrun⟩]
      rfl
    · rw [if_neg hrun, if_neg (fun h => hrun h.2)]
      rfl
  · -- the front of a longer line, and the discard loop takes the rest of it
    have hlong : cliLineMax + 1 ≤ piece.length := Nat.lt_of_not_le hfits
    have hfront : lf ∉ piece.take (cliLineMax + 1) := fun h => hlf (List.mem_of_mem_take h)
    have hback : lf ∉ piece.drop (cliLineMax + 1) := fun h => hlf (List.mem_of_mem_drop h)
    have hbuf : (piece.take (cliLineMax + 1)).takeWhile (· ≠ 0) = piece.take (cliLineMax + 1) :=
      takeWhile_string fun h => hzero (List.mem_of_mem_take h)
    rw [fgets_full hlf hlong, hbuf, if_pos (fun h => hfront (List.mem_of_getLast? h)), discardLine_line hback,
      if_neg (fun h => hfits h.1)]
    rfl

/-- What is behind the last LF is never dispatched. -/
theorem batchLoop_last (hlf : lf ∉ piece) (rounds : ℕ) : batchLoop rounds piece = [] := by
  cases rounds with
  | zero => rfl
  | succ rounds =>
    rw [batchLoop]
    split
    · rfl
    · have hfront : lf ∉ (piece.take (cliLineMax + 1)).takeWhile (· ≠ 0) :=
        fun h => hlf (List.mem_of_mem_take ((List.takeWhile_prefix _).subset h))
      have hback : lf ∉ piece.drop (cliLineMax + 1) := fun h => hlf (List.mem_of_mem_drop h)
      rw [fgets_last hlf]
      dsimp only
      rw [if_pos (fun h => hfront (List.mem_of_getLast? h)), discardLine_last hback, batchLoop_nil]

theorem fileLines_line (hlf : lf ∉ piece) (rest : Bytes) :
    fileLines (piece ++ lf :: rest) = endedLine piece :: fileLines rest := by
  have hsplit : (piece ++ lf :: rest).splitOn lf = piece :: rest.splitOn lf :=
    List.splitOn_append_cons_self_of_not_mem hlf _
  have hne : rest.splitOn lf ≠ [] := List.splitOn_ne_nil _ _
  rw [fileLines, fileLines]
  simp only [hsplit, List.dropLast_cons_of_ne_nil hne, List.getLast_cons hne, List.map_cons, List.cons_append]

theorem fileLines_last (hlf : lf ∉ piece) : fileLines piece = lastLine piece := by
  have hsplit : piece.splitOn lf = [piece] := List.splitOn_eq_singleton hlf
  rw [fileLines]
  simp [hsplit]

end

/-- A file is a last piece, or a line and another file. -/
theorem lines_induction {motive : Bytes → Prop} (last : ∀ piece, lf ∉ piece → motive piece)
    (line : ∀ piece rest, lf ∉ piece → motive rest → motive (piece ++ lf :: rest))
    (file : Bytes) : motive file := by
  induction hlen : file.length using Nat.strong_induction_on generalizing file with
  | _ len ih =>
    by_cases hlf : lf ∈ file
    · obtain ⟨piece, rest, rfl, hpiece⟩ := List.eq_append_cons_of_mem hlf
      refine line piece rest hpiece (ih rest.length ?_ rest rfl)
      rw [← hlen, List.length_append, List.length_cons]
      omega
    · exact last file hlf

/-- The loop dispatches line by line. -/
theorem batchLoop_lines (rounds : ℕ) (file : Bytes) (hrounds : file.length ≤ rounds) (hzero : 0 ∉ file) :
    batchLoop rounds file = (fileLines file).filterMap codeCommand := by
  induction file using lines_induction generalizing rounds with
  | last piece hlf =>
    rw [batchLoop_last hlf, fileLines_last hlf, lastLine]
    split <;> rfl
  | line piece rest hlf ih =>
    have hlong : 0 < rounds := Nat.lt_of_lt_of_le (by rw [List.length_append, List.length_cons]; omega)
      hrounds
    obtain ⟨rounds, rfl⟩ := Nat.exists_eq_add_one.mpr hlong
    have hrest : rest.length ≤ rounds := by
      simp at hrounds
      omega
    have hpiece : 0 ∉ piece := fun h => hzero (List.mem_append_left _ h)
    have hzero' : 0 ∉ rest := fun h => hzero (List.mem_append_right _ (List.mem_cons_of_mem _ h))
    rw [batchLoop_line hlf hpiece, fileLines_line hlf, ih rounds hrest hzero', List.filterMap_cons]
    cases codeCommand (endedLine piece) <;> rfl

/-- What the lines of a file are like. -/
theorem fileLines_text (file : Bytes) : ∀ l ∈ fileLines file, lf ∉ l.1 ∧
      (l.2 = .lf → l.1.getLast? ≠ some cr) := by
  induction file using lines_induction with
  | last piece hlf =>
    rw [fileLines_last hlf, lastLine]
    split
    · simp
    · simpa using hlf
  | line piece rest hlf ih =>
    rw [fileLines_line hlf]
    intro l hl
    rcases List.mem_cons.mp hl with rfl | hl
    · by_cases hcr : piece.getLast? = some cr
      · rw [endedLine, if_pos hcr]
        exact ⟨fun h => hlf ((List.dropLast_sublist _).subset h), by simp⟩
      · rw [endedLine, if_neg hcr]
        exact ⟨hlf, fun _ => hcr⟩
    · exact ih l hl

/-! ### Against the reference -/

theorem filterMap_eq_iff {α β : Type} {f g : α → Option β}
    (hle : ∀ a, (f a).isSome → (g a).isSome) (l : List α) :
    l.filterMap f = l.filterMap g ↔ ∀ a ∈ l, f a = g a := by
  have hlen : ∀ l : List α, (l.filterMap f).length ≤ (l.filterMap g).length := by
    intro l
    induction l with
    | nil => exact Nat.le_refl _
    | cons a l ih =>
      have ha := hle a
      rw [List.filterMap_cons, List.filterMap_cons]
      cases hf : f a <;> cases hg : g a <;> simp [hf, hg] at ha ⊢ <;> omega
  refine ⟨fun h => ?_, fun h => List.filterMap_congr h⟩
  induction l with
  | nil => simp
  | cons a l ih =>
    have ha := hle a
    have hl := hlen l
    rw [List.filterMap_cons, List.filterMap_cons] at h
    cases hf : f a with
    | none =>
      cases hg : g a with
      | none => simpa [hf, hg] using ih (by simpa [hf, hg] using h)
      | some y =>
        -- one more on the right, and never more on the left
        have hlonger := congrArg List.length h
        simp [hf, hg] at hlonger
        omega
    | some x =>
      obtain ⟨y, hy⟩ := Option.isSome_iff_exists.mp (ha (by rw [hf]; rfl))
      simp only [hf, hy, List.cons.injEq] at h
      simpa [hf, hy, h.1] using ih h.2

theorem stripBlanks_append {text : Bytes} (hne : stripBlanks text ≠ []) (more : Bytes) :
    stripBlanks (text ++ more) = stripBlanks text ++ more := by
  rw [stripBlanks, List.dropWhile_append, if_neg (by simpa [stripBlanks] using hne)]
  rfl

theorem isCommand_append {text : Bytes} (h : isCommand text = true) (more : Bytes) :
    isCommand (text ++ more) = true := by
  obtain ⟨hne, hhash⟩ : stripBlanks text ≠ [] ∧ (stripBlanks text).head? ≠ some hash := by
    simpa [isCommand] using h
  have hhead : (stripBlanks text ++ more).head? = (stripBlanks text).head? :=
    List.head?_append_of_ne_nil _ hne
  rw [isCommand, stripBlanks_append hne, hhead]
  simp [hne, hhash]

theorem stripEnd_prefix (text : Bytes) : ∃ ends, text = stripEnd text ++ ends := by
  refine ⟨(text.reverse.takeWhile fun b => b == lf || b == cr).reverse, ?_⟩
  rw [stripEnd, ← List.reverse_append, List.takeWhile_append_dropWhile, List.reverse_reverse]

/-- A command of the code is one of the reference. -/
theorem refCommand_of_code (l : Bytes × LineEnd) (h : (codeCommand l).isSome) : (refCommand l).isSome := by
  obtain ⟨text, ending⟩ := l
  cases ending with
  | eof => cases h
  | lf => exact h
  | crlf =>
    obtain ⟨hlen, hrun⟩ : text.length < cliLineMax ∧ isCommand (stripEnd text) = true := by
      simpa [codeCommand] using h
    obtain ⟨ends, hends⟩ := stripEnd_prefix text
    have hruns : runs text = true := by
      have hcommand : isCommand text = true := by
        rw [hends]
        exact isCommand_append hrun ends
      simp [runs, hcommand, Nat.le_of_lt hlen]
    simp [refCommand, hruns]

/-- A line is dispatched as it should be when it is taken, or when there is nothing to run. -/
theorem codeCommand_eq_iff {l : Bytes × LineEnd} (hlf : lf ∉ l.1)
    (hend : l.2 = .lf → l.1.getLast? ≠ some cr) :
    codeCommand l = refCommand l ↔ (runs l.1 = true → Taken l) := by
  have hskip : runs l.1 ≠ true → codeCommand l = refCommand l := by
    intro hruns
    have href : refCommand l = none := by rw [refCommand, if_neg hruns]
    rw [href, ← Option.not_isSome_iff_eq_none]
    intro hcode
    have h := refCommand_of_code l hcode
    rw [href] at h
    cases h
  by_cases hruns : runs l.1 = true
  · refine Iff.trans ?_ (forall_prop_of_true hruns).symm
    obtain ⟨text, ending⟩ := l
    have hrun : isCommand text = true := (Bool.and_eq_true_iff.mp hruns).2
    have href : refCommand (text, ending) = some (stripBlanks text) := if_pos hruns
    rw [href]
    cases ending with
    | eof => simp [codeCommand, Taken]
    | lf => simpa [codeCommand, hruns, Taken] using hend rfl
    | crlf =>
      constructor
      · intro h
        by_cases hcode : text.length < cliLineMax ∧ isCommand (stripEnd text) = true
        · -- nothing but the line end may be gone from the text
          have hsame : stripBlanks (stripEnd text) = stripBlanks text := by simpa [codeCommand, hcode] using h
          have hne : stripBlanks (stripEnd text) ≠ [] := by
            rintro hnil
            have hcommand := hcode.2
            rw [isCommand, hnil] at hcommand
            cases hcommand
          refine ⟨by simp, fun _ => hcode.1, fun hcr => ?_⟩
          obtain ⟨front, rfl⟩ := List.getLast?_eq_some_iff.mp hcr
          obtain ⟨ends, hends⟩ := stripEnd_prefix front
          have hmore : front ++ [cr] = stripEnd (front ++ [cr]) ++ (ends ++ [cr]) := by
            rw [stripEnd_cr, ← List.append_assoc, ← hends]
          have hlonger : stripBlanks (front ++ [cr]) =
            stripBlanks (stripEnd (front ++ [cr])) ++ (ends ++ [cr]) := by
            rw [← stripBlanks_append hne, ← hmore]
          rw [hsame] at hlonger
          simp at hlonger
        · simp [codeCommand, hcode] at h
      · rintro ⟨-, hlen, hcr⟩
        have hself : stripEnd text = text := stripEnd_self hcr hlf
        simp [codeCommand, hself, hlen rfl, hrun]
  · exact iff_of_true (hskip hruns) fun h => absurd h hruns

/-- A file without NULs is dispatched as it should be exactly when the code takes each of its lines that is
    to run. -/
theorem batchLines_exact (file : Bytes) (hzero : 0 ∉ file) :
    batchLines file = refBatch file ↔ ∀ l ∈ fileLines file, runs l.1 = true → Taken l := by
  rw [batchLines, batchLoop_lines _ file (Nat.le_refl _) hzero, refBatch, filterMap_eq_iff refCommand_of_code]
  refine forall₂_congr fun l hl => ?_
  exact codeCommand_eq_iff (fileLines_text file l hl).1 (fileLines_text file l hl).2

/-- `#\n a\r\nb\n` -/
def smallBatch : Bytes := [0x23, 0x0A, 0x20, 0x61, 0x0D, 0x0A, 0x62, 0x0A]

theorem batchLines_small : batchLines smallBatch = refBatch smallBatch ∧
      batchLines smallBatch = [[0x61], [0x62]] :=
  ⟨(batchLines_exact smallBatch (by decide)).mpr (by decide), by decide⟩

/-- A file whose one line has no LF: it is not run. -/
theorem last_line_lost : batchLines [0x61] = [] ∧ refBatch [0x61] = [[0x61]] := by decide

end FdcSds
