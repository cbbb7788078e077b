import FdcSds.Cli.Tokens

/-! The line editor (`cli_feed`).

    Bytes go into the line buffer until a line end, where the line is dispatched in place and the buffer
    is empty again. What is written back to the terminal is left out.

        printable: held ++ [b]   BS, DEL: last one off   CR, LF: dispatch ──▶ held = ""
                                                         LF behind CR: nothing            -/

namespace FdcSds
open Schemes

/-- `CLI_LINE_MAX`. -/
def cliLineMax : ℕ := 200

def cr : UInt8 := 0x0D
def lf : UInt8 := 0x0A
def backspace : UInt8 := 0x08
def del : UInt8 := 0x7F
def eot : UInt8 := 0x04

/-- `cli_console_t`, and the lines that were dispatched on it. -/
structure CliConsole where
  echo : Bool
  isNetwork : Bool
  disconnect : Bool
  len : ℕ
  sawCr : Bool
  line : Bytes
  dispatched : List Bytes

/-- `cli_console_init`, and `is_network`. -/
def cliConsoleInit (echo isNetwork : Bool) : CliConsole :=
  ⟨echo, isNetwork, false, 0, false, List.replicate (cliLineMax + 1) 0, []⟩

namespace CliConsole

/-- Which dispatched lines ask for a disconnect, by the lines so far. -/
abbrev Logout : Type := List Bytes → Bool

/-- `cli_dispatch` of the line buffer. -/
def dispatch (logout : Logout) (c : CliConsole) : CliConsole :=
  let lines := c.dispatched ++ [stringAt c.line 0]
  { c with line := (tokenize c.line).1, dispatched := lines, disconnect := c.disconnect || logout lines }

/-- `cli_feed`. -/
def cliFeed (logout : Logout) (c : CliConsole) (b : UInt8) : CliConsole :=
  if b = cr ∨ b = lf then
    if b = lf ∧ c.sawCr then { c with sawCr := false }
    else { ({ c with sawCr := b == cr, line := c.line.set c.len 0 } : CliConsole).dispatch
      logout with len := 0 }
  else
    let c := { c with sawCr := false }
    if b = backspace ∨ b = del then { c with len := c.len - 1 }
    else if b = eot then { c with disconnect := c.disconnect || c.isNetwork }
    else if 0x20 ≤ b ∧ b ≤ 0x7E then
      if c.len < cliLineMax then { c with line := c.line.set c.len b, len := c.len + 1 } else c
    else c

/-- What is held of the line. -/
def held (c : CliConsole) : Bytes := c.line.take c.len

end CliConsole

/-! ### The reference editor -/

/-- What a byte within a line does to its text. -/
def typed (text : Bytes) (b : UInt8) : Bytes :=
  if b = backspace ∨ b = del then text.dropLast
  else if 0x20 ≤ b ∧ b ≤ 0x7E then if text.length < cliLineMax then text ++ [b] else text
  else text

def isLineEnd (b : UInt8) : Bool := b == cr || b == lf

/-- The stream between its line ends: CR, LF, CRLF and LFCR each are one. -/
def cutLines : Bytes → List Bytes
  | [] => [[]]
  | [a] => if isLineEnd a then [[], []] else [[a]]
  | a :: b :: s =>
    if isLineEnd a && isLineEnd b && a != b then [] :: cutLines s
    else if isLineEnd a then [] :: cutLines (b :: s)
    else (cutLines (b :: s)).modifyHead (a :: ·)

/-- The lines of a stream that was cut, the first from `text` on, and what is held of the last. -/
def editAll (text : Bytes) : List Bytes → List Bytes × Bytes
  | [] => ([], text)
  | [cut] => ([], cut.foldl typed text)
  | cut :: cuts => (cut.foldl typed text :: (editAll [] cuts).1, (editAll [] cuts).2)

/-- The lines of a stream. -/
def refLines (s : Bytes) : List Bytes := (editAll [] (cutLines s)).1

/-- Each LFCR that is one line end has an LF behind it. -/
def crFollowed : Bytes → Bool
  | [] => true
  | [_] => true
  | a :: b :: s =>
    if a = lf ∧ b = cr then s.head? == some lf && crFollowed s
    else if a = cr ∧ b = lf then crFollowed s
    else crFollowed (b :: s)

/-! ### Where the code cuts -/

/-- The cuts of `cli_feed`: a CR, and an LF unless it is behind a CR. -/
def codeCuts : Bool → Bytes → List Bytes
  | _, [] => [[]]
  | sawCr, a :: s =>
    if a = lf ∧ sawCr = true then codeCuts false s
    else if isLineEnd a then [] :: codeCuts (a == cr) s
    else (codeCuts false s).modifyHead (a :: ·)

theorem codeCuts_ne_nil (sawCr : Bool) (s : Bytes) : codeCuts sawCr s ≠ [] := by
  induction s generalizing sawCr with
  | nil => simp [codeCuts]
  | cons a s ih =>
    rw [codeCuts]
    split
    · exact ih _
    · split
      · simp
      · simpa [List.modifyHead_eq_nil_iff] using ih false

theorem cutLines_ne_nil (s : Bytes) : cutLines s ≠ [] := by
  fun_induction cutLines s <;> simp_all [List.modifyHead_eq_nil_iff]

/-- An LF behind a CR is not seen. -/
theorem codeCuts_sawCr {s : Bytes} (h : s.head? ≠ some lf) : codeCuts true s = codeCuts false s := by
  cases s with
  | nil => rfl
  | cons a s =>
    have ha : a ≠ lf := by simpa using h
    simp [codeCuts, ha]

theorem codeCuts_lf (s : Bytes) : codeCuts false (lf :: s) = [] :: codeCuts false s := by
  rw [codeCuts, if_neg (by simp), if_pos (by decide)]
  rfl

theorem codeCuts_crlf (sawCr : Bool) (s : Bytes) :
    codeCuts sawCr (cr :: lf :: s) = [] :: codeCuts false s := by
  rw [codeCuts, if_neg (by simp [cr, lf]), if_pos (by decide)]
  rfl

theorem codeCuts_lfcr (s : Bytes) : codeCuts false (lf :: cr :: s) = [] :: [] :: codeCuts true s := by
  rw [codeCuts_lf, codeCuts, if_neg (by simp), if_pos (by decide)]
  rfl

theorem isLineEnd_iff {a : UInt8} : isLineEnd a = true ↔ a = cr ∨ a = lf := by simp [isLineEnd]

theorem crFollowed_skip {a b : UInt8} {s : Bytes} (h : ¬ (isLineEnd a && isLineEnd b && a != b) = true) :
    crFollowed (a :: b :: s) = crFollowed (b :: s) := by
  rw [crFollowed, if_neg, if_neg]
  · rintro ⟨rfl, rfl⟩
    exact h (by decide)
  · rintro ⟨rfl, rfl⟩
    exact h (by decide)

/-- The code cuts where the reference does, and behind an LFCR once more: unless an LF is next, which makes
    up for it. -/
theorem codeCuts_spec (s : Bytes) :
    (crFollowed s = true → codeCuts false s = cutLines s) ∧
      (crFollowed s = false → (cutLines s).length < (codeCuts false s).length) := by
  have le_of : ∀ s : Bytes, ((crFollowed s = true → codeCuts false s = cutLines s) ∧
      (crFollowed s = false → (cutLines s).length < (codeCuts false s).length)) →
        (cutLines s).length ≤ (codeCuts false s).length := by
    rintro s ⟨hsame, hmore⟩
    cases h : crFollowed s with
    | true => exact Nat.le_of_eq (by rw [hsame h])
    | false => exact Nat.le_of_lt (hmore h)
  fun_induction cutLines s with
  | case1 => simp [crFollowed, codeCuts]
  | case2 a ha =>
    rcases isLineEnd_iff.mp ha with rfl | rfl <;> simp [crFollowed, codeCuts, isLineEnd, cr, lf]
  | case3 a ha => simp [crFollowed, codeCuts, ha]
  | case4 a b s hpair ih =>
    simp only [Bool.and_eq_true, bne_iff_ne, isLineEnd_iff] at hpair
    obtain ⟨⟨rfl | rfl, rfl | rfl⟩, hne⟩ := hpair
    · exact absurd rfl hne
    · have hf : crFollowed (cr :: lf :: s) = crFollowed s := by simp [crFollowed, cr, lf]
      rw [hf, codeCuts_crlf]
      exact ⟨fun h => by rw [ih.1 h], fun h => Nat.succ_lt_succ (ih.2 h)⟩
    · have hf : crFollowed (lf :: cr :: s) = (s.head? == some lf && crFollowed s) := by simp [crFollowed]
      rw [hf, codeCuts_lfcr]
      by_cases hnext : s.head? = some lf
      · -- the LF behind it is not seen
        obtain ⟨s', rfl⟩ : ∃ s', s = lf :: s' := by
          cases s with
          | nil => cases hnext
          | cons c s' => exact ⟨s', by rw [Option.some.inj hnext]⟩
        have hskip : codeCuts true (lf :: s') = codeCuts false s' := by simp [codeCuts]
        rw [hskip, ← codeCuts_lf]
        rw [hnext]
        simp only [BEq.rfl, Bool.true_and]
        exact ⟨fun h => by rw [ih.1 h], fun h => Nat.succ_lt_succ (ih.2 h)⟩
      · rw [codeCuts_sawCr hnext]
        have hle := le_of s ih
        refine ⟨fun h => absurd (by simpa using (Bool.and_eq_true_iff.mp h).1) hnext, fun _ => ?_⟩
        simp only [List.length_cons]
        omega
    · exact absurd rfl hne
  | case5 a b s hpair ha ih =>
    have hf : crFollowed (a :: b :: s) = crFollowed (b :: s) := crFollowed_skip hpair
    have hc : codeCuts false (a :: b :: s) = [] :: codeCuts false (b :: s) := by
      rw [codeCuts, if_neg (by simp), if_pos ha]
      rcases isLineEnd_iff.mp ha with rfl | rfl
      · have hb : (b :: s).head? ≠ some lf := by
          rintro h
          obtain rfl : b = lf := Option.some.inj h
          exact hpair (by decide)
        have hcr : (cr == cr) = true := rfl
        rw [hcr, codeCuts_sawCr hb]
      · rfl
    rw [hf, hc]
    exact ⟨fun h => by rw [ih.1 h], fun h => Nat.succ_lt_succ (ih.2 h)⟩
  | case6 a b s hpair ha ih =>
    have hf : crFollowed (a :: b :: s) = crFollowed (b :: s) := crFollowed_skip hpair
    have hc : codeCuts false (a :: b :: s) = (codeCuts false (b :: s)).modifyHead (a :: ·) := by
      rw [codeCuts, if_neg (by simp), if_neg ha]
    rw [hf, hc]
    simp only [List.length_modifyHead]
    exact ⟨fun h => by rw [ih.1 h], ih.2⟩

/-! ### Text -/

theorem editAll_nil_cons {cuts : List Bytes} (text : Bytes) (h : cuts ≠ []) :
    editAll text ([] :: cuts) = (text :: (editAll [] cuts).1, (editAll [] cuts).2) := by
  obtain ⟨cut, cuts, rfl⟩ := List.exists_cons_of_ne_nil h
  rfl

theorem editAll_modifyHead {cuts : List Bytes} (text : Bytes) (a : UInt8) (h : cuts ≠ []) :
    editAll text (cuts.modifyHead (a :: ·)) = editAll (typed text a) cuts := by
  obtain ⟨cut, cuts, rfl⟩ := List.exists_cons_of_ne_nil h
  cases cuts <;> rfl

theorem length_editAll {cuts : List Bytes} (text : Bytes) (h : cuts ≠ []) :
    (editAll text cuts).1.length + 1 = cuts.length := by
  obtain ⟨cut, cuts, rfl⟩ := List.exists_cons_of_ne_nil h
  clear h
  induction cuts generalizing text cut with
  | nil => rfl
  | cons cut' cuts ih => simpa [editAll] using ih [] cut'

namespace CliConsole

/-- The buffer has room for a full line and its NUL, and no NUL is held. -/
structure Good (c : CliConsole) : Prop where
  room : c.line.length = cliLineMax + 1
  fits : c.len ≤ cliLineMax
  text : 0 ∉ c.held

variable {logout : Logout} {c : CliConsole} {b : UInt8}

theorem Good.length_held (h : c.Good) : c.held.length = c.len := by
  have hroom := h.room
  have hfits := h.fits
  rw [held, List.length_take]
  omega

theorem init_good (echo isNetwork : Bool) : (cliConsoleInit echo isNetwork).Good :=
  ⟨List.length_replicate, Nat.zero_le _, by simp [held, cliConsoleInit]⟩

/-- A NUL is stored behind what is held. -/
theorem Good.set_nul (h : c.Good) : c.line.set c.len 0 = c.held ++ 0 :: c.line.drop (c.len + 1) := by
  have hroom := h.room
  have hfits := h.fits
  rw [held, List.set_eq_take_append_cons_drop, if_pos (by omega)]

/-- A line end, other than an LF behind a CR. -/
theorem Good.feed_end (h : c.Good) (hb : b = cr ∨ b = lf) (hnew : ¬ (b = lf ∧ c.sawCr = true)) :
    (c.cliFeed logout b).Good ∧ (c.cliFeed logout b).dispatched = c.dispatched ++ [c.held] ∧
      (c.cliFeed logout b).held = [] ∧
      (c.cliFeed logout b).sawCr = (b == cr) ∧ (c.cliFeed logout b).isNetwork = c.isNetwork ∧
      (c.cliFeed logout b).disconnect = (c.disconnect || logout (c.dispatched ++ [c.held])) := by
  have hline := h.set_nul
  have hstring : stringAt (c.line.set c.len 0) 0 = c.held := by
    rw [hline]
    exact @stringAt_closed _ [] h.text _
  obtain ⟨-, -, hlen⟩ := argv_words c.held (c.line.drop (c.len + 1)) h.text
  rw [← hline, List.length_set, h.room] at hlen
  rw [cliFeed, if_pos hb, if_neg hnew]
  refine ⟨⟨hlen, Nat.zero_le _, by simp [held]⟩, ?_, by simp [held], rfl, rfl, ?_⟩
  · exact congrArg (c.dispatched ++ [·]) hstring
  · exact congrArg (fun l => c.disconnect || logout (c.dispatched ++ [l])) hstring

theorem feed_lf (hcr : c.sawCr = true) : c.cliFeed logout lf = { c with sawCr := false } := by
  rw [cliFeed, if_pos (.inr rfl), if_pos ⟨rfl, hcr⟩]

/-- Any other byte. -/
theorem Good.feed_text (h : c.Good) (hb : ¬ (b = cr ∨ b = lf)) :
    (c.cliFeed logout b).Good ∧ (c.cliFeed logout b).dispatched = c.dispatched ∧
      (c.cliFeed logout b).held = typed c.held b ∧
      (c.cliFeed logout b).sawCr = false ∧ (c.cliFeed logout b).isNetwork = c.isNetwork ∧
      (c.cliFeed logout b).disconnect = (c.disconnect || (b == eot && c.isNetwork)) := by
  have hroom := h.room
  have hfits := h.fits
  have hheld := h.length_held
  rw [cliFeed, if_neg hb]
  dsimp only
  by_cases hback : b = backspace ∨ b = del
  · have hlast : c.line.take (c.len - 1) = c.held.dropLast := by
      rw [List.dropLast_eq_take, hheld, held, List.take_take, Nat.min_eq_left (Nat.sub_le ..)]
    have hno : (b == eot) = false := by rcases hback with rfl | rfl <;> decide
    rw [if_pos hback, typed, if_pos hback]
    refine ⟨⟨hroom, Nat.le_trans (Nat.sub_le ..) hfits, ?_⟩, rfl, hlast, rfl, rfl, by simp [hno]⟩
    exact fun hzero => h.text (List.dropLast_subset _ (hlast ▸ hzero))
  · rw [if_neg hback, typed, if_neg hback]
    by_cases heot : b = eot
    · subst heot
      rw [if_pos rfl, if_neg (by decide)]
      exact ⟨⟨hroom, hfits, h.text⟩, rfl, rfl, rfl, rfl, rfl⟩
    · have hno : (b == eot) = false := by simpa using heot
      rw [if_neg heot, hno]
      by_cases hprint : 0x20 ≤ b ∧ b ≤ 0x7E
      · rw [if_pos hprint, if_pos hprint, hheld]
        by_cases hfree : c.len < cliLineMax
        · have hmore : (c.line.set c.len b).take (c.len + 1) = c.held ++ [b] := by
            rw [List.set_eq_take_append_cons_drop, if_pos (by omega), List.append_cons]
            refine List.take_left' ?_
            simp only [List.length_append, List.length_singleton]
            exact congrArg (· + 1) hheld
          rw [if_pos hfree, if_pos hfree]
          refine ⟨⟨by rw [List.length_set, hroom], hfree, ?_⟩, rfl, hmore, rfl, rfl, by simp⟩
          intro hzero
          change 0 ∈ (c.line.set c.len b).take (c.len + 1) at hzero
          rw [hmore, List.mem_append, List.mem_singleton] at hzero
          rcases hzero with hzero | rfl
          · exact h.text hzero
          · exact absurd hprint.1 (by decide)
        · rw [if_neg hfree, if_neg hfree]
          exact ⟨⟨hroom, hfits, h.text⟩, rfl, rfl, rfl, rfl, by simp⟩
      · rw [if_neg hprint, if_neg hprint]
        exact ⟨⟨hroom, hfits, h.text⟩, rfl, rfl, rfl, rfl, by simp⟩

/-- A stream of bytes. -/
def feedAll (logout : Logout) (c : CliConsole) (s : Bytes) : CliConsole := s.foldl (cliFeed logout) c

/-- The lines of a stream are those between the cuts of the code, edited. -/
theorem Good.feedAll (h : c.Good) (s : Bytes) :
    (c.feedAll logout s).Good ∧ (c.feedAll logout s).dispatched = c.dispatched ++
      (editAll c.held (codeCuts c.sawCr s)).1 ∧
      (c.feedAll logout s).held = (editAll c.held (codeCuts c.sawCr s)).2 := by
  induction s generalizing c with
  | nil => exact ⟨h, by simp [CliConsole.feedAll, codeCuts, editAll], rfl⟩
  | cons b s ih =>
    change (CliConsole.feedAll logout (c.cliFeed logout b) s).Good ∧
      (CliConsole.feedAll logout (c.cliFeed logout b) s).dispatched = _ ∧
      (CliConsole.feedAll logout (c.cliFeed logout b) s).held = _
    rw [codeCuts]
    by_cases hskip : b = lf ∧ c.sawCr = true
    · obtain ⟨rfl, hcr⟩ := hskip
      rw [if_pos ⟨rfl, hcr⟩, feed_lf hcr]
      exact @ih { c with sawCr := false } ⟨h.room, h.fits, h.text⟩
    · rw [if_neg hskip]
      by_cases hb : isLineEnd b = true
      · obtain ⟨hgood, hdispatched, hheld, hcr, -⟩ := @Good.feed_end logout _ _ h (isLineEnd_iff.mp hb) hskip
        obtain ⟨hgood', hlines, htext⟩ := ih hgood
        rw [hheld, hcr] at hlines htext
        rw [if_pos hb, editAll_nil_cons _ (codeCuts_ne_nil _ _)]
        refine ⟨hgood', ?_, htext⟩
        rw [hlines, hdispatched, List.append_assoc]
        rfl
      · obtain ⟨hgood, hdispatched, hheld, hcr, -⟩ := @Good.feed_text logout _ _ h (mt isLineEnd_iff.mpr hb)
        obtain ⟨hgood', hlines, htext⟩ := ih hgood
        rw [hheld, hcr] at hlines htext
        rw [if_neg hb, editAll_modifyHead _ _ (codeCuts_ne_nil _ _)]
        exact ⟨hgood', by rw [hlines, hdispatched], htext⟩

theorem Good.dispatched_prefix (h : c.Good) (s : Bytes) : c.dispatched <+: (c.feedAll logout s).dispatched :=
  ⟨_, (h.feedAll s).2.1.symm⟩

/-- What follows `d` in `final`: `x`, and what follows it. -/
theorem follows_iff {d final : List Bytes} {x : Bytes} (hx : d ++ [x] <+: final) (P : List Bytes → Prop) :
    (∃ ls, d <+: ls ∧ ls ≠ d ∧ ls <+: final ∧ P ls) ↔
      P (d ++ [x]) ∨ ∃ ls, d ++ [x] <+: ls ∧ ls ≠ d ++ [x] ∧ ls <+: final ∧ P ls := by
  constructor
  · rintro ⟨ls, hd, hne, hfinal, hls⟩
    by_cases hone : ls = d ++ [x]
    · exact .inl (hone ▸ hls)
    · refine .inr ⟨ls, List.prefix_of_prefix_length_le hx hfinal ?_, hone, hfinal, hls⟩
      have hlen : d.length < ls.length := by
        refine Nat.lt_of_le_of_ne hd.length_le fun hsame => hne (hd.eq_of_length hsame).symm
      simp only [List.length_append, List.length_singleton]
      omega
  · rintro (hx' | ⟨ls, hd, hne, hfinal, hls⟩)
    · exact ⟨d ++ [x], List.prefix_append _ _, by simp, hx, hx'⟩
    · refine ⟨ls, (List.prefix_append _ _).trans hd, ?_, hfinal, hls⟩
      rintro rfl
      have hlen := hd.length_le
      simp only [List.length_append, List.length_singleton] at hlen
      omega

/-- A stream asks for a disconnect with a Ctrl-D on a network console, or with one of its lines. -/
theorem Good.feedAll_disconnect (h : c.Good) (s : Bytes) :
    (c.feedAll logout s).disconnect = true ↔ c.disconnect = true ∨ (c.isNetwork = true ∧ eot ∈ s) ∨
      ∃ ls, c.dispatched <+: ls ∧ ls ≠ c.dispatched ∧ ls <+: (c.feedAll logout s).dispatched ∧
        logout ls = true := by
  induction s generalizing c with
  | nil =>
    change c.disconnect = true ↔ c.disconnect = true ∨ (c.isNetwork = true ∧ eot ∈ []) ∨
      ∃ ls, c.dispatched <+: ls ∧ ls ≠ c.dispatched ∧ ls <+: c.dispatched ∧ logout ls = true
    refine ⟨.inl, ?_⟩
    rintro (hdone | ⟨-, hnone⟩ | ⟨ls, hd, hne, hfinal, -⟩)
    · exact hdone
    · cases hnone
    · exact absurd (hfinal.eq_of_length_le hd.length_le) hne
  | cons b s ih =>
    have hfeed : c.feedAll logout (b :: s) = (c.cliFeed logout b).feedAll logout s := rfl
    rw [hfeed]
    by_cases hb : b = cr ∨ b = lf
    · have hmem : eot ∈ b :: s ↔ eot ∈ s := by
        rcases hb with rfl | rfl <;> simp [eot, cr, lf]
      rw [hmem]
      by_cases hskip : b = lf ∧ c.sawCr = true
      · obtain ⟨rfl, hcr⟩ := hskip
        rw [feed_lf hcr]
        exact @ih { c with sawCr := false } ⟨h.room, h.fits, h.text⟩
      · obtain ⟨hgood, hdispatched, -, -, hnet, hdisc⟩ := @Good.feed_end logout _ _ h hb hskip
        have hnext := @Good.dispatched_prefix logout _ hgood s
        rw [hdispatched] at hnext
        rw [ih hgood, hdisc, hnet, hdispatched, follows_iff hnext, Bool.or_eq_true, or_assoc,
          or_left_comm (a := logout _ = true)]
    · obtain ⟨hgood, hdispatched, -, -, hnet, hdisc⟩ := @Good.feed_text logout _ _ h hb
      rw [ih hgood, hdisc, hnet, hdispatched, Bool.or_eq_true, or_assoc]
      refine or_congr_right ?_
      rw [← or_assoc]
      refine or_congr_left ?_
      rw [Bool.and_eq_true, beq_iff_eq, List.mem_cons, and_comm, ← and_or_left, eq_comm (a := b)]

/-! ### The editor and its specification -/

/-- What is held after a stream. -/
def refText (s : Bytes) : Bytes := (editAll [] (cutLines s)).2

/-- A console that was fed a stream does what the reference editor does. -/
structure Matches (logout : Logout) (echo isNetwork : Bool) (s : Bytes) : Prop where
  lines : ((cliConsoleInit echo isNetwork).feedAll logout s).dispatched = refLines s
  text : ((cliConsoleInit echo isNetwork).feedAll logout s).held = refText s
  index : ∀ t, t <+: s → ((cliConsoleInit echo isNetwork).feedAll logout t).len ≤ cliLineMax
  hangup : ((cliConsoleInit echo isNetwork).feedAll logout s).disconnect = true ↔
    (isNetwork = true ∧ eot ∈ s) ∨ ∃ ls, ls ≠ [] ∧ ls <+: refLines s ∧ logout ls = true

/-- The editor does what it should, just when each LFCR that is one line end has an LF behind it: for the
    code an LFCR is two line ends. -/
theorem editor_matches (logout : Logout) (echo isNetwork : Bool) (s : Bytes) :
    Matches logout echo isNetwork s ↔ crFollowed s = true := by
  have hgood := init_good echo isNetwork
  obtain ⟨-, hlines, htext⟩ := @Good.feedAll logout _ hgood s
  have hheld : (cliConsoleInit echo isNetwork).held = [] := rfl
  have hcr : (cliConsoleInit echo isNetwork).sawCr = false := rfl
  have hnone : (cliConsoleInit echo isNetwork).dispatched = [] := rfl
  rw [hheld, hcr, hnone, List.nil_append] at hlines
  rw [hheld, hcr] at htext
  constructor
  · intro h
    by_contra hnot
    have hmore := (codeCuts_spec s).2 (by simpa using hnot)
    have hsame := congrArg List.length (hlines.symm.trans h.lines)
    have hcode := length_editAll [] (codeCuts_ne_nil false s)
    have href := length_editAll [] (cutLines_ne_nil s)
    rw [refLines] at hsame
    omega
  · intro h
    have hcuts := (codeCuts_spec s).1 h
    rw [hcuts] at hlines htext
    refine ⟨hlines, htext, fun t _ => (hgood.feedAll t).1.fits, ?_⟩
    rw [hgood.feedAll_disconnect, hlines, hnone]
    simp [cliConsoleInit, refLines]

/-- A line ended by LF and CR: the CR dispatches an empty line more. -/
theorem editor_lfcr : ¬ Matches (fun _ => false) true false [0x61, lf, cr] := by
  intro h
  exact absurd h.lines (by decide)

end CliConsole

end FdcSds
