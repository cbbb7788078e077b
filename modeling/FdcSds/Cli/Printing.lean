import FdcSds.Cli.Editor
import FdcSds.Net.Copy

/-! `type <file>` (`cmd_type`): a text file on a raw terminal.

    A newline that no carriage return stands before gets one, also where a read ends between the two, and
    the output ends on a fresh line.

        a ⏎ b ␍ ⏎ c   ──▶   a ␍ ⏎ b ␍ ⏎ c ␍ ⏎                                                    -/

namespace FdcSds
open Schemes Prog

/-- What is written for some bytes, with `prev` before them. -/
def typeBytes (prev : UInt8) : Bytes → Bytes
  | [] => []
  | ch :: bs => (if ch = lf ∧ prev ≠ cr then [cr, lf] else [ch]) ++ typeBytes ch bs

/-- The last byte, or `prev` when there is none. -/
def typePrev (prev : UInt8) (bs : Bytes) : UInt8 := bs.getLastD prev

/-- The fresh line at the end. -/
def typeEnd (prev : UInt8) : Bytes := if prev ≠ 0 ∧ prev ≠ lf then [cr, lf] else []

/-- The output for a whole text. -/
def shown (bs : Bytes) : Bytes := typeBytes 0 bs ++ typeEnd (typePrev 0 bs)

/-- Why nothing is printed. -/
inductive TypeError where
  | badName
  | errno (e : Errno)
  deriving DecidableEq

/-- The loop of `cmd_type`, up to so many rounds of it; `out` is what was written so far. -/
def typeLoop (prev : UInt8) (out : Bytes) : ℕ → Prog StdioCall StdioCall.Answer (Option (UInt8 × Bytes))
  | 0 => pure none
  | rounds + 1 => do
    let buf ← ask (StdioCall.fread 256)
    if buf = [] then pure (some (prev, out))
    else typeLoop (typePrev prev buf) (out ++ typeBytes prev buf) rounds

/-- `cmd_type`. -/
def cmdType (sh : Shell) (name : CStr) (rounds : ℕ) :
    Prog StdioCall StdioCall.Answer (Option (Except TypeError Bytes)) :=
  match sh.resolve name with
  | none => pure (some (.error .badName))
  | some path => do
    match ← ask (StdioCall.fopen .sin path) with
    | .error e => pure (some (.error (.errno e)))
    | .ok () => do
      match ← typeLoop 0 [] rounds with
      | none => pure none
      | some (prev, out) => do
        let _ ← ask (StdioCall.fclose .sin)
        pure (some (.ok (out ++ typeEnd prev)))

/-! ### The text -/

theorem typeBytes_append (prev : UInt8) (bs bs' : Bytes) :
    typeBytes prev (bs ++ bs') = typeBytes prev bs ++ typeBytes (typePrev prev bs) bs' := by
  induction bs generalizing prev with
  | nil => rfl
  | cons ch bs ih =>
    have hprev : typePrev prev (ch :: bs) = typePrev ch bs := List.getLastD_cons ..
    rw [List.cons_append, typeBytes, typeBytes, ih, hprev, List.append_assoc]

theorem typePrev_append (prev : UInt8) (bs bs' : Bytes) :
    typePrev prev (bs ++ bs') = typePrev (typePrev prev bs) bs' := by
  induction bs generalizing prev with
  | nil => rfl
  | cons ch bs ih => simpa only [List.cons_append, typePrev, List.getLastD_cons] using ih ch

/-- Every newline has its carriage return. -/
def Returned (prev : UInt8) : Bytes → Prop
  | [] => True
  | ch :: bs => (ch = lf → prev = cr) ∧ Returned ch bs

/-- What already has them is written as it is. -/
theorem typeBytes_of_returned {prev : UInt8} {bs : Bytes} (h : Returned prev bs) :
    typeBytes prev bs = bs := by
  induction bs generalizing prev with
  | nil => rfl
  | cons ch bs ih =>
    have hno : ¬(ch = lf ∧ prev ≠ cr) := fun hlf => hlf.2 (h.1 hlf.1)
    rw [typeBytes, if_neg hno, ih h.2]
    rfl

theorem returned_append {prev : UInt8} {bs bs' : Bytes} :
    Returned prev (bs ++ bs') ↔ Returned prev bs ∧ Returned (typePrev prev bs) bs' := by
  induction bs generalizing prev with
  | nil => simp [Returned, typePrev]
  | cons ch bs ih =>
    have hprev : typePrev prev (ch :: bs) = typePrev ch bs := List.getLastD_cons ..
    rw [List.cons_append, Returned, Returned, ih, hprev, and_assoc]

theorem returned_typeBytes (prev : UInt8) (bs : Bytes) :
    Returned prev (typeBytes prev bs) ∧ typePrev prev (typeBytes prev bs) = typePrev prev bs := by
  induction bs generalizing prev with
  | nil => exact ⟨trivial, rfl⟩
  | cons ch bs ih =>
    obtain ⟨hreturned, hprev⟩ := ih ch
    have hlast : typePrev prev (ch :: bs) = typePrev ch bs := List.getLastD_cons ..
    rw [typeBytes, hlast]
    split
    · next hlf =>
      obtain ⟨rfl, -⟩ := hlf
      refine ⟨⟨by rintro ⟨⟩, fun _ => rfl, hreturned⟩, ?_⟩
      exact (typePrev_append prev [cr, lf] _).trans hprev
    · next hkeep =>
      refine ⟨⟨fun hlf => ?_, hreturned⟩, ?_⟩
      · by_contra hne
        exact hkeep ⟨hlf, hne⟩
      · exact (typePrev_append prev [ch] _).trans hprev

theorem shown_returned (bs : Bytes) : Returned 0 (shown bs) := by
  obtain ⟨hreturned, -⟩ := returned_typeBytes 0 bs
  refine returned_append.mpr ⟨hreturned, ?_⟩
  unfold typeEnd
  split
  · exact ⟨by rintro ⟨⟩, fun _ => rfl, trivial⟩
  · trivial

theorem typePrev_shown (bs : Bytes) : typePrev 0 (shown bs) = 0 ∨ typePrev 0 (shown bs) = lf := by
  rw [shown, typePrev_append, (returned_typeBytes 0 bs).2, typeEnd]
  split
  · exact .inr rfl
  · next hend =>
    rcases not_and_or.mp hend with hzero | hlf
    · exact .inl (not_not.mp hzero)
    · exact .inr (not_not.mp hlf)

/-- What was printed once is printed as it is. -/
theorem shown_shown (bs : Bytes) : shown (shown bs) = shown bs := by
  have hend : typeEnd (typePrev 0 (shown bs)) = [] := by
    rcases typePrev_shown bs with h | h <;> rw [h] <;> rfl
  rw [shown, typeBytes_of_returned (shown_returned bs), hend, List.append_nil]

/-- But for carriage returns the text is what it was. -/
theorem typeBytes_filter (prev : UInt8) (bs : Bytes) :
    (typeBytes prev bs).filter (· ≠ cr) = bs.filter (· ≠ cr) := by
  induction bs generalizing prev with
  | nil => rfl
  | cons ch bs ih =>
    rw [typeBytes, List.filter_append, ih]
    split
    · next hlf =>
      obtain ⟨rfl, -⟩ := hlf
      rfl
    · rw [← List.filter_append]
      rfl

/-! ### The command -/

variable {s : Stdio} {content out : Bytes} {prev : UInt8}

/-- The source of the stream is a file with this content, read up to `n`. -/
structure Reading (content : Bytes) (n : ℕ) (s : Stdio) : Prop where
  whole : s.cut = false
  data : s.data s.source = content
  pos : s.pos = n

theorem Reading.step {n : ℕ} (h : Reading content n s) : s.reads 256 <+: content.drop n ∧
    Reading content (n + (s.reads 256).length) (s.call (.fread 256)).1 ∧
      Stdio.Same s (s.call (.fread 256)).1 ∧
      (s.reads 256 = [] → (s.call (.fread 256)).1.bad = false → content.drop n = []) := by
  have hfront := s.reads_front 256
  have hleft : s.left = content.drop n := by rw [Stdio.left, h.whole, h.data, h.pos]; rfl
  rw [hleft] at hfront
  refine ⟨hfront, ⟨h.whole, h.data, by rw [← h.pos]; rfl⟩, ⟨rfl, rfl, rfl, rfl⟩, fun hnone hbad => ?_⟩
  rw [← hleft]
  exact Stdio.reads_nil (by decide) (Bool.or_eq_false_iff.mp hbad).2 hnone

/-- The loop writes what it reads, and it reads all when no read fails. -/
theorem typeLoop_run {n rounds : ℕ} (h : Reading content n s) {p : UInt8} {o : Bytes} {s' : Stdio}
    (hr : (typeLoop prev out rounds).run Stdio.call s = (s', some (p, o))) :
    ∃ part, part <+: content.drop n ∧ p = typePrev prev part ∧
      o = out ++ typeBytes prev part ∧ Stdio.Same s s' ∧
      (s'.bad = false → part = content.drop n) := by
  induction rounds generalizing s n prev out with
  | zero => cases hr
  | succ rounds ih =>
    obtain ⟨hfront, hnext, hsame, hend⟩ := h.step
    have hcall : s.call (.fread 256) = ((s.call (.fread 256)).1, s.reads 256) := rfl
    rw [typeLoop, run_bind, run_ask, hcall] at hr
    dsimp only at hr
    split at hr
    · next hnone =>
      cases hr
      exact ⟨[], List.nil_prefix, rfl, (List.append_nil _).symm, hsame, fun hbad => (hend hnone hbad).symm⟩
    · next hsome =>
      obtain ⟨part, hpart, rfl, rfl, hsame', hall⟩ := ih hnext hr
      obtain ⟨rest, hrest⟩ := hfront
      have hdrop : content.drop (n + (s.reads 256).length) = rest := by
        rw [← List.drop_drop, ← hrest, List.drop_left]
      rw [hdrop] at hpart hall
      refine ⟨s.reads 256 ++ part, ?_, (typePrev_append ..).symm, ?_, hsame.trans hsame', fun hbad => ?_⟩
      · rw [← hrest]
        exact (List.prefix_append_right_inj _).mpr hpart
      · rw [typeBytes_append, List.append_assoc]
      · rw [hall hbad, hrest]

/-- A round for every byte is enough. -/
theorem typeLoop_ends {n rounds : ℕ} (h : Reading content n s) (hn : n ≤ content.length)
    (hrounds : content.length < n + rounds) :
    ((typeLoop prev out rounds).run Stdio.call s).2.isSome = true := by
  induction rounds generalizing s n prev out with
  | zero => omega
  | succ rounds ih =>
    obtain ⟨hfront, hnext, -, -⟩ := h.step
    have hcall : s.call (.fread 256) = ((s.call (.fread 256)).1, s.reads 256) := rfl
    rw [typeLoop, run_bind, run_ask, hcall]
    dsimp only
    split
    · rfl
    · next hsome =>
      have hmoved : 0 < (s.reads 256).length := List.length_pos_iff.mpr hsome
      have hleft := hfront.length_le
      rw [List.length_drop] at hleft
      exact ih hnext (by omega) (by omega)

/-- `type` opens a file to read it, reads it and closes it. -/
def viewing : Contract StdioCall StdioCall.Answer Unit where
  may _ c := c matches .fopen .sin _ | .fread _ | .fclose .sin
  gives _ _ _ := True
  next _ _ _ := ()

theorem typeLoop_views (rounds : ℕ) : viewing.Obeys () (typeLoop prev out rounds) fun _ _ => True := by
  induction rounds generalizing prev out with
  | zero => trivial
  | succ rounds ih => exact Contract.Obeys.bind ⟨rfl, fun buf _ => Contract.obeys_ite trivial ih⟩

theorem cmdType_views (sh : Shell) (name : CStr) (rounds : ℕ) :
    viewing.Obeys () (cmdType sh name rounds) fun _ _ => True := by
  unfold cmdType
  split
  · trivial
  · refine Contract.Obeys.bind ⟨rfl, fun opened _ => ?_⟩
    cases opened with
    | error e => trivial
    | ok u =>
      refine Contract.Obeys.bind ((typeLoop_views rounds).mono fun _ read _ => ?_)
      cases read with
      | none => trivial
      | some result => exact Contract.Obeys.bind ⟨rfl, fun _ _ => trivial⟩

/-- The files of the card are the same in both, and where no call fails no read did. -/
structure Viewed (a b : Stdio) : Prop where
  names : b.names = a.names
  data : b.data = a.data
  weather : b.weather = a.weather
  fair : (∀ t, (a.weather t).fails = false) → b.bad = false

theorem viewing_kept (a : Stdio) : viewing.KeptBy Stdio.call fun b _ => Viewed a b := by
  intro b g c hb hc
  refine ⟨trivial, ?_⟩
  cases c with
  | fopen f path =>
    cases f with
    | sout => cases hc
    | sin =>
      unfold Stdio.call
      dsimp only
      split
      · exact ⟨hb.names, hb.data, hb.weather, hb.fair⟩
      · split
        · exact ⟨hb.names, hb.data, hb.weather, hb.fair⟩
        · exact ⟨hb.names, hb.data, hb.weather, hb.fair⟩
        · exact ⟨hb.names, hb.data, hb.weather, fun _ => rfl⟩
  | fread n =>
    refine ⟨hb.names, hb.data, hb.weather, fun hfair => ?_⟩
    exact Bool.or_eq_false_iff.mpr ⟨hb.fair hfair, by rw [hb.weather]; exact hfair b.time⟩
  | fclose f =>
    cases f with
    | sout => cases hc
    | sin => exact ⟨hb.names, hb.data, hb.weather, hb.fair⟩
  | ferror | fwrite | changeBegin | changeEnd => cases hc

/-- What may be on the terminal: some part of the file, from its start, and the whole of it unless a
    read failed. -/
def Shown (sh : Shell) (name : CStr) (before after : Stdio) (out : Bytes) : Prop :=
  ∃ path content part, sh.resolve name = some path ∧ before.contentOf path = some content ∧ part <+: content ∧
    out = shown part ∧ (after.bad = false → part = content)

theorem cmdType_shown {sh : Shell} {name : CStr} {rounds : ℕ} {s' : Stdio}
    (hr : (cmdType sh name rounds).run Stdio.call s = (s', some (.ok out))) : Shown sh name s s' out := by
  unfold cmdType at hr
  split at hr
  · cases hr
  · next path hpath =>
    rw [run_bind, run_ask] at hr
    cases hans : (s.call (.fopen .sin path)).2 with
    | error e =>
      rw [hans] at hr
      cases hr
    | ok u =>
      obtain ⟨i, hi, hopened⟩ := Stdio.call_fopen_sin hans
      have hreading : Reading (s.data i) 0 (s.call (.fopen .sin path)).1 := by
        rw [hopened]
        exact ⟨rfl, rfl, rfl⟩
      have hcontent : s.contentOf path = some (s.data i) := by rw [Stdio.contentOf, hi]
      rw [hans] at hr
      dsimp only at hr
      rw [run_bind] at hr
      cases hread : (typeLoop 0 [] rounds).run Stdio.call (s.call (.fopen .sin path)).1 with
      | mk s₂ result =>
        rw [hread] at hr
        cases result with
        | none => cases hr
        | some result =>
          obtain ⟨part, hpart, hprev, hout, -, hall⟩ := typeLoop_run hreading hread
          cases hr
          exact ⟨path, s.data i, part, hpath, hcontent, hpart,
            by rw [hprev, hout, List.nil_append, shown], hall⟩

/-- With enough rounds the command ends, and where no call fails the file is printed. -/
theorem cmdType_ends {sh : Shell} {name path : CStr} {rounds : ℕ} (hpath : sh.resolve name = some path)
    (hcontent : s.contentOf path = some content) (hrounds : content.length < rounds) :
    ∃ result, ((cmdType sh name rounds).run Stdio.call s).2 = some result ∧
      ((s.weather s.time).fails = false → ∃ out, result = .ok out) := by
  have hopens : (∃ e, (s.call (.fopen .sin path)).2 = .error e ∧ (s.weather s.time).fails = true) ∨
      (s.call (.fopen .sin path)).2 = .ok () := by
    unfold Stdio.call
    rw [Stdio.contentOf] at hcontent
    dsimp only
    split
    · next hfails => exact .inl ⟨_, rfl, hfails⟩
    · split at hcontent
      · next i hi => rw [hi]; exact .inr rfl
      · cases hcontent
  unfold cmdType
  rw [hpath]
  dsimp only
  rw [run_bind, run_ask]
  rcases hopens with ⟨e, hans, hfails⟩ | hans
  · rw [hans]
    exact ⟨_, rfl, fun hfair => by rw [hfails] at hfair; cases hfair⟩
  · obtain ⟨i, hi, hopened⟩ := Stdio.call_fopen_sin hans
    have hreading : Reading (s.data i) 0 (s.call (.fopen .sin path)).1 := by
      rw [hopened]
      exact ⟨rfl, rfl, rfl⟩
    have hdata : content = s.data i := by
      rw [Stdio.contentOf, hi] at hcontent
      exact (Option.some.inj hcontent).symm
    obtain ⟨result, hread⟩ := Option.isSome_iff_exists.mp
      (@typeLoop_ends _ _ [] 0 0 rounds hreading (Nat.zero_le _) (by rw [← hdata]; omega))
    rw [hans]
    dsimp only
    rw [run_bind, hread]
    exact ⟨_, rfl, fun _ => ⟨_, rfl⟩⟩

/-- On any card and in any weather: no file changes; what is printed is the file's text, or the start of
    it where a read failed, with a carriage return before every newline; and the command ends. -/
theorem type_exact (v : Volume) (files : Loc → Bytes) (guard : CStr → Option ℕ) (weather : ℕ → Weather)
    (sh : Shell) (name : CStr) (rounds : ℕ) :
    ∃ after result, (cmdType sh name rounds).run Stdio.call
      (Stdio.start v files guard weather) = (after, result) ∧
      after.names = Stdio.namesOf v ∧ after.data = (fun i => i.elim [] files) ∧
      (∀ out, result = some (.ok out) → Returned 0 out ∧ shown out = out ∧
        Shown sh name (Stdio.start v files guard weather) after out) ∧
      ∀ path content, sh.resolve name = some path →
        (Stdio.start v files guard weather).contentOf path = some content →
        content.length < rounds → result ≠ none ∧
          ((∀ t, (weather t).fails = false) → result = some (.ok (shown content))) := by
  obtain ⟨-, -, hviewed⟩ := (cmdType_views sh name rounds).sound
    (viewing_kept (Stdio.start v files guard weather))
    ⟨rfl, rfl, rfl, fun _ => rfl⟩
  refine ⟨_, _, rfl, hviewed.names, hviewed.data, fun out hout =>
    ?_, fun path content hpath hcontent hrounds => ?_⟩
  · have hshown := cmdType_shown (Prod.ext rfl hout)
    obtain ⟨path, content, part, -, -, -, hpart, -⟩ := id hshown
    exact ⟨hpart ▸ shown_returned part, hpart ▸ shown_shown part, hshown⟩
  · obtain ⟨result, hresult, hfair⟩ := cmdType_ends hpath hcontent hrounds
    refine ⟨by rw [hresult]; exact Option.some_ne_none result, fun hall => ?_⟩
    obtain ⟨out, rfl⟩ := hfair (hall _)
    obtain ⟨path', content', part, hpath', hcontent', -, rfl, hwhole⟩ := cmdType_shown (Prod.ext rfl hresult)
    obtain rfl : path = path' := Option.some.inj (hpath.symm.trans hpath')
    obtain rfl : content = content' := Option.some.inj (hcontent.symm.trans hcontent')
    rw [hresult, hwhole (hviewed.fair hall)]

end FdcSds
