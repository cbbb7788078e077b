import FdcSds.Net.Agreement
import FdcSds.Net.Truncation

/-! Directory listings of the TNFS server.

    A handle opened by OPENDIRX is read with READDIR and READDIRX, in any order and with any batch size,
    and both take the entry that waits in the slot first. What was given, what waits and what is still to
    be read are always all the visible entries, in the order of the directory; so nothing is lost or
    given twice, and a request gets nothing only when everything was given.

        shown = given ++ stash ++ visible part of what is left                      -/

namespace FdcSds.Tnfsd
open Schemes Schemes.Runs Prog

/-! ### Streams -/

/-- How directory streams are documented to behave while nobody changes the directories: `contents` is
    what a directory holds, `whole` what a stream lists and `left` what `readdir` has still to give of it. -/
structure Streams {σ : Type} (world : σ → (c : SysCall) → σ × c.Answer) (contents : CStr → List Dirent)
    (left whole : σ → ℕ → List Dirent) : Prop where
  opendir : ∀ card path k, (world card (.opendir path)).2 = .ok k →
    left (world card (.opendir path)).1 k = contents path ∧
      whole (world card (.opendir path)).1 k = contents path
  readdir : ∀ card k, (world card (.readdir k)).2 = (left card k).head? ∧
    left (world card (.readdir k)).1 k = (left card k).tail ∧
      whole (world card (.readdir k)).1 k = whole card k
  rewind : ∀ card k, left (world card (.rewinddir k)).1 k = whole card k ∧
    whole (world card (.rewinddir k)).1 k = whole card k
  stat : ∀ card path k, left (world card (.stat path)).1 k = left card k ∧
    whole (world card (.stat path)).1 k = whole card k
  name : ∀ card k, ∀ de ∈ whole card k, WireName de.name
  few : ∀ card k, (whole card k).length ≤ fatDirEntries

/-- What is still to be read of `all`. -/
def restOf (all : List Dirent) (log : List SysOp) : List Dirent := all.drop (readsOf log).length

/-- The calls that read stream `k`. -/
def reading (k : ℕ) (call : SysCall) : Prop := call = .readdir k ∨ ∃ path, call = .stat path

/-- `readdir` gives what is next of `all`. -/
def answersFrom (all : List Dirent) (log : List SysOp) : (call : SysCall) → call.Answer → Prop
  | .readdir _, r => r = (restOf all log).head?
  | c, r => SysCall.Documented c r

variable {d d' : DirSlot} {log : List SysOp} {all : List Dirent} {k : ℕ}

/-- Reading a stream that lists `all`. -/
abbrev lists (k : ℕ) (all : List Dirent) : Contract SysCall SysCall.Answer (List SysOp) :=
  spoken (reading k) (answersFrom all)

theorem restOf_head (h : (restOf all log).head? = some de) : de ∈ all :=
  List.mem_of_mem_drop (List.mem_of_mem_head? h)

theorem lists_reads (hall : ∀ de ∈ all, WireName de.name) (k : ℕ) :
    Reads (reading k) (answersFrom all) k where
  readdir := .inl rfl
  stat path := .inr ⟨path, rfl⟩
  documented := by
    intro log call r h
    cases call with
    | readdir j =>
      cases r with
      | none => trivial
      | some de => exact hall de (restOf_head h.symm)
    | _ => exact h

/-- One more name is read. -/
theorem restOf_snoc (all : List Dirent) (log : List SysOp) (j : ℕ) (de : Dirent) :
    restOf all (log ++ [⟨.readdir j, some de⟩]) = (restOf all log).tail := by
  have hone : (readsOf [(⟨.readdir j, some de⟩ : SysOp)]).length = 1 := rfl
  rw [restOf, restOf, readsOf_append, List.length_append, hone, ← List.drop_drop, List.drop_one]

/-! ### The end of a stream -/

theorem dirLoop_end (fuel : ℕ) (hfuel : (restOf all log).length ≤ fuel) :
    (lists d.dir all).Obeys log (dirLoop d fuel) fun log' r => r = none → d.shows (restOf all log') = [] := by
  induction fuel generalizing log with
  | zero =>
    intro _
    rw [List.length_eq_zero_iff.mp (Nat.le_zero.mp hfuel)]
    rfl
  | succ fuel ih =>
    refine Contract.Obeys.bind ⟨.inl rfl, fun r hr => ?_⟩
    have hr : r = (restOf all log).head? := hr
    cases r with
    | none =>
      intro _
      have hnil : restOf all log = [] := List.head?_eq_none_iff.mp hr.symm
      have hsame : restOf all (log ++ [⟨.readdir d.dir, none⟩]) = restOf all log := by
        have hzero : (readsOf [(⟨.readdir d.dir, none⟩ : SysOp)]).length = 0 := rfl
        rw [restOf, restOf, readsOf_append, List.length_append, hzero, Nat.add_zero]
      change d.shows (restOf all (log ++ [⟨.readdir d.dir, none⟩])) = []
      rw [hsame, hnil]
      rfl
    | some de =>
      change (lists d.dir all).Obeys _ (if d.hides de.name =
        true then dirLoop d fuel else entryOf d de >>= fun e => pure (some e)) _
      refine Contract.obeys_ite (ih ?_) ?_
      · change (restOf all (log ++ [⟨.readdir d.dir, some de⟩])).length ≤ fuel
        rw [restOf_snoc, List.length_tail]
        omega
      · refine Contract.Obeys.bind ?_
        have hentry : (lists d.dir all).Obeys ((lists d.dir all).next log (.readdir d.dir) (some de))
          (entryOf d de)
            fun _ _ => True := by
          unfold entryOf
          dsimp only
          refine Contract.obeys_ite ⟨.inr ⟨_, rfl⟩, fun r _ => ?_⟩ trivial
          cases r <;> trivial
        exact hentry.mono fun log' e _ => by rintro ⟨⟩

theorem restOf_length (hfew : all.length ≤ fatDirEntries) (log : List SysOp) :
    (restOf all log).length ≤ fatDirEntries := by
  rw [restOf, List.length_drop]
  omega

theorem dirNext_end (hfew : all.length ≤ fatDirEntries) :
    (lists d.dir all).Obeys log (dirNext d) fun log' r =>
    r.2 = none → d.shows (restOf all log') = [] := by
  unfold dirNext
  split
  · rintro ⟨⟩
  · exact Contract.Obeys.bind ((dirLoop_end fatDirEntries (restOf_length hfew log)).mono fun log' r h => h)

theorem zero_ne_flag : (0 : UInt8) ≠ tnfsDirstatusEof := by decide

/-- The flag of READDIRX says that nothing is left. -/
theorem readdirxLoop_end (hall : ∀ de ∈ all, WireName de.name) (hfew : all.length ≤ fatDirEntries)
    (hd : d.Named) (wanted : ℕ) (out : Bytes) (count : ℕ) :
    (lists d.dir all).Obeys log (readdirxLoop wanted d out count) fun log' r =>
      r.2.2.2 = tnfsDirstatusEof → d.shows (restOf all log') = [] := by
  induction wanted generalizing d log out count with
  | zero =>
    intro h
    exact absurd h zero_ne_flag
  | succ wanted ih =>
    refine Contract.Obeys.bind (((dirNext_end hfew).and (dirNext_moves (lists_reads hall d.dir) hd)).mono ?_)
    rintro log' ⟨d', r⟩ ⟨hend, ⟨hsame, hd', -⟩, -⟩
    cases r with
    | none => exact fun _ => hend rfl
    | some e =>
      refine Contract.obeys_ite (fun h => absurd h zero_ne_flag) ?_
      have hrest := @ih d' log' hd' (out ++ e.bytes) (count + 1)
      rw [hsame.dir] at hrest
      refine hrest.mono fun log'' r h heof => ?_
      rw [← hsame.shows]
      exact h heof

/-! ### One request -/

/-- What a reply delivers. READDIR gives an entry by its name only. -/
def Reply.Gives : Reply → List DirEntry → Prop
  | .name x, es => ∃ e, es = [e] ∧ e.name = x
  | .batch _ _ es', es => es = es'
  | _, es => es = []

/-- A READDIR or READDIRX of handle `h`: its command and payload. -/
def Asks (h : UInt8) (q : UInt8 × Bytes) : Prop :=
  (q.1 = tnfsReaddir ∧ 1 ≤ q.2.length ∨ q.1 = tnfsReaddirx ∧ 2 ≤ q.2.length) ∧ q.2.getD 0 0 = h

/-- The number of entries a READDIRX asks for. -/
def wantedOf (pl : Bytes) : ℕ := max 1 (pl.getD 1 0).toNat

/-- The right answer `a` to a request when the entries named `before` of `shown` were delivered: the next
    ones, one or more if there are any, and EOF otherwise. A batch that ends before it has all that was
    wanted, with nothing left, has the EOF flag, and a flag means that nothing is left. -/
structure Answered (shown before : List CStr) (pl : Bytes) (a : Reply) (es : List DirEntry) : Prop where
  gives : a.Gives es
  next : before ++ es.map DirEntry.name <+: shown
  eof : a = .failed tnfsEof ↔ before = shown
  some : before ≠ shown → es ≠ []
  flag : ∀ st pos es', a = .batch st pos es' → st ≠ 0 → before ++ es.map DirEntry.name = shown
  flagged : ∀ st pos es', a = .batch st pos es' → before ++ es.map DirEntry.name = shown →
    es.length < wantedOf pl →
    st = tnfsDirstatusEof

/-- The slot `d'` has read `log` of the stream of `d`, and delivered `es`. -/
structure Progress (d : DirSlot) (all : List Dirent) (log : List SysOp) (d' : DirSlot)
    (es : List DirEntry) : Prop where
  same : d.SameDir d'
  named : d'.Named
  gave : d.Gave [] log (es ++ d'.pending.toList)
  read : readsOf log ++ restOf all log = all

/-- What was read and what is left stay the whole. -/
theorem reads_next {c : SysCall} {r : c.Answer} (h : readsOf log ++ restOf all log = all) (hmay : reading k c)
    (hgives : answersFrom all log c r) :
    readsOf (log ++ [⟨c, r⟩]) ++ restOf all (log ++ [⟨c, r⟩]) = all := by
  have hsame : readsOf [(⟨c, r⟩ : SysOp)] = [] →
    readsOf (log ++ [⟨c, r⟩]) ++ restOf all (log ++ [⟨c, r⟩]) = all := by
    intro hnil
    have hlog : readsOf (log ++ [⟨c, r⟩]) = readsOf log := by rw [readsOf_append, hnil, List.append_nil]
    rw [restOf, hlog]
    exact h
  rcases hmay with rfl | ⟨path, rfl⟩
  · have hr : r = (restOf all log).head? := hgives
    cases r with
    | none => exact hsame rfl
    | some de =>
      have hrest : restOf all log = de :: (restOf all log).tail := (List.cons_head?_tail hr.symm).symm
      rw [restOf_snoc, readsOf_append]
      change readsOf log ++ [de] ++ _ = all
      rw [← List.append_cons, ← hrest]
      exact h
  · exact hsame rfl

variable {shown : List CStr} {es : List DirEntry}

/-- What is delivered and what waits are shown of what was read, and described right. -/
theorem Progress.entries (h : Progress d all log d' es) :
    List.Forall₂ (Described log d.abspath) (d.shows (readsOf log)) (es ++ d'.pending.toList) :=
  h.gave.described

theorem Progress.shows (h : Progress d all log d' es) :
    d.shows all = d.shows (readsOf log) ++ d.shows (restOf all log) := by
  rw [← DirSlot.shows_append, h.read]

/-- What is delivered, what waits, and what is shown of the rest are all that is shown. -/
theorem Progress.total (h : Progress d all log d' es) :
    (es ++ d'.pending.toList).map DirEntry.name ++ (d.shows (restOf all log)).map Dirent.name =
      (d.shows all).map Dirent.name := by
  have hnames : (es ++ d'.pending.toList).map DirEntry.name = (d.shows (readsOf log)).map Dirent.name := by
    have heq : List.Forall₂ (· = ·) ((d.shows (readsOf log)).map Dirent.name)
      ((es ++ d'.pending.toList).map DirEntry.name) := by
      rw [List.forall₂_map_left_iff, List.forall₂_map_right_iff]
      exact h.entries.imp fun _ _ hd => hd.name.symm
    exact (List.forall₂_eq_eq_eq ▸ heq).symm
  rw [hnames, ← List.map_append, h.shows]

/-- The entries delivered are the first that are shown, each with what `stat` said of it. -/
theorem Progress.described (h : Progress d all log d' es) :
    List.Forall₂ (Described log d.abspath) ((d.shows all).take es.length) es := by
  have hlen := h.entries.length_eq
  rw [List.length_append] at hlen
  have htake : (d.shows all).take es.length = (d.shows (readsOf log)).take es.length := by
    rw [h.shows, List.take_append_of_le_length (by omega)]
  have hfirst := List.forall₂_take es.length h.entries
  rwa [List.take_left' rfl, ← htake] at hfirst

/-- What READDIR says of the next entry. -/
def Reply.ofEntry : Option DirEntry → Reply
  | none => .failed tnfsEof
  | some e => .name e.name

/-- The answer to a READDIR. -/
theorem answered_name {before : List DirEntry} {pl : Bytes} {log' : List SysOp} {d'' : DirSlot}
    {r : Option DirEntry} (h : Progress d all log' d'' (before ++ r.toList))
    (hpending : d''.pending = none) (hend : r = none → d.shows (restOf all log') = []) :
    Answered ((d.shows all).map Dirent.name) (before.map DirEntry.name) pl (.ofEntry r) r.toList := by
  have htotal := h.total
  rw [hpending, Option.toList_none, List.append_nil] at htotal
  cases r with
  | none =>
    rw [hend rfl, Option.toList_none, List.append_nil, List.map_nil, List.append_nil] at htotal
    refine ⟨rfl, by simp [htotal], iff_of_true rfl htotal, fun hne => absurd htotal hne, ?_, ?_⟩
    · rintro st pos es' ⟨⟩
    · rintro st pos es' ⟨⟩
  | some e =>
    have hne : before.map DirEntry.name ≠ (d.shows all).map Dirent.name := by
      intro heq
      have hlen := congrArg List.length (htotal.trans heq.symm)
      simp at hlen
    have hprefix : before.map DirEntry.name ++ [e].map DirEntry.name <+: (d.shows all).map Dirent.name :=
      ⟨(d.shows (restOf all log')).map Dirent.name, by simpa using htotal⟩
    refine ⟨⟨e, rfl, rfl⟩, hprefix, iff_of_false (by rintro ⟨⟩) hne, fun _ => by simp, ?_, ?_⟩
    · rintro st pos es' ⟨⟩
    · rintro st pos es' ⟨⟩

/-- The answer to a READDIRX. -/
theorem answered_batch {before : List DirEntry} {pl : Bytes} {log' : List SysOp}
    {r : DirSlot × Bytes × ℕ × UInt8} (h : Progress d all log' r.1 (before ++ es))
    (hb : Batched d' log (wantedOf pl) [] 0 log' r es)
    (hend : r.2.2.2 = tnfsDirstatusEof → d.shows (restOf all log') = []) :
    Answered ((d.shows all).map Dirent.name) (before.map DirEntry.name) pl
      (if es = [] then .failed tnfsEof else .batch r.2.2.2 r.1.pos es) es := by
  have htotal := h.total
  -- the flag means that nothing waits and nothing is left
  have hflag : r.2.2.2 = tnfsDirstatusEof → before.map DirEntry.name ++ es.map DirEntry.name =
    (d.shows all).map Dirent.name := by
    intro hst
    rcases hb.ends with ⟨hzero, -⟩ | ⟨-, hpending, -⟩
    · exact absurd (hzero.symm.trans hst) zero_ne_flag
    · simpa [hpending, hend hst] using htotal
  have hprefix : before.map DirEntry.name ++ es.map DirEntry.name <+: (d.shows all).map Dirent.name :=
    ⟨r.1.pending.toList.map DirEntry.name ++ (d.shows (restOf all log')).map Dirent.name,
      by simpa using htotal⟩
  by_cases hes : es = []
  · have hpos : 0 < wantedOf pl := Nat.lt_of_lt_of_le Nat.one_pos (le_max_left ..)
    have hshown := hflag (hb.first rfl hpos hes)
    rw [hes, List.map_nil, List.append_nil] at hshown
    rw [if_pos hes]
    refine ⟨hes, hprefix, iff_of_true rfl hshown, fun hne => absurd hshown hne, ?_, ?_⟩
    · rintro st pos es' ⟨⟩
    · rintro st pos es' ⟨⟩
  · have hne : before.map DirEntry.name ≠ (d.shows all).map Dirent.name := by
      intro heq
      obtain ⟨more, hmore⟩ := hprefix
      have hlen := congrArg List.length (hmore.trans heq.symm)
      have hpos := List.length_pos_of_ne_nil hes
      simp only [List.length_append, List.length_map] at hlen
      omega
    rw [if_neg hes]
    refine ⟨rfl, hprefix, iff_of_false (by rintro ⟨⟩) hne, fun _ => hes, ?_, ?_⟩
    · rintro st pos es' ⟨⟩ hst
      rcases hb.ends with ⟨hzero, -⟩ | ⟨heof, -⟩
      · exact absurd hzero hst
      · exact hflag heof
    · rintro st pos es' ⟨⟩ hshown hfew
      rcases hb.ends with ⟨-, hfull | hwaits⟩ | ⟨hst, -⟩
      · exact absurd hfull hfew.ne
      · -- an entry waits, so not all are given
        obtain ⟨e, he⟩ := Option.ne_none_iff_exists'.mp hwaits
        have hlen := congrArg List.length (htotal.trans hshown.symm)
        simp [he] at hlen
      · exact hst

/-- A program that reads the stream keeps the whole. -/
theorem lists_reads_whole {α : Type} {p : Sys α} {Q : List SysOp → α → Prop} (h : (lists k all).Obeys log p Q)
    (hread : readsOf log ++ restOf all log = all) :
    (lists k all).Obeys log p fun log' a => Q log' a ∧ readsOf log' ++ restOf all log' = all :=
  h.invariant hread fun _ _ _ hI hmay hgives => reads_next hI hmay hgives

/-- A move from the slot `d'`. -/
theorem Progress.moves {before : List DirEntry} {log' : List SysOp} {d'' : DirSlot}
    (h : Progress d all log d' before) (hm : d'.Moves log d'' log' es)
    (hread : readsOf log' ++ restOf all log' = all) :
    Progress d all log' d'' (before ++ es) := by
  obtain ⟨hsame, hnamed, -, given, ⟨new, hnew, hrest⟩, hgiven⟩ := hm
  have hgave : d.Gave log log' given := DirSlot.Gave.sameDir h.same ⟨new, hnew, hrest⟩
  refine ⟨h.same.trans hsame, hnamed, ?_, hread⟩
  have hboth := h.gave.trans hgave
  rwa [List.append_assoc, hgiven, ← List.append_assoc] at hboth

/-- A request is answered right, and leaves the slot where the next one goes on. -/
theorem handle_answered {s : Session} {h : UInt8} {q : UInt8 × Bytes} {before : List DirEntry} (hq : Asks h q)
    (hall : ∀ de ∈ all, WireName de.name) (hfew : all.length ≤ fatDirEntries) (hd' : s.dirSlot h = some d')
    (hp : Progress d all log d' before) :
    (lists d.dir all).Obeys log (handle s q.1 q.2) fun log' r => ∃ a es d'', r.2 = a.body ∧ a.Fits q.1 ∧
      r.1.dirSlot h = some d'' ∧
      Progress d all log' d'' (before ++ es) ∧
      Answered ((d.shows all).map Dirent.name) (before.map DirEntry.name) q.2 a es := by
  obtain ⟨cmd, pl⟩ := q
  obtain ⟨hcmd, rfl⟩ := hq
  have hM : Reads (reading d.dir) (answersFrom all) d'.dir := by
    rw [hp.same.dir]
    exact lists_reads hall d.dir
  rcases hcmd with ⟨hcmd, hlong⟩ | ⟨hcmd, hlong⟩
  · dsimp only at hcmd hlong hd'
    subst hcmd
    change (lists d.dir all).Obeys log (hReaddir s pl) _
    rw [hReaddir, if_neg (by omega), hd']
    have hend : (lists d.dir all).Obeys log (dirNext d') fun log' r => r.2 = none →
      d'.shows (restOf all log') = [] := by
      rw [← hp.same.dir]
      exact dirNext_end hfew
    refine Contract.Obeys.bind ((lists_reads_whole (hend.and (dirNext_moves hM hp.named)) hp.read).mono ?_)
    rintro log' ⟨d'', r⟩ ⟨⟨hend, hmoves, hpending⟩, hread⟩
    have hp' := hp.moves hmoves hread
    have hanswered : Answered _ _ pl _ _ := answered_name hp' hpending fun h => hp.same.shows _ ▸ hend h
    cases r with
    | none =>
      exact ⟨.failed tnfsEof, [], d'', rfl, ⟨by decide, by decide⟩,
        Session.dirSlot_setDir hd', hp', hanswered⟩
    | some e =>
      have hname : WireName e.name := hmoves.2.2.1 e (by simp)
      refine ⟨.name e.name, [e], d'', ?_, ⟨rfl, hname⟩, Session.dirSlot_setDir hd', hp', hanswered⟩
      dsimp only
      rw [hname.take_bytes]
      rfl
  · dsimp only at hcmd hlong hd'
    subst hcmd
    change (lists d.dir all).Obeys log (hReaddirx s pl) _
    rw [hReaddirx, if_neg (by omega), hd']
    have hend : (lists d.dir all).Obeys log (readdirxLoop (wantedOf pl) d' [] 0) fun log' r =>
        r.2.2.2 = tnfsDirstatusEof → d'.shows (restOf all log') = [] := by
      rw [← hp.same.dir]
      exact readdirxLoop_end hall hfew hp.named _ _ _
    have hboth := hend.and (readdirxLoop_batched hM hp.named (wantedOf pl) [] 0 (by decide))
    refine Contract.Obeys.bind ((lists_reads_whole hboth hp.read).mono ?_)
    rintro log' ⟨d'', out, count, st⟩ ⟨⟨hend, es, hb⟩, hread⟩
    have hp' := hp.moves hb.moves hread
    have hanswered : Answered _ _ pl _ _ := answered_batch hp' hb fun h => hp.same.shows _ ▸ hend h
    obtain ⟨rfl, rfl⟩ : out = es.flatMap DirEntry.bytes ∧ count = es.length :=
      ⟨by simpa using hb.written, by simpa using hb.counted⟩
    dsimp only
    split
    · next hzero =>
      have hnil : es = [] := List.length_eq_zero_iff.mp hzero
      refine ⟨_, es, d'', ?_, ?_, Session.dirSlot_setDir hd', hp', hanswered⟩
      · rw [if_pos hnil]
        rfl
      · rw [if_pos hnil]
        exact ⟨by decide, by decide⟩
    · next hsome =>
      have hne : es ≠ [] := fun hnil => hsome (by rw [hnil]; rfl)
      refine ⟨_, es, { d'' with pos := (d''.pos + es.length) % 65536 }, ?_, ?_,
        Session.dirSlot_setDir hd', ?_, hanswered⟩
      · rw [if_neg hne]
        simp [Reply.body]
      · rw [if_neg hne]
        have hbyte := (pl.getD 1 0).toNat_lt
        have hfewer : es.length ≤ max 1 (pl.getD 1 0).toNat := hb.few
        exact ⟨rfl, by omega, hb.moves.2.2.1, hb.room⟩
      · exact ⟨⟨hp'.same.dir, hp'.same.abspath, hp'.same.pattern⟩, hp'.named, hp'.gave, hp'.read⟩

/-! ### Requests one after the other -/

def runAsks : Session → List (UInt8 × Bytes) → Sys (Session × List Bytes)
  | s, [] => pure (s, [])
  | s, q :: qs => do
    let (s, body) ← handle s q.1 q.2
    let (s, bodies) ← runAsks s qs
    pure (s, body :: bodies)

/-- Each request is answered right, with what was delivered up to it. -/
def AllAnswered (shown : List CStr) : List CStr → List (UInt8 × Bytes) → List (Reply × List DirEntry) → Prop
  | _, [], [] => True
  | before, q :: qs, (a, es) :: steps =>
    Answered shown before q.2 a es ∧ AllAnswered shown (before ++ es.map DirEntry.name) qs steps
  | _, _, _ => False

theorem runAsks_answered {h : UInt8} {qs : List (UInt8 × Bytes)} {s : Session} {before : List DirEntry}
    (hqs : ∀ q ∈ qs, Asks h q) (hall : ∀ de ∈ all, WireName de.name) (hfew : all.length ≤ fatDirEntries)
    (hd' : s.dirSlot h = some d') (hp : Progress d all log d' before) :
    (lists d.dir all).Obeys log (runAsks s qs) fun log' r => ∃ steps d'',
      r.2 = steps.map (fun p => p.1.body) ∧
      r.1.dirSlot h = some d'' ∧ Progress d all log' d'' (before ++ steps.flatMap Prod.snd) ∧
      AllAnswered ((d.shows all).map Dirent.name) (before.map DirEntry.name) qs steps := by
  induction qs generalizing s d' log before with
  | nil => exact ⟨[], d', rfl, hd', by simpa using hp, trivial⟩
  | cons q qs ih =>
    refine Contract.Obeys.bind ((handle_answered (hqs q List.mem_cons_self) hall hfew hd' hp).mono ?_)
    rintro log' ⟨s', body⟩ ⟨a, es, d'', hbody, -, hd'', hp', hanswered⟩
    dsimp only at hbody hd''
    subst hbody
    refine Contract.Obeys.bind ((ih (fun q' hq' => hqs q' (List.mem_cons_of_mem _ hq')) hd'' hp').mono ?_)
    rintro log'' ⟨s'', bodies⟩ ⟨steps, d₃, hbodies, hd₃, hp'', hanswers⟩
    dsimp only at hbodies hd₃
    subst hbodies
    refine ⟨(a, es) :: steps, d₃, rfl, hd₃, ?_, hanswered, ?_⟩
    · simpa using hp''
    · simpa using hanswers

variable {σ : Type} {world : σ → (c : SysCall) → σ × c.Answer} {contents : CStr → List Dirent}
  {left whole : σ → ℕ → List Dirent}

/-- The card gives the entries of a stream one after the other. -/
theorem lists_kept (hst : Streams world contents left whole) : (lists k all).KeptBy world fun card log =>
    left card k = restOf all log ∧ whole card k = all := by
  rintro card log c ⟨hleft, hwhole⟩ hmay
  have hquiet : ∀ r : c.Answer, readsOf [(⟨c, r⟩ : SysOp)] = [] →
    restOf all (log ++ [⟨c, r⟩]) = restOf all log := by
    intro r hnil
    rw [restOf, restOf, readsOf_append, hnil, List.append_nil]
  rcases hmay with rfl | ⟨path, rfl⟩
  · obtain ⟨hanswer, htail, hsame⟩ := hst.readdir card k
    rw [hleft] at hanswer htail
    refine ⟨hanswer, ?_, hsame.trans hwhole⟩
    change left _ k = restOf all (log ++ [⟨.readdir k, (world card (.readdir k)).2⟩])
    rw [htail]
    cases hr : (world card (.readdir k)).2 with
    | none =>
      rw [hquiet none rfl, List.head?_eq_none_iff.mp (hanswer.symm.trans hr)]
      rfl
    | some de => rw [restOf_snoc]
  · obtain ⟨hsame, hsame'⟩ := hst.stat card path k
    refine ⟨trivial, ?_, hsame'.trans hwhole⟩
    change left _ k = restOf all (log ++ [⟨.stat path, (world card (.stat path)).2⟩])
    rw [hquiet _ rfl]
    exact hsame.trans hleft

/-! ### OPENDIRX -/

/-- The entries that are neither dotfiles nor kept out by the pattern; `*` keeps out none. -/
def matching (pat : CStr) (all : List Dirent) : List Dirent :=
  all.filter fun de => de.name.head? != some '.' && (pat == [] || pat == ['*'] || wildcardMatchCi pat de.name)

theorem shows_matching {pat : CStr} (h : d.pattern = wantedPattern pat) : d.shows all = matching pat all := by
  unfold DirSlot.shows matching DirSlot.hides
  refine List.filter_congr fun de _ => ?_
  rw [h, wantedPattern]
  by_cases hnil : pat = []
  · subst hnil
    simp [bne]
  · by_cases hstar : pat = ['*']
    · subst hstar
      simp [bne]
    · have hno : (pat == ['*']) = false := beq_eq_false_iff_ne.mpr hstar
      simp [hnil, hno, bne]

theorem countLoop_run (hst : Streams world contents left whole) (fuel count : ℕ) (card : σ)
    (hfuel : (left card d.dir).length ≤ fuel) :
    (run world card (countLoop d fuel count)).2 = count + (d.shows (left card d.dir)).length ∧
      whole (run world card (countLoop d fuel count)).1 d.dir = whole card d.dir := by
  induction fuel generalizing count card with
  | zero =>
    rw [List.length_eq_zero_iff.mp (Nat.le_zero.mp hfuel)]
    exact ⟨rfl, rfl⟩
  | succ fuel ih =>
    obtain ⟨hanswer, htail, hsame⟩ := hst.readdir card d.dir
    simp only [countLoop, sysReaddir, run_bind, run_ask]
    cases hl : left card d.dir with
    | nil =>
      rw [hl] at hanswer
      rw [hanswer]
      exact ⟨rfl, hsame⟩
    | cons de des =>
      rw [hl] at hanswer htail hfuel
      rw [hanswer]
      have hfuel' : (left (world card (.readdir d.dir)).1 d.dir).length ≤ fuel := by
        rw [htail]
        simpa using hfuel
      obtain ⟨hcount, hwhole⟩ := ih (if d.hides de.name then count else count + 1) _ hfuel'
      refine ⟨?_, hwhole.trans hsame⟩
      change (run world _ (countLoop d fuel _)).2 = _
      rw [hcount, htail, DirSlot.shows, DirSlot.shows, List.tail_cons, List.filter_cons]
      cases d.hides de.name
      · simp only [Bool.not_false, if_true, List.length_cons, Bool.false_eq_true, if_false]
        omega
      · simp

/-- What an OPENDIR or OPENDIRX of the directory `abs` leaves when it is not refused: under the handle `h`,
    a fresh slot `d` at the start of its stream. -/
structure Opened (contents : CStr → List Dirent) (left whole : σ → ℕ → List Dirent) (abs : CStr)
    (w : σ × Session × Bytes) (d : DirSlot) (h : UInt8) : Prop where
  slot : w.2.1.dirSlot h = some d
  path : d.abspath = abs
  pending : d.pending = none
  start : left w.1 d.dir = whole w.1 d.dir
  content : whole w.1 d.dir = contents abs

theorem opendirx_run (hst : Streams world contents left whole) {s : Session} {pl : Bytes} {card : σ}
    {w : σ × Session × Bytes} (hw : w = run world card (hOpendirx s pl)) (hok : w.2.2.getD 0 0 = tnfsOk) :
    ∃ pat path abs d h, cstrArg (pl.drop 4) = some pat ∧
      cstrArg (pl.drop (4 + (pat.length + 1))) = some path ∧
      resolvePath s path = .ok abs ∧ Opened contents left whole abs w d h ∧
      (pat.length < tnfsdPatCap → d.pattern = wantedPattern pat) ∧
      w.2.2 = [tnfsOk, h] ++ le16 (d.shows (contents abs)).length := by
  have refused : ∀ {st : UInt8} {card : σ} {P : Prop}, st ≠ tnfsOk →
    w = run world card (pure (s, [st])) → P := by
    rintro st card P hne rfl
    exact absurd hok hne
  unfold hOpendirx at hw
  split at hw
  · exact refused (by decide) hw
  · split at hw
    · exact refused (by decide) hw
    · next pat hpat =>
      split at hw
      · exact refused (by decide) hw
      · next path hpath =>
        split at hw
        · next hres => exact refused (by rcases resolvePath_error hres with rfl | rfl <;> decide) hw
        · next abs hres =>
          split at hw
          · exact refused (by decide) hw
          · next slot hslot =>
            simp only [sysOpendir, run_bind, run_ask] at hw
            cases hopen : (world card (.opendir abs)).2 with
            | error e =>
              rw [hopen] at hw
              exact refused (errnoToTnfs_ne_ok e) hw
            | ok stream =>
              rw [hopen] at hw
              obtain ⟨hstart, hcontent⟩ := hst.opendir card abs stream hopen
              have hnat : (UInt8.ofNat slot).toNat = slot := by
                have hlt : slot < 2 := (firstSlot_some hslot).1
                simp only [UInt8.toNat_ofNat']
                omega
              generalize (world card (.opendir abs)).1 = card₁ at hw hstart hcontent
              let ds : DirSlot :=
                ⟨stream, strlcpy tnfsdAbsCap abs,
                  if !pat.isEmpty && pat != ['*'] then strlcpy tnfsdPatCap pat else [], 0, none⟩
              have hfew : (left card₁ stream).length ≤ fatDirEntries := by
                rw [hstart, ← hcontent]
                exact hst.few card₁ stream
              obtain ⟨hcount, hwhole⟩ := countLoop_run (d := ds) hst fatDirEntries 0 card₁ hfew
              obtain ⟨hrewound, hsame⟩ := hst.rewind (run world card₁ (countLoop ds fatDirEntries 0)).1 stream
              have hw' : w = ((world (run world card₁ (countLoop ds fatDirEntries 0)).1
                (.rewinddir stream)).1,
                  { s with dirs := Function.update s.dirs slot (some ds) },
                  [tnfsOk, UInt8.ofNat slot] ++ le16 (run world card₁ (countLoop ds fatDirEntries 0)).2) := by
                rw [hw]
                simp only [sysRewinddir, run_bind, run_ask, run_pure]
                rfl
              have hslotted : w.2.1.dirSlot (UInt8.ofNat slot) = some ds := by
                rw [hw', Session.dirSlot, hnat, if_pos (firstSlot_some hslot).1]
                exact Function.update_self ..
              refine ⟨pat, path, abs, ds, UInt8.ofNat slot, hpat, hpath, hres,
                ⟨hslotted, strlcpy_of_lt (resolvePath_short hres), rfl, ?_, ?_⟩,
                (strlcpy_pattern pat).mpr, ?_⟩
              · rw [hw']
                exact hrewound.trans hsame.symm
              · rw [hw']
                exact hsame.trans (hwhole.trans hcontent)
              · rw [hw', hcount, Nat.zero_add]
                rw [show left card₁ ds.dir = contents abs from hstart]

theorem opendir_run (hst : Streams world contents left whole) {s : Session} {pl : Bytes} {card : σ}
    {w : σ × Session × Bytes} (hw : w = run world card (hOpendir s pl)) (hok : w.2.2.getD 0 0 = tnfsOk) :
    ∃ path abs d h, cstrArg pl = some path ∧ resolvePath s path = .ok abs ∧
      Opened contents left whole abs w d h ∧
      d.pattern = [] ∧ w.2.2 = [tnfsOk, h] := by
  have refused : ∀ {st : UInt8} {card : σ} {P : Prop}, st ≠ tnfsOk →
    w = run world card (pure (s, [st])) → P := by
    rintro st card P hne rfl
    exact absurd hok hne
  unfold hOpendir withPath at hw
  split at hw
  · exact refused (by decide) hw
  · split at hw
    · exact refused (by decide) hw
    · next path hpath =>
      split at hw
      · next hres => exact refused (by rcases resolvePath_error hres with rfl | rfl <;> decide) hw
      · next abs hres =>
        split at hw
        · exact refused (by decide) hw
        · next slot hslot =>
          simp only [sysOpendir, run_bind, run_ask] at hw
          cases hopen : (world card (.opendir abs)).2 with
          | error e =>
            rw [hopen] at hw
            exact refused (errnoToTnfs_ne_ok e) hw
          | ok stream =>
            rw [hopen] at hw
            obtain ⟨hstart, hcontent⟩ := hst.opendir card abs stream hopen
            have hnat : (UInt8.ofNat slot).toNat = slot := by
              have hlt : slot < 2 := (firstSlot_some hslot).1
              simp only [UInt8.toNat_ofNat']
              omega
            have hslotted : w.2.1.dirSlot (UInt8.ofNat slot) =
              some ⟨stream, strlcpy tnfsdAbsCap abs, [], 0, none⟩ := by
              rw [hw, Session.dirSlot, hnat, if_pos (firstSlot_some hslot).1]
              exact Function.update_self ..
            refine ⟨path, abs, _, UInt8.ofNat slot, hpath, hres,
              ⟨hslotted, strlcpy_of_lt (resolvePath_short hres), rfl, ?_, ?_⟩, rfl, by rw [hw]; rfl⟩
            · rw [hw]
              exact hstart.trans hcontent.symm
            · rw [hw]
              exact hcontent

/-- A fresh slot has delivered nothing. -/
theorem Opened.progress {abs : CStr} {w : σ × Session × Bytes} {h : UInt8}
    (ho : Opened contents left whole abs w d h) :
    Progress d (contents abs) [] d [] := by
  refine ⟨.refl d, ?_, ?_, rfl⟩
  · rintro e he
    rw [ho.pending] at he
    cases he
  · rw [ho.pending]
    exact .nil d []

/-- Every sequence of requests on a fresh handle is answered right, with the metadata that `stat` gave
    meanwhile. -/
theorem Opened.answered (hst : Streams world contents left whole) {abs : CStr} {w : σ × Session × Bytes}
    {h : UInt8} (ho : Opened contents left whole abs w d h) {qs : List (UInt8 × Bytes)}
    (hqs : ∀ q ∈ qs, Asks h q) :
    ∃ steps : List (Reply × List DirEntry), (run world w.1 (runAsks w.2.1 qs)).2.2 = steps.map
      (fun p => p.1.body) ∧
      AllAnswered ((d.shows (contents abs)).map Dirent.name) [] qs steps ∧
      List.Forall₂ (Described (trace world w.1 (runAsks w.2.1 qs)) abs)
        ((d.shows (contents abs)).take (steps.flatMap Prod.snd).length) (steps.flatMap Prod.snd) := by
  have hall : ∀ de ∈ contents abs, WireName de.name := by
    rw [← ho.content]
    exact hst.name w.1 d.dir
  have hfew : (contents abs).length ≤ fatDirEntries := by
    rw [← ho.content]
    exact hst.few w.1 d.dir
  have hobeys := runAsks_answered hqs hall hfew ho.slot ho.progress
  obtain ⟨-, ⟨steps, d', hbodies, -, hp, hanswers⟩, -⟩ :=
    hobeys.sound (lists_kept hst) ⟨ho.start.trans ho.content, ho.content⟩
  rw [spoken_after, List.nil_append, List.nil_append] at hp
  have hdescribed := hp.described
  rw [ho.path] at hdescribed
  exact ⟨steps, hbodies, hanswers, hdescribed⟩

end FdcSds.Tnfsd
