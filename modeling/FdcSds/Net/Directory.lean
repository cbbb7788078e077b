import FdcSds.Net.Daemon
import FdcSds.Net.Replies
import Mathlib.Data.List.Forall2

/-! Reading a directory for a client.

    A slot reads its stream one name at a time, hides what the client should not see, and asks for the
    metadata of the rest. An entry that does not fit a reply is stashed in the slot. What was stashed
    before, and the entries among the calls' answers, are the entries given and what is stashed now:

        stash ++ entries in the log = given ++ stash'                                -/

namespace FdcSds.Tnfsd
open Schemes Schemes.Runs Prog

/-! ### What the calls are documented to answer -/

/-- `read` and `write` move no more than was asked, a position fits `off_t`, and a name is one. -/
def SysCall.Documented : (c : SysCall) → c.Answer → Prop
  | .read _ n, .ok r => r.length ≤ n
  | .write _ data, .ok w => w ≤ data.length
  | .lseek _ _ _, .ok pos => pos < 2 ^ 32
  | .readdir _, some de => WireName de.name
  | _, _ => True

/-- The calls that `M` allows, answered as `P` says after the calls before; the log has each with its
    answer. -/
def spoken (M : SysCall → Prop) (P : List SysOp → (call : SysCall) → call.Answer → Prop) :
    Contract SysCall SysCall.Answer (List SysOp) where
  may _ call := M call
  gives log call r := P log call r
  next log call r := log ++ [⟨call, r⟩]

variable {M : SysCall → Prop} {P : List SysOp → (call : SysCall) → call.Answer → Prop}

theorem spoken_after (log ops : List SysOp) : (spoken M P).after log ops = log ++ ops := by
  induction ops generalizing log with
  | nil => simp [Contract.after]
  | cons op ops ih =>
    rw [Contract.after, ih]
    exact (List.append_cons ..).symm

/-- Stream `k` may be read, with the metadata of its entries, and the answers are as documented. -/
structure Reads (M : SysCall → Prop) (P : List SysOp → (call : SysCall) → call.Answer → Prop) (k : ℕ) :
    Prop where
  readdir : M (.readdir k)
  stat : ∀ path, M (.stat path)
  documented : ∀ log call r, P log call r → SysCall.Documented call r

/-! ### The entries in a log -/

def SysOp.dirent : SysOp → Option Dirent
  | ⟨.readdir _, r⟩ => r
  | _ => none

/-- The metadata, if this is a `stat` of `path` that succeeded. -/
def SysOp.statOk (path : CStr) : SysOp → Option Stat
  | ⟨.stat p, .ok st⟩ => if p = path then some st else none
  | _ => none

/-- The path that `dir_next` asks for the metadata of. -/
def DirSlot.pathOf (d : DirSlot) (de : Dirent) : CStr := d.abspath ++ ['/'] ++ de.name

/-- The entry `dir_next` makes of a name, with the metadata if `stat` was called and succeeded. -/
def DirSlot.describe (d : DirSlot) (de : Dirent) (st : Option Stat) : DirEntry :=
  let name := strlcpy tnfsdNameCap de.name
  if (d.abspath ++ ['/'] ++ de.name).length < tnfsdAbsCap then
    match st with
    | some st => ⟨if st.isDir then tnfsDirentryDir else 0, st.size, st.mtime, st.mtime, name⟩
    | none => ⟨if de.isDir then tnfsDirentryDir else 0, 0, 0, 0, name⟩
  else ⟨0, 0, 0, 0, name⟩

/-- The visible entries among the answers, each with the `stat` of it that followed. -/
def DirSlot.entriesIn (d : DirSlot) : List SysOp → List DirEntry
  | [] => []
  | op :: ops => match SysOp.dirent op with
    | none => d.entriesIn ops
    | some de =>
      if d.hides de.name then d.entriesIn ops else d.describe de
        (ops.head?.bind (SysOp.statOk (d.pathOf de))) :: d.entriesIn ops

/-- The names `readdir` gave. -/
def readsOf (log : List SysOp) : List Dirent := log.filterMap SysOp.dirent

theorem readsOf_append (log log' : List SysOp) : readsOf (log ++ log') = readsOf log ++ readsOf log' :=
  List.filterMap_append ..

/-- The part of `all` that a slot shows. -/
def DirSlot.shows (d : DirSlot) (all : List Dirent) : List Dirent := all.filter fun de => !d.hides de.name

theorem DirSlot.shows_append (d : DirSlot) (all all' : List Dirent) :
    d.shows (all ++ all') = d.shows all ++ d.shows all' :=
  List.filter_append ..

/-! ### The metadata of an entry -/

/-- The entry for a name, by what `stat` of its path answers; `readdir` knows a directory too. -/
def DirEntry.ofStat (de : Dirent) : Except Errno Stat → DirEntry
  | .ok st => ⟨if st.isDir then tnfsDirentryDir else 0, st.size, st.mtime, st.mtime, de.name⟩
  | .error _ => ⟨if de.isDir then tnfsDirentryDir else 0, 0, 0, 0, de.name⟩

/-- `e` is the entry for the name `de` in the directory `abs`: `stat` was called on `<abs>/<name>` with
    the answer that `e` gives. Only a path that is too long for the buffer is not asked for. -/
def Described (log : List SysOp) (abs : CStr) (de : Dirent) (e : DirEntry) : Prop :=
  if (abs ++ ['/'] ++ de.name).length < tnfsdAbsCap then
    ∃ r, (⟨.stat (abs ++ ['/'] ++ de.name), r⟩ : SysOp) ∈ log ∧ e = DirEntry.ofStat de r
  else e = ⟨0, 0, 0, 0, de.name⟩

theorem Described.mono {log log' : List SysOp} {abs : CStr} {de : Dirent} {e : DirEntry}
    (h : Described log abs de e) (hle : ∀ op ∈ log, op ∈ log') : Described log' abs de e := by
  unfold Described at h ⊢
  split at h
  · next hfits =>
    obtain ⟨r, hr, he⟩ := h
    rw [if_pos hfits]
    exact ⟨r, hle _ hr, he⟩
  · next hlong =>
    rw [if_neg hlong]
    exact h

theorem Described.name {log : List SysOp} {abs : CStr} {de : Dirent} {e : DirEntry}
    (h : Described log abs de e) :
    e.name = de.name := by
  unfold Described at h
  split at h
  · obtain ⟨r, -, rfl⟩ := h
    cases r <;> rfl
  · rw [h]

/-! ### The loops -/

/-- The same directory, read with the same pattern. -/
structure DirSlot.SameDir (d d' : DirSlot) : Prop where
  dir : d'.dir = d.dir
  abspath : d'.abspath = d.abspath
  pattern : d'.pattern = d.pattern

/-- The stashed entry has a name that came from `readdir`. -/
def DirSlot.Named (d : DirSlot) : Prop := ∀ e, d.pending = some e → WireName e.name

variable {d d' : DirSlot} {log : List SysOp}

theorem DirSlot.SameDir.refl (d : DirSlot) : d.SameDir d := ⟨rfl, rfl, rfl⟩

theorem DirSlot.SameDir.trans {d'' : DirSlot} (h : d.SameDir d') (h' : d'.SameDir d'') : d.SameDir d'' where
  dir := h'.dir.trans h.dir
  abspath := h'.abspath.trans h.abspath
  pattern := h'.pattern.trans h.pattern

theorem DirSlot.SameDir.entriesIn (h : d.SameDir d') (ops : List SysOp) :
    d'.entriesIn ops = d.entriesIn ops := by
  have hhides : d'.hides = d.hides := by
    funext name
    rw [DirSlot.hides, DirSlot.hides, h.pattern]
  have hdescribe : d'.describe = d.describe := by
    funext de st
    simp only [DirSlot.describe, h.abspath]
  have hpath : d'.pathOf = d.pathOf := by
    funext de
    rw [DirSlot.pathOf, DirSlot.pathOf, h.abspath]
  induction ops with
  | nil => rfl
  | cons op ops ih => rw [DirSlot.entriesIn, DirSlot.entriesIn, hhides, hdescribe, hpath, ih]

theorem DirSlot.SameDir.shows (h : d.SameDir d') (des : List Dirent) : d'.shows des = d.shows des := by
  have hhides : d'.hides = d.hides := by
    funext name
    rw [DirSlot.hides, DirSlot.hides, h.pattern]
  rw [DirSlot.shows, DirSlot.shows, hhides]

/-- Between `log` and `log'` the calls gave the entries `es`, one for each visible name, with its metadata. -/
def DirSlot.Gave (d : DirSlot) (log log' : List SysOp) (es : List DirEntry) : Prop :=
  ∃ new, log' = log ++ new ∧ (∀ rest, d.entriesIn (new ++ rest) = es ++ d.entriesIn rest) ∧
    List.Forall₂ (Described new d.abspath) (d.shows (readsOf new)) es

theorem DirSlot.Gave.nil (d : DirSlot) (log : List SysOp) : d.Gave log log [] :=
  ⟨[], by simp, fun _ => rfl, .nil⟩

/-- What was described stays so. -/
theorem described_mono {new new' : List SysOp} {abs : CStr} {des : List Dirent} {es : List DirEntry}
    (h : List.Forall₂ (Described new abs) des es) (hle : ∀ op ∈ new, op ∈ new') :
    List.Forall₂ (Described new' abs) des es :=
  h.imp fun _ _ hd => hd.mono hle

theorem DirSlot.Gave.trans {log' log'' : List SysOp} {es es' : List DirEntry} (h : d.Gave log log' es)
    (h' : d.Gave log' log'' es') : d.Gave log log'' (es ++ es') := by
  obtain ⟨new, rfl, hnew, hes⟩ := h
  obtain ⟨new', rfl, hnew', hes'⟩ := h'
  refine ⟨new ++ new', by simp, fun rest => ?_, ?_⟩
  · rw [List.append_assoc, hnew, hnew', List.append_assoc]
  · rw [readsOf_append, DirSlot.shows_append]
    exact List.rel_append (described_mono hes fun _ => List.mem_append_left _)
      (described_mono hes' fun _ => List.mem_append_right _)

theorem DirSlot.Gave.sameDir {log' : List SysOp} {es : List DirEntry} (hsame : d.SameDir d')
    (h : d'.Gave log log' es) :
    d.Gave log log' es := by
  obtain ⟨new, hlog, hnew, hes⟩ := h
  refine ⟨new, hlog, fun rest => ?_, ?_⟩
  · rw [← hsame.entriesIn, ← hsame.entriesIn]
    exact hnew rest
  · rwa [← hsame.shows, ← hsame.abspath]

theorem DirSlot.Gave.entriesIn {es : List DirEntry} (h : d.Gave [] log es) : d.entriesIn log = es := by
  obtain ⟨new, rfl, hnew, -⟩ := h
  simpa [DirSlot.entriesIn] using hnew []

theorem DirSlot.Gave.described {es : List DirEntry} (h : d.Gave [] log es) :
    List.Forall₂ (Described log d.abspath) (d.shows (readsOf log)) es := by
  obtain ⟨new, rfl, -, hes⟩ := h
  exact hes

/-- The metadata of a visible name: one `stat`, where the path fits. -/
theorem entryOf_gave (hM : Reads M P d.dir) {de : Dirent} (hde : WireName de.name)
    (hshow : d.hides de.name = false) :
    (spoken M P).Obeys (log ++ [⟨.readdir d.dir, some de⟩]) (entryOf d de) fun log' e =>
      d.Gave log log' [e] ∧ WireName e.name := by
  have hname : strlcpy tnfsdNameCap de.name = de.name := strlcpy_of_lt hde.short
  have hshows : ∀ new, readsOf new = [] →
    d.shows (readsOf ((⟨.readdir d.dir, some de⟩ : SysOp) :: new)) = [de] := by
    intro new hnone
    have hreads : readsOf ((⟨.readdir d.dir, some de⟩ : SysOp) :: new) = de :: readsOf new := rfl
    rw [hreads, hnone]
    simp [DirSlot.shows, hshow]
  have hentry : ∀ new st, (new.head?.bind (SysOp.statOk (d.pathOf de)) = st) →
    (∀ rest, d.entriesIn (new ++ rest) = d.entriesIn rest) →
      (new = [] → tnfsdAbsCap ≤ (d.abspath ++ ['/'] ++ de.name).length) → readsOf new = [] →
      Described (⟨.readdir d.dir, some de⟩ :: new) d.abspath de (d.describe de st) →
      d.Gave log (log ++ [⟨.readdir d.dir, some de⟩] ++ new) [d.describe de st] := by
    intro new st hst hnew hfits hnone hdescribed
    refine ⟨⟨.readdir d.dir, some de⟩ :: new, by simp, fun rest => ?_, ?_⟩
    · simp only [List.cons_append, DirSlot.entriesIn, SysOp.dirent, hshow, hnew, Bool.false_eq_true, if_false,
        List.nil_append, List.cons.injEq, and_true]
      cases new with
      | nil =>
        have hlong := hfits rfl
        simp only [DirSlot.describe, if_neg (Nat.not_lt.mpr hlong)]
      | cons op new => rw [← hst]; rfl
    · rw [hshows new hnone]
      exact .cons hdescribed .nil
  unfold entryOf
  dsimp only
  split
  · next hfits =>
    refine Contract.Obeys.bind ⟨hM.stat _, fun r _ => ?_⟩
    have hskip : ∀ rest, d.entriesIn ([(⟨.stat (d.abspath ++ ['/'] ++ de.name), r⟩ : SysOp)] ++ rest) =
      d.entriesIn rest :=
      fun _ => rfl
    -- the answer is in the log
    have hasked : ∀ st, d.describe de st = DirEntry.ofStat de r →
        Described [⟨.readdir d.dir, some de⟩, ⟨.stat (d.abspath ++ ['/'] ++ de.name), r⟩] d.abspath de
          (d.describe de st) := by
      intro st hst
      rw [Described, if_pos hfits]
      exact ⟨r, by simp, hst⟩
    cases r with
    | error e =>
      refine ⟨?_, by rwa [hname]⟩
      have hgave := hentry _ none rfl hskip (by rintro ⟨⟩) rfl (hasked none (by
        rw [DirSlot.describe, if_pos hfits, hname]
        rfl))
      simp only [DirSlot.describe, if_pos hfits] at hgave
      exact hgave
    | ok st =>
      refine ⟨?_, by rwa [hname]⟩
      have hgave := hentry [⟨.stat (d.pathOf de), .ok st⟩] (some st) (if_pos rfl) hskip (by rintro ⟨⟩)
        rfl (hasked (some st) (by
        rw [DirSlot.describe, if_pos hfits, hname]
        rfl))
      simp only [DirSlot.describe, if_pos hfits] at hgave
      exact hgave
  · next hfits =>
    refine ⟨?_, by rwa [hname]⟩
    have hlong : Described [⟨.readdir d.dir, some de⟩] d.abspath de (d.describe de none) := by
      rw [Described, if_neg hfits, DirSlot.describe, if_neg hfits, hname]
    have hgave := hentry [] none rfl (fun _ => rfl) (fun _ => Nat.not_lt.mp hfits) rfl hlong
    simpa only [DirSlot.describe, if_neg hfits, List.append_nil] using hgave

theorem dirLoop_gave (hM : Reads M P d.dir) (fuel : ℕ) : (spoken M P).Obeys log (dirLoop d fuel) fun log' r =>
    d.Gave log log' r.toList ∧ ∀ e, r = some e → WireName e.name := by
  induction fuel generalizing log with
  | zero => exact ⟨.nil d log, by rintro e ⟨⟩⟩
  | succ fuel ih =>
    refine Contract.Obeys.bind ⟨hM.readdir, fun r hr => ?_⟩
    cases r with
    | none =>
      refine ⟨⟨[⟨.readdir d.dir, none⟩], rfl, fun rest => rfl, .nil⟩, by rintro e ⟨⟩⟩
    | some de =>
      change (spoken M P).Obeys _ (if d.hides de.name = true then dirLoop d fuel else entryOf d de >>=
        fun e => pure (some e)) _
      split
      · next hhide =>
        -- a hidden name is among the answers, and not among the entries
        have hskip : d.Gave log ((spoken M P).next log (.readdir d.dir) (some de)) [] :=
          ⟨[⟨.readdir d.dir, some de⟩], rfl, fun rest => by simp [DirSlot.entriesIn, SysOp.dirent, hhide],
            by simp [readsOf, SysOp.dirent, DirSlot.shows, hhide]⟩
        exact ih.mono fun log' r ⟨hgave, hname⟩ => ⟨hskip.trans hgave, hname⟩
      · next hshow =>
        refine Contract.Obeys.bind ((entryOf_gave hM (hM.documented _ _ _ hr) (by simpa using hshow)).mono ?_)
        rintro log' e ⟨hgave, hname⟩
        refine ⟨hgave, ?_⟩
        rintro e' ⟨⟩
        exact hname

/-- `dir_next`: what was stashed and what the calls gave are the entry it gives and what is stashed now. -/
def DirSlot.Moves (d : DirSlot) (log : List SysOp) (d' : DirSlot) (log' : List SysOp)
    (es : List DirEntry) : Prop :=
  d.SameDir d' ∧ d'.Named ∧ (∀ e ∈ es, WireName e.name) ∧
    ∃ given, d.Gave log log' given ∧ d.pending.toList ++ given = es ++ d'.pending.toList

theorem dirNext_moves (hM : Reads M P d.dir) (hd : d.Named) : (spoken M P).Obeys log (dirNext d) fun log' r =>
    d.Moves log r.1 log' r.2.toList ∧ r.1.pending = none := by
  unfold dirNext
  split
  · next e hpending =>
    have hname : WireName e.name := hd e hpending
    have hsame : strlcpy tnfsdNameCap e.name = e.name := strlcpy_of_lt hname.short
    refine ⟨⟨⟨rfl, rfl, rfl⟩, by rintro e' ⟨⟩, ?_, [], .nil d log, by simp [hpending, hsame]⟩, rfl⟩
    rintro e' he'
    rw [Option.mem_toList] at he'
    cases he'
    rwa [hsame]
  · next hpending =>
    refine Contract.Obeys.bind ((dirLoop_gave hM fatDirEntries).mono ?_)
    rintro log' r ⟨hgave, hname⟩
    refine ⟨⟨.refl d, hd, fun e he => hname e ?_, r.toList, hgave, by simp [hpending]⟩, hpending⟩
    rwa [Option.mem_toList] at he

/-- What the loop of READDIRX does: it gives the entries `es`, until it has enough of them, or no more
    fit, or there are none left. -/
structure Batched (d : DirSlot) (log : List SysOp) (wanted : ℕ) (out : Bytes) (count : ℕ) (log' : List SysOp)
    (r : DirSlot × Bytes × ℕ × UInt8) (es : List DirEntry) : Prop where
  moves : d.Moves log r.1 log' es
  written : r.2.1 = out ++ es.flatMap DirEntry.bytes
  counted : r.2.2.1 = count + es.length
  few : es.length ≤ wanted
  room : 5 + r.2.1.length ≤ tnfsMsgCap - tnfsHdrLen
  ends : (r.2.2.2 = 0 ∧ (es.length = wanted ∨ r.1.pending ≠ none)) ∨
    (r.2.2.2 = tnfsDirstatusEof ∧ r.1.pending = none ∧ es.length < wanted)
  first : out = [] → 0 < wanted → es = [] → r.2.2.2 = tnfsDirstatusEof

theorem readdirxLoop_batched (hM : Reads M P d.dir) (hd : d.Named) (wanted : ℕ) (out : Bytes) (count : ℕ)
    (hroom : 5 + out.length ≤ tnfsMsgCap - tnfsHdrLen) :
    (spoken M P).Obeys log (readdirxLoop wanted d out count) fun log' r =>
      ∃ es, Batched d log wanted out count log' r es := by
  induction wanted generalizing d log out count with
  | zero =>
    refine ⟨[], ⟨.refl d, hd, by rintro e ⟨⟩, [], .nil d log, by simp⟩,
      by simp, rfl, le_rfl, hroom, .inl ⟨rfl, .inl rfl⟩, ?_⟩
    intro _ hpos
    exact absurd hpos (Nat.lt_irrefl 0)
  | succ wanted ih =>
    refine Contract.Obeys.bind ((dirNext_moves hM hd).mono ?_)
    rintro log' ⟨d', r⟩ ⟨⟨hsame, hd', hnames, given, hgave, hgiven⟩, hpending⟩
    dsimp only at hsame hd' hnames hgave hgiven hpending
    rw [hpending, Option.toList_none, List.append_nil] at hgiven
    cases r with
    | none =>
      have hmoves : d.Moves log d' log' [] :=
        ⟨hsame, hd', hnames, given, hgave, by simpa [hpending] using hgiven⟩
      exact ⟨[], hmoves, by simp, rfl, Nat.zero_le _, hroom, .inr ⟨rfl, hpending, Nat.succ_pos _⟩,
        fun _ _ _ => rfl⟩
    | some e =>
      have hname : WireName e.name := hnames e (by simp)
      have hcopy : strlcpy tnfsdNameCap e.name = e.name := strlcpy_of_lt hname.short
      have hcap : tnfsMsgCap - tnfsHdrLen = 1028 := rfl
      have hfixed : tnfsReaddirxFixed = 13 := rfl
      have hshort : e.name.length < 256 := hname.short
      dsimp only
      split
      · next hfull =>
        -- the entry does not fit: it is stashed, and counts as not given
        refine ⟨[], ⟨⟨hsame.dir, hsame.abspath, hsame.pattern⟩, ?_, by rintro e' ⟨⟩, given, hgave, ?_⟩,
          by simp, rfl,
          Nat.zero_le _, hroom, .inl ⟨rfl, .inr (by rintro ⟨⟩)⟩, ?_⟩
        · rintro e' ⟨⟩
          rwa [hcopy]
        · simpa [hcopy] using hgiven
        · -- an empty reply has room for any entry
          rintro rfl
          simp only [List.length_nil] at hfull
          omega
      · next hfits =>
        have hroom' : 5 + (out ++ e.bytes).length ≤ tnfsMsgCap - tnfsHdrLen := by
          rw [List.length_append, e.length_bytes]
          omega
        refine (ih (hsame.dir ▸ hM) hd' _ (count + 1) hroom').mono ?_
        rintro log'' r ⟨es, ⟨hsame', hd'', hnames', given', hgave', hgiven'⟩, hout, hcount,
          hlen, hfull, hends, -⟩
        rw [hpending, Option.toList_none, List.nil_append] at hgiven'
        have hboth : d.Gave log' log'' given' := hgave'.sameDir hsame
        refine ⟨e :: es, ⟨hsame.trans hsame', hd'', ?_, given ++ given', hgave.trans hboth, ?_⟩, ?_,
          ?_, ?_, hfull, ?_, ?_⟩
        · rintro e' (_ | ⟨_, he'⟩)
          · exact hname
          · exact hnames' e' he'
        · rw [← List.append_assoc, hgiven, hgiven', Option.toList_some,
            List.singleton_append, List.cons_append]
        · rw [hout, List.flatMap_cons, List.append_assoc]
        · rw [hcount, List.length_cons]
          omega
        · rw [List.length_cons]
          omega
        · simpa [List.length_cons] using hends
        · rintro - - ⟨⟩

end FdcSds.Tnfsd
