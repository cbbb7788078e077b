import FdcSds.Net.Daemon
import Mathlib.Data.Multiset.Filter

/-! The descriptors and directories a session holds.

    A session holds what stands in its tables. Under the contract `custody` a program may act on what its
    session holds, an OPEN or OPENDIR adds to it and a close takes away; every handler obeys it and ends
    with a session whose tables hold just what is left.

        tables ──open──▶ + handle        tables ──close──▶ − handle       use: handle ∈ tables -/

namespace FdcSds
open Schemes

/-- What `open` and `opendir` give out. -/
inductive Handle where
  | file (fd : ℕ)
  | dir (d : ℕ)
  deriving DecidableEq

/-- The handle a call acts on. -/
def SysCall.handle : SysCall → Option Handle
  | .read fd _ | .write fd _ | .lseek fd _ _ | .close fd => some (.file fd)
  | .readdir d | .rewinddir d | .closedir d => some (.dir d)
  | .open _ _ | .stat _ | .mkdir _ | .rmdir _ | .unlink _ | .rename _ _ | .opendir _ | .changeBegin _
  | .changeEnd => none

/-- The handle a call closes. -/
def SysCall.closes : SysCall → Option Handle
  | .close fd => some (.file fd)
  | .closedir d => some (.dir d)
  | _ => none

/-- The handle an answer brings. -/
def SysCall.opens : (c : SysCall) → c.Answer → Option Handle
  | .open _ _, .ok fd => some (.file fd)
  | .opendir _, .ok d => some (.dir d)
  | _, _ => none

/-- What is held after a call. -/
def SysCall.heldAfter (own : Multiset Handle) (c : SysCall) (r : c.Answer) : Multiset Handle :=
  match c.closes with
  | some h => own.erase h
  | none => match c.opens r with
    | some h => h ::ₘ own
    | none => own

/-- Act only on what is held. -/
def custody : Contract SysCall SysCall.Answer (Multiset Handle) where
  may own c := ∀ h ∈ c.handle, h ∈ own
  gives _ _ _ := True
  next own c r := c.heldAfter own r

/-! ### Tables -/

/-- What stands in the first `n` entries of a table. -/
def inTable {α : Type} : ℕ → (ℕ → Option α) → Multiset α
  | 0, _ => 0
  | n + 1, f => (f n).elim (inTable n f) (· ::ₘ inTable n f)

variable {α : Type} {n i : ℕ} {f g : ℕ → Option α} {x : α}

theorem inTable_congr (h : ∀ i < n, f i = g i) : inTable n f = inTable n g := by
  induction n with
  | zero => rfl
  | succ n ih =>
    simp only [inTable]
    rw [h n (Nat.lt_succ_self n), ih fun i hi => h i (Nat.lt_succ_of_lt hi)]

theorem inTable_put (hi : i < n) (hfree : f i = none) :
    inTable n (Function.update f i (some x)) = x ::ₘ inTable n f := by
  induction n with
  | zero => cases hi
  | succ n ih =>
    simp only [inTable]
    by_cases hin : i = n
    · subst hin
      have hrest : inTable i (Function.update f i (some x)) = inTable i f :=
        inTable_congr fun j hj => Function.update_of_ne (Nat.ne_of_lt hj) _ _
      simp [hfree, hrest]
    · rw [Function.update_of_ne (Ne.symm hin), ih (by omega)]
      cases f n with
      | none => rfl
      | some y => exact Multiset.cons_swap ..

theorem inTable_clear (hi : i < n) (hx : f i = some x) :
    x ::ₘ inTable n (Function.update f i none) = inTable n f := by
  have h := inTable_put (x := x) (f := Function.update f i none) hi (Function.update_self ..)
  rw [Function.update_idem, ← hx, Function.update_eq_self] at h
  exact h.symm

theorem mem_inTable : x ∈ inTable n f ↔ ∃ i < n, f i = some x := by
  induction n with
  | zero => simp [inTable]
  | succ n ih =>
    have hsplit : x ∈ inTable (n + 1) f ↔ f n = some x ∨ x ∈ inTable n f := by
      cases hf : f n with
      | none => simp [inTable, hf]
      | some y => simp [inTable, hf, eq_comm]
    rw [hsplit, ih]
    constructor
    · rintro (hn | ⟨i, hi, hx⟩)
      · exact ⟨n, Nat.lt_succ_self n, hn⟩
      · exact ⟨i, Nat.lt_succ_of_lt hi, hx⟩
    · rintro ⟨i, hi, hx⟩
      rcases Nat.lt_succ_iff_lt_or_eq.mp hi with hlt | rfl
      · exact .inr ⟨i, hlt, hx⟩
      · exact .inl hx

namespace Tnfsd
open Prog

/-- The directory streams in the table. -/
def Session.streams (s : Session) (i : ℕ) : Option ℕ := (s.dirs i).map DirSlot.dir

/-- What the session holds. -/
def Session.handles (s : Session) : Multiset Handle :=
  (inTable tnfsdMaxFiles s.files).map Handle.file + (inTable tnfsdMaxDirs s.streams).map Handle.dir

/-- A handler ends with a session that holds what is left. -/
abbrev Settled (own : Multiset Handle) (r : Session × Bytes) : Prop := r.1.handles = own

variable {s : Session} {own : Multiset Handle} {pl : Bytes}

theorem file_held {h : UInt8} {fd : ℕ} (hfd : s.file h = some fd) :
    h.toNat < tnfsdMaxFiles ∧ s.files h.toNat = some fd ∧ Handle.file fd ∈ s.handles := by
  unfold Session.file at hfd
  split at hfd
  · next hlt =>
    refine ⟨hlt, hfd, Multiset.mem_add.mpr (.inl (Multiset.mem_map_of_mem _ ?_))⟩
    exact mem_inTable.mpr ⟨_, hlt, hfd⟩
  · cases hfd

theorem dir_held {h : UInt8} {d : DirSlot} (hd : s.dirSlot h = some d) :
    h.toNat < tnfsdMaxDirs ∧ s.streams h.toNat = some d.dir ∧ Handle.dir d.dir ∈ s.handles := by
  unfold Session.dirSlot at hd
  split at hd
  · next hlt =>
    have hstream : s.streams h.toNat = some d.dir := by simp [Session.streams, hd]
    refine ⟨hlt, hstream, Multiset.mem_add.mpr (.inr (Multiset.mem_map_of_mem _ ?_))⟩
    exact mem_inTable.mpr ⟨_, hlt, hstream⟩
  · cases hd

theorem handles_open {i fd : ℕ} (hi : i < tnfsdMaxFiles) (hfree : s.files i = none) :
    { s with files := Function.update s.files i (some fd) }.handles = Handle.file fd ::ₘ s.handles := by
  simp only [Session.handles, inTable_put hi hfree, Multiset.map_cons, Multiset.cons_add]
  rfl

theorem handles_close {i fd : ℕ} (hi : i < tnfsdMaxFiles) (hfd : s.files i = some fd) :
    { s with files := Function.update s.files i none }.handles = s.handles.erase (.file fd) := by
  rw [← Multiset.cons_inj_right (.file fd), Multiset.cons_erase]
  · simp only [Session.handles, ← inTable_clear hi hfd, Multiset.map_cons, Multiset.cons_add]
    rfl
  · exact Multiset.mem_add.mpr (.inl (Multiset.mem_map_of_mem _ (mem_inTable.mpr ⟨i, hi, hfd⟩)))

theorem streams_update (s : Session) (i : ℕ) (d : Option DirSlot) :
    { s with dirs := Function.update s.dirs i d }.streams =
      Function.update s.streams i (d.map DirSlot.dir) := by
  funext j
  by_cases hj : j = i
  · subst hj
    simp [Session.streams]
  · simp [Session.streams, hj]

theorem handles_opendir {i : ℕ} {d : DirSlot} (hi : i < tnfsdMaxDirs) (hfree : s.dirs i = none) :
    { s with dirs := Function.update s.dirs i (some d) }.handles = Handle.dir d.dir ::ₘ s.handles := by
  have hfree' : s.streams i = none := by simp [Session.streams, hfree]
  simp only [Session.handles, streams_update, Option.map_some, inTable_put hi hfree', Multiset.map_cons,
    Multiset.add_cons]

theorem handles_closedir {i d : ℕ} (hi : i < tnfsdMaxDirs) (hd : s.streams i = some d) :
    { s with dirs := Function.update s.dirs i none }.handles = s.handles.erase (.dir d) := by
  rw [← Multiset.cons_inj_right (.dir d), Multiset.cons_erase]
  · simp only [Session.handles, streams_update, Option.map_none]
    rw [← inTable_clear (n := tnfsdMaxDirs) hi hd, Multiset.map_cons, Multiset.add_cons]
  · exact Multiset.mem_add.mpr (.inr (Multiset.mem_map_of_mem _ (mem_inTable.mpr ⟨i, hi, hd⟩)))

/-- A directory slot that keeps its stream. -/
theorem handles_setDir {h : UInt8} {d d' : DirSlot} (hd : s.dirSlot h = some d) (hsame : d'.dir = d.dir) :
    (s.setDir h (some d')).handles = s.handles := by
  have hstream := (dir_held hd).2.1
  simp only [Session.setDir, Session.handles, streams_update, Option.map_some, hsame, ← hstream,
    Function.update_eq_self]

/-! ### Calls that leave the ledger alone -/

/-- A program that neither opens nor closes, and acts only on what is held. -/
def Quiet {α : Type} (own : Multiset Handle) (p : Sys α) : Prop :=
  custody.Obeys own p fun left _ => left = own

theorem Quiet.then {α β : Type} {p : Sys α} {f : α → Sys β} {Q : Multiset Handle → β → Prop}
    (hp : Quiet own p) (hf : ∀ a, custody.Obeys own (f a) Q) : custody.Obeys own (p >>= f) Q :=
  Contract.Obeys.bind (hp.mono fun _ a heq => heq ▸ hf a)

theorem quiet_ask {c : SysCall} (hmay : ∀ h ∈ c.handle, h ∈ own) (hclose : c.closes = none)
    (hopen : ∀ r, c.opens r = none) : Quiet own (ask c : Sys c.Answer) := by
  refine ⟨hmay, fun r _ => ?_⟩
  change c.heldAfter own r = own
  simp only [SysCall.heldAfter, hclose, hopen r]

theorem quiet_readdir {d : ℕ} (hd : Handle.dir d ∈ own) : Quiet own (sysReaddir d) :=
  quiet_ask (by rintro h ⟨⟩; exact hd) rfl fun _ => rfl

theorem quiet_path {c : SysCall} (hh : c.handle = none) (hclose : c.closes = none)
    (hopen : ∀ r, c.opens r = none) : Quiet own (ask c : Sys c.Answer) :=
  quiet_ask (by rw [hh]; rintro h ⟨⟩) hclose hopen

/-! ### The handlers -/

theorem settled_self {body : Bytes} : custody.Obeys s.handles (pure (s, body)) Settled := rfl

theorem withPath_settled {k : CStr → Sys (Session × Bytes)}
    (hk : ∀ abs, custody.Obeys s.handles (k abs) Settled) :
    custody.Obeys s.handles (withPath s pl k) Settled := by
  unfold withPath
  repeat' split
  any_goals exact settled_self
  exact hk _

/-- An open descriptor, where there is one. -/
def opened (own : Multiset Handle) : Option (Except Errno ℕ) → Multiset Handle
  | some (.ok fd) => Handle.file fd ::ₘ own
  | _ => own

theorem openGuarded_opened (path : CStr) (of : OpenFlags) :
    custody.Obeys own (openGuarded path of) fun left r => left = opened own r := by
  have hopen : custody.Obeys own (sysOpen path of) fun left r => left = opened own (some r) := by
    refine ⟨by rintro h ⟨⟩, fun r _ => ?_⟩
    rcases r with e | fd <;> rfl
  unfold openGuarded
  refine Contract.obeys_ite ?_ (Contract.Obeys.bind (hopen.mono fun _ r heq => heq))
  refine (quiet_path rfl rfl fun _ => rfl).then fun drive => Contract.obeys_ite rfl ?_
  refine Contract.Obeys.bind (hopen.mono fun left r heq => ?_)
  subst heq
  exact (quiet_path rfl rfl fun _ => rfl).then fun _ => rfl

theorem hOpen_settled (s : Session) (pl : Bytes) : custody.Obeys s.handles (hOpen s pl) Settled := by
  unfold hOpen
  repeat' split
  any_goals exact settled_self
  next i hslot =>
  obtain ⟨hi, hfree⟩ := firstSlot_some hslot
  refine Contract.Obeys.bind ((openGuarded_opened ..).mono fun left r hleft => ?_)
  subst hleft
  rcases r with _ | e | fd
  · rfl
  · rfl
  · exact handles_open hi (Option.isNone_iff_eq_none.mp hfree)

theorem hRead_settled (s : Session) (pl : Bytes) : custody.Obeys s.handles (hRead s pl) Settled := by
  unfold hRead
  repeat' split
  any_goals exact settled_self
  next fd hfd =>
  refine (quiet_ask ?_ rfl fun _ => rfl).then fun r => ?_
  · rintro h ⟨⟩
    exact (file_held hfd).2.2
  · repeat' split
    all_goals exact settled_self

theorem hWrite_settled (s : Session) (pl : Bytes) : custody.Obeys s.handles (hWrite s pl) Settled := by
  unfold hWrite
  repeat' split
  any_goals exact settled_self
  next fd hfd =>
  refine (quiet_ask ?_ rfl fun _ => rfl).then fun r => ?_
  · rintro h ⟨⟩
    exact (file_held hfd).2.2
  · split <;> exact settled_self

theorem hLseek_settled (s : Session) (pl : Bytes) : custody.Obeys s.handles (hLseek s pl) Settled := by
  unfold hLseek
  repeat' split
  any_goals exact settled_self
  next fd hfd _ _ _ =>
  refine (quiet_ask ?_ rfl fun _ => rfl).then fun r => ?_
  · rintro h ⟨⟩
    exact (file_held hfd).2.2
  · split <;> exact settled_self

theorem hClose_settled (s : Session) (pl : Bytes) : custody.Obeys s.handles (hClose s pl) Settled := by
  unfold hClose
  repeat' split
  any_goals exact settled_self
  next fd hfd =>
  obtain ⟨hi, hfile, hheld⟩ := file_held hfd
  refine ⟨?_, fun r _ => ?_⟩
  · rintro h ⟨⟩
    exact hheld
  · exact handles_close hi hfile

theorem hStat_settled (s : Session) (pl : Bytes) : custody.Obeys s.handles (hStat s pl) Settled := by
  refine withPath_settled fun abs => (quiet_path rfl rfl fun _ => rfl).then fun r => ?_
  split <;> exact settled_self

theorem hPathop_settled {op : CStr → Sys (Except Errno Unit)} (hop : ∀ path own, Quiet own (op path))
    (s : Session) (pl : Bytes) : custody.Obeys s.handles (hPathop op s pl) Settled :=
  withPath_settled fun abs => (hop abs _).then fun _ => settled_self

theorem quiet_mkdir (path : CStr) (own : Multiset Handle) : Quiet own (mkdirOp path) :=
  quiet_path rfl rfl fun _ => rfl

theorem quiet_rmdir (path : CStr) (own : Multiset Handle) : Quiet own (sysRmdir path) :=
  quiet_path rfl rfl fun _ => rfl

/-- A change between `disk_change_begin` and `disk_change_end`. -/
theorem quiet_guarded {own : Multiset Handle} (path : CStr) {c : Sys (Except Errno Unit)}
    (hc : Quiet own c) : Quiet own (do
      let drive ← diskChangeBegin path
      if drive.isSome then pure (.error .ebusy)
      else do
        let r ← c
        let _ ← diskChangeEnd
        pure r) :=
  (quiet_path rfl rfl fun _ => rfl).then fun _ => Contract.obeys_ite rfl
    (hc.then fun _ => (quiet_path rfl rfl fun _ => rfl).then fun _ => rfl)

theorem quiet_unlink (path : CStr) (own : Multiset Handle) : Quiet own (unlinkOp path) :=
  quiet_guarded path (quiet_path rfl rfl fun _ => rfl)

theorem hRename_settled (s : Session) (pl : Bytes) : custody.Obeys s.handles (hRename s pl) Settled := by
  unfold hRename
  repeat' split
  any_goals exact settled_self
  exact (quiet_guarded _ (quiet_path rfl rfl fun _ => rfl)).then fun _ => settled_self

theorem opendir_obeys {Q : Multiset Handle → Except Errno ℕ → Prop} (path : CStr)
    (herr : ∀ e, Q own (.error e)) (hok : ∀ d, Q (Handle.dir d ::ₘ own) (.ok d)) :
    custody.Obeys own (sysOpendir path) Q := by
  refine ⟨by rintro h ⟨⟩, fun r _ => ?_⟩
  rcases r with e | d
  · exact herr e
  · exact hok d

theorem hOpendir_settled (s : Session) (pl : Bytes) : custody.Obeys s.handles (hOpendir s pl) Settled := by
  refine withPath_settled fun abs => ?_
  split
  · exact settled_self
  · next i hslot =>
    obtain ⟨hi, hfree⟩ := firstSlot_some hslot
    refine Contract.Obeys.bind (opendir_obeys abs (fun e => rfl) fun d => ?_)
    exact handles_opendir (d := ⟨d, strlcpy tnfsdAbsCap abs, [], 0, none⟩) hi
      (Option.isNone_iff_eq_none.mp hfree)

theorem quiet_countLoop {d : DirSlot} (hd : Handle.dir d.dir ∈ own) (fuel count : ℕ) :
    Quiet own (countLoop d fuel count) := by
  induction fuel generalizing count with
  | zero => rfl
  | succ fuel ih =>
    refine (quiet_readdir hd).then fun r => ?_
    cases r with
    | none => rfl
    | some de => exact ih _

theorem quiet_entryOf (d : DirSlot) (de : Dirent) : Quiet own (entryOf d de) := by
  refine Contract.obeys_ite ?_ rfl
  refine (quiet_path rfl rfl fun _ => rfl).then fun r => ?_
  cases r <;> rfl

theorem quiet_dirLoop {d : DirSlot} (hd : Handle.dir d.dir ∈ own) (fuel : ℕ) :
    Quiet own (dirLoop d fuel) := by
  induction fuel with
  | zero => rfl
  | succ fuel ih =>
    refine (quiet_readdir hd).then fun r => ?_
    cases r with
    | none => rfl
    | some de => exact Contract.obeys_ite ih ((quiet_entryOf d de).then fun _ => rfl)

/-- `dir_next` keeps the stream. -/
theorem dirNext_stream {d : DirSlot} (hd : Handle.dir d.dir ∈ own) :
    custody.Obeys own (dirNext d) fun left r => left = own ∧ r.1.dir = d.dir := by
  unfold dirNext
  split
  · exact ⟨rfl, rfl⟩
  · exact (quiet_dirLoop hd _).then fun _ => ⟨rfl, rfl⟩

theorem readdirxLoop_stream {d : DirSlot} (hd : Handle.dir d.dir ∈ own) (wanted : ℕ) (out : Bytes)
    (count : ℕ) : custody.Obeys own (readdirxLoop wanted d out count)
      fun left r => left = own ∧ r.1.dir = d.dir := by
  induction wanted generalizing d out count with
  | zero => exact ⟨rfl, rfl⟩
  | succ wanted ih =>
    refine Contract.Obeys.bind ((dirNext_stream hd).mono ?_)
    rintro left ⟨d', e⟩ ⟨rfl, hsame⟩
    cases e with
    | none => exact ⟨rfl, hsame⟩
    | some e =>
      refine Contract.obeys_ite ⟨rfl, hsame⟩ ((ih (hsame ▸ hd) _ _).mono ?_)
      rintro left r ⟨rfl, hr⟩
      exact ⟨rfl, hr.trans hsame⟩

theorem hOpendirx_settled (s : Session) (pl : Bytes) :
    custody.Obeys s.handles (hOpendirx s pl) Settled := by
  unfold hOpendirx
  repeat' split
  any_goals exact settled_self
  all_goals
    next i hslot _ =>
    obtain ⟨hi, hfree⟩ := firstSlot_some hslot
    refine Contract.Obeys.bind (opendir_obeys _ (fun e => rfl) fun d => ?_)
    dsimp only
    refine Quiet.then (quiet_countLoop ?_ _ _) fun count => ?_
    · exact Multiset.mem_cons_self ..
    refine (quiet_ask ?_ rfl fun _ => rfl).then fun _ => ?_
    · rintro h ⟨⟩
      exact Multiset.mem_cons_self ..
    · exact handles_opendir hi (Option.isNone_iff_eq_none.mp hfree)

theorem hReaddir_settled (s : Session) (pl : Bytes) : custody.Obeys s.handles (hReaddir s pl) Settled := by
  unfold hReaddir
  repeat' split
  any_goals exact settled_self
  next d hd =>
  refine Contract.Obeys.bind ((dirNext_stream (dir_held hd).2.2).mono ?_)
  rintro left ⟨d', e⟩ ⟨rfl, hsame⟩
  cases e <;> exact handles_setDir hd hsame

theorem hReaddirx_settled (s : Session) (pl : Bytes) :
    custody.Obeys s.handles (hReaddirx s pl) Settled := by
  unfold hReaddirx
  repeat' split
  any_goals exact settled_self
  next d hd =>
  refine Contract.Obeys.bind ((readdirxLoop_stream (dir_held hd).2.2 ..).mono ?_)
  rintro left ⟨d', out, count, status⟩ ⟨rfl, hsame⟩
  exact Contract.obeys_ite (handles_setDir hd hsame) (handles_setDir hd hsame)

theorem hClosedir_settled (s : Session) (pl : Bytes) :
    custody.Obeys s.handles (hClosedir s pl) Settled := by
  unfold hClosedir
  repeat' split
  any_goals exact settled_self
  next d hd =>
  obtain ⟨hi, hstream, hheld⟩ := dir_held hd
  refine ⟨?_, fun r _ => ?_⟩
  · rintro h ⟨⟩
    exact hheld
  · exact handles_closedir hi hstream

/-- Every command acts only on what its session holds, and its session holds what is left. -/
theorem handle_settled (s : Session) (cmd : UInt8) (pl : Bytes) :
    custody.Obeys s.handles (handle s cmd pl) Settled := by
  unfold handle
  exact Contract.obeys_ite settled_self <| Contract.obeys_ite (hOpen_settled s pl) <|
    Contract.obeys_ite (hRead_settled s pl) <| Contract.obeys_ite (hWrite_settled s pl) <|
    Contract.obeys_ite (hClose_settled s pl) <| Contract.obeys_ite (hLseek_settled s pl) <|
    Contract.obeys_ite (hStat_settled s pl) <| Contract.obeys_ite (hPathop_settled quiet_mkdir s pl) <|
    Contract.obeys_ite (hPathop_settled quiet_rmdir s pl) <|
    Contract.obeys_ite (hPathop_settled quiet_unlink s pl) <|
    Contract.obeys_ite (hRename_settled s pl) <| Contract.obeys_ite (hOpendir_settled s pl) <|
    Contract.obeys_ite (hOpendirx_settled s pl) <| Contract.obeys_ite (hReaddir_settled s pl) <|
    Contract.obeys_ite (hReaddirx_settled s pl) <| Contract.obeys_ite (hClosedir_settled s pl) <|
    Contract.obeys_ite settled_self settled_self

/-! ### The end of a session, and turns -/

theorem close_obeys {h : Handle} {c : SysCall} {rest : Multiset Handle} (hact : c.handle = some h)
    (hclose : c.closes = some h) : custody.Obeys (h ::ₘ rest)
    (ask c : Sys c.Answer) fun left _ => left = rest := by
  refine ⟨?_, fun r _ => ?_⟩
  · intro x hx
    rw [hact] at hx
    cases hx
    exact Multiset.mem_cons_self ..
  · change c.heldAfter _ r = rest
    simp only [SysCall.heldAfter, hclose, Multiset.erase_cons_head]

theorem closeFiles_obeys (n : ℕ) (rest : Multiset Handle) :
    custody.Obeys (rest + (inTable n s.files).map Handle.file) (closeFiles s n) fun left _ =>
      left = rest := by
  induction n generalizing rest with
  | zero => exact Multiset.add_zero rest
  | succ n ih =>
    cases hfd : s.files n with
    | none =>
      have hsame : inTable (n + 1) s.files = inTable n s.files := by simp [inTable, hfd]
      rw [hsame]
      refine Contract.Obeys.bind ((ih rest).mono fun left _ hleft => ?_)
      simp only [hfd]
      exact hleft
    | some fd =>
      have hone : rest + (inTable (n + 1) s.files).map Handle.file =
          (Handle.file fd ::ₘ rest) + (inTable n s.files).map Handle.file := by simp [inTable, hfd]
      rw [hone]
      refine Contract.Obeys.bind ((ih _).mono fun left _ hleft => ?_)
      subst hleft
      simp only [hfd]
      exact close_obeys rfl rfl

theorem closeDirs_obeys (n : ℕ) (rest : Multiset Handle) :
    custody.Obeys (rest + (inTable n s.streams).map Handle.dir) (closeDirs s n) fun left _ =>
      left = rest := by
  induction n generalizing rest with
  | zero => exact Multiset.add_zero rest
  | succ n ih =>
    cases hd : s.dirs n with
    | none =>
      have hsame : inTable (n + 1) s.streams = inTable n s.streams := by simp [inTable, Session.streams, hd]
      rw [hsame]
      refine Contract.Obeys.bind ((ih rest).mono fun left _ hleft => ?_)
      simp only [hd]
      exact hleft
    | some d =>
      have hone : rest + (inTable (n + 1) s.streams).map Handle.dir =
          (Handle.dir d.dir ::ₘ rest) + (inTable n s.streams).map Handle.dir := by
        simp [inTable, Session.streams, hd]
      rw [hone]
      refine Contract.Obeys.bind ((ih _).mono fun left _ hleft => ?_)
      subst hleft
      simp only [hd]
      exact close_obeys rfl rfl

theorem handles_zero : Session.zero.handles = 0 := rfl

/-- `free_session` closes what the session holds, each once, and nothing else. -/
theorem freeSession_obeys (s : Session) :
    custody.Obeys s.handles (freeSession s) fun left r => left = 0 ∧ r = .zero := by
  have hfiles := closeFiles_obeys (s := s) tnfsdMaxFiles ((inTable tnfsdMaxDirs s.streams).map Handle.dir)
  rw [Multiset.add_comm] at hfiles
  refine Contract.Obeys.bind (hfiles.mono fun left _ hleft => ?_)
  subst hleft
  have hdirs := closeDirs_obeys (s := s) tnfsdMaxDirs 0
  rw [Multiset.zero_add] at hdirs
  exact Contract.Obeys.bind (hdirs.mono fun left _ hleft => ⟨hleft, rfl⟩)

theorem process_settled (now : ℕ) (s : Session) (seq cmd : UInt8) (pl : Bytes) :
    custody.Obeys s.handles (process now s seq cmd pl) fun left r => r.1.handles = left := by
  refine Contract.Obeys.bind ((handle_settled s cmd pl).mono ?_)
  rintro left ⟨t, body⟩ rfl
  refine Contract.obeys_ite ?_ rfl
  refine Contract.Obeys.bind ((freeSession_obeys _).mono ?_)
  rintro left z ⟨rfl, rfl⟩
  rfl

theorem mountIn_settled (now : ℕ) (peer : Peer) (seq : UInt8) (pl : Bytes) (v : Server) (i : ℕ) :
    custody.Obeys (v.sessions i).handles (v.mountIn now peer seq pl i)
      fun left r => (r.1.sessions i).handles = left := by
  refine Contract.Obeys.bind ((freeSession_obeys _).mono ?_)
  rintro left z ⟨rfl, -⟩
  refine Contract.obeys_ite ?_ ?_
  · have hzero : ({ (v.allocSession i).sessions i with sid := (v.allocSession i).allocSid.1 }.cacheReply seq
        tnfsMount [tnfsEnoent]).handles = 0 := by
      simp only [Server.allocSession, Server.setSession_self]
      rfl
    refine Contract.Obeys.bind ?_
    rw [← hzero]
    refine (freeSession_obeys _).mono ?_
    rintro left z ⟨rfl, rfl⟩
    simp [Server.setSession, handles_zero]
  · simp only [Contract.obeys_pure, Server.setSession, Function.update_self, Server.allocSession]
    rfl

/-- A turn acts for one slot, on what that slot holds. -/
theorem answer_settled (now : ℕ) (peer : Peer) (rx : Bytes) (v : Server) (t : Server.Turn) :
    custody.Obeys (v.sessions t.slot).handles (v.answer now peer rx t)
      fun left r => (r.1.sessions t.slot).handles = left := by
  cases t with
  | ignored | refused => exact rfl
  | replay i =>
    simp only [Server.answer, Contract.obeys_pure, Server.resend, Server.Turn.slot, Server.setSession_self]
    rfl
  | mount i => exact mountIn_settled ..
  | run i =>
    refine Contract.Obeys.bind ((process_settled ..).mono ?_)
    rintro left ⟨s, out⟩ rfl
    simp [Server.Turn.slot]

end Tnfsd

end FdcSds
