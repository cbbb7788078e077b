import FdcSds.Config.Batches
import FdcSds.Net.TnfsServer
import FdcSds.Schemes.Contracts
import FdcSds.Sd.Card

/-! The change guard at the three front ends (`cmd_delete` … `copy_open_dest`, `h_open` … `h_rename`,
    `ftp_open_file` and the FTP commands).

    The contract `guarded` lets a program delete, rename or open for writing only what it has asked
    `disk_change_begin` for, and end a change only if it has begun one. Every request obeys it and ends
    with no change under way; `rmdir` is a call it may make at any time.

        begin p ──allowed──▶ (p) ──unlink p, rename p _, open p──▶ (p) ──end──▶ ()
                └─refused──▶ ()                                                            -/

namespace FdcSds
open Schemes Prog

/-- The path that a call unlinks, renames or opens for writing. No path asks leave for an `rmdir`, which
    on this file system deletes a plain file as well. -/
def SysCall.target : SysCall → Option CStr
  | .unlink p | .rename p _ => some p
  | .open p of => if of.writes then some p else none
  | _ => none

/-- A change to `p` is under way: the guard allowed it, and holds the mount lock. -/
def guarded : Contract SysCall SysCall.Answer (Option CStr) where
  may g c := (∀ p ∈ c.target, g = some p) ∧
    match c with
    | .changeBegin _ => g = none
    | .changeEnd => g.isSome = true
    | _ => True
  gives _ _ _ := True
  next g c r :=
    match c, r with
    | .changeBegin p, none => some p
    | .changeBegin _, some _ => g
    | .changeEnd, _ => none
    | _, _ => g

/-- Begun with no change under way, the program obeys the guard and leaves none. -/
abbrev Released {α : Type} (p : Sys α) : Prop := guarded.Obeys none p fun g _ => g = none

/-- No change, and nothing to do with the guard. -/
def SysCall.calm (c : SysCall) : Bool :=
  c.target.isNone && match c with
    | .changeBegin _ | .changeEnd => false
    | _ => true

/-! ### The command line -/

/-- What a command that changes the card reports. -/
inductive CliReply where
  | invalid (name : CStr)
  | inUse (name : CStr) (drive : ℕ)
  | failed (name : CStr) (e : Errno)
  | notEmpty (name : CStr)
  | deleted (name : CStr)
  | created (name : CStr)
  | removed (name : CStr)
  | renamed (old new : CStr)
  | writeError
  | copied (bytes : ℕ)
  deriving DecidableEq

namespace Shell

variable (s : Shell)

def cmdDelete (name : CStr) : Sys CliReply :=
  match s.resolve name with
  | none => pure (.invalid name)
  | some path => do
    match ← diskChangeBegin path with
    | some d => pure (.inUse name d)
    | none => do
      let r ← sysUnlink path
      let _ ← diskChangeEnd
      pure (match r with | .ok () => .deleted name | .error e => .failed name e)

def cmdMkdir (name : CStr) : Sys CliReply :=
  match s.resolve name with
  | none => pure (.invalid name)
  | some path => do
    match ← sysMkdir path with
    | .ok () => pure (.created name)
    | .error e => pure (.failed name e)

/-- Unlike its neighbours, without the guard. -/
def cmdRmdir (name : CStr) : Sys CliReply :=
  match s.resolve name with
  | none => pure (.invalid name)
  | some path => do
    match ← sysRmdir path with
    | .ok () => pure (.removed name)
    | .error e => pure (if e = .eacces ∨ e = .enotempty then .notEmpty name else .failed name e)

def cmdRename (old new : CStr) : Sys CliReply :=
  match s.resolve old, s.resolve new with
  | none, _ => pure (.invalid old)
  | some _, none => pure (.invalid new)
  | some src, some dst => do
    match ← diskChangeBegin src with
    | some d => pure (.inUse old d)
    | none => do
      let r ← sysRename src dst
      let _ ← diskChangeEnd
      pure (match r with | .ok () => .renamed old new | .error e => .failed old e)

/-- The flags of `fopen` with `"wb"` and with `"ab"`. -/
def fopenFlags (append : Bool) : OpenFlags := ⟨.wronly, append, true, !append, false⟩

/-- `copy_open_dest` on the card. -/
def copyOpenDest (name : CStr) : Sys (Except CliReply ℕ) :=
  match s.resolve name with
  | none => pure (.error (.invalid name))
  | some path => do
    match ← diskChangeBegin path with
    | some d => pure (.error (.inUse name d))
    | none => do
      let r ← sysOpen path (fopenFlags false)
      let _ ← diskChangeEnd
      pure (match r with | .ok fd => .ok fd | .error e => .error (.failed name e))

/-- The writes of `cmd_copy`, as the chunks come from the source. -/
def copyChunks (fd : ℕ) : List Bytes → ℕ → Sys CliReply
  | [], off => pure (.copied off)
  | c :: cs, off => do
    match ← sysWrite fd c with
    | .ok n => if n = c.length then copyChunks fd cs (off + n) else pure .writeError
    | .error _ => pure .writeError

/-- `cmd_copy` to the card. -/
def cmdCopy (dst : CStr) (chunks : List Bytes) : Sys CliReply := do
  match ← s.copyOpenDest dst with
  | .error reply => pure reply
  | .ok fd => do
    let reply ← copyChunks fd chunks 0
    let _ ← sysClose fd
    pure reply

end Shell

/-! ### The FTP server -/

/-- `ftp_open_file` for writing, STOR or APPE. -/
def ftpOpenFile (fullname : CStr) (append : Bool) : Sys (Option ℕ) := do
  match ← diskChangeBegin fullname with
  | some _ => pure none
  | none => do
    let r ← sysOpen fullname (Shell.fopenFlags append)
    let _ ← diskChangeEnd
    pure r.toOption

/-- DELE, with its reply code. -/
def ftpDele (fullname : CStr) : Sys ℕ := do
  match ← diskChangeBegin fullname with
  | some _ => pure 550
  | none => do
    let r ← sysUnlink fullname
    let _ ← diskChangeEnd
    pure (match r with | .ok () => 250 | .error _ => 550)

/-- RNTO, with the name RNFR saved. -/
def ftpRnto (fullname fullname2 : CStr) : Sys ℕ := do
  match ← diskChangeBegin fullname with
  | some _ => pure 550
  | none => do
    let r ← sysRename fullname fullname2
    let _ ← diskChangeEnd
    pure (match r with | .ok () => 250 | .error _ => 550)

/-- RMD and MKD. -/
def ftpPathop (op : CStr → Sys (Except Errno Unit)) (fullname : CStr) : Sys ℕ := do
  match ← op fullname with
  | .ok () => pure 250
  | .error _ => pure 550

/-! ### Obeying the guard -/

section
variable {α β : Type} {p : Sys α} {f : α → Sys β} {c : SysCall}

theorem released_ask (hc : c.calm = true) : Released (ask c : Sys c.Answer) := by
  have hnone : c.target = none := by
    simp only [SysCall.calm, Bool.and_eq_true, Option.isNone_iff_eq_none] at hc
    exact hc.1
  refine ⟨⟨?_, ?_⟩, fun r _ => ?_⟩
  · rw [hnone]
    rintro q ⟨⟩
  · cases c <;> trivial
  · cases c <;> first | rfl | simp [SysCall.calm] at hc

theorem Released.then (hp : Released p) (hf : ∀ a, Released (f a)) : Released (p >>= f) :=
  Contract.Obeys.bind (hp.mono fun g a hg => by
    subst hg
    exact hf a)

/-- A change between `disk_change_begin` and `disk_change_end`. -/
theorem released_change {path : CStr} (hc : c.target = some path) {g : Option ℕ → Sys β}
    {k : c.Answer → Sys β} (hg : g none = ask c >>= fun r => diskChangeEnd >>= fun _ => k r)
    (hrefused : ∀ d, Released (g (some d))) (hk : ∀ r, Released (k r)) :
    Released (diskChangeBegin path >>= g) := by
  refine ⟨⟨by rintro q ⟨⟩, rfl⟩, fun drive _ => ?_⟩
  cases drive with
  | some d => exact hrefused d
  | none =>
    change guarded.Obeys (some path) (g none) _
    rw [hg]
    refine ⟨⟨fun q hq => ?_, ?_⟩, fun r _ => ?_⟩
    · rw [hc] at hq
      exact hq
    · cases c <;> trivial
    · have hsame : guarded.next (some path) c r = some path := by
        cases c <;> first | rfl | cases hc
      rw [hsame]
      exact ⟨⟨by rintro q ⟨⟩, rfl⟩, fun _ _ => hk r⟩

end

namespace Shell

variable (s : Shell)

theorem cmdDelete_released (name : CStr) : Released (s.cmdDelete name) := by
  unfold cmdDelete
  split
  · rfl
  · exact released_change rfl rfl (fun _ => rfl) fun _ => rfl

theorem cmdMkdir_released (name : CStr) : Released (s.cmdMkdir name) := by
  unfold cmdMkdir
  split
  · rfl
  · refine (released_ask rfl).then fun r => ?_
    cases r <;> rfl

theorem cmdRmdir_released (name : CStr) : Released (s.cmdRmdir name) := by
  unfold cmdRmdir
  split
  · rfl
  · refine (released_ask rfl).then fun r => ?_
    cases r <;> rfl

theorem cmdRename_released (old new : CStr) : Released (s.cmdRename old new) := by
  unfold cmdRename
  split
  · rfl
  · rfl
  · exact released_change rfl rfl (fun _ => rfl) fun _ => rfl

theorem copyChunks_released (fd : ℕ) (chunks : List Bytes) (off : ℕ) :
    Released (copyChunks fd chunks off) := by
  induction chunks generalizing off with
  | nil => rfl
  | cons c cs ih =>
    refine (released_ask rfl).then fun r => ?_
    cases r with
    | error e => rfl
    | ok n => exact Contract.obeys_ite (ih _) rfl

theorem cmdCopy_released (dst : CStr) (chunks : List Bytes) : Released (s.cmdCopy dst chunks) := by
  have hopen : Released (s.copyOpenDest dst) := by
    unfold copyOpenDest
    split
    · rfl
    · exact released_change rfl rfl (fun _ => rfl) fun _ => rfl
  refine hopen.then fun r => ?_
  cases r with
  | error reply => rfl
  | ok fd => exact (copyChunks_released fd chunks 0).then fun _ => (released_ask rfl).then fun _ => rfl

end Shell

theorem ftpOpenFile_released (fullname : CStr) (append : Bool) : Released (ftpOpenFile fullname append) := by
  refine released_change (c := .open fullname (Shell.fopenFlags append)) ?_ rfl (fun _ => rfl) fun _ => rfl
  cases append <;> rfl

theorem ftpDele_released (fullname : CStr) : Released (ftpDele fullname) :=
  released_change rfl rfl (fun _ => rfl) fun _ => rfl

theorem ftpRnto_released (fullname fullname2 : CStr) : Released (ftpRnto fullname fullname2) :=
  released_change rfl rfl (fun _ => rfl) fun _ => rfl

theorem ftpPathop_released {op : CStr → Sys (Except Errno Unit)} {fullname : CStr}
    (hop : Released (op fullname)) :
    Released (ftpPathop op fullname) := by
  refine hop.then fun r => ?_
  cases r <;> rfl

namespace Tnfsd

variable (s : Session) (pl : Bytes)

theorem withPath_released {k : CStr → Sys (Session × Bytes)} (hk : ∀ abs, Released (k abs)) :
    Released (withPath s pl k) := by
  unfold withPath
  repeat' split
  any_goals rfl
  exact hk _

theorem openGuarded_released (path : CStr) (of : OpenFlags) : Released (openGuarded path of) := by
  unfold openGuarded
  cases hw : of.writes with
  | true =>
    rw [if_pos rfl]
    exact released_change (c := .open path of) (by simp [SysCall.target, hw]) rfl (fun _ => rfl) fun _ => rfl
  | false =>
    rw [if_neg (by simp)]
    exact (released_ask (c := .open path of) (by simp [SysCall.calm, SysCall.target, hw])).then fun r => rfl

theorem hOpen_released : Released (hOpen s pl) := by
  unfold hOpen
  repeat' split
  any_goals rfl
  refine (openGuarded_released _ _).then fun r => ?_
  rcases r with _ | e | fd <;> rfl

theorem hRead_released : Released (hRead s pl) := by
  unfold hRead
  repeat' split
  any_goals rfl
  refine (released_ask rfl).then fun r => ?_
  repeat' split
  all_goals rfl

theorem hWrite_released : Released (hWrite s pl) := by
  unfold hWrite
  repeat' split
  any_goals rfl
  refine (released_ask rfl).then fun r => ?_
  split <;> rfl

theorem hClose_released : Released (hClose s pl) := by
  unfold hClose
  repeat' split
  any_goals rfl
  exact (released_ask rfl).then fun _ => rfl

theorem hLseek_released : Released (hLseek s pl) := by
  unfold hLseek
  repeat' split
  any_goals rfl
  refine (released_ask rfl).then fun r => ?_
  split <;> rfl

theorem hStat_released : Released (hStat s pl) := by
  refine withPath_released s pl fun abs => (released_ask rfl).then fun r => ?_
  split <;> rfl

theorem hPathop_released {op : CStr → Sys (Except Errno Unit)} (hop : ∀ path, Released (op path)) :
    Released (hPathop op s pl) :=
  withPath_released s pl fun abs => (hop abs).then fun _ => rfl

theorem unlinkOp_released (path : CStr) : Released (unlinkOp path) :=
  released_change rfl rfl (fun _ => rfl) fun _ => rfl

theorem renameGuarded_released (old new : CStr) : Released (renameGuarded old new) :=
  released_change rfl rfl (fun _ => rfl) fun _ => rfl

theorem hRename_released : Released (hRename s pl) := by
  unfold hRename
  repeat' split
  any_goals rfl
  exact (renameGuarded_released _ _).then fun _ => rfl

theorem hOpendir_released : Released (hOpendir s pl) := by
  refine withPath_released s pl fun abs => ?_
  split
  · rfl
  · refine (released_ask rfl).then fun r => ?_
    split <;> rfl

theorem countLoop_released (d : DirSlot) (fuel count : ℕ) : Released (countLoop d fuel count) := by
  induction fuel generalizing count with
  | zero => rfl
  | succ fuel ih =>
    refine (released_ask rfl).then fun r => ?_
    cases r with
    | none => rfl
    | some de => exact ih _

theorem hOpendirx_released : Released (hOpendirx s pl) := by
  unfold hOpendirx
  repeat' split
  any_goals rfl
  all_goals
    refine (released_ask rfl).then fun r => ?_
    split
    · rfl
    · exact (countLoop_released _ _ _).then fun _ => (released_ask rfl).then fun _ => rfl

theorem entryOf_released (d : DirSlot) (de : Dirent) : Released (entryOf d de) := by
  refine Contract.obeys_ite ((released_ask rfl).then fun r => ?_) rfl
  cases r <;> rfl

theorem dirLoop_released (d : DirSlot) (fuel : ℕ) : Released (dirLoop d fuel) := by
  induction fuel with
  | zero => rfl
  | succ fuel ih =>
    refine (released_ask rfl).then fun r => ?_
    cases r with
    | none => rfl
    | some de => exact Contract.obeys_ite ih ((entryOf_released d de).then fun _ => rfl)

theorem dirNext_released (d : DirSlot) : Released (dirNext d) := by
  unfold dirNext
  split
  · rfl
  · exact (dirLoop_released _ _).then fun _ => rfl

theorem readdirxLoop_released (wanted : ℕ) (d : DirSlot) (out : Bytes) (count : ℕ) :
    Released (readdirxLoop wanted d out count) := by
  induction wanted generalizing d out count with
  | zero => rfl
  | succ wanted ih =>
    refine (dirNext_released d).then ?_
    rintro ⟨d', e⟩
    cases e with
    | none => rfl
    | some e => exact Contract.obeys_ite rfl (ih _ _ _)

theorem hReaddir_released : Released (hReaddir s pl) := by
  unfold hReaddir
  repeat' split
  any_goals rfl
  refine (dirNext_released _).then ?_
  rintro ⟨d', e⟩
  cases e <;> rfl

theorem hReaddirx_released : Released (hReaddirx s pl) := by
  unfold hReaddirx
  repeat' split
  any_goals rfl
  refine (readdirxLoop_released _ _ _ _).then ?_
  rintro ⟨d', out, count, status⟩
  exact Contract.obeys_ite rfl rfl

theorem hClosedir_released : Released (hClosedir s pl) := by
  unfold hClosedir
  repeat' split
  any_goals rfl
  exact (released_ask rfl).then fun _ => rfl

/-- Every command obeys the guard. -/
theorem handle_released (cmd : UInt8) : Released (handle s cmd pl) := by
  unfold handle
  exact Contract.obeys_ite rfl <| Contract.obeys_ite (hOpen_released s pl) <|
    Contract.obeys_ite (hRead_released s pl) <| Contract.obeys_ite (hWrite_released s pl) <|
    Contract.obeys_ite (hClose_released s pl) <| Contract.obeys_ite (hLseek_released s pl) <|
    Contract.obeys_ite (hStat_released s pl) <|
    Contract.obeys_ite (hPathop_released s pl fun _ => released_ask rfl) <|
    Contract.obeys_ite (hPathop_released s pl fun _ => released_ask rfl) <|
    Contract.obeys_ite (hPathop_released s pl unlinkOp_released) <|
    Contract.obeys_ite (hRename_released s pl) <| Contract.obeys_ite (hOpendir_released s pl) <|
    Contract.obeys_ite (hOpendirx_released s pl) <| Contract.obeys_ite (hReaddir_released s pl) <|
    Contract.obeys_ite (hReaddirx_released s pl) <| Contract.obeys_ite (hClosedir_released s pl) <|
    Contract.obeys_ite rfl rfl

theorem closeFiles_released (n : ℕ) : Released (closeFiles s n) := by
  induction n with
  | zero => rfl
  | succ n ih =>
    refine ih.then fun _ => ?_
    split
    · exact released_ask rfl
    · rfl

theorem closeDirs_released (n : ℕ) : Released (closeDirs s n) := by
  induction n with
  | zero => rfl
  | succ n ih =>
    refine ih.then fun _ => ?_
    split
    · exact released_ask rfl
    · rfl

theorem freeSession_released : Released (freeSession s) :=
  (closeFiles_released s _).then fun _ => (closeDirs_released s _).then fun _ => rfl

theorem process_released (now : ℕ) (seq cmd : UInt8) : Released (process now s seq cmd pl) := by
  refine (handle_released s pl cmd).then ?_
  rintro ⟨t, body⟩
  exact Contract.obeys_ite ((freeSession_released _).then fun _ => rfl) rfl

namespace Server

variable (v : Server)

theorem reapIdle_released (now n : ℕ) : Released (v.reapIdle now n) := by
  induction n with
  | zero => rfl
  | succ n ih =>
    refine ih.then fun v => ?_
    exact Contract.obeys_ite ((freeSession_released _).then fun _ => rfl) rfl

theorem answer_released (now : ℕ) (peer : Peer) (rx : Bytes) (turn : Turn) :
    Released (v.answer now peer rx turn) := by
  cases turn with
  | ignored | refused | replay i => rfl
  | mount i =>
    refine (freeSession_released _).then fun _ => ?_
    dsimp only
    split
    · exact (freeSession_released _).then fun _ => rfl
    · rfl
  | run i => exact (process_released ..).then fun _ => rfl

/-- A datagram is served in obedience to the guard. -/
theorem serve_released (now : ℕ) (peer : Peer) (rx : Bytes) : Released (v.serve now peer rx) :=
  (reapIdle_released v now _).then fun _ => answer_released ..

end Server

end Tnfsd

end FdcSds
