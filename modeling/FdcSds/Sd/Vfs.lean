import FdcSds.Disk.Table
import FdcSds.Schemes.Programs

/-! The SD card as its users see it: POSIX calls, and names (`src/disk/sd.c`).

    The TNFS server, the command line and the FTP guard reach the card through these calls and through
    `disk_change_begin` / `disk_change_end`, which hold the mount lock around a change. What a call
    answers is up to the world that runs the program.

        name ──sd_path──▶ "/sd/name" ──open, unlink, …──▶ card -/

namespace FdcSds
open Schemes

/-- The errors of `errno` the server tells apart. -/
inductive Errno where
  | enoent | eacces | eperm | eexist | enotdir | eisdir | einval | emfile | enfile | enospc | erofs
  | enametoolong | enotempty | ebadf | enomem | ebusy | eio | other
  deriving DecidableEq

/-- The access mode of `open`. -/
inductive Access where
  | rdonly | wronly | rdwr
  deriving DecidableEq

/-- The flags of `open`. -/
structure OpenFlags where
  access : Access
  append : Bool
  creat : Bool
  trunc : Bool
  excl : Bool
  deriving DecidableEq

/-- The open may change the file: `of & (O_WRONLY | O_RDWR | O_TRUNC | O_APPEND)`. -/
def OpenFlags.writes (of : OpenFlags) : Bool := of.access != .rdonly || of.trunc || of.append

inductive Whence where
  | set | cur | fromEnd
  deriving DecidableEq

/-- What `stat` reports, of what the program uses. -/
structure Stat where
  isDir : Bool
  mode : ℕ
  size : ℕ
  mtime : ℕ
  deriving DecidableEq

/-- A `readdir` entry. -/
structure Dirent where
  name : CStr
  isDir : Bool
  deriving DecidableEq

/-- The calls. A descriptor and a directory stream are numbers. -/
inductive SysCall where
  | open (path : CStr) (flags : OpenFlags)
  | read (fd n : ℕ)
  | write (fd : ℕ) (data : Bytes)
  | lseek (fd : ℕ) (off : ℤ) (whence : Whence)
  | close (fd : ℕ)
  | stat (path : CStr)
  | mkdir (path : CStr)
  | rmdir (path : CStr)
  | unlink (path : CStr)
  | rename (old new : CStr)
  | opendir (path : CStr)
  | readdir (dir : ℕ)
  | rewinddir (dir : ℕ)
  | closedir (dir : ℕ)
  | changeBegin (path : CStr)
  | changeEnd
  deriving DecidableEq

/-- Their answers. `disk_change_begin` gives the drive that is in the way, if any. -/
abbrev SysCall.Answer : SysCall → Type
  | .open _ _ | .write _ _ | .opendir _ => Except Errno ℕ
  | .read _ _ => Except Errno Bytes
  | .lseek _ _ _ => Except Errno ℕ
  | .stat _ => Except Errno Stat
  | .mkdir _ | .rmdir _ | .unlink _ | .rename _ _ => Except Errno Unit
  | .readdir _ => Option Dirent
  | .close _ | .rewinddir _ | .closedir _ | .changeEnd => Unit
  | .changeBegin _ => Option ℕ

/-- A program over the card's calls. -/
abbrev Sys : Type → Type := Prog SysCall SysCall.Answer

def sysOpen (path : CStr) (flags : OpenFlags) : Sys (Except Errno ℕ) := .ask (SysCall.open path flags)
def sysRead (fd n : ℕ) : Sys (Except Errno Bytes) := .ask (SysCall.read fd n)
def sysWrite (fd : ℕ) (data : Bytes) : Sys (Except Errno ℕ) := .ask (SysCall.write fd data)
def sysLseek (fd : ℕ) (off : ℤ) (whence : Whence) : Sys (Except Errno ℕ) := .ask (SysCall.lseek fd off whence)
def sysClose (fd : ℕ) : Sys Unit := .ask (SysCall.close fd)
def sysStat (path : CStr) : Sys (Except Errno Stat) := .ask (SysCall.stat path)
def sysMkdir (path : CStr) : Sys (Except Errno Unit) := .ask (SysCall.mkdir path)
def sysRmdir (path : CStr) : Sys (Except Errno Unit) := .ask (SysCall.rmdir path)
def sysUnlink (path : CStr) : Sys (Except Errno Unit) := .ask (SysCall.unlink path)
def sysRename (old new : CStr) : Sys (Except Errno Unit) := .ask (SysCall.rename old new)
def sysOpendir (path : CStr) : Sys (Except Errno ℕ) := .ask (SysCall.opendir path)
def sysReaddir (dir : ℕ) : Sys (Option Dirent) := .ask (SysCall.readdir dir)
def sysRewinddir (dir : ℕ) : Sys Unit := .ask (SysCall.rewinddir dir)
def sysClosedir (dir : ℕ) : Sys Unit := .ask (SysCall.closedir dir)
def diskChangeBegin (path : CStr) : Sys (Option ℕ) := .ask (SysCall.changeBegin path)
def diskChangeEnd : Sys Unit := .ask SysCall.changeEnd

/-! ### Names -/

/-- `SD_MOUNT_POINT`. -/
def sdMountPoint : CStr := ['/', 's', 'd']

/-- The component loop of `sd_path`: `seg` is the component read so far. -/
def sdPathLoop : CStr → CStr → Bool
  | [], seg => seg != ['.', '.']
  | c :: rest, seg =>
    if c == '/' then seg != [] && seg != ['.', '.'] && sdPathLoop rest []
    else sdPathLoop rest (seg ++ [c])

/-- `sd_path`: the absolute path of a root-relative name, in a buffer of `len` bytes. -/
def sdPath (name : CStr) (len : ℕ) : Option CStr :=
  if name.isEmpty || name.contains '\\' || name.head? == some '/' then none
  else if !sdPathLoop name [] then none
  else
    let path := sdMountPoint ++ ['/'] ++ name
    if path.length < len then some path else none

/-- Only a letter has another letter's lower case. -/
theorem eq_of_toLower {c x : Char} (hx : x.val.toNat < 97) (h : c.toLower = x) : c = x := by
  unfold Char.toLower at h
  split at h
  · next hupper =>
    obtain ⟨hlow, hhigh⟩ := hupper
    have hn := congrArg (UInt32.toNat ∘ Char.val) h
    rw [ge_iff_le, UInt32.le_iff_toNat_le] at hlow
    rw [UInt32.le_iff_toNat_le] at hhigh
    change 65 ≤ c.val.toNat at hlow
    change c.val.toNat ≤ 90 at hhigh
    change (c.val + 32).toNat = x.val.toNat at hn
    rw [UInt32.toNat_add] at hn
    change (c.val.toNat + 32) % 2 ^ 32 = x.val.toNat at hn
    omega
  · exact h

end FdcSds
