import FdcSds.Net.TnfsProto
import FdcSds.Sd.Vfs

/-! The TNFS server (`src/net/tnfs_server.c`).

    One task serves datagrams one at a time. Each handler is a program over the card's calls that takes
    the session and the request payload and gives the session back with a reply body, whose first byte
    is a status. `serve` wraps them: it finds the session, answers a repeated (seq, cmd) from the cached
    reply, and caches the reply of everything it runs.

        rx ──reap idle──▶ MOUNT? ──▶ session? ──▶ (seq, cmd) cached? ──yes──▶ replay
                                                        └──no──▶ process ──▶ reply, cached -/

namespace FdcSds.Tnfsd
open Schemes

/-! ### Bounds -/

def tnfsdMaxSessions : ℕ := 2
def tnfsdMaxFiles : ℕ := 4
def tnfsdMaxDirs : ℕ := 2
/-- A session is reaped after 30 s without a request, in microseconds. -/
def tnfsdIdleUs : ℕ := 30 * 1000000
def tnfsdMinRetryMs : ℕ := 1000
def tnfsdAbsCap : ℕ := 320
def tnfsdRootCap : ℕ := 160
def tnfsdPatCap : ℕ := 64
def tnfsdNameCap : ℕ := 256

/-! ### Sessions -/

/-- The address of a client's socket. -/
structure Peer where
  addr : UInt32
  port : UInt16
  deriving DecidableEq

/-- A visible directory entry with its metadata. -/
structure DirEntry where
  flags : UInt8
  size : ℕ
  mtime : ℕ
  ctime : ℕ
  name : CStr
  deriving DecidableEq

/-- An open directory; `pending` is the one-entry read-ahead. -/
structure DirSlot where
  dir : ℕ
  abspath : CStr
  pattern : CStr
  pos : ℕ
  pending : Option DirEntry
  deriving DecidableEq

structure Session where
  inUse : Bool
  sid : UInt16
  peer : Peer
  lastActiveUs : ℕ
  root : CStr
  files : ℕ → Option ℕ
  dirs : ℕ → Option DirSlot
  haveReply : Bool
  lastSeq : UInt8
  lastCmd : UInt8
  reply : Bytes

/-- A slot after `free_session`. -/
def Session.zero : Session :=
  ⟨false, 0, ⟨0, 0⟩, 0, [], fun _ => none, fun _ => none, false, 0, 0, []⟩

structure Server where
  sessions : ℕ → Session
  nextSid : UInt16

/-- A reply on its way: the address and the datagram. -/
structure Sent where
  peer : Peer
  data : Bytes
  deriving DecidableEq

/-- `errno_to_tnfs`. -/
def errnoToTnfs : Errno → UInt8
  | .enoent => tnfsEnoent
  | .eacces | .eperm => tnfsEacces
  | .eexist => tnfsEexist
  | .enotdir => tnfsEnotdir
  | .eisdir => tnfsEisdir
  | .einval => tnfsEinval
  | .emfile | .enfile => tnfsEmfile
  | .enospc => tnfsEnospc
  | .erofs => tnfsErofs
  | .enametoolong => tnfsEnametoolong
  | .enotempty => tnfsEnotempty
  | .ebadf => tnfsEbadf
  | .enomem => tnfsEnomem
  | .ebusy => tnfsEbusy
  | .eio | .other => tnfsEio

/-- The first `i < n` with `p i`. -/
def firstSlot (n : ℕ) (p : ℕ → Bool) : Option ℕ := (List.range n).find? p

/-- The status of a call that gives nothing back. -/
def statusOf : Except Errno Unit → UInt8
  | .ok () => tnfsOk
  | .error e => errnoToTnfs e

/-! ### Paths -/

/-- Trailing `'/'` removed. -/
def trimSlashes (s : CStr) : CStr := (s.reverse.dropWhile (· == '/')).reverse

/-- `resolve_path`: the absolute path of a session-relative name, or an error status. -/
def resolvePath (s : Session) (req : CStr) : Except UInt8 CStr :=
  let req := req.dropWhile (· == '/')
  let rel : Except UInt8 CStr :=
    if !s.root.isEmpty then
      if !req.isEmpty then
        let r := s.root ++ ['/'] ++ req
        if r.length ≥ tnfsdAbsCap then .error tnfsEnametoolong else .ok r
      else .ok (strlcpy tnfsdAbsCap s.root)
    else .ok (strlcpy tnfsdAbsCap req)
  match rel with
  | .error st => .error st
  | .ok rel =>
    let rel := trimSlashes rel
    if rel.isEmpty then .ok sdMountPoint
    else match sdPath rel tnfsdAbsCap with
      | some abs => .ok abs
      | none => .error tnfsEinval

/-- The NUL-terminated string at the start of a payload, if there is one. -/
def cstrArg (pl : Bytes) : Option CStr := if pl.contains 0 then some (cstr pl) else none

/-! ### Files -/

/-- The `O_*` flags of an OPEN request. -/
def openFlagsOf (tf : ℕ) : OpenFlags where
  access := if tf &&& 0x0003 = tnfsOWronly then .wronly
    else if tf &&& 0x0003 = tnfsORdwr then .rdwr else .rdonly
  append := tf &&& tnfsOAppend ≠ 0
  creat := tf &&& tnfsOCreat ≠ 0
  trunc := tf &&& tnfsOTrunc ≠ 0
  excl := tf &&& tnfsOExcl ≠ 0

/-- The open itself, between the guard and its end for a writing one. `none`: a mounted image. -/
def openGuarded (path : CStr) (of : OpenFlags) : Sys (Option (Except Errno ℕ)) :=
  if of.writes then do
    let drive ← diskChangeBegin path
    if drive.isSome then pure none
    else do
      let r ← sysOpen path of
      let _ ← diskChangeEnd
      pure (some r)
  else do
    let r ← sysOpen path of
    pure (some r)

def hOpen (s : Session) (pl : Bytes) : Sys (Session × Bytes) :=
  if pl.length < 5 then pure (s, [tnfsEinval])
  else match cstrArg (pl.drop 4) with
    | none => pure (s, [tnfsEinval])
    | some path =>
      match resolvePath s path with
      | .error st => pure (s, [st])
      | .ok abs =>
        match firstSlot tnfsdMaxFiles fun i => (s.files i).isNone with
        | none => pure (s, [tnfsEmfile])
        | some slot => do
          match ← openGuarded abs (openFlagsOf (word pl 0)) with
          | none => pure (s, [tnfsEbusy])
          | some (.error e) => pure (s, [errnoToTnfs e])
          | some (.ok fd) =>
            pure ({ s with files := Function.update s.files slot (some fd) },
              [tnfsOk, UInt8.ofNat slot])

/-- The POSIX descriptor of a TNFS file handle. -/
def Session.file (s : Session) (h : UInt8) : Option ℕ :=
  if h.toNat < tnfsdMaxFiles then s.files h.toNat else none

def hRead (s : Session) (pl : Bytes) : Sys (Session × Bytes) :=
  if pl.length < 3 then pure (s, [tnfsEinval])
  else match s.file (pl.getD 0 0) with
    | none => pure (s, [tnfsEbadf])
    | some fd => do
      let want := min (word pl 1) tnfsIoChunk
      match ← sysRead fd want with
      | .error e => pure (s, [errnoToTnfs e])
      | .ok r =>
        if r.length = 0 ∧ 0 < want then pure (s, [tnfsEof])
        else pure (s, [tnfsOk] ++ le16 r.length ++ r)

def hWrite (s : Session) (pl : Bytes) : Sys (Session × Bytes) :=
  if pl.length < 3 then pure (s, [tnfsEinval])
  else if pl.length < 3 + word pl 1 then pure (s, [tnfsEinval])
  else match s.file (pl.getD 0 0) with
    | none => pure (s, [tnfsEbadf])
    | some fd => do
      match ← sysWrite fd (slice pl 3 (word pl 1)) with
      | .error e => pure (s, [errnoToTnfs e])
      | .ok w => pure (s, [tnfsOk] ++ le16 w)

def hClose (s : Session) (pl : Bytes) : Sys (Session × Bytes) :=
  if pl.length < 1 then pure (s, [tnfsEinval])
  else match s.file (pl.getD 0 0) with
    | none => pure (s, [tnfsEbadf])
    | some fd => do
      let _ ← sysClose fd
      pure ({ s with files := Function.update s.files (pl.getD 0 0).toNat none }, [tnfsOk])

/-- A 32-bit word as `int32_t`. -/
def int32 (n : ℕ) : ℤ := if n < 2 ^ 31 then n else n - 2 ^ 32

def whenceOf (w : UInt8) : Option Whence :=
  if w = tnfsSeekSet then some .set
  else if w = tnfsSeekCur then some .cur
  else if w = tnfsSeekEnd then some .fromEnd else none

def hLseek (s : Session) (pl : Bytes) : Sys (Session × Bytes) :=
  if pl.length < 6 then pure (s, [tnfsEinval])
  else match s.file (pl.getD 0 0) with
    | none => pure (s, [tnfsEbadf])
    | some fd =>
      match whenceOf (pl.getD 1 0) with
      | none => pure (s, [tnfsEinval])
      | some w => do
        match ← sysLseek fd (int32 (dword pl 2)) w with
        | .error e => pure (s, [errnoToTnfs e])
        | .ok r => pure (s, [tnfsOk] ++ le32 r)

/-! ### Paths as arguments -/

/-- The handlers with one path argument: resolve it, then go on with the absolute path. -/
def withPath (s : Session) (pl : Bytes) (k : CStr → Sys (Session × Bytes)) : Sys (Session × Bytes) :=
  if pl.length < 1 then pure (s, [tnfsEinval])
  else match cstrArg pl with
    | none => pure (s, [tnfsEinval])
    | some path =>
      match resolvePath s path with
      | .error st => pure (s, [st])
      | .ok abs => k abs

def hStat (s : Session) (pl : Bytes) : Sys (Session × Bytes) :=
  withPath s pl fun abs => do
    match ← sysStat abs with
    | .error e => pure (s, [errnoToTnfs e])
    | .ok sb => pure (s, [tnfsOk] ++ le16 sb.mode ++ le16 0 ++ le16 0 ++ le32 sb.size ++
        le32 sb.mtime ++ le32 sb.mtime ++ le32 sb.mtime)

/-- Shared by MKDIR, RMDIR and UNLINK. -/
def hPathop (op : CStr → Sys (Except Errno Unit)) (s : Session) (pl : Bytes) : Sys (Session × Bytes) :=
  withPath s pl fun abs => do
    let r ← op abs
    pure (s, [statusOf r])

def mkdirOp (path : CStr) : Sys (Except Errno Unit) := sysMkdir path

/-- UNLINK, refused with EBUSY for a mounted image. -/
def unlinkOp (path : CStr) : Sys (Except Errno Unit) := do
  let drive ← diskChangeBegin path
  if drive.isSome then pure (.error .ebusy)
  else do
    let r ← sysUnlink path
    let _ ← diskChangeEnd
    pure r

/-- The rename itself, refused with EBUSY for a mounted image or a folder that holds one. -/
def renameGuarded (old new : CStr) : Sys (Except Errno Unit) := do
  let drive ← diskChangeBegin old
  if drive.isSome then pure (.error .ebusy)
  else do
    let r ← sysRename old new
    let _ ← diskChangeEnd
    pure r

def hRename (s : Session) (pl : Bytes) : Sys (Session × Bytes) :=
  if pl.length < 2 then pure (s, [tnfsEinval])
  else match cstrArg pl with
    | none => pure (s, [tnfsEinval])
    | some old =>
      match cstrArg (pl.drop (old.length + 1)) with
      | none => pure (s, [tnfsEinval])
      | some new =>
        match resolvePath s old with
        | .error st => pure (s, [st])
        | .ok oabs =>
          match resolvePath s new with
          | .error st => pure (s, [st])
          | .ok nabs => do
            let r ← renameGuarded oabs nabs
            pure (s, [statusOf r])

/-! ### Directories -/

/-- The loop of `wildcard_match_ci`: the pattern and the name still to match, and where the last `*`
    resumes. Each backtrack gives the `*` one more character. -/
def wildcardLoop : ℕ → CStr → CStr → Option (CStr × CStr) → Bool
  | 0, _, _, _ => false
  | _ + 1, pat, [], _ => (pat.dropWhile (· == '*')).isEmpty
  | fuel + 1, pat, c :: str, star =>
    match pat, star with
    | '?' :: pat, _ => wildcardLoop fuel pat str star
    | p :: pat', _ =>
      if p.toLower == c.toLower then wildcardLoop fuel pat' str star
      else if p == '*' then wildcardLoop fuel pat' (c :: str) (some (pat', c :: str))
      else match star with
        | some (resume, _ :: ss) => wildcardLoop fuel resume ss (some (resume, ss))
        | _ => false
    | [], some (resume, _ :: ss) => wildcardLoop fuel resume ss (some (resume, ss))
    | [], _ => false

/-- `wildcard_match_ci`. -/
def wildcardMatchCi (pat str : CStr) : Bool :=
  wildcardLoop ((pat.length + str.length + 1) * (str.length + 2)) pat str none

/-- No FAT directory has more entries, so no `readdir` loop goes on longer. -/
def fatDirEntries : ℕ := 65536

/-- `dir->pattern` set and not matched. -/
def DirSlot.hides (d : DirSlot) (name : CStr) : Bool :=
  name.head? == some '.' || (!d.pattern.isEmpty && !wildcardMatchCi d.pattern name)

/-- The metadata of an entry, from `stat` where the path fits. -/
def entryOf (d : DirSlot) (de : Dirent) : Sys DirEntry := do
  let full := d.abspath ++ ['/'] ++ de.name
  let name := strlcpy tnfsdNameCap de.name
  if full.length < tnfsdAbsCap then do
    match ← sysStat full with
    | .ok st => pure ⟨if st.isDir then tnfsDirentryDir else 0, st.size, st.mtime, st.mtime, name⟩
    | .error _ => pure ⟨if de.isDir then tnfsDirentryDir else 0, 0, 0, 0, name⟩
  else pure ⟨0, 0, 0, 0, name⟩

/-- The `readdir` loop of `dir_next`. -/
def dirLoop (d : DirSlot) : ℕ → Sys (Option DirEntry)
  | 0 => pure none
  | fuel + 1 => do
    match ← sysReaddir d.dir with
    | none => pure none
    | some de =>
      if d.hides de.name then dirLoop d fuel
      else do
        let e ← entryOf d de
        pure (some e)

/-- `dir_next`: the stashed entry, else the next visible one. -/
def dirNext (d : DirSlot) : Sys (DirSlot × Option DirEntry) :=
  match d.pending with
  | some e => pure ({ d with pending := none }, some { e with name := strlcpy tnfsdNameCap e.name })
  | none => do
    let e ← dirLoop d fatDirEntries
    pure (d, e)

/-- The counting loop of OPENDIRX. -/
def countLoop (d : DirSlot) : ℕ → ℕ → Sys ℕ
  | 0, count => pure count
  | fuel + 1, count => do
    match ← sysReaddir d.dir with
    | none => pure count
    | some de => countLoop d fuel (if d.hides de.name then count else count + 1)

def hOpendir (s : Session) (pl : Bytes) : Sys (Session × Bytes) :=
  withPath s pl fun abs =>
    match firstSlot tnfsdMaxDirs fun i => (s.dirs i).isNone with
    | none => pure (s, [tnfsEmfile])
    | some slot => do
      match ← sysOpendir abs with
      | .error e => pure (s, [errnoToTnfs e])
      | .ok d =>
        pure ({ s with dirs := Function.update s.dirs slot (some ⟨d, strlcpy tnfsdAbsCap abs, [], 0, none⟩) },
          [tnfsOk, UInt8.ofNat slot])

def hOpendirx (s : Session) (pl : Bytes) : Sys (Session × Bytes) :=
  if pl.length < 5 then pure (s, [tnfsEinval])
  else match cstrArg (pl.drop 4) with
    | none => pure (s, [tnfsEinval])
    | some pat =>
      match cstrArg (pl.drop (4 + (pat.length + 1))) with
      | none => pure (s, [tnfsEinval])
      | some path =>
        match resolvePath s path with
        | .error st => pure (s, [st])
        | .ok abs =>
          match firstSlot tnfsdMaxDirs fun i => (s.dirs i).isNone with
          | none => pure (s, [tnfsEmfile])
          | some slot => do
            match ← sysOpendir abs with
            | .error e => pure (s, [errnoToTnfs e])
            | .ok d => do
              let pattern := if !pat.isEmpty && pat != ['*'] then strlcpy tnfsdPatCap pat else []
              let ds : DirSlot := ⟨d, strlcpy tnfsdAbsCap abs, pattern, 0, none⟩
              let count ← countLoop ds fatDirEntries 0
              let _ ← sysRewinddir d
              pure ({ s with dirs := Function.update s.dirs slot (some ds) },
                [tnfsOk, UInt8.ofNat slot] ++ le16 count)

/-- The slot of a TNFS directory handle. -/
def Session.dirSlot (s : Session) (h : UInt8) : Option DirSlot :=
  if h.toNat < tnfsdMaxDirs then s.dirs h.toNat else none

def Session.setDir (s : Session) (h : UInt8) (d : Option DirSlot) : Session :=
  { s with dirs := Function.update s.dirs h.toNat d }

def hReaddir (s : Session) (pl : Bytes) : Sys (Session × Bytes) :=
  if pl.length < 1 then pure (s, [tnfsEinval])
  else match s.dirSlot (pl.getD 0 0) with
    | none => pure (s, [tnfsEbadf])
    | some d => do
      let (d, e) ← dirNext d
      let s := s.setDir (pl.getD 0 0) (some d)
      match e with
      | none => pure (s, [tnfsEof])
      | some e =>
        let name := (CStr.bytes e.name).take (tnfsMsgCap - tnfsHdrLen - 2)
        pure (s, [tnfsOk] ++ name ++ [0])

/-- One READDIRX entry on the wire. -/
def DirEntry.bytes (e : DirEntry) : Bytes :=
  [e.flags] ++ le32 e.size ++ le32 e.mtime ++ le32 e.ctime ++ CStr.bytes e.name ++ [0]

/-- The loop of READDIRX: the slot, the entries so far, their number and the directory status. -/
def readdirxLoop : ℕ → DirSlot → Bytes → ℕ → Sys (DirSlot × Bytes × ℕ × UInt8)
  | 0, d, out, count => pure (d, out, count, 0)
  | wanted + 1, d, out, count => do
    let (d, e) ← dirNext d
    match e with
    | none => pure (d, out, count, tnfsDirstatusEof)
    | some e =>
      if 5 + out.length + (tnfsReaddirxFixed + e.name.length + 1) > tnfsMsgCap - tnfsHdrLen then
        pure ({ d with pending := some { e with name := strlcpy tnfsdNameCap e.name } }, out, count, 0)
      else readdirxLoop wanted d (out ++ e.bytes) (count + 1)

def hReaddirx (s : Session) (pl : Bytes) : Sys (Session × Bytes) :=
  if pl.length < 2 then pure (s, [tnfsEinval])
  else match s.dirSlot (pl.getD 0 0) with
    | none => pure (s, [tnfsEbadf])
    | some d => do
      let wanted := max 1 (pl.getD 1 0).toNat
      let (d, out, count, status) ← readdirxLoop wanted d [] 0
      if count = 0 then pure (s.setDir (pl.getD 0 0) (some d), [tnfsEof])
      else
        pure (s.setDir (pl.getD 0 0) (some { d with pos := (d.pos + count) % 65536 }),
          [tnfsOk, UInt8.ofNat count, status] ++ le16 d.pos ++ out)

def hClosedir (s : Session) (pl : Bytes) : Sys (Session × Bytes) :=
  if pl.length < 1 then pure (s, [tnfsEinval])
  else match s.dirSlot (pl.getD 0 0) with
    | none => pure (s, [tnfsEbadf])
    | some d => do
      let _ ← sysClosedir d.dir
      pure (s.setDir (pl.getD 0 0) none, [tnfsOk])

/-! ### Dispatch -/

/-- The switch of `process`: the session afterwards and the reply body. -/
def handle (s : Session) (cmd : UInt8) (pl : Bytes) : Sys (Session × Bytes) :=
  if cmd = tnfsUmount then pure (s, [tnfsOk])
  else if cmd = tnfsOpen then hOpen s pl
  else if cmd = tnfsRead then hRead s pl
  else if cmd = tnfsWrite then hWrite s pl
  else if cmd = tnfsClose then hClose s pl
  else if cmd = tnfsLseek then hLseek s pl
  else if cmd = tnfsStat then hStat s pl
  else if cmd = tnfsMkdir then hPathop mkdirOp s pl
  else if cmd = tnfsRmdir then hPathop sysRmdir s pl
  else if cmd = tnfsUnlink then hPathop unlinkOp s pl
  else if cmd = tnfsRename then hRename s pl
  else if cmd = tnfsOpendir then hOpendir s pl
  else if cmd = tnfsOpendirx then hOpendirx s pl
  else if cmd = tnfsReaddir then hReaddir s pl
  else if cmd = tnfsReaddirx then hReaddirx s pl
  else if cmd = tnfsClosedir then hClosedir s pl
  else if cmd = tnfsChmod then pure (s, [tnfsOk])   -- no-op on FAT
  else pure (s, [tnfsEnosys])

/-- `reply_and_cache`: the reply of this request, cached in the session. -/
def Session.cacheReply (s : Session) (seq cmd : UInt8) (body : Bytes) : Session :=
  { s with
    reply := tnfsHeader s.sid seq cmd ++ body.take (tnfsMsgCap - tnfsHdrLen)
    lastSeq := seq
    lastCmd := cmd
    haveReply := true }

/-- The descriptors `free_session` closes, in order. -/
def closeFiles (s : Session) : ℕ → Sys Unit
  | 0 => pure ()
  | n + 1 => do
    let _ ← closeFiles s n
    match s.files n with
    | some fd => sysClose fd
    | none => pure ()

def closeDirs (s : Session) : ℕ → Sys Unit
  | 0 => pure ()
  | n + 1 => do
    let _ ← closeDirs s n
    match s.dirs n with
    | some d => sysClosedir d.dir
    | none => pure ()

/-- `free_session`. -/
def freeSession (s : Session) : Sys Session := do
  let _ ← closeFiles s tnfsdMaxFiles
  let _ ← closeDirs s tnfsdMaxDirs
  pure .zero

/-- `process`: run the request, cache its reply, and drop the session after UMOUNT. -/
def process (now : ℕ) (s : Session) (seq cmd : UInt8) (pl : Bytes) : Sys (Session × List Sent) := do
  let (s, body) ← handle s cmd pl
  let s := s.cacheReply seq cmd body
  let out := [⟨s.peer, s.reply⟩]
  let s := { s with lastActiveUs := now }
  if cmd = tnfsUmount then do
    let s ← freeSession s
    pure (s, out)
  else pure (s, out)

namespace Server

def setSession (v : Server) (i : ℕ) (s : Session) : Server :=
  { v with sessions := Function.update v.sessions i s }

/-- `find_session`. -/
def findSession (v : Server) (sid : UInt16) (peer : Peer) : Option ℕ :=
  if sid = 0 then none
  else firstSlot tnfsdMaxSessions fun i =>
    (v.sessions i).inUse && (v.sessions i).sid == sid && (v.sessions i).peer == peer

/-- `reap_idle`, over the first `n` slots. -/
def reapIdle (now : ℕ) : ℕ → Server → Sys Server
  | 0, v => pure v
  | n + 1, v => do
    let v ← reapIdle now n v
    if (v.sessions n).inUse && tnfsdIdleUs < now - (v.sessions n).lastActiveUs then do
      let s ← freeSession (v.sessions n)
      pure (v.setSession n s)
    else pure v

/-- The loop of `next_sid`, which looks at no more candidates than there are sessions, and 0. -/
def nextSidLoop (v : Server) : ℕ → UInt16 → UInt16
  | 0, cand => cand
  | fuel + 1, cand =>
    if cand = 0 || (firstSlot tnfsdMaxSessions fun i =>
        (v.sessions i).inUse && (v.sessions i).sid == cand).isSome
    then nextSidLoop v fuel (cand + 1) else cand

/-- `next_sid`: the id, and the counter after it. -/
def allocSid (v : Server) : UInt16 × UInt16 :=
  let cand := v.nextSidLoop (tnfsdMaxSessions + 1) v.nextSid
  (cand, cand + 1)

/-- The mountpoint argument of MOUNT, as a root-relative name. -/
def mountRoot (pl : Bytes) : CStr :=
  let mp := if 2 < pl.length then (cstrArg (pl.drop 2)).getD [] else []
  trimSlashes (strlcpy tnfsdRootCap (mp.dropWhile (· == '/')))

/-- What the serve loop does with a datagram. -/
inductive Turn where
  | ignored
  | replay (i : ℕ)
  | refused
  | mount (i : ℕ)
  | run (i : ℕ)
  deriving DecidableEq

/-- The choice of `handle_mount`: a retransmitted MOUNT whose reply was lost, no slot left, or a slot. -/
def mountTurn (v : Server) (peer : Peer) (seq : UInt8) : Turn :=
  match firstSlot tnfsdMaxSessions fun i =>
      let e := v.sessions i
      e.inUse && e.peer == peer && e.haveReply && e.lastCmd == tnfsMount && e.lastSeq == seq with
  | some i => .replay i
  | none =>
    match firstSlot tnfsdMaxSessions fun i => !(v.sessions i).inUse with
    | none => .refused
    | some i => .mount i

/-- The choice of `serve`: what is no request of a live session is ignored, and a repeated (seq, cmd)
    is answered from the cache. -/
def turn (v : Server) (peer : Peer) (rx : Bytes) : Turn :=
  if rx.length < tnfsHdrLen then .ignored
  else if rx.getD 3 0 = tnfsMount then v.mountTurn peer (rx.getD 2 0)
  else match v.findSession (UInt16.ofNat (word rx 0)) peer with
    | none => .ignored
    | some i =>
      let s := v.sessions i
      if s.haveReply && s.lastSeq == rx.getD 2 0 && s.lastCmd == rx.getD 3 0 then .replay i else .run i

/-- Send the cached reply of slot `i` again. -/
def resend (now : ℕ) (v : Server) (i : ℕ) : Server × List Sent :=
  let s := v.sessions i
  (v.setSession i { s with lastActiveUs := now }, [⟨s.peer, s.reply⟩])

/-- `alloc_session` on a free slot. -/
def allocSession (v : Server) (i : ℕ) : Server := v.setSession i { Session.zero with inUse := true }

/-- The rest of `handle_mount`, in the free slot `i`. -/
def mountIn (now : ℕ) (peer : Peer) (seq : UInt8) (pl : Bytes) (v : Server) (i : ℕ) :
    Sys (Server × List Sent) := do
  let _ ← freeSession (v.sessions i)
  let v := v.allocSession i
  let s := v.sessions i
  let root := mountRoot pl
  let (sid, next) := v.allocSid
  if !root.isEmpty && (sdPath root tnfsdAbsCap).isNone then do
    -- the reply goes to the zeroed peer of the fresh slot
    let s := { s with sid := sid }.cacheReply seq tnfsMount [tnfsEnoent]
    let out := [⟨s.peer, s.reply⟩]
    let s ← freeSession s
    pure ({ v.setSession i s with nextSid := next }, out)
  else
    let s := { s with sid := sid, peer := peer, root := strlcpy tnfsdRootCap root, lastActiveUs := now }
    let s := s.cacheReply seq tnfsMount ([tnfsOk, tnfsVerLo, tnfsVerHi] ++ le16 tnfsdMinRetryMs)
    pure ({ v.setSession i s with nextSid := next }, [⟨peer, s.reply⟩])

/-- Carry out a choice. -/
def answer (now : ℕ) (peer : Peer) (rx : Bytes) (v : Server) : Turn → Sys (Server × List Sent)
  | .ignored => pure (v, [])
  | .replay i => pure (v.resend now i)
  | .refused =>
    pure (v, [⟨peer, tnfsHeader 0 (rx.getD 2 0) tnfsMount ++ [tnfsEagain] ++ le16 tnfsdMinRetryMs⟩])
  | .mount i => v.mountIn now peer (rx.getD 2 0) (rx.drop tnfsHdrLen) i
  | .run i => do
    let (s, out) ← process now (v.sessions i) (rx.getD 2 0) (rx.getD 3 0) (rx.drop tnfsHdrLen)
    pure (v.setSession i s, out)

/-- One turn of the serve loop: a datagram `rx` from `peer`, received at `now`. An empty one is the
    receive timeout. -/
def serve (now : ℕ) (peer : Peer) (rx : Bytes) (v : Server) : Sys (Server × List Sent) := do
  let v ← reapIdle now tnfsdMaxSessions v
  v.answer now peer rx (v.turn peer rx)

/-- `drop_all_sessions`, over the first `n` slots. -/
def dropSessions : ℕ → Server → Sys Server
  | 0, v => pure v
  | n + 1, v => do
    let v ← dropSessions n v
    if (v.sessions n).inUse then do
      let s ← freeSession (v.sessions n)
      pure (v.setSession n s)
    else pure v

end Server

end FdcSds.Tnfsd
