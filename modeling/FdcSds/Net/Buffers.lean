import Mathlib.Data.List.TakeWhile
import FdcSds.Net.Agreement
import FdcSds.Schemes.Accesses

/-! Requests and bodies in place (`src/net/tnfs_server.c`).

    The serve loop once more, access by access. A handler loads from the bytes that were received and
    stores its reply into `body[TNFS_MSG_CAP]`, whatever the stack left there; each access outside ends
    the program, and so does a body that `reply_and_cache` would have to clamp.

        rx[n] ──load──▶ handler ──store──▶ body[1032] ──blen──▶ s->reply[1032]
                           └─outside─▶ none                       -/

namespace FdcSds.Tnfsd.InPlace
open Schemes Schemes.Runs Prog
open Schemes.Access (lift check load loadWord loadDword loadBytes loadString loadFront memchr
  store storeBytes reserve
  withBuffer settle stringIn)

/-- A program that loads from the request and stores into a buffer of its own. -/
abbrev Filling : Type → Type := Schemes.Access SysCall SysCall.Answer

/-! ### Handlers, with the length of the body -/

/-- The body is a status and nothing else. -/
def bare (s : Session) (st : UInt8) : Filling (Session × ℕ) := do
  store 0 st
  pure (s, 1)

def hOpen (s : Session) (pl : Bytes) : Filling (Session × ℕ) :=
  if pl.length < 5 then bare s tnfsEinval
  else do
    match ← memchr pl 4 (pl.length - 4) with
    | none => bare s tnfsEinval
    | some _ => do
      let path ← loadString pl 4
      match resolvePath s (cstr path) with
      | .error st => bare s st
      | .ok abs =>
        match firstSlot tnfsdMaxFiles fun i => (s.files i).isNone with
        | none => bare s tnfsEmfile
        | some slot => do
          let tf ← loadWord pl 0
          match ← lift (openGuarded abs (openFlagsOf tf)) with
          | none => bare s tnfsEbusy
          | some (.error e) => bare s (errnoToTnfs e)
          | some (.ok fd) => do
            store 0 tnfsOk
            store 1 (UInt8.ofNat slot)
            pure ({ s with files := Function.update s.files slot (some fd) }, 2)

def hRead (s : Session) (pl : Bytes) : Filling (Session × ℕ) :=
  if pl.length < 3 then bare s tnfsEinval
  else do
    let h ← load pl 0
    let cnt ← loadWord pl 1
    match s.file h with
    | none => bare s tnfsEbadf
    | some fd => do
      let want := min cnt tnfsIoChunk
      -- `read` may store as many bytes as it is asked for
      reserve 3 want
      match ← lift (sysRead fd want) with
      | .error e => bare s (errnoToTnfs e)
      | .ok r => do
        storeBytes 3 r
        if r.length = 0 ∧ 0 < want then bare s tnfsEof
        else do
          store 0 tnfsOk
          storeBytes 1 (le16 r.length)
          pure (s, 3 + r.length)

def hWrite (s : Session) (pl : Bytes) : Filling (Session × ℕ) :=
  if pl.length < 3 then bare s tnfsEinval
  else do
    let h ← load pl 0
    let cnt ← loadWord pl 1
    if pl.length < 3 + cnt then bare s tnfsEinval
    else match s.file h with
      | none => bare s tnfsEbadf
      | some fd => do
        let data ← loadBytes pl 3 cnt
        match ← lift (sysWrite fd data) with
        | .error e => bare s (errnoToTnfs e)
        | .ok w => do
          store 0 tnfsOk
          storeBytes 1 (le16 w)
          pure (s, 3)

def hClose (s : Session) (pl : Bytes) : Filling (Session × ℕ) :=
  if pl.length < 1 then bare s tnfsEinval
  else do
    let h ← load pl 0
    match s.file h with
    | none => bare s tnfsEbadf
    | some fd => do
      lift (sysClose fd)
      store 0 tnfsOk
      pure ({ s with files := Function.update s.files h.toNat none }, 1)

def hLseek (s : Session) (pl : Bytes) : Filling (Session × ℕ) :=
  if pl.length < 6 then bare s tnfsEinval
  else do
    let h ← load pl 0
    let whence ← load pl 1
    let off ← loadDword pl 2
    match s.file h with
    | none => bare s tnfsEbadf
    | some fd =>
      match whenceOf whence with
      | none => bare s tnfsEinval
      | some w => do
        match ← lift (sysLseek fd (int32 off) w) with
        | .error e => bare s (errnoToTnfs e)
        | .ok r => do
          store 0 tnfsOk
          storeBytes 1 (le32 r)
          pure (s, 5)

/-- The handlers with one path argument. -/
def withPath (s : Session) (pl : Bytes) (k : CStr → Filling (Session × ℕ)) : Filling (Session × ℕ) :=
  if pl.length < 1 then bare s tnfsEinval
  else do
    match ← memchr pl 0 pl.length with
    | none => bare s tnfsEinval
    | some _ => do
      let path ← loadString pl 0
      match resolvePath s (cstr path) with
      | .error st => bare s st
      | .ok abs => k abs

def hStat (s : Session) (pl : Bytes) : Filling (Session × ℕ) :=
  withPath s pl fun abs => do
    match ← lift (sysStat abs) with
    | .error e => bare s (errnoToTnfs e)
    | .ok sb => do
      store 0 tnfsOk
      storeBytes 1 (le16 sb.mode)
      storeBytes 3 (le16 0)
      storeBytes 5 (le16 0)
      storeBytes 7 (le32 sb.size)
      storeBytes 11 (le32 sb.mtime)
      storeBytes 15 (le32 sb.mtime)
      storeBytes 19 (le32 sb.mtime)
      pure (s, 23)

def hPathop (op : CStr → Sys (Except Errno Unit)) (s : Session) (pl : Bytes) : Filling (Session × ℕ) :=
  withPath s pl fun abs => do
    let r ← lift (op abs)
    store 0 (statusOf r)
    pure (s, 1)

def hRename (s : Session) (pl : Bytes) : Filling (Session × ℕ) :=
  if pl.length < 2 then bare s tnfsEinval
  else do
    match ← memchr pl 0 pl.length with
    | none => bare s tnfsEinval
    | some oldlen => do
      let rest := pl.length - (oldlen + 1)
      if rest = 0 then bare s tnfsEinval
      else do
        match ← memchr pl (oldlen + 1) rest with
        | none => bare s tnfsEinval
        | some _ => do
          let old ← loadString pl 0
          match resolvePath s (cstr old) with
          | .error st => bare s st
          | .ok oabs => do
            let new ← loadString pl (oldlen + 1)
            match resolvePath s (cstr new) with
            | .error st => bare s st
            | .ok nabs => do
              let r ← lift (renameGuarded oabs nabs)
              store 0 (statusOf r)
              pure (s, 1)

def hOpendir (s : Session) (pl : Bytes) : Filling (Session × ℕ) :=
  withPath s pl fun abs =>
    match firstSlot tnfsdMaxDirs fun i => (s.dirs i).isNone with
    | none => bare s tnfsEmfile
    | some slot => do
      match ← lift (sysOpendir abs) with
      | .error e => bare s (errnoToTnfs e)
      | .ok d => do
        store 0 tnfsOk
        store 1 (UInt8.ofNat slot)
        pure ({ s with dirs := Function.update s.dirs slot (some ⟨d, strlcpy tnfsdAbsCap abs, [], 0, none⟩) }, 2)

def hOpendirx (s : Session) (pl : Bytes) : Filling (Session × ℕ) :=
  if pl.length < 5 then bare s tnfsEinval
  else do
    match ← memchr pl 4 (pl.length - 4) with
    | none => bare s tnfsEinval
    | some z => do
      let rest := pl.length - 4 - (z - 4 + 1)
      if rest = 0 then bare s tnfsEinval
      else do
        match ← memchr pl (z + 1) rest with
        | none => bare s tnfsEinval
        | some _ => do
          let path ← loadString pl (z + 1)
          match resolvePath s (cstr path) with
          | .error st => bare s st
          | .ok abs =>
            match firstSlot tnfsdMaxDirs fun i => (s.dirs i).isNone with
            | none => bare s tnfsEmfile
            | some slot => do
              match ← lift (sysOpendir abs) with
              | .error e => bare s (errnoToTnfs e)
              | .ok d => do
                let pat ← loadString pl 4
                let pattern := if !(cstr pat).isEmpty &&
                  cstr pat != ['*'] then strlcpy tnfsdPatCap (cstr pat) else []
                let ds : DirSlot := ⟨d, strlcpy tnfsdAbsCap abs, pattern, 0, none⟩
                let count ← lift (countLoop ds fatDirEntries 0)
                lift (sysRewinddir d)
                store 0 tnfsOk
                store 1 (UInt8.ofNat slot)
                storeBytes 2 (le16 count)
                pure ({ s with dirs := Function.update s.dirs slot (some ds) }, 4)

def hReaddir (s : Session) (pl : Bytes) : Filling (Session × ℕ) :=
  if pl.length < 1 then bare s tnfsEinval
  else do
    let h ← load pl 0
    match s.dirSlot h with
    | none => bare s tnfsEbadf
    | some d => do
      let (d, e) ← lift (dirNext d)
      let s := s.setDir h (some d)
      match e with
      | none => bare s tnfsEof
      | some e => do
        let nl := if 1 + e.name.length + 1 > tnfsMsgCap - tnfsHdrLen then tnfsMsgCap -
          tnfsHdrLen - 2 else e.name.length
        store 0 tnfsOk
        storeBytes 1 ((CStr.bytes e.name).take nl)
        store (1 + nl) 0
        pure (s, 2 + nl)

/-- The loop of READDIRX, with the next entry to stand at `idx`. -/
def readdirxLoop : ℕ → DirSlot → ℕ → ℕ → Filling (DirSlot × ℕ × ℕ × UInt8)
  | 0, d, idx, count => pure (d, idx, count, 0)
  | wanted + 1, d, idx, count => do
    let (d, e) ← lift (dirNext d)
    match e with
    | none => pure (d, idx, count, tnfsDirstatusEof)
    | some e =>
      let entry := tnfsReaddirxFixed + e.name.length + 1
      if idx + entry > tnfsMsgCap - tnfsHdrLen then
        pure ({ d with pending := some { e with name := strlcpy tnfsdNameCap e.name } }, idx, count, 0)
      else do
        store idx e.flags
        storeBytes (idx + 1) (le32 e.size)
        storeBytes (idx + 5) (le32 e.mtime)
        storeBytes (idx + 9) (le32 e.ctime)
        storeBytes (idx + tnfsReaddirxFixed) (CStr.bytes e.name)
        store (idx + tnfsReaddirxFixed + e.name.length) 0
        readdirxLoop wanted d (idx + entry) (count + 1)

def hReaddirx (s : Session) (pl : Bytes) : Filling (Session × ℕ) :=
  if pl.length < 2 then bare s tnfsEinval
  else do
    let h ← load pl 0
    let numwanted ← load pl 1
    match s.dirSlot h with
    | none => bare s tnfsEbadf
    | some d => do
      let wanted := max 1 numwanted.toNat
      let (d, idx, count, status) ← readdirxLoop wanted d 5 0
      if count = 0 then bare (s.setDir h (some d)) tnfsEof
      else do
        store 0 tnfsOk
        store 1 (UInt8.ofNat count)
        store 2 status
        storeBytes 3 (le16 d.pos)
        pure (s.setDir h (some { d with pos := (d.pos + count) % 65536 }), idx)

def hClosedir (s : Session) (pl : Bytes) : Filling (Session × ℕ) :=
  if pl.length < 1 then bare s tnfsEinval
  else do
    let h ← load pl 0
    match s.dirSlot h with
    | none => bare s tnfsEbadf
    | some d => do
      lift (sysClosedir d.dir)
      store 0 tnfsOk
      pure (s.setDir h none, 1)

/-! ### Dispatch -/

def handle (s : Session) (cmd : UInt8) (pl : Bytes) : Filling (Session × ℕ) :=
  if cmd = tnfsUmount then bare s tnfsOk
  else if cmd = tnfsOpen then hOpen s pl
  else if cmd = tnfsRead then hRead s pl
  else if cmd = tnfsWrite then hWrite s pl
  else if cmd = tnfsClose then hClose s pl
  else if cmd = tnfsLseek then hLseek s pl
  else if cmd = tnfsStat then hStat s pl
  else if cmd = tnfsMkdir then hPathop mkdirOp s pl
  else if cmd = tnfsRmdir then hPathop sysRmdir s pl
  else if cmd = tnfsUnlink then hPathop unlinkOp s pl
  else if cmd = tnfsRename then hRename s pl
  else if cmd = tnfsOpendir then hOpendir s pl
  else if cmd = tnfsOpendirx then hOpendirx s pl
  else if cmd = tnfsReaddir then hReaddir s pl
  else if cmd = tnfsReaddirx then hReaddirx s pl
  else if cmd = tnfsClosedir then hClosedir s pl
  else if cmd = tnfsChmod then bare s tnfsOk
  else bare s tnfsEnosys

/-- `reply_and_cache`, of the first `blen` bytes. It has nothing to clamp. -/
def replyAndCache (s : Session) (seq cmd : UInt8) (blen : ℕ) : Filling Session := do
  check (tnfsHdrLen + blen ≤ tnfsMsgCap)
  let body ← loadFront blen
  pure (s.cacheReply seq cmd body)

/-- `process`. The arrays of a function hold what `stack` had before. -/
def process (stack : Bytes) (now : ℕ) (s : Session) (seq cmd : UInt8) (pl : Bytes) :
    Filling (Session × List Sent) := do
  let s ← withBuffer stack do
    let (s, blen) ← handle s cmd pl
    replyAndCache s seq cmd blen
  let out := [⟨s.peer, s.reply⟩]
  let s := { s with lastActiveUs := now }
  if cmd = tnfsUmount then do
    let s ← lift (freeSession s)
    pure (s, out)
  else pure (s, out)

/-- The mountpoint argument of MOUNT. -/
def mountRoot (pl : Bytes) : Filling CStr := do
  let mp ← if 2 < pl.length then do
      match ← memchr pl 2 (pl.length - 2) with
      | none => pure []
      | some _ => do
        let mp ← loadString pl 2
        pure (cstr mp)
    else pure []
  pure (trimSlashes (strlcpy tnfsdRootCap (mp.dropWhile (· == '/'))))

/-- The refusal of a MOUNT, in an array of seven bytes. -/
def refusal (seq : UInt8) : Filling Bytes := do
  storeBytes 0 (le16 0)
  store 2 seq
  store 3 tnfsMount
  store 4 tnfsEagain
  storeBytes 5 (le16 tnfsdMinRetryMs)
  loadFront 7

/-- The rest of `handle_mount`, in the free slot `i`, with a body of one byte or of five. -/
def mountIn (stack : Bytes) (now : ℕ) (peer : Peer) (seq : UInt8) (pl : Bytes) (v : Server) (i : ℕ) :
    Filling (Server × List Sent) := do
  let _ ← lift (freeSession (v.sessions i))
  let v := v.allocSession i
  let s := v.sessions i
  let root ← mountRoot pl
  let (sid, next) := v.allocSid
  if !root.isEmpty && (sdPath root tnfsdAbsCap).isNone then do
    let s ← withBuffer (stack.take 1) do
      store 0 tnfsEnoent
      replyAndCache { s with sid := sid } seq tnfsMount 1
    let out := [⟨s.peer, s.reply⟩]
    let s ← lift (freeSession s)
    pure ({ v.setSession i s with nextSid := next }, out)
  else do
    let s := { s with sid := sid, peer := peer, root := strlcpy tnfsdRootCap root, lastActiveUs := now }
    let s ← withBuffer (stack.take 5) do
      store 0 tnfsOk
      store 1 tnfsVerLo
      store 2 tnfsVerHi
      storeBytes 3 (le16 tnfsdMinRetryMs)
      replyAndCache s seq tnfsMount 5
    pure ({ v.setSession i s with nextSid := next }, [⟨peer, s.reply⟩])

/-- The header and the choice of `serve`. -/
def turn (v : Server) (peer : Peer) (rx : Bytes) : Filling (UInt8 × UInt8 × Server.Turn) :=
  if rx.length < tnfsHdrLen then pure (0, 0, .ignored)
  else do
    let sid ← loadWord rx 0
    let seq ← load rx 2
    let cmd ← load rx 3
    if cmd = tnfsMount then pure (seq, cmd, v.mountTurn peer seq)
    else match v.findSession (UInt16.ofNat sid) peer with
      | none => pure (seq, cmd, .ignored)
      | some i =>
        let s := v.sessions i
        if s.haveReply && s.lastSeq == seq &&
          s.lastCmd == cmd then pure (seq, cmd, .replay i) else pure (seq, cmd, .run i)

/-- Carry out a choice. -/
def answer (stack : Bytes) (now : ℕ) (peer : Peer) (rx : Bytes) (v : Server) : UInt8 × UInt8 × Server.Turn →
    Filling (Server × List Sent)
  | (_, _, .ignored) => pure (v, [])
  | (_, _, .replay i) => pure (v.resend now i)
  | (seq, _, .refused) => do
    let r ← withBuffer (stack.take 7) (refusal seq)
    pure (v, [⟨peer, r⟩])
  | (seq, _, .mount i) => mountIn stack now peer seq (rx.drop tnfsHdrLen) v i
  | (seq, cmd, .run i) => do
    let (s, out) ← process stack now (v.sessions i) seq cmd (rx.drop tnfsHdrLen)
    pure (v.setSession i s, out)

/-- One turn of the serve loop. -/
def serve (stack : Bytes) (now : ℕ) (peer : Peer) (rx : Bytes) (v : Server) :
    Filling (Server × List Sent) := do
  let v ← lift (Server.reapIdle now tnfsdMaxSessions v)
  let t ← turn v peer rx
  answer stack now peer rx v t

/-! ### A handler in place is the handler -/

/-- In any body of the right size, `m` does what `p` does, and leaves its bytes in front. -/
def Fills (m : Filling (Session × ℕ)) (p : Sys (Session × Bytes)) : Prop :=
  ∀ out : Bytes, out.length = tnfsMsgCap → m out = p >>= settle out

variable {s : Session} {st cmd : UInt8} {pl : Bytes} {α : Type}

theorem fills_ite {p : Prop} [Decidable p] {m m' : Filling (Session × ℕ)} {q q' : Sys (Session × Bytes)}
    (h : p → Fills m q) (h' : ¬p → Fills m' q') : Fills (if p then m else m') (if p then q else q') := by
  by_cases hp : p
  · rw [if_pos hp, if_pos hp]
    exact h hp
  · rw [if_neg hp, if_neg hp]
    exact h' hp

theorem fills_lift {q : Sys α} {f : α → Filling (Session × ℕ)} {g : α → Sys (Session × Bytes)}
    (h : ∀ a, Fills (f a) (g a)) :
    Fills (lift q >>= f) (q >>= g) := by
  intro out hlen
  rw [Schemes.Access.lift_bind_apply, Schemes.Prog.bind_assoc]
  exact congrArg (q >>= ·) (funext fun a => h a out hlen)

/-- Bytes stored to the front, and their number. -/
theorem fills_stored (s : Session) (bytes : Bytes) {n : ℕ} (hn : n = bytes.length) :
    Fills (storeBytes 0 bytes >>= fun _ => pure (s, n)) (pure (s, bytes)) := by
  subst hn
  exact fun out _ => Schemes.Access.storeBytes_settle s bytes out

theorem fills_behind {i j : ℕ} {first second : Bytes} {f : Unit → Filling (Session × ℕ)}
    {p : Sys (Session × Bytes)} (hj : j = i + first.length)
    (h : Fills (storeBytes i (first ++ second) >>= f) p) :
    Fills (storeBytes i first >>= fun _ => storeBytes j second >>= f) p := by
  rw [Schemes.Access.storeBytes_behind hj]
  exact h

theorem fills_bare (s : Session) (st : UInt8) : Fills (bare s st) (pure (s, [st])) := fills_stored s [st] rfl

theorem cstr_stringIn (c : Bytes) : cstr (stringIn c) = cstr c := by
  rw [cstr, stringIn, List.takeWhile_idem, cstr]

theorem length_cstr (c : Bytes) : (cstr c).length = (stringIn c).length := List.length_map ..

theorem cstrArg_found {c : Bytes} (h : 0 ∈ c) : cstrArg c = some (cstr c) :=
  if_pos (List.contains_iff_mem.mpr h)

theorem cstrArg_missed {c : Bytes} (h : 0 ∉ c) : cstrArg c = none :=
  if_neg fun hc => h (List.contains_iff_mem.mp hc)

theorem hClose_fills : Fills (hClose s pl) (Tnfsd.hClose s pl) := by
  refine fills_ite (fun _ => fills_bare s tnfsEinval) fun hlen => ?_
  rw [Schemes.Access.load_bind (by omega)]
  cases s.file (pl.getD 0 0) with
  | none => exact fills_bare s tnfsEbadf
  | some fd => exact fills_lift fun _ => fills_stored _ [tnfsOk] rfl

/-- A status and some more bytes, stored one behind the other. -/
theorem fills_two (s : Session) (st : UInt8) (bytes : Bytes) {n : ℕ} (hn : n = 1 + bytes.length) :
    Fills (do store 0 st; storeBytes 1 bytes; pure (s, n)) (pure (s, [st] ++ bytes)) := by
  refine fills_behind rfl (fills_stored s _ ?_)
  rw [hn, List.length_append, List.length_singleton]

theorem hOpen_fills : Fills (hOpen s pl) (Tnfsd.hOpen s pl) := by
  refine fills_ite (fun _ => fills_bare s tnfsEinval) fun hlen => ?_
  by_cases hnul : 0 ∈ pl.drop 4
  · rw [Schemes.Access.memchr_found (by omega) hnul, Schemes.Access.loadString_bind hnul,
      cstrArg_found hnul, cstr_stringIn]
    dsimp only
    cases resolvePath s (cstr (pl.drop 4)) with
    | error st => exact fills_bare s st
    | ok abs =>
      cases firstSlot tnfsdMaxFiles fun i => (s.files i).isNone with
      | none => exact fills_bare s tnfsEmfile
      | some slot =>
        dsimp only
        rw [Schemes.Access.loadWord_bind (by omega)]
        refine fills_lift fun r => ?_
        match r with
        | none => exact fills_bare s tnfsEbusy
        | some (.error e) => exact fills_bare s (errnoToTnfs e)
        | some (.ok fd) => exact fills_two _ tnfsOk [UInt8.ofNat slot] rfl
  · rw [Schemes.Access.memchr_missed (by omega) hnul, cstrArg_missed hnul]
    exact fills_bare s tnfsEinval

theorem hWrite_fills : Fills (hWrite s pl) (Tnfsd.hWrite s pl) := by
  refine fills_ite (fun _ => fills_bare s tnfsEinval) fun hlen => ?_
  rw [Schemes.Access.load_bind (by omega), Schemes.Access.loadWord_bind (by omega)]
  refine fills_ite (fun _ => fills_bare s tnfsEinval) fun hdata => ?_
  cases s.file (pl.getD 0 0) with
  | none => exact fills_bare s tnfsEbadf
  | some fd =>
    dsimp only
    rw [Schemes.Access.loadBytes_bind (by omega)]
    refine fills_lift fun r => ?_
    cases r with
    | error e => exact fills_bare s (errnoToTnfs e)
    | ok w => exact fills_two s tnfsOk (le16 w) rfl

theorem hLseek_fills : Fills (hLseek s pl) (Tnfsd.hLseek s pl) := by
  refine fills_ite (fun _ => fills_bare s tnfsEinval) fun hlen => ?_
  rw [Schemes.Access.load_bind (by omega), Schemes.Access.load_bind (by omega),
    Schemes.Access.loadDword_bind (by omega)]
  cases s.file (pl.getD 0 0) with
  | none => exact fills_bare s tnfsEbadf
  | some fd =>
    cases whenceOf (pl.getD 1 0) with
    | none => exact fills_bare s tnfsEinval
    | some w =>
      refine fills_lift fun r => ?_
      cases r with
      | error e => exact fills_bare s (errnoToTnfs e)
      | ok pos => exact fills_two s tnfsOk (le32 pos) rfl

/-- `read` puts its data behind the place for the status and the count. -/
theorem hRead_fills : Fills (hRead s pl) (Tnfsd.hRead s pl) := by
  refine fills_ite (fun _ => fills_bare s tnfsEinval) fun hlen => ?_
  rw [Schemes.Access.load_bind (by omega), Schemes.Access.loadWord_bind (by omega)]
  cases s.file (pl.getD 0 0) with
  | none => exact fills_bare s tnfsEbadf
  | some fd =>
    intro out hout
    have hroom : 3 + min (word pl 1) tnfsIoChunk ≤ out.length := by
      rw [hout]
      have hchunk : min (word pl 1) tnfsIoChunk ≤ 1024 := Nat.min_le_right ..
      exact Nat.le_trans (Nat.add_le_add_left hchunk 3) (by decide)
    dsimp only
    rw [Schemes.Access.reserve_bind_apply hroom]
    refine fills_lift (fun r => ?_) out hout
    cases r with
    | error e => exact fills_bare s (errnoToTnfs e)
    | ok r =>
      dsimp only
      by_cases hend : r.length = 0 ∧ 0 < min (word pl 1) tnfsIoChunk
      · -- no byte was stored
        rw [if_pos hend, if_pos hend, List.length_eq_zero_iff.mp hend.1]
        intro out hout
        rw [Schemes.Access.storeBytes_bind_apply (by rw [hout]; decide), patch, List.append_nil,
          List.length_nil, Nat.add_zero,
          List.take_append_drop]
        exact fills_bare s tnfsEof out hout
      · rw [if_neg hend, if_neg hend]
        have hcount : 1 = 0 + [tnfsOk].length := rfl
        have hdata : 3 = 0 + ([tnfsOk] ++ le16 r.length).length := rfl
        rw [store, Schemes.Access.storeBytes_behind hcount, Schemes.Access.storeBytes_before hdata]
        refine fills_stored s _ ?_
        rw [List.length_append]
        rfl

theorem withPath_fills {k : CStr → Filling (Session × ℕ)} {k' : CStr → Sys (Session × Bytes)}
    (h : ∀ abs, Fills (k abs) (k' abs)) :
    Fills (withPath s pl k) (Tnfsd.withPath s pl k') := by
  refine fills_ite (fun _ => fills_bare s tnfsEinval) fun hlen => ?_
  have hwhole : pl.drop 0 = pl := List.drop_zero
  by_cases hnul : 0 ∈ pl.drop 0
  · rw [Schemes.Access.memchr_found (Nat.zero_add _) hnul, Schemes.Access.loadString_bind hnul,
      hwhole, cstr_stringIn,
      cstrArg_found (hwhole ▸ hnul)]
    dsimp only
    cases resolvePath s (cstr pl) with
    | error st => exact fills_bare s st
    | ok abs => exact h abs
  · rw [Schemes.Access.memchr_missed (Nat.zero_add _) hnul, cstrArg_missed (hwhole ▸ hnul)]
    exact fills_bare s tnfsEinval

theorem hStat_fills : Fills (hStat s pl) (Tnfsd.hStat s pl) := by
  refine withPath_fills fun abs => fills_lift fun r => ?_
  cases r with
  | error e => exact fills_bare s (errnoToTnfs e)
  | ok sb =>
    refine fills_behind rfl (fills_behind rfl (fills_behind rfl (fills_behind rfl ?_)))
    exact fills_behind rfl (fills_behind rfl (fills_behind rfl (fills_stored s _ rfl)))

theorem hPathop_fills (op : CStr → Sys (Except Errno Unit)) :
    Fills (hPathop op s pl) (Tnfsd.hPathop op s pl) :=
  withPath_fills fun _ => fills_lift fun r => fills_stored s [statusOf r] rfl

theorem hOpendir_fills : Fills (hOpendir s pl) (Tnfsd.hOpendir s pl) := by
  refine withPath_fills fun abs => ?_
  cases firstSlot tnfsdMaxDirs fun i => (s.dirs i).isNone with
  | none => exact fills_bare s tnfsEmfile
  | some slot =>
    refine fills_lift fun r => ?_
    cases r with
    | error e => exact fills_bare s (errnoToTnfs e)
    | ok d => exact fills_two _ tnfsOk [UInt8.ofNat slot] rfl

theorem hClosedir_fills : Fills (hClosedir s pl) (Tnfsd.hClosedir s pl) := by
  refine fills_ite (fun _ => fills_bare s tnfsEinval) fun hlen => ?_
  rw [Schemes.Access.load_bind (by omega)]
  cases s.dirSlot (pl.getD 0 0) with
  | none => exact fills_bare s tnfsEbadf
  | some d => exact fills_lift fun _ => fills_stored _ [tnfsOk] rfl

/-! ### The second string -/

/-- What follows the string at `off` and its NUL. -/
theorem second_string {off : ℕ} (hnul : 0 ∈ pl.drop off) :
    off + (stringIn (pl.drop off)).length < pl.length := by
  have hne : (pl.drop off).takeWhile (· ≠ 0) ≠ pl.drop off := by
    intro heq
    have hall := List.takeWhile_eq_self_iff.mp heq 0 hnul
    exact absurd rfl (of_decide_eq_true hall)
  have hle := (List.takeWhile_prefix (fun b : UInt8 => decide (b ≠ 0)) (l := pl.drop off)).length_le
  have hlt : (stringIn (pl.drop off)).length < (pl.drop off).length := by
    refine Nat.lt_of_le_of_ne hle fun heq => hne ?_
    exact (List.takeWhile_prefix _).eq_of_length heq
  rw [List.length_drop] at hlt
  omega

theorem hRename_fills : Fills (hRename s pl) (Tnfsd.hRename s pl) := by
  refine fills_ite (fun _ => fills_bare s tnfsEinval) fun hlen => ?_
  have hwhole : pl.drop 0 = pl := List.drop_zero
  by_cases hnul : 0 ∈ pl.drop 0
  · have hin := second_string hnul
    rw [Schemes.Access.memchr_found (Nat.zero_add _) hnul, cstrArg_found (hwhole ▸ hnul)]
    rw [hwhole, Nat.zero_add] at hin ⊢
    dsimp only
    rw [length_cstr]
    generalize (stringIn pl).length = n at hin ⊢
    by_cases hrest : pl.length - (n + 1) = 0
    · rw [if_pos hrest, List.drop_of_length_le (by omega)]
      exact fills_bare s tnfsEinval
    · rw [if_neg hrest]
      by_cases hnew : 0 ∈ pl.drop (n + 1)
      · rw [Schemes.Access.memchr_found (by omega) hnew, Schemes.Access.loadString_bind hnul,
          cstrArg_found hnew, hwhole, cstr_stringIn]
        dsimp only
        cases resolvePath s (cstr pl) with
        | error st => exact fills_bare s st
        | ok oabs =>
          dsimp only
          rw [Schemes.Access.loadString_bind hnew, cstr_stringIn]
          cases resolvePath s (cstr (pl.drop (n + 1))) with
          | error st => exact fills_bare s st
          | ok nabs => exact fills_lift fun r => fills_stored s [statusOf r] rfl
      · rw [Schemes.Access.memchr_missed (by omega) hnew, cstrArg_missed hnew]
        exact fills_bare s tnfsEinval
  · rw [Schemes.Access.memchr_missed (Nat.zero_add _) hnul, cstrArg_missed (hwhole ▸ hnul)]
    exact fills_bare s tnfsEinval

theorem hOpendirx_fills : Fills (hOpendirx s pl) (Tnfsd.hOpendirx s pl) := by
  refine fills_ite (fun _ => fills_bare s tnfsEinval) fun hlen => ?_
  by_cases hnul : 0 ∈ pl.drop 4
  · have hin := second_string hnul
    rw [Schemes.Access.memchr_found (by omega) hnul, cstrArg_found hnul]
    dsimp only
    rw [length_cstr]
    generalize (stringIn (pl.drop 4)).length = n at hin ⊢
    rw [show pl.length - 4 - (4 + n - 4 + 1) = pl.length - (4 + n + 1) by omega, ← Nat.add_assoc]
    by_cases hrest : pl.length - (4 + n + 1) = 0
    · rw [if_pos hrest, List.drop_of_length_le (by omega)]
      exact fills_bare s tnfsEinval
    · rw [if_neg hrest]
      by_cases hpath : 0 ∈ pl.drop (4 + n + 1)
      · rw [Schemes.Access.memchr_found (by omega) hpath, Schemes.Access.loadString_bind hpath,
          cstrArg_found hpath, cstr_stringIn]
        dsimp only
        cases resolvePath s (cstr (pl.drop (4 + n + 1))) with
        | error st => exact fills_bare s st
        | ok abs =>
          cases firstSlot tnfsdMaxDirs fun i => (s.dirs i).isNone with
          | none => exact fills_bare s tnfsEmfile
          | some slot =>
            refine fills_lift fun r => ?_
            cases r with
            | error e => exact fills_bare s (errnoToTnfs e)
            | ok d =>
              dsimp only
              rw [Schemes.Access.loadString_bind hnul, cstr_stringIn]
              refine fills_lift fun count => fills_lift fun _ => ?_
              exact fills_behind rfl (fills_behind rfl (fills_stored _ _ rfl))
      · rw [Schemes.Access.memchr_missed (by omega) hpath, cstrArg_missed hpath]
        exact fills_bare s tnfsEinval
  · rw [Schemes.Access.memchr_missed (by omega) hnul, cstrArg_missed hnul]
    exact fills_bare s tnfsEinval

/-! ### Directory entries -/

theorem length_bytes (name : CStr) : (CStr.bytes name).length = name.length := List.length_map ..

theorem hReaddir_fills : Fills (hReaddir s pl) (Tnfsd.hReaddir s pl) := by
  refine fills_ite (fun _ => fills_bare s tnfsEinval) fun hlen => ?_
  rw [Schemes.Access.load_bind (by omega)]
  cases s.dirSlot (pl.getD 0 0) with
  | none => exact fills_bare s tnfsEbadf
  | some d =>
    refine fills_lift fun ⟨d, e⟩ => ?_
    cases e with
    | none => exact fills_bare _ tnfsEof
    | some e =>
      dsimp only
      have hcap : tnfsMsgCap - tnfsHdrLen = 1028 := rfl
      rw [hcap]
      generalize hnl : (if 1 + e.name.length + 1 > 1028 then 1028 - 2 else e.name.length) = nl
      have hle : nl ≤ e.name.length := by
        split at hnl <;> omega
      have hname : (CStr.bytes e.name).take (1028 - 2) = (CStr.bytes e.name).take nl := by
        split at hnl
        · rw [hnl]
        · rw [List.take_of_length_le (by rw [length_bytes]; omega),
            List.take_of_length_le (by rw [length_bytes]; omega)]
      have hstored : ((CStr.bytes e.name).take nl).length = nl := by
        rw [List.length_take, length_bytes, Nat.min_eq_left hle]
      rw [hname]
      refine fills_behind rfl (fills_behind ?_ (fills_stored _ _ ?_))
      · rw [List.length_append, hstored]
        exact (Nat.zero_add _).symm
      · rw [List.length_append, List.length_append, hstored]
        exact Nat.add_right_comm 1 1 nl

/-- The pieces of an entry, stored one behind the other. -/
theorem store_entry (e : DirEntry) (idx : ℕ) {α : Type} (f : Unit → Filling α) :
    (do
      store idx e.flags
      storeBytes (idx + 1) (le32 e.size)
      storeBytes (idx + 5) (le32 e.mtime)
      storeBytes (idx + 9) (le32 e.ctime)
      storeBytes (idx + tnfsReaddirxFixed) (CStr.bytes e.name)
      store (idx + tnfsReaddirxFixed + e.name.length) 0
      f ()) = (storeBytes idx e.bytes >>= f) := by
  have hlast : idx + tnfsReaddirxFixed + e.name.length =
      idx + ([e.flags] ++ le32 e.size ++ le32 e.mtime ++ le32 e.ctime ++ CStr.bytes e.name).length := by
    rw [List.length_append, length_bytes, Nat.add_assoc]
    rfl
  have h₁ : idx + 1 = idx + [e.flags].length := rfl
  have h₂ : idx + 5 = idx + ([e.flags] ++ le32 e.size).length := rfl
  have h₃ : idx + 9 = idx + ([e.flags] ++ le32 e.size ++ le32 e.mtime).length := rfl
  have h₄ : idx + tnfsReaddirxFixed = idx +
    ([e.flags] ++ le32 e.size ++ le32 e.mtime ++ le32 e.ctime).length := rfl
  rw [store, Schemes.Access.storeBytes_behind h₁, Schemes.Access.storeBytes_behind h₂,
    Schemes.Access.storeBytes_behind h₃,
    Schemes.Access.storeBytes_behind h₄, store, Schemes.Access.storeBytes_behind hlast]
  rfl

theorem length_entry (e : DirEntry) : e.bytes.length = tnfsReaddirxFixed + e.name.length + 1 := by
  rw [DirEntry.bytes, List.length_append, List.length_append, length_bytes]
  rfl

/-- The entries so far fit, and there are none when none was counted. -/
theorem readdirxLoop_room (wanted : ℕ) {d : DirSlot} {ents : Bytes} {count : ℕ}
    (hroom : 5 + ents.length ≤ tnfsMsgCap - tnfsHdrLen) (hnone : count = 0 → ents = []) :
    (Tnfsd.readdirxLoop wanted d ents count).Ensures fun r =>
      5 + r.2.1.length ≤ tnfsMsgCap - tnfsHdrLen ∧ (r.2.2.1 = 0 → r.2.1 = []) := by
  induction wanted generalizing d ents count with
  | zero => exact ⟨hroom, hnone⟩
  | succ wanted ih =>
    refine Ensures.bind_of_forall fun ⟨d', e⟩ => ?_
    cases e with
    | none => exact ⟨hroom, hnone⟩
    | some e =>
      dsimp only
      split
      · exact ⟨hroom, hnone⟩
      · next hfits =>
        refine ih ?_ fun h => absurd h (Nat.succ_ne_zero count)
        rw [List.length_append, length_entry]
        omega

/-- The loop in place, with the entries so far stored behind the head. -/
theorem readdirxLoop_stored (wanted : ℕ) (d : DirSlot) (ents : Bytes) (count : ℕ) {out : Bytes}
    (hout : out.length = tnfsMsgCap) (hroom : 5 + ents.length ≤ tnfsMsgCap - tnfsHdrLen) :
    readdirxLoop wanted d (5 + ents.length) count (patch out 5 ents) =
      Tnfsd.readdirxLoop wanted d ents count >>= fun r =>
      pure (some ((r.1, 5 + r.2.1.length, r.2.2), patch out 5 r.2.1)) := by
  induction wanted generalizing d ents count with
  | zero => rfl
  | succ wanted ih =>
    have hcap : tnfsMsgCap - tnfsHdrLen ≤ out.length := by
      rw [hout]
      decide
    rw [readdirxLoop, Tnfsd.readdirxLoop, Schemes.Access.lift_bind_apply, Schemes.Prog.bind_assoc]
    refine congrArg (dirNext d >>= ·) (funext fun ⟨d', e⟩ => ?_)
    cases e with
    | none => rfl
    | some e =>
      dsimp only
      by_cases hfull : 5 + ents.length + (tnfsReaddirxFixed + e.name.length + 1) > tnfsMsgCap - tnfsHdrLen
      · rw [if_pos hfull, if_pos hfull]
        rfl
      · have hin : 5 + ents.length ≤ out.length := Nat.le_trans hroom hcap
        have hlen : (ents ++ e.bytes).length = ents.length + (tnfsReaddirxFixed + e.name.length + 1) := by
          rw [List.length_append, length_entry]
        rw [if_neg hfull, if_neg hfull,
          store_entry e _ fun _ => readdirxLoop wanted d'
            (5 + ents.length + (tnfsReaddirxFixed + e.name.length + 1)) (count + 1),
          Schemes.Access.storeBytes_bind_apply, Schemes.Access.patch_behind hin, Nat.add_assoc, ← hlen]
        · exact ih _ _ _ (by omega)
        · rw [length_patch hin, length_entry]
          omega

theorem hReaddirx_fills : Fills (hReaddirx s pl) (Tnfsd.hReaddirx s pl) := by
  refine fills_ite (fun _ => fills_bare s tnfsEinval) fun hlen => ?_
  rw [Schemes.Access.load_bind (by omega), Schemes.Access.load_bind (by omega)]
  cases s.dirSlot (pl.getD 0 0) with
  | none => exact fills_bare s tnfsEbadf
  | some d =>
    intro out hout
    have hnil : patch out 5 [] = out := by
      rw [patch, List.append_nil, List.length_nil, Nat.add_zero, List.take_append_drop]
    have hloop := readdirxLoop_stored (max 1 (pl.getD 1 0).toNat) d [] 0 hout (by decide)
    rw [hnil, List.length_nil, Nat.add_zero] at hloop
    dsimp only
    rw [Schemes.Access.bind_apply_of_eq hloop, Schemes.Prog.bind_assoc]
    refine (readdirxLoop_room _ (by decide) fun _ => rfl).bind_congr fun listed hlisted => ?_
    obtain ⟨d', ents, count, status⟩ := listed
    obtain ⟨hroom, hnone⟩ := hlisted
    dsimp only at hroom hnone ⊢
    by_cases hzero : count = 0
    · rw [if_pos hzero, if_pos hzero, hnone hzero, hnil]
      exact fills_bare _ tnfsEof out hout
    · rw [if_neg hzero, if_neg hzero]
      have hin : 5 + ents.length ≤ out.length := by
        rw [hout]
        exact Nat.le_trans hroom (by decide)
      have h₁ : 1 = 0 + [tnfsOk].length := rfl
      have h₂ : 2 = 0 + ([tnfsOk] ++ [UInt8.ofNat count]).length := rfl
      have h₃ : 3 = 0 + ([tnfsOk] ++ [UInt8.ofNat count] ++ [status]).length := rfl
      have h₅ : 5 = 0 + ([tnfsOk] ++ [UInt8.ofNat count] ++ [status] ++ le16 d'.pos).length := rfl
      -- the head is stored last, in front of the entries
      rw [store, store, store, Schemes.Access.storeBytes_behind h₁, Schemes.Access.storeBytes_behind h₂,
        Schemes.Access.storeBytes_behind h₃, ← Schemes.Access.storeBytes_bind_apply hin fun _ =>
          storeBytes 0 _ >>= fun _ => pure _,
        Schemes.Access.storeBytes_before h₅]
      refine fills_stored _ _ ?_ out hout
      rw [List.length_append]
      rfl

theorem handle_fills (s : Session) (cmd : UInt8) (pl : Bytes) :
    Fills (handle s cmd pl) (Tnfsd.handle s cmd pl) := by
  refine fills_ite (fun _ => fills_bare s tnfsOk) fun _ => fills_ite (fun _ => hOpen_fills) fun _ => ?_
  refine fills_ite (fun _ => hRead_fills) fun _ => fills_ite (fun _ => hWrite_fills) fun _ => ?_
  refine fills_ite (fun _ => hClose_fills) fun _ => fills_ite (fun _ => hLseek_fills) fun _ => ?_
  refine fills_ite (fun _ => hStat_fills) fun _ => fills_ite (fun _ => hPathop_fills mkdirOp) fun _ => ?_
  refine fills_ite (fun _ => hPathop_fills sysRmdir) fun _ =>
    fills_ite (fun _ => hPathop_fills unlinkOp) fun _ => ?_
  refine fills_ite (fun _ => hRename_fills) fun _ => fills_ite (fun _ => hOpendir_fills) fun _ => ?_
  refine fills_ite (fun _ => hOpendirx_fills) fun _ => fills_ite (fun _ => hReaddir_fills) fun _ => ?_
  refine fills_ite (fun _ => hReaddirx_fills) fun _ => fills_ite (fun _ => hClosedir_fills) fun _ => ?_
  exact fills_ite (fun _ => fills_bare s tnfsOk) fun _ => fills_bare s tnfsEnosys

/-! ### No body is clamped -/

/-- The reply buffer takes the whole body. -/
def Fitting (r : Session × Bytes) : Prop := tnfsHdrLen + r.2.length ≤ tnfsMsgCap

/-- No body of a fixed length has more than 23 bytes. -/
theorem fitting_small {r : Session × Bytes} (h : r.2.length.ble 23 = true) : Fitting r :=
  Nat.le_trans (Nat.add_le_add_left (Nat.le_of_ble_eq_true h) tnfsHdrLen) (by decide)

theorem withPath_fitting {k : CStr → Sys (Session × Bytes)} (hk : ∀ abs, (k abs).Ensures Fitting) :
    (Tnfsd.withPath s pl k).Ensures Fitting := by
  unfold Tnfsd.withPath
  repeat' split
  any_goals exact fitting_small rfl
  exact hk _

theorem hPathop_fitting (op : CStr → Sys (Except Errno Unit)) : (Tnfsd.hPathop op s pl).Ensures Fitting :=
  withPath_fitting fun _ => Ensures.bind_of_forall fun _ => fitting_small rfl

theorem hOpen_fitting : (Tnfsd.hOpen s pl).Ensures Fitting := by
  unfold Tnfsd.hOpen
  repeat' split
  any_goals exact fitting_small rfl
  refine Ensures.bind_of_forall fun r => ?_
  match r with
  | none | some (.error e) | some (.ok fd) => exact fitting_small rfl

theorem hWrite_fitting : (Tnfsd.hWrite s pl).Ensures Fitting := by
  unfold Tnfsd.hWrite
  repeat' split
  any_goals exact fitting_small rfl
  refine Ensures.bind_of_forall fun r => ?_
  cases r <;> exact fitting_small rfl

theorem hClose_fitting : (Tnfsd.hClose s pl).Ensures Fitting := by
  unfold Tnfsd.hClose
  repeat' split
  any_goals exact fitting_small rfl
  exact Ensures.bind_of_forall fun _ => fitting_small rfl

theorem hLseek_fitting : (Tnfsd.hLseek s pl).Ensures Fitting := by
  unfold Tnfsd.hLseek
  repeat' split
  any_goals exact fitting_small rfl
  refine Ensures.bind_of_forall fun r => ?_
  cases r <;> exact fitting_small rfl

theorem hStat_fitting : (Tnfsd.hStat s pl).Ensures Fitting := by
  refine withPath_fitting fun _ => Ensures.bind_of_forall fun r => ?_
  cases r <;> exact fitting_small rfl

theorem hRename_fitting : (Tnfsd.hRename s pl).Ensures Fitting := by
  unfold Tnfsd.hRename
  repeat' split
  any_goals exact fitting_small rfl
  exact Ensures.bind_of_forall fun _ => fitting_small rfl

theorem hOpendir_fitting : (Tnfsd.hOpendir s pl).Ensures Fitting := by
  refine withPath_fitting fun _ => ?_
  split
  · exact fitting_small rfl
  · refine Ensures.bind_of_forall fun r => ?_
    cases r <;> exact fitting_small rfl

theorem hOpendirx_fitting : (Tnfsd.hOpendirx s pl).Ensures Fitting := by
  unfold Tnfsd.hOpendirx
  repeat' split
  any_goals exact fitting_small rfl
  all_goals
    refine Ensures.bind_of_forall fun r => ?_
    cases r with
    | error e => exact fitting_small rfl
    | ok d => exact Ensures.bind_of_forall fun _ => Ensures.bind_of_forall fun _ => fitting_small rfl

theorem hClosedir_fitting : (Tnfsd.hClosedir s pl).Ensures Fitting := by
  unfold Tnfsd.hClosedir
  repeat' split
  any_goals exact fitting_small rfl
  exact Ensures.bind_of_forall fun _ => fitting_small rfl

/-- A name is cut to the room behind the status. -/
theorem hReaddir_fitting : (Tnfsd.hReaddir s pl).Ensures Fitting := by
  unfold Tnfsd.hReaddir
  repeat' split
  any_goals exact fitting_small rfl
  refine Ensures.bind_of_forall fun ⟨d, e⟩ => ?_
  cases e with
  | none => exact fitting_small rfl
  | some e =>
    have hname : ((CStr.bytes e.name).take (tnfsMsgCap - tnfsHdrLen - 2)).length ≤ 1026 :=
      List.length_take_le ..
    change tnfsHdrLen + ([tnfsOk] ++ (CStr.bytes e.name).take (tnfsMsgCap - tnfsHdrLen - 2) ++
      [0]).length ≤ tnfsMsgCap
    rw [List.length_append, List.length_append]
    change 4 + (1 + _ + 1) ≤ 1032
    omega

theorem hReaddirx_fitting : (Tnfsd.hReaddirx s pl).Ensures Fitting := by
  unfold Tnfsd.hReaddirx
  repeat' split
  any_goals exact fitting_small rfl
  refine Ensures.bind ((readdirxLoop_room _ (by decide) fun _ => rfl).mono fun ⟨d', ents, count, status⟩
    ⟨hroom, _⟩ => ?_)
  dsimp only at hroom ⊢
  split
  · exact fitting_small rfl
  · change tnfsHdrLen + ([tnfsOk, UInt8.ofNat count, status] ++ le16 d'.pos ++ ents).length ≤ tnfsMsgCap
    have hcap : tnfsMsgCap - tnfsHdrLen = 1028 := rfl
    rw [hcap] at hroom
    rw [List.length_append, List.length_append, length_le16]
    change 4 + (3 + 2 + ents.length) ≤ 1032
    omega

/-- Every body fits, but for a READ that gets more than it asked for. -/
theorem handle_fitting (hcmd : cmd ≠ tnfsRead) : (Tnfsd.handle s cmd pl).Ensures Fitting := by
  rw [Tnfsd.handle, if_neg hcmd]
  refine ensures_ite (fitting_small rfl) (ensures_ite hOpen_fitting (ensures_ite hWrite_fitting ?_))
  refine ensures_ite hClose_fitting (ensures_ite hLseek_fitting (ensures_ite hStat_fitting ?_))
  refine ensures_ite (hPathop_fitting _)
    (ensures_ite (hPathop_fitting _) (ensures_ite (hPathop_fitting _) ?_))
  refine ensures_ite hRename_fitting (ensures_ite hOpendir_fitting (ensures_ite hOpendirx_fitting ?_))
  refine ensures_ite hReaddir_fitting (ensures_ite hReaddirx_fitting (ensures_ite hClosedir_fitting ?_))
  exact ensures_ite (fitting_small rfl) (fitting_small rfl)

section World

variable {σ : Type} {world : σ → (c : SysCall) → σ × c.Answer}

/-- `read` gives no more than it is asked for. -/
def ReadsAtMost (world : σ → (c : SysCall) → σ × c.Answer) : Prop :=
  ∀ card fd n data, (world card (.read fd n)).2 = .ok data → data.length ≤ n

theorem run_hRead_fitting (h : ReadsAtMost world) (card : σ) :
    Fitting (run world card (Tnfsd.hRead s pl)).2 := by
  unfold Tnfsd.hRead
  repeat' split
  any_goals exact fitting_small rfl
  next fd _ =>
  rw [run_bind]
  cases hread : (run world card (sysRead fd (min (word pl 1) tnfsIoChunk))).2 with
  | error e => exact fitting_small rfl
  | ok data =>
    have hle : data.length ≤ min (word pl 1) 1024 := h card fd _ data hread
    dsimp only
    split
    · exact fitting_small rfl
    · change tnfsHdrLen + ([tnfsOk] ++ le16 data.length ++ data).length ≤ tnfsMsgCap
      rw [List.length_append]
      change 4 + (3 + data.length) ≤ 1032
      omega

theorem run_handle_fitting (h : ReadsAtMost world) (card : σ) (cmd : UInt8) :
    Fitting (run world card (Tnfsd.handle s cmd pl)).2 := by
  by_cases hcmd : cmd = tnfsRead
  · subst hcmd
    exact run_hRead_fitting h card
  · exact (handle_fitting hcmd).run world card

/-! ### The serve loop in place -/

theorem replyAndCache_stored (s : Session) (seq cmd : UInt8) {buf body : Bytes}
    (hcap : tnfsHdrLen + body.length ≤ tnfsMsgCap) :
    replyAndCache s seq cmd body.length (memcpy buf body) =
      pure (some (s.cacheReply seq cmd body, memcpy buf body)) := by
  have hlen : body.length ≤ (memcpy buf body).length := by
    rw [memcpy, List.length_append]
    omega
  rw [replyAndCache, Schemes.Access.check_bind hcap,
    Schemes.Access.loadFront_bind_apply hlen, take_memcpy rfl]
  rfl

/-- The body of a request, filled and cached. -/
theorem handle_replied (h : ReadsAtMost world) {stack : Bytes} (hstack : stack.length = tnfsMsgCap)
    (s : Session) (seq cmd : UInt8) (pl : Bytes) (card : σ) :
    Schemes.Access.Plays world card
      (withBuffer stack (handle s cmd pl >>= fun r => replyAndCache r.1 seq cmd r.2))
      (Tnfsd.handle s cmd pl >>= fun r => pure (r.1.cacheReply seq cmd r.2)) := by
  have hfit : tnfsHdrLen + (run world card (Tnfsd.handle s cmd pl)).2.2.length ≤ tnfsMsgCap :=
    run_handle_fitting h card cmd
  have hfilled : run world card (handle s cmd pl stack) = ((run world card (Tnfsd.handle s cmd pl)).1,
      some (((run world card (Tnfsd.handle s cmd pl)).2.1,
        (run world card (Tnfsd.handle s cmd pl)).2.2.length),
        memcpy stack (run world card (Tnfsd.handle s cmd pl)).2.2)) := by
    rw [handle_fills s cmd pl stack hstack, run_bind, settle, if_pos (by omega)]
    rfl
  refine Schemes.Access.plays_withBuffer (memcpy stack (run world card (Tnfsd.handle s cmd pl)).2.2) ?_
  rw [Schemes.Access.run_bind_apply hfilled, replyAndCache_stored _ seq cmd hfit, run_bind]
  rfl

theorem process_plays (h : ReadsAtMost world) {stack : Bytes} (hstack : stack.length = tnfsMsgCap)
    (now : ℕ) (s : Session) (seq cmd : UInt8) (pl : Bytes) (card : σ) :
    Schemes.Access.Plays world card (process stack now s seq cmd pl) (Tnfsd.process now s seq cmd pl) := by
  have hsplit : Tnfsd.process now s seq cmd pl =
    (Tnfsd.handle s cmd pl >>= fun r => pure (r.1.cacheReply seq cmd r.2)) >>= fun s =>
      if cmd = tnfsUmount then freeSession { s with lastActiveUs := now } >>= fun z =>
        pure (z, [⟨s.peer, s.reply⟩])
      else pure ({ s with lastActiveUs := now }, [⟨s.peer, s.reply⟩]) := by
    rw [Schemes.Prog.bind_assoc]
    rfl
  rw [hsplit, process]
  refine (handle_replied h hstack s seq cmd pl card).bind ?_
  dsimp only
  split
  · exact (Schemes.Access.plays_lift _).bind (Schemes.Access.plays_pure _)
  · exact Schemes.Access.plays_pure _

theorem mountRoot_eq (pl : Bytes) : mountRoot pl = pure (Server.mountRoot pl) := by
  unfold mountRoot Server.mountRoot
  by_cases hlen : 2 < pl.length
  · rw [if_pos hlen, if_pos hlen]
    by_cases hnul : 0 ∈ pl.drop 2
    · rw [Schemes.Access.memchr_found (by omega) hnul, Schemes.Access.loadString_bind hnul,
        cstrArg_found hnul, cstr_stringIn]
      rfl
    · rw [Schemes.Access.memchr_missed (by omega) hnul, cstrArg_missed hnul]
      rfl
  · rw [if_neg hlen, if_neg hlen]
    rfl

/-- A body of its own, filled and cached. -/
theorem replied_plays (s : Session) (seq cmd : UInt8) (body : Bytes) {buf : Bytes} {n : ℕ}
    (hn : n = body.length) (hbuf : body.length ≤ buf.length)
    (hcap : tnfsHdrLen + body.length ≤ tnfsMsgCap) (card : σ) :
    Schemes.Access.Plays world card
      (withBuffer buf (storeBytes 0 body >>= fun _ => replyAndCache s seq cmd n))
      (pure (s.cacheReply seq cmd body)) := by
  subst hn
  refine Schemes.Access.plays_withBuffer (memcpy buf body) ?_
  rw [Schemes.Access.storeBytes_bind_apply (by omega), Schemes.Access.patch_zero,
    replyAndCache_stored s seq cmd hcap]
  rfl

/-- The five bytes of a successful MOUNT. -/
theorem mounted_plays (s : Session) (seq : UInt8) {buf : Bytes} (hbuf : 5 ≤ buf.length) (card : σ) :
    Schemes.Access.Plays world card
      (withBuffer buf do
        store 0 tnfsOk
        store 1 tnfsVerLo
        store 2 tnfsVerHi
        storeBytes 3 (le16 tnfsdMinRetryMs)
        replyAndCache s seq tnfsMount 5)
      (pure (s.cacheReply seq tnfsMount ([tnfsOk, tnfsVerLo, tnfsVerHi] ++ le16 tnfsdMinRetryMs))) := by
  have h₁ : 1 = 0 + [tnfsOk].length := rfl
  have h₂ : 2 = 0 + ([tnfsOk] ++ [tnfsVerLo]).length := rfl
  have h₃ : 3 = 0 + ([tnfsOk] ++ [tnfsVerLo] ++ [tnfsVerHi]).length := rfl
  rw [store, store, store, Schemes.Access.storeBytes_behind h₁, Schemes.Access.storeBytes_behind h₂,
    Schemes.Access.storeBytes_behind h₃]
  exact replied_plays s seq tnfsMount ([tnfsOk] ++ [tnfsVerLo] ++ [tnfsVerHi] ++ le16 tnfsdMinRetryMs)
    rfl hbuf (by decide) card

theorem mountIn_plays {stack : Bytes} (hstack : stack.length = tnfsMsgCap) (now : ℕ) (peer : Peer)
    (seq : UInt8) (pl : Bytes) (v : Server) (i : ℕ) (card : σ) :
    Schemes.Access.Plays world card (mountIn stack now peer seq pl v i) (v.mountIn now peer seq pl i) := by
  have htake : ∀ n ≤ tnfsMsgCap, (stack.take n).length = n := fun n hn => by
    rw [List.length_take, hstack, Nat.min_eq_left hn]
  refine (Schemes.Access.plays_lift _).bind ?_
  dsimp only
  rw [mountRoot_eq]
  change Schemes.Access.Plays world _ (if _ then _ else _) (if _ then _ else _)
  split
  · refine (replied_plays _ seq tnfsMount [tnfsEnoent] rfl ?_ (by decide) _).bind_pure ?_
    · rw [htake 1 (by decide)]
      exact Nat.le_refl 1
    · exact (Schemes.Access.plays_lift _).bind (Schemes.Access.plays_pure _)
  · refine (mounted_plays _ seq ?_ _).bind_pure (Schemes.Access.plays_pure _)
    rw [htake 5 (by decide)]

/-- The seven bytes of a refusal. -/
theorem refusal_plays (seq : UInt8) {buf : Bytes} (hbuf : 7 ≤ buf.length) (card : σ) :
    Schemes.Access.Plays world card (withBuffer buf (refusal seq))
      (pure (tnfsHeader 0 seq tnfsMount ++ [tnfsEagain] ++ le16 tnfsdMinRetryMs)) := by
  have h₂ : 2 = 0 + (le16 0).length := rfl
  have h₃ : 3 = 0 + (le16 0 ++ [seq]).length := rfl
  have h₄ : 4 = 0 + (le16 0 ++ [seq] ++ [tnfsMount]).length := rfl
  have h₅ : 5 = 0 + (le16 0 ++ [seq] ++ [tnfsMount] ++ [tnfsEagain]).length := rfl
  rw [refusal, store, store, store, Schemes.Access.storeBytes_behind h₂, Schemes.Access.storeBytes_behind h₃,
    Schemes.Access.storeBytes_behind h₄, Schemes.Access.storeBytes_behind h₅]
  generalize hbytes : le16 0 ++ [seq] ++ [tnfsMount] ++ [tnfsEagain] ++ le16 tnfsdMinRetryMs = bytes
  have hlen : bytes.length = 7 := by
    rw [← hbytes]
    rfl
  refine Schemes.Access.plays_withBuffer (memcpy buf bytes) ?_
  have hfront : 7 ≤ (memcpy buf bytes).length := by
    rw [memcpy, List.length_append, hlen]
    omega
  rw [Schemes.Access.storeBytes_bind_apply (by omega), Schemes.Access.patch_zero, loadFront,
    if_pos hfront, take_memcpy hlen,
    ← hbytes]
  rfl

/-- The choice in place is the choice. -/
theorem turn_bind {α : Type} {v : Server} {peer : Peer} {rx : Bytes}
    (f : UInt8 × UInt8 × Server.Turn → Filling α)
    (hf : ∀ seq cmd, f (seq, cmd, .ignored) = f (0, 0, .ignored)) :
    (turn v peer rx >>= f) = f (rx.getD 2 0, rx.getD 3 0, v.turn peer rx) := by
  unfold turn Server.turn
  by_cases hlen : rx.length < tnfsHdrLen
  · rw [if_pos hlen, if_pos hlen, hf, Schemes.Access.pure_bind]
  · have hhdr : tnfsHdrLen = 4 := rfl
    rw [if_neg hlen, if_neg hlen, Schemes.Access.loadWord_bind (by omega),
      Schemes.Access.load_bind (by omega),
      Schemes.Access.load_bind (by omega)]
    by_cases hcmd : rx.getD 3 0 = tnfsMount
    · rw [if_pos hcmd, if_pos hcmd, Schemes.Access.pure_bind]
    · rw [if_neg hcmd, if_neg hcmd]
      cases v.findSession (UInt16.ofNat (word rx 0)) peer with
      | none => rfl
      | some i =>
        dsimp only
        split
        · rfl
        · rfl

theorem serve_plays (h : ReadsAtMost world) {stack : Bytes} (hstack : stack.length = tnfsMsgCap)
    (now : ℕ) (peer : Peer) (rx : Bytes) (v : Server) (card : σ) :
    Schemes.Access.Plays world card (serve stack now peer rx v) (v.serve now peer rx) := by
  refine (Schemes.Access.plays_lift _).bind ?_
  generalize (run world card (Server.reapIdle now tnfsdMaxSessions v)).1 = card'
  generalize (run world card (Server.reapIdle now tnfsdMaxSessions v)).2 = v'
  rw [turn_bind _ fun _ _ => rfl]
  cases v'.turn peer rx with
  | ignored => exact Schemes.Access.plays_pure _
  | replay i => exact Schemes.Access.plays_pure _
  | refused =>
    refine (refusal_plays _ ?_ _).bind_pure (Schemes.Access.plays_pure _)
    rw [List.length_take, hstack]
    decide
  | mount i => exact mountIn_plays hstack now peer _ _ v' i card'
  | run i => exact (process_plays h hstack now _ _ _ _ card').bind (Schemes.Access.plays_pure _)

/-! ### Replies -/

/-- Every cached reply fits its buffer. -/
def Brief (v : Server) : Prop := ∀ i, (v.sessions i).reply.length ≤ tnfsMsgCap

theorem Brief.freed {v v' : Server} (h : Brief v) (hf : v.Freed v') : Brief v' := by
  intro i
  rcases hf i with hsame | hzero
  · rw [hsame]
    exact h i
  · rw [hzero]
    exact Nat.zero_le tnfsMsgCap

theorem Brief.setSession {v : Server} (h : Brief v) (i : ℕ) {s : Session} (hs : s.reply.length ≤ tnfsMsgCap) :
    Brief (v.setSession i s) := by
  intro j
  by_cases hj : j = i
  · subst hj
    rwa [Server.setSession_self]
  · rw [Server.setSession_of_ne _ hj]
    exact h j

theorem cacheReply_brief (s : Session) (seq cmd : UInt8) (body : Bytes) :
    (s.cacheReply seq cmd body).reply.length ≤ tnfsMsgCap := by
  have htake : (body.take (tnfsMsgCap - tnfsHdrLen)).length ≤ 1028 := List.length_take_le ..
  rw [Session.cacheReply, List.length_append]
  change 4 + _ ≤ 1032
  omega

theorem process_brief (now : ℕ) (s : Session) (seq cmd : UInt8) (pl : Bytes) :
    (Tnfsd.process now s seq cmd pl).Ensures fun r =>
    r.1.reply.length ≤ tnfsMsgCap ∧ ∀ m ∈ r.2, m.data.length ≤ tnfsMsgCap := by
  refine Ensures.bind_of_forall fun ⟨t, body⟩ => ?_
  have hbrief := cacheReply_brief t seq cmd body
  have hsent : ∀ m ∈ [Sent.mk (t.cacheReply seq cmd body).peer (t.cacheReply seq cmd body).reply],
    m.data.length ≤ tnfsMsgCap := by
    intro m hm
    rwa [List.mem_singleton.mp hm]
  refine ensures_ite ?_ ⟨hbrief, hsent⟩
  refine Ensures.bind ((Server.freeSession_zero _).mono fun z hz => ?_)
  subst hz
  exact ⟨Nat.zero_le tnfsMsgCap, hsent⟩

theorem mountIn_brief (now : ℕ) (peer : Peer) (seq : UInt8) (pl : Bytes) {v : Server} (h : Brief v) (i : ℕ) :
    (v.mountIn now peer seq pl i).Ensures fun r => Brief r.1 ∧ ∀ m ∈ r.2, m.data.length ≤ tnfsMsgCap := by
  have halloc : Brief (v.allocSession i) := h.setSession i (Nat.zero_le tnfsMsgCap)
  refine Ensures.bind_of_forall fun _ => ensures_ite ?_ ?_
  · refine Ensures.bind ((Server.freeSession_zero _).mono fun z hz => ?_)
    subst hz
    refine ⟨halloc.setSession i (Nat.zero_le tnfsMsgCap), fun m hm => ?_⟩
    rw [List.mem_singleton.mp hm]
    exact cacheReply_brief ..
  · refine ⟨halloc.setSession i (cacheReply_brief ..), fun m hm => ?_⟩
    rw [List.mem_singleton.mp hm]
    exact cacheReply_brief ..

theorem answer_brief (now : ℕ) (peer : Peer) (rx : Bytes) {v : Server} (h : Brief v) (t : Server.Turn) :
    (v.answer now peer rx t).Ensures fun r => Brief r.1 ∧ ∀ m ∈ r.2, m.data.length ≤ tnfsMsgCap := by
  cases t with
  | ignored => exact ⟨h, fun m hm => absurd hm List.not_mem_nil⟩
  | replay i =>
    refine ⟨h.setSession i (h i), fun m hm => ?_⟩
    rw [List.mem_singleton.mp hm]
    exact h i
  | refused =>
    refine ⟨h, fun m hm => ?_⟩
    rw [List.mem_singleton.mp hm]
    exact Nat.le_of_ble_eq_true rfl
  | mount i => exact mountIn_brief now peer _ _ h i
  | run i =>
    refine Ensures.bind ((process_brief now (v.sessions i) _ _ _).mono fun ⟨s, out⟩ ⟨hs, hout⟩ => ?_)
    exact ⟨h.setSession i hs, hout⟩

theorem serve_brief (now : ℕ) (peer : Peer) (rx : Bytes) {v : Server} (h : Brief v) :
    (v.serve now peer rx).Ensures fun r => Brief r.1 ∧ ∀ m ∈ r.2, m.data.length ≤ tnfsMsgCap := by
  refine Ensures.bind ((Server.reapIdle_reaped now tnfsdMaxSessions v).mono fun w hw => ?_)
  subst hw
  exact answer_brief now peer rx (h.freed (Server.reaped_freed now tnfsdMaxSessions v)) _

theorem reach_brief {d : Daemon σ} {ok : Daemon σ → Beat → Prop}
    (h : (Daemon.machine world).Reach ok d) : Brief d.server := by
  refine h.invariant (I := fun d => Brief d.server) ?_ ?_
  · rintro d ⟨card, rfl⟩ i
    exact Nat.zero_le tnfsMsgCap
  · intro d b d' hv _ hstep
    cases b with
    | start =>
      obtain ⟨-, rfl⟩ := when_eq_some.mp hstep
      exact hv.freed ((Daemon.startLoop_freed tnfsdMaxSessions d.server).run world d.card)
    | datagram now peer rx =>
      obtain ⟨-, rfl⟩ := when_eq_some.mp hstep
      exact ((serve_brief now peer _ hv).run world d.card).1
    | timeout now =>
      obtain ⟨-, rfl⟩ := when_eq_some.mp hstep
      exact ((serve_brief now _ _ hv).run world d.card).1
    | linkDown =>
      obtain ⟨-, rfl⟩ := when_eq_some.mp hstep
      exact hv.freed ((Server.dropSessions_freed tnfsdMaxSessions d.server).run world d.card)

/-- CORRECT: a datagram of any content is served without an access outside the received bytes or
    outside the body, no body is clamped, and no reply is longer than the reply buffer. -/
theorem datagram_in_bounds (hread : ReadsAtMost world) {d : Daemon σ}
    (h : (Daemon.machine world).Reach Machine.always d) (now : ℕ) (peer : Peer) (rx : Bytes)
    {stack : Bytes} (hstack : stack.length = tnfsMsgCap) :
    run world d.card (serve stack now peer rx d.server []) =
        ((run world d.card (d.server.serve now peer rx)).1,
          some ((run world d.card (d.server.serve now peer rx)).2, [])) ∧
      ∀ m ∈ (run world d.card (d.server.serve now peer rx)).2.2, m.data.length ≤ tnfsMsgCap :=
  ⟨serve_plays hread hstack now peer rx d.server d.card [],
    ((serve_brief now peer rx (reach_brief h)).run world d.card).2⟩

end World

open Daemon (numberedCard firstOpened reach_firstOpened seekEnd)

theorem numberedCard_reads : ReadsAtMost numberedCard := by
  rintro card fd n data ⟨⟩
  exact Nat.zero_le n

theorem datagram_in_bounds_seekEnd :
    run numberedCard firstOpened.card
        (serve (List.replicate tnfsMsgCap 0xAA) 2 ⟨1, 1⟩ seekEnd firstOpened.server []) =
      ((run numberedCard firstOpened.card (firstOpened.server.serve 2 ⟨1, 1⟩ seekEnd)).1,
        some ((run numberedCard firstOpened.card (firstOpened.server.serve 2 ⟨1, 1⟩ seekEnd)).2, [])) ∧
      ∀ m ∈ (run numberedCard firstOpened.card (firstOpened.server.serve 2 ⟨1, 1⟩ seekEnd)).2.2,
        m.data.length ≤ tnfsMsgCap :=
  datagram_in_bounds numberedCard_reads reach_firstOpened 2 ⟨1, 1⟩ seekEnd List.length_replicate

end FdcSds.Tnfsd.InPlace
