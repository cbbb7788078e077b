import FdcSds.Ftp.Protocol

/-! The FTP server (`ftp_run` and what it calls) and its task (`ftp_task`).

    One pass of `ftp_run` takes one step: it makes the listening socket, accepts a control connection,
    serves one command, or moves one block of a transfer; then it looks after the data connection.

        disabled ──▶ start ──▶ ready ──RETR, STOR, LIST──▶ continue… ──▶ endTransfer ──▶ ready
                       ▲                         reset                                       -/

namespace FdcSds.Ftp
open Schemes Prog

variable (conf : Conf)

/-! ### Streams -/

/-- `ftp_close_files_dir`. -/
def closeFilesDir (d : Data) : Serve Data :=
  match d.eOpen with
  | .file => do
    let _ ← ask (Call.fclose d.held)
    pure { d with held := none, eOpen := .nothing }
  | .dir => do
    let _ ← ask (Call.closedir d.held)
    pure { d with held := none, eOpen := .nothing }
  | .nothing => pure { d with eOpen := .nothing }

/-- `ftp_close_filesystem_on_error`. With `fp` cleared `dp` is, too. -/
def closeFilesystemOnError (d : Data) : Serve Data := do
  let d ← closeFilesDir d
  if d.held.isSome then do
    let _ ← ask (Call.fclose d.held)
    pure { d with held := none }
  else pure d

/-- `ftp_close_cmd_data`. -/
def closeCmdData (d : Data) : Serve Data := do
  let _ ← ask (Call.closesocket .c d.cSd)
  let _ ← ask (Call.closesocket .d d.dSd)
  closeFilesystemOnError { d with cSd := none, dSd := none }

/-- `_ftp_reset`. -/
def reset (d : Data) : Serve Data := do
  let _ ← ask (Call.closesocket .lc d.lcSd)
  let _ ← ask (Call.closesocket .ld d.ldSd)
  let d ← closeCmdData { d with lcSd := none, ldSd := none }
  pure { d with eOpen := .nothing, state := .start, substate := .disconnected }

/-! ### Sockets -/

/-- `ftp_create_listening_socket`: the descriptor it stores, and whether it listens. -/
def createListeningSocket (s : Sock) : Serve (Option ℕ × Bool) := do
  match ← ask (Call.socket s) with
  | none => pure (none, false)
  | some sd =>
    if 0 < sd then do
      if ← ask (Call.listen s sd) then pure (some sd, true)
      else do
        let _ ← ask (Call.closesocket s (some sd))
        pure (some sd, false)
    else pure (some sd, false)

/-- The text of a reply. -/
def replyText (status : ℕ) (message : CStr) : CStr := Nat.toDigits 10 status ++ ' ' :: message ++ ['\r', '\n']

/-- What `ftp_send_reply` does once a reply is out. After 221 the control descriptor is closed and not
    forgotten. -/
def replied (status : ℕ) (d : Data) : Serve Data :=
  if status = 221 then do
    let _ ← ask (Call.closesocket .d d.dSd)
    let _ ← ask (Call.closesocket .ld d.ldSd)
    let _ ← ask (Call.closesocket .c d.cSd)
    closeFilesystemOnError { d with dSd := none, ldSd := none, substate := .disconnected }
  else if status = 426 ∨ status = 451 ∨ status = 550 then do
    let _ ← ask (Call.closesocket .d d.dSd)
    closeFilesystemOnError { d with dSd := none }
  else pure d

/-- `ftp_send_reply`. -/
def sendReply (status : ℕ) (message : CStr) (d : Data) : Serve Data := do
  overrunIf (cmdBufferSize ≤ (replyText status message).length)
  if ← ask (Call.send .c d.cSd (CStr.bytes (replyText status message))) then replied status d else reset d

/-- `ftp_send_list` and `ftp_send_file_data`. -/
def sendData (data : Bytes) (d : Data) : Serve Data := do
  if ← ask (Call.send .d d.dSd data) then pure d else reset d

/-- `ftp_result_t` of `ftp_recv_non_blocking`, with what was received. -/
inductive RecvResult where
  | ok (bs : Bytes)
  | continue
  | failed

/-- `ftp_recv_non_blocking`. -/
def recvNonBlocking (s : Sock) (sd : Option ℕ) (maxlen : ℕ) : Serve RecvResult :=
  match sd with
  | none => pure .failed
  | some sd => do
    match ← ask (Call.recv s sd maxlen) with
    | .data bs => pure (if bs = [] then .failed else .ok bs)
    | .again => pure .continue
    | .failed => pure .failed

/-! ### Files -/

/-- The full name of a path. -/
def fullname (path : CStr) : Serve CStr := do
  overrunIf (fullnameSize ≤ (conf.root ++ path).length)
  pure (conf.root ++ path)

/-- `ftp_change_begin`. -/
def changeBegin (fullname : CStr) (d : Data) : Serve (Data × Bool) := do
  let drive ← sysCall (.changeBegin fullname)
  pure ({ d with guardRefused := drive.isSome }, drive.isNone)

/-- `FTP_GUARD_MSG`. -/
def guardMsg : CStr := "File in use by a mounted drive".toList

/-- `ftp_fail_msg`. -/
def failMsg (d : Data) : CStr := if d.guardRefused then guardMsg else []

/-- What `fopen` leaves. -/
def opened (r : Except Errno ℕ) (d : Data) : Data × Bool :=
  match r with
  | .ok fd => ({ d with held := some (.file fd), eOpen := .file }, true)
  | .error _ => ({ d with held := none }, false)

/-- The flags of `fopen` with `"rb"`. -/
def readFlags : OpenFlags := ⟨.rdonly, false, false, false, false⟩

/-- `ftp_open_file`. -/
def openFile (path : CStr) (flags : OpenFlags) (d : Data) : Serve (Data × Bool) := do
  let full ← fullname conf path
  if flags.writes then do
    let (d, go) ← changeBegin full d
    if go then do
      let r ← sysCall (.open full flags)
      let _ ← sysCall .changeEnd
      pure (opened r d)
    else pure (d, false)
  else do
    let r ← sysCall (.open full flags)
    pure (opened r { d with guardRefused := false })

/-- The `opendir` of `ftp_open_dir_for_listing`. -/
def openDir (path : CStr) (d : Data) : Serve (Data × Bool) := do
  let full ← fullname conf path
  match ← sysCall (.opendir full) with
  | .ok dir => pure ({ d with held := some (.dir dir), eOpen := .dir }, true)
  | .error _ => pure ({ d with held := none }, false)

/-- `ftp_open_dir_for_listing`. -/
def openDirForListing (path : CStr) (d : Data) : Serve (Data × Bool) := do
  if d.held.isSome then do
    let _ ← ask (Call.closedir d.held)
  openDir conf path d

/-- Jan 1, 2000. -/
def noTime : ℕ := 946684800

/-- `FTP_UNIX_SECONDS_180_DAYS`. -/
def seconds180Days : ℕ := 15552000

/-- An item of a listing. -/
def itemText (nlist : Bool) (de : Dirent) (size mtime now : ℕ) : CStr :=
  if nlist then de.name ++ ['\r', '\n']
  else
    (if de.isDir then ['d'] else ['-']) ++ "rw-rw-rw-   1 root  root ".toList ++
      (Nat.toDigits 10 (size % 2 ^ 32)).leftpad 9 ' ' ++
      ' ' :: (if mtime + seconds180Days < now then conf.dayYear mtime else conf.dayTime mtime) ++
      ' ' :: de.name ++ ['\r', '\n']

/-- `ftp_get_eplf_item`. An item that does not fit is reallocated in the middle of its buffer. -/
def getEplfItem (d : Data) (destsize : ℕ) (de : Dirent) : Serve CStr := do
  let dir := conf.root ++ d.path
  let name := (if dir.getLast? = some '/' then dir else dir ++ ['/']) ++ de.name
  overrunIf (fullnameSize ≤ name.length)
  let st ← sysCall (.stat name)
  let now ← ask Call.time
  let (size, mtime) := match st with
    | .ok st => (st.size, st.mtime)
    | .error _ => (0, noTime)
  let item := itemText conf d.nlist de size mtime now
  overrunIf (destsize ≤ item.length)
  pure item

/-- The loop of `ftp_list_dir`, over the entries of a FAT directory: the items, and whether it came to
    the end. -/
def listLoop (d : Data) : ℕ → CStr → ℕ → Serve (CStr × Bool)
  | 0, list, _ => pure (list, false)
  | fuel + 1, list, count =>
    if 64 < conf.buffSize - list.length ∧ count < 8 then do
      match ← ask (Call.readdir d.held) with
      | none => pure (list, true)
      | some de =>
        if de.name.head? = some '.' then listLoop d fuel list count
        else do
          let item ← getEplfItem conf d (conf.buffSize - list.length) de
          listLoop d fuel (list ++ item) (count + 1)
    else pure (list, false)

/-- `ftp_list_dir`: the listing stands in the buffer. -/
def listDir (d : Data) : Serve (Data × CStr × Bool) := do
  let (list, atEnd) ← listLoop conf d (Tnfsd.fatDirEntries + 8) [] 0
  let d := if list = [] then d else { d with dBuffer := memcpy d.dBuffer (CStr.bytes list ++ [0]) }
  if atEnd then do
    let d ← closeFilesDir d
    pure (d, list, true)
  else pure (d, list, false)

/-! ### Commands -/

/-- `ftp_get_param_and_open_child`. -/
def getParamAndOpenChild (str : CStr) (d : Data) : Serve Data := do
  let param := childParam str
  if param = [] then pure { d with scratch := [] }
  else do
    let path := openChild d.path param
    overrunIf (maxParamSize ≤ path.length)
    pure { d with scratch := param, path := path, closechild := true }

/-- `ftp_close_child` on `ftp_path`. Of an empty path it reads the byte before the buffer. -/
def closePath (d : Data) : Serve Data := do
  overrunIf (d.path = [])
  pure { d with path := closeChild d.path }

/-- The path is of a file. -/
def names (path : CStr) : Bool := path ≠ [] ∧ path.getLast? ≠ some '/'

/-- RETR, STOR and APPE: the flags of the open, the state of the transfer, and the message of a failed
    open. -/
def transfer (flags : OpenFlags) (next : Ste) (message : Data → CStr) (str : CStr)
    (d : Data) : Serve Data := do
  let d ← getParamAndOpenChild str d
  if names d.path then do
    let (d, ok) ← openFile conf d.path flags d
    if ok then sendReply 150 [] { d with state := next }
    else sendReply 550 (message d) { d with state := .endTransfer }
  else sendReply 550 [] { d with state := .endTransfer }

/-- The reply to a change of the card. -/
def replyResult (r : Except Errno Unit) (d : Data) : Serve Data :=
  match r with
  | .ok () => sendReply 250 [] d
  | .error _ => sendReply 550 [] d

/-- RMD and MKD. -/
def pathop (op : CStr → Serve (Except Errno Unit)) (str : CStr) (d : Data) : Serve Data := do
  let d ← getParamAndOpenChild str d
  if names d.path then do
    let full ← fullname conf d.path
    let r ← op full
    replyResult r d
  else sendReply 250 [] d

def cmdDele (str : CStr) (d : Data) : Serve Data := do
  let d ← getParamAndOpenChild str d
  if names d.path then do
    let full ← fullname conf d.path
    let (d, go) ← changeBegin full d
    if go then do
      let r ← sysCall (.unlink full)
      let _ ← sysCall .changeEnd
      replyResult r d
    else sendReply 550 (failMsg d) d
  else sendReply 250 [] d

/-- The path is saved after the reply. -/
def cmdRnfr (str : CStr) (d : Data) : Serve Data := do
  let d ← getParamAndOpenChild str d
  let full ← fullname conf d.path
  match ← sysCall (.stat full) with
  | .ok _ => do
    let d ← sendReply 350 [] d
    pure { d with dBuffer := memcpy d.dBuffer (CStr.bytes d.path ++ [0]) }
  | .error _ => sendReply 550 [] d

/-- The guard is asked for the old name only. -/
def cmdRnto (str : CStr) (d : Data) : Serve Data := do
  let d ← getParamAndOpenChild str d
  overrunIf (0 ∉ d.dBuffer)
  let full ← fullname conf (cstr d.dBuffer)
  let full2 ← fullname conf d.path
  let (d, go) ← changeBegin full d
  if go then do
    let r ← sysCall (.rename full full2)
    let _ ← sysCall .changeEnd
    replyResult r d
  else sendReply 550 (failMsg d) d

/-- SIZE and MDTM; `text` is what they say about the file. -/
def cmdStat (text : Stat → CStr) (str : CStr) (d : Data) : Serve Data := do
  let d ← getParamAndOpenChild str d
  let full ← fullname conf d.path
  match ← sysCall (.stat full) with
  | .ok st => sendReply 213 (text st) { d with dBuffer := memcpy d.dBuffer (CStr.bytes (text st) ++ [0]) }
  | .error _ => sendReply 550 [] d

/-- The end of CWD: the directory is opened to see that it is there. A failed open goes one directory up. -/
def enter (d : Data) : Serve Data := do
  if d.path = ['/'] then sendReply 250 [] { d with held := none }
  else do
    let full ← fullname conf d.path
    match ← sysCall (.opendir full) with
    | .ok dir => do
      let _ ← ask (Call.closedir (some (.dir dir)))
      sendReply 250 [] { d with held := none }
    | .error _ => do
      let d ← closePath { d with held := none }
      sendReply 550 [] d

def cmdCwd (str : CStr) (d : Data) : Serve Data := do
  let dir := (popParam str maxParamSize false false).1
  let d := { d with scratch := dir }
  if dir = ['.'] then sendReply 250 [] { d with held := none }
  else if dir = ['.', '.'] then do
    let d ← closePath d
    sendReply 250 [] d
  else do
    overrunIf (maxParamSize ≤ (openChild d.path dir).length)
    enter conf { d with path := openChild d.path dir }

def cmdPwd (d : Data) : Serve Data := do
  overrunIf (fullnameSize ≤ d.path.length)
  sendReply 257 d.path d

/-- `memcmp` is asked for as many bytes as the longer of the two has. -/
def cmdUser (str : CStr) (d : Data) : Serve Data := do
  let user := (popParam str maxParamSize true true).1
  overrunIf (33 < user.length)
  sendReply 331 [] { d with scratch := user, uservalid := d.uservalid || user = conf.user }

def cmdPass (str : CStr) (d : Data) : Serve Data := do
  let pass := (popParam str maxParamSize true true).1
  overrunIf (33 < pass.length)
  if pass = conf.pass ∧ d.uservalid = true then sendReply 230 [] { d with scratch := pass, passvalid := true }
  else sendReply 530 [] { d with scratch := pass }

/-- The address and port of the passive listener (2024). -/
def pasvText (ip : UInt32) : CStr :=
  '(' :: (List.range 4).flatMap (fun i => Nat.toDigits 10 (ip.toNat / 256 ^ i % 256) ++ [',']) ++
    "7,232)".toList

/-- The passive listener, made when there is none. -/
def passiveListener (d : Data) : Serve (Data × Bool) :=
  if d.ldSd.isNone then do
    let (sd, ok) ← createListeningSocket .ld
    pure ({ d with ldSd := sd }, ok)
  else pure (d, true)

def cmdPasv (d : Data) : Serve Data := do
  let _ ← ask (Call.closesocket .d d.dSd)
  let (d, created) ← passiveListener { d with dSd := none, substate := .disconnected }
  if created then
    sendReply 227 (pasvText d.ipAddr)
      { d with
        dtimeout := 0
        dBuffer := memcpy d.dBuffer (CStr.bytes (pasvText d.ipAddr) ++ [0])
        substate := .listenForData }
  else sendReply 425 [] d

/-- LIST and NLST. -/
def cmdList (nlist : Bool) (str : CStr) (d : Data) : Serve Data := do
  let d ← getParamAndOpenChild str d
  let (d, ok) ← openDirForListing conf d.path { d with nlist := nlist }
  if ok then sendReply 150 [] { d with state := .continueListing } else sendReply 550 [] d

/-- Without a login, only these are served. -/
def Cmd.open : Option Cmd → Bool
  | some .user | some .pass | some .quit | some .feat | some .auth => true
  | _ => false

/-- The switch of `ftp_process_cmd`. -/
def command (cmd : Option Cmd) (str : CStr) (d : Data) : Serve Data :=
  match cmd with
  | some .feat => sendReply 502 "no-features".toList d
  | some .auth => sendReply 504 "not-supported".toList d
  | some .syst => sendReply 215 "UNIX Type: L8".toList d
  | some .cdup => do
    let d ← closePath d
    sendReply 250 [] d
  | some .cwd => cmdCwd conf str d
  | some .pwd | some .xpwd => cmdPwd d
  | some .size => cmdStat conf (fun st => Nat.toDigits 10 (st.size % 2 ^ 32)) str d
  | some .mdtm => cmdStat conf (fun st => conf.stamp st.mtime) str d
  | some .type | some .noop => sendReply 200 [] d
  | some .user => cmdUser conf str d
  | some .pass => cmdPass conf str d
  | some .pasv => cmdPasv d
  | some .list => cmdList conf false str d
  | some .nlst => cmdList conf true str d
  | some .retr => transfer conf readFlags .continueFileTx (fun _ => []) str d
  | some .appe => transfer conf (Shell.fopenFlags true) .continueFileRx failMsg str d
  | some .stor => transfer conf (Shell.fopenFlags false) .continueFileRx failMsg str d
  | some .dele => cmdDele conf str d
  | some .rmd => pathop conf (fun p => sysCall (.rmdir p)) str d
  | some .mkd => pathop conf (fun p => sysCall (.mkdir p)) str d
  | some .rnfr => cmdRnfr conf str d
  | some .rnto => cmdRnto conf str d
  | some .quit => sendReply 221 [] d
  | none => sendReply 502 [] d

/-- The command buffer, cleared before the bytes came. -/
def commandText (bs : Bytes) : CStr :=
  (bs ++ List.replicate (cmdBufferSize - bs.length) 0).map fun b : UInt8 => Char.ofNat b.toNat

/-- A command that has come, from its login check to the end. -/
def serveCommand (bs : Bytes) (d : Data) : Serve Data :=
  match popCommand (commandText bs) with
  | (cmd, str) =>
    if d.passvalid = false ∧ Cmd.open cmd = false then sendReply 332 [] d
    else do
      let d ← command conf cmd str d
      if d.closechild then pure { d with path := removeFnameFromPath d.path d.scratch } else pure d

/-- `ftp_process_cmd`. The NUL behind a command that fills the buffer lies outside it. -/
def processCmd (d : Data) : Serve Data := do
  match ← recvNonBlocking .c d.cSd cmdBufferSize with
  | .ok bs => do
    overrunIf (cmdBufferSize ≤ bs.length)
    serveCommand conf bs { d with closechild := false }
  | .continue =>
    if cmdTimeoutMs < d.ctimeout then sendReply 221 [] { d with closechild := false }
    else pure { d with closechild := false }
  | .failed => closeCmdData { d with closechild := false }

/-! ### `ftp_run` -/

/-- The variable of a connection. -/
def Data.setConn (d : Data) (s : Sock) (sd : Option ℕ) : Data :=
  match s with
  | .c => { d with cSd := sd }
  | .d => { d with dSd := sd }
  | .lc | .ld => d

/-- `ftp_wait_for_connection`, which stores what `accept` gives: the server's address, if a connection
    came. -/
def waitForConnection (s : Sock) (l : Option ℕ) (d : Data) : Serve (Data × Option UInt32) := do
  match ← ask (Call.accept s l) with
  | .conn sd ip => pure (d.setConn s (some sd), some ip)
  | .again => pure (d.setConn s none, none)
  | .failed => do
    let d ← reset (d.setConn s none)
    pure (d, none)

/-- The control connection in `E_FTP_STE_READY`. -/
def runReady (d : Data) : Serve Data := do
  if d.cSd.isNone ∧ d.substate = .disconnected then do
    match ← waitForConnection .c d.lcSd d with
    | (d, some ip) =>
      sendReply 220 "ESP32 FTP Server".toList
        { d with ipAddr := ip, ctimeout := 0, uservalid := false, passvalid := false, path := ['/'] }
    | (d, none) => pure d
  else if d.cSd.any (0 < ·) ∧ d.substate ≠ .listenForData then processCmd conf d
  else pure d

/-- An empty block is not sent. -/
def sendList (list : CStr) (d : Data) : Serve Data :=
  if list = [] then pure d else sendData (CStr.bytes list) d

def runListing (d : Data) : Serve Data := do
  let (d, list, atEnd) ← listDir conf d
  let d ← sendList list d
  if atEnd then do
    let d ← sendReply 226 [] d
    pure { d with state := .endTransfer, ctimeout := 0 }
  else pure { d with ctimeout := 0 }

/-- A block of a file to send. -/
def runFileTx (d : Data) : Serve Data := do
  let d := { d with ctimeout := 0 }
  let r ← ask (Call.fread d.held conf.buffSize)
  let d := { d with dBuffer := memcpy d.dBuffer r.1 }
  if r.1 = [] then do
    let d ← closeFilesDir d
    let d ← sendReply (if r.2 then 226 else 451) [] d
    pure { d with state := .endTransfer }
  else if r.1.length < conf.buffSize then do
    let d ← closeFilesDir d
    let d ← sendData r.1 d
    let d ← sendReply 226 [] d
    pure { d with state := .endTransfer }
  else sendData r.1 d

/-- A block of a file that comes in. -/
def runFileRx (d : Data) : Serve Data := do
  match ← recvNonBlocking .d d.dSd conf.buffSize with
  | .ok bs => do
    let d := { d with dtimeout := 0, ctimeout := 0, dBuffer := memcpy d.dBuffer bs }
    let n ← ask (Call.fwrite d.held bs)
    if n = bs.length then pure d
    else do
      let d ← closeFilesDir d
      let d ← sendReply 451 [] d
      pure { d with state := .endTransfer }
  | .continue =>
    if dataTimeoutMs < d.dtimeout then do
      let d ← closeFilesDir d
      let d ← sendReply 426 [] d
      pure { d with state := .endTransfer }
    else pure d
  | .failed => do
    let d ← closeFilesDir d
    let d ← sendReply 226 [] d
    pure { d with state := .endTransfer }

/-- The first switch of `ftp_run`. -/
def runState (d : Data) : Serve Data :=
  match d.state with
  | .disabled => pure (if d.enabled then { d with state := .start } else d)
  | .start => do
    let (sd, ok) ← createListeningSocket .lc
    pure (if ok then { d with lcSd := sd, state := .ready } else { d with lcSd := sd })
  | .ready => runReady conf d
  | .endTransfer =>
    if d.dSd.isSome then do
      let _ ← ask (Call.closesocket .d d.dSd)
      pure { d with dSd := none }
    else pure d
  | .continueListing => runListing conf d
  | .continueFileTx => runFileTx conf d
  | .continueFileRx => runFileRx conf d

/-- The second switch of `ftp_run`. -/
def runSubstate (d : Data) : Serve Data :=
  match d.substate with
  | .disconnected => pure d
  | .listenForData => do
    match ← waitForConnection .d d.ldSd d with
    | (d, some _) => pure { d with dtimeout := 0, substate := .dataConnected }
    | (d, none) =>
      if dataTimeoutMs < d.dtimeout then do
        let _ ← ask (Call.closesocket .ld d.ldSd)
        pure { d with dtimeout := 0, ldSd := none, substate := .disconnected }
      else pure d
  | .dataConnected =>
    if d.state = .ready ∧ dataTimeoutMs < d.dtimeout then do
      let _ ← ask (Call.closesocket .ld d.ldSd)
      let _ ← ask (Call.closesocket .d d.dSd)
      let d ← closeFilesystemOnError { d with ldSd := none, dSd := none }
      pure { d with substate := .disconnected }
    else pure d

/-- The end of `ftp_run`: without a data connection there is no transfer. -/
def settle (d : Data) : Data :=
  if d.dSd.isNone ∧ d.state.pastReady then { d with substate := .disconnected, state := .ready } else d

/-- `ftp_run`. -/
def run (elapsed : UInt32) (d : Data) : Serve Data := do
  let d ← runState conf { d with dtimeout := d.dtimeout + elapsed.toInt32, ctimeout := d.ctimeout + elapsed }
  let d ← runSubstate d
  pure (settle d)

/-! ### `ftp_task` -/

/-- `ftp_init`, when there is memory: the data buffer holds what the heap had there. -/
def init (heap : Bytes) (d : Data) : Data where
  state := .disabled
  substate := .disconnected
  ctimeout := 0
  dtimeout := 0
  held := none
  eOpen := .nothing
  lcSd := none
  ldSd := none
  cSd := none
  dSd := none
  ipAddr := 0
  uservalid := false
  passvalid := false
  closechild := false
  enabled := false
  path := []
  scratch := []
  dBuffer := heap
  nlist := d.nlist
  guardRefused := d.guardRefused

/-- `ftp_enable`. -/
def enable (d : Data) : Data := if d.state = .disabled then { d with enabled := true } else d

/-- What `ftp_set_credentials` keeps of a text. -/
def credential (s : CStr) : CStr := s.take 32

/-- The time a link is up: what is in the memory `ftp_init` gets, if it gets any, and the times between
    passes. -/
structure Link where
  heap : Option Bytes
  elapsed : List UInt32

/-- The `strftime` texts of the listing and of MDTM. -/
structure Clock where
  dayYear : ℕ → CStr
  dayTime : ℕ → CStr
  stamp : ℕ → CStr

/-- What `ftp_task` sets up with the credentials. -/
def setup (clock : Clock) (creds : CStr × CStr) : Conf where
  root := sdMountPoint
  user := credential creds.1
  pass := credential creds.2
  buffSize := 4096
  dayYear := clock.dayYear
  dayTime := clock.dayTime
  stamp := clock.stamp

/-- The pump loop of `ftp_task`. -/
def pump : List UInt32 → Data → Serve Data
  | [], d => pure d
  | e :: es, d => do
    let d ← run conf e d
    pump es d

/-- One round of `ftp_task`: the link comes up, and goes down. -/
def serveLink (clock : Clock) (l : Link) (d : Data) : Serve Data := do
  let creds ← ask Call.config
  match l.heap with
  | none => pure d
  | some heap => do
    let d ← pump (setup clock creds) l.elapsed (enable (init heap d))
    reset d

/-- `ftp_task`. -/
def task (clock : Clock) : List Link → Data → Serve Data
  | [], d => pure d
  | l :: ls, d => do
    let d ← serveLink clock l d
    task clock ls d

end FdcSds.Ftp
