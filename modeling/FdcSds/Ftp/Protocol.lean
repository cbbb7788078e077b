import FdcSds.Disk.Guard
import FdcSds.Net.Handles

/-! What the FTP server works on (`ftpserver.h`, and the text functions of `lib/esp-idf-ftpServer/ftp.c`).

    A command comes as the bytes of one `recv`, read as C strings that end at a NUL. The working directory
    is kept as text: a name is appended to it for the time of a command, and cut off again where the name
    first occurs in it.

        cwd "/a"  ──openChild "b"──▶  "/a/b"  ──removeFname "b"──▶  "/a/"          -/

namespace FdcSds.Ftp
open Schemes Prog

/-- `ftp_cmd_table`. -/
inductive Cmd where
  | feat | syst | cdup | cwd | pwd | xpwd | size | mdtm | type | user | pass | pasv | list | retr | stor
  | dele | rmd | mkd | rnfr | rnto | noop | quit | appe | nlst | auth
  deriving DecidableEq

def cmdTable : List (CStr × Cmd) :=
  [("FEAT".toList, .feat), ("SYST".toList, .syst), ("CDUP".toList, .cdup), ("CWD".toList, .cwd),
   ("PWD".toList, .pwd), ("XPWD".toList, .xpwd), ("SIZE".toList, .size), ("MDTM".toList, .mdtm),
   ("TYPE".toList, .type), ("USER".toList, .user), ("PASS".toList, .pass), ("PASV".toList, .pasv),
   ("LIST".toList, .list), ("RETR".toList, .retr), ("STOR".toList, .stor), ("DELE".toList, .dele),
   ("RMD".toList, .rmd), ("MKD".toList, .mkd), ("RNFR".toList, .rnfr), ("RNTO".toList, .rnto),
   ("NOOP".toList, .noop), ("QUIT".toList, .quit), ("APPE".toList, .appe), ("NLST".toList, .nlst),
   ("AUTH".toList, .auth)]

/-- `FTP_CMD_SIZE_MAX`. -/
def cmdSizeMax : ℕ := 6

/-- `FTP_MAX_PARAM_SIZE`. -/
def maxParamSize : ℕ := 513

/-- The size of `ftp_cmd_buffer`. -/
def cmdBufferSize : ℕ := maxParamSize + cmdSizeMax

/-- The size of `fullname` and `lpath`. -/
def fullnameSize : ℕ := 128

/-! ### Parameters -/

/-- The loop of `ftp_pop_param`: the parameter, and where it stopped. `param` is what was copied so far. -/
def popParamLoop (maxlen : ℕ) (stopOnSpace stopOnNewline : Bool) : Char → CStr → CStr → CStr × CStr
  | _, param, [] => (param, [])
  | lastc, param, ch :: str =>
    if ch = '\x00' then (param, ch :: str)
    else if stopOnSpace = true ∧ ch = ' ' then (param, ch :: str)
    else if ch = '\r' ∨ ch = '\n' then
      if stopOnNewline then (param, ch :: str) else popParamLoop maxlen stopOnSpace
        stopOnNewline lastc param str
    else if ch = '/' ∧ lastc = '/' then popParamLoop maxlen stopOnSpace stopOnNewline lastc param str
    else
      popParamLoop maxlen stopOnSpace stopOnNewline ch
        (if param.length + 1 < maxlen then param ++ [ch] else param) str

/-- `ftp_pop_param`. -/
def popParam (str : CStr) (maxlen : ℕ) (stopOnSpace stopOnNewline : Bool) : CStr × CStr :=
  popParamLoop maxlen stopOnSpace stopOnNewline '\x00' [] str

/-- `ftp_pop_command`: the command, and what comes after the character behind it. -/
def popCommand (str : CStr) : Option Cmd × CStr :=
  match popParam str cmdSizeMax true true with
  | (cmd, rest) =>
    match cmdTable.find? fun e => e.1 = cmd.map Char.toUpper with
    | some e => (some e.2, rest.drop 1)
    | none => (none, rest)

/-- The parameter `ftp_get_param_and_open_child` finds. One that begins with a hyphen is dropped, and with it
    everything up to the end of the text, so that the second round of the loop is the last. -/
def childParam (str : CStr) : CStr :=
  match popParam str maxParamSize false false with
  | (param, rest) => if param.head? = some '-' then (popParam rest maxParamSize false false).1 else param

/-! ### The working directory -/

/-- `ftp_open_child`. -/
def openChild (pwd dir : CStr) : CStr :=
  if dir = [] then pwd
  else if dir.head? = some '/' then dir
  else if 1 < pwd.length ∧ pwd.getLast? ≠ some '/' then pwd ++ '/' :: dir
  else pwd ++ dir

/-- `VFS_NATIVE_MOUNT_POINT` and `VFS_NATIVE_SDCARD_MOUNT_POINT`. -/
def nativeMounts : List CStr := ["/_#!#_spiffs".toList, "/_#!#_sdcard".toList]

/-- The loop of `ftp_close_child` that cuts at the last slash; `none` when there is none. -/
def cutLastSlash (pwd : CStr) : Option CStr :=
  match pwd.reverse.dropWhile (· ≠ '/') with
  | [] => none
  | _ :: front => some front.reverse

/-- `ftp_close_child`. -/
def closeChild (pwd : CStr) : CStr :=
  if pwd.getLast? = some '/' then
    let pwd := pwd.dropLast
    if pwd = [] ∨ pwd ∈ nativeMounts then ['/'] else pwd
  else
    match cutLastSlash pwd with
    | none | some [] => ['/']
    | some pwd => if pwd ∈ nativeMounts then pwd ++ ['/'] else pwd

/-- Where `needle` first occurs. -/
def strstr (needle : CStr) : CStr → Option ℕ
  | [] => if needle = [] then some 0 else none
  | ch :: hay => if needle.isPrefixOf (ch :: hay) then some 0 else (strstr needle hay).map (· + 1)

/-- `remove_fname_from_path`. -/
def removeFnameFromPath (pwd fname : CStr) : CStr :=
  if fname = [] then pwd
  else match strstr fname pwd with
    | none => pwd
    | some i => pwd.take i

/-! ### Calls -/

/-- The socket variables `lc_sd`, `ld_sd`, `c_sd` and `d_sd`. -/
inductive Sock where
  | lc | ld | c | d
  deriving DecidableEq

/-- What `accept` gives: a descriptor and the server's address on it. -/
inductive Accepted where
  | conn (sd : ℕ) (ip : UInt32)
  | again
  | failed
  deriving DecidableEq

/-- What `recv` gives. With the connection closed it is no bytes. -/
inductive Received where
  | data (bs : Bytes)
  | again
  | failed
  deriving DecidableEq

/-- The calls of the server. `fp` and `dp` are one variable, so a stream call may get either kind. A `send`
    stands for the loop that repeats it until all is sent. `overrun` marks an access outside a buffer: the
    behaviour of the code is undefined from there on, and the model goes on as if the buffer were longer.
    `config` reads `ftp_user` and `ftp_pass` from the configuration. -/
inductive Call where
  | sys (c : SysCall)
  | fclose (fp : Option Handle)
  | closedir (dp : Option Handle)
  | readdir (dp : Option Handle)
  | fread (fp : Option Handle) (n : ℕ)
  | fwrite (fp : Option Handle) (data : Bytes)
  | time
  | config
  | socket (s : Sock)
  | listen (s : Sock) (sd : ℕ)
  | accept (s : Sock) (l : Option ℕ)
  | recv (s : Sock) (sd n : ℕ)
  | send (s : Sock) (sd : Option ℕ) (data : Bytes)
  | closesocket (s : Sock) (sd : Option ℕ)
  | overrun
  deriving DecidableEq

/-- `fread` gives what it read, and whether the end of the file was reached. `fclose` fails when it
    cannot write what `fwrite` took. -/
abbrev Call.Answer : Call → Type
  | .sys c => c.Answer
  | .fclose _ => Bool
  | .closedir _ | .closesocket _ _ | .overrun => Unit
  | .readdir _ => Option Dirent
  | .fread _ _ => Bytes × Bool
  | .fwrite _ _ | .time => ℕ
  | .config => CStr × CStr
  | .socket _ => Option ℕ
  | .listen _ _ | .send _ _ _ => Bool
  | .accept _ _ => Accepted
  | .recv _ _ _ => Received

/-- The call is an access outside a buffer. -/
def Call.outside : Call → Bool
  | .overrun => true
  | _ => false

/-- A program over the server's calls. -/
abbrev Serve : Type → Type := Prog Call Call.Answer

/-- A call on the card. -/
def sysCall (c : SysCall) : Serve c.Answer := .ask (C := Call) (.sys c)

/-- An access outside a buffer, if there is one. -/
def overrunIf (p : Prop) [Decidable p] : Serve Unit := if p then .ask Call.overrun else pure ()

/-! ### Data -/

/-- `ftp_state_t`, in its order. -/
inductive Ste where
  | disabled | start | ready | endTransfer | continueListing | continueFileTx | continueFileRx
  deriving DecidableEq

/-- `state > E_FTP_STE_READY`. -/
def Ste.pastReady : Ste → Bool
  | .disabled | .start | .ready => false
  | _ => true

/-- `ftp_substate_t`. -/
inductive SubSte where
  | disconnected | listenForData | dataConnected
  deriving DecidableEq

/-- `ftp_e_open_t`. -/
inductive EOpen where
  | nothing | file | dir
  deriving DecidableEq

/-- `ftp_data`, with the buffers and flags beside it. A descriptor of −1 is `none`, and `held` is the union of
    `fp` and `dp`. -/
structure Data where
  state : Ste
  substate : SubSte
  ctimeout : UInt32
  dtimeout : Int32
  held : Option Handle
  eOpen : EOpen
  lcSd : Option ℕ
  ldSd : Option ℕ
  cSd : Option ℕ
  dSd : Option ℕ
  ipAddr : UInt32
  uservalid : Bool
  passvalid : Bool
  closechild : Bool
  enabled : Bool
  path : CStr
  scratch : CStr
  dBuffer : Bytes
  nlist : Bool
  guardRefused : Bool

/-- What the server is set up with; `dayYear`, `dayTime` and `stamp` are what `strftime` makes of a time. -/
structure Conf where
  root : CStr
  user : CStr
  pass : CStr
  buffSize : ℕ
  dayYear : ℕ → CStr
  dayTime : ℕ → CStr
  stamp : ℕ → CStr

/-- `ftp_timeout`. -/
def cmdTimeoutMs : UInt32 := 300000

/-- `FTP_DATA_TIMEOUT_MS`. -/
def dataTimeoutMs : Int32 := 10000

end FdcSds.Ftp
