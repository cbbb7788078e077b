import FdcSds.Ftp.Server

/-! What an observer of the FTP server's calls knows, and what the server may do then.

    `Watch` follows the calls: who has logged in since the last `accept`, which change of the card is under
    way, which stream is open and what went through it, and which sockets are open. `watched` says which
    calls the server may make. A transfer command with no data connection leaves its stream open, so what
    is said of streams is said for clients that are `polite`.

        accept ──▶ no login ──USER──▶ user ──PASS──▶ pass : paths        open ──▶ held ──▶ fclose -/

namespace FdcSds.Ftp
open Schemes Prog

/-- The bytes are a reply with this status. -/
def Tells (status : ℕ) (data : Bytes) : Prop := data.take 3 = CStr.bytes (Nat.toDigits 10 status)

instance (status : ℕ) (data : Bytes) : Decidable (Tells status data) := by unfold Tells; infer_instance

/-- The login the bytes of a command ask for: the command, and the word behind it. -/
def loginWord (bs : Bytes) : Option Cmd × CStr :=
  match popCommand (commandText bs) with
  | (cmd, str) => (cmd, (popParam str maxParamSize true true).1)

/-- The commands that move data. -/
def Cmd.transfers : Cmd → Bool
  | .list | .nlst | .retr | .stor | .appe => true
  | _ => false

structure Watch where
  /-- The credentials in force. -/
  creds : CStr × CStr
  user : Bool
  pass : Bool
  change : Option CStr
  held : Option Handle
  /-- What came out of the source of a transfer, and what its destination took. -/
  moved : Option (Bytes × Bytes)
  sock : Sock → Option ℕ
  isOpen : Sock → Bool
  /-- A number is kept that is of no use: of a listening socket that failed, or of the control
      descriptor after 221. -/
  spent : Sock → Bool

/-- Before the first call. -/
def Watch.start : Watch := ⟨([], []), false, false, none, none, none, fun _ => none, fun _ =>
      false, fun _ => false⟩

/-- The watch with a new descriptor. -/
def Watch.made (w : Watch) (s : Sock) (sd : ℕ) : Watch :=
  { w with
    sock := Function.update w.sock s (some sd)
    isOpen := Function.update w.isOpen s true
    spent := Function.update w.spent s false }

/-- The watch with nobody logged in. -/
def Watch.loggedOut (w : Watch) : Watch := { w with user := false, pass := false }

/-- The watch with a number that is of no use. -/
def Watch.kept (w : Watch) (s : Sock) (sd : ℕ) : Watch :=
  { w with sock := Function.update w.sock s (some sd), spent := Function.update w.spent s true }

def Watch.into (w : Watch) (bs : Bytes) : Watch := { w with moved := w.moved.map fun m => (m.1 ++ bs, m.2) }

def Watch.outOf (w : Watch) (bs : Bytes) : Watch := { w with moved := w.moved.map fun m => (m.1, m.2 ++ bs) }

/-- All that came in went out. -/
def Watch.Even (w : Watch) : Prop := ∀ m ∈ w.moved, m.1 = m.2

/-- The descriptor is the one kept for this use, and open, or its number is a kept one. -/
def Watch.Uses (w : Watch) (s : Sock) (sd : Option ℕ) : Prop :=
  ∀ n ∈ sd, w.sock s = some n ∧ (w.isOpen s = true ∨ w.spent s = true)

/-- The listener of a connection. -/
def Sock.listener : Sock → Sock
  | .lc | .c => .lc
  | .ld | .d => .ld

/-- A file stream. -/
def IsFile (h : Option Handle) : Prop := ∃ fd, h = some (.file fd)

/-- A directory stream. -/
def IsDir (h : Option Handle) : Prop := ∃ k, h = some (.dir k)

/-- The watch after a call. -/
def Watch.after (w : Watch) : (c : Call) → c.Answer → Watch
  | .sys (.changeBegin p), none => { w with change := some p }
  | .sys .changeEnd, _ => { w with change := none }
  | .sys (.open _ _), .ok fd => { w with held := some (.file fd), moved := some ([], []) }
  | .sys (.opendir _), .ok k => { w with held := some (.dir k), moved := none }
  | .fclose _, _ | .closedir _, _ => { w with held := none }
  | .fread _ _, r => w.into r.1
  | .fwrite _ data, n => w.outOf (data.take n)
  | .config, r => { w with creds := (credential r.1, credential r.2) }
  | .socket s, some sd => if 0 < sd then w.made s sd else w.kept s sd
  | .listen s _, false => { w with spent := Function.update w.spent s true }
  | .accept .c _, .conn sd _ => w.loggedOut.made .c sd
  | .accept s _, .conn sd _ => w.made s sd
  | .recv .c _ _, .data bs =>
    { w with
      user := w.user || loginWord bs = (some .user, w.creds.1)
      pass := w.pass || w.user && loginWord bs = (some .pass, w.creds.2) }
  | .recv .d _ _, .data bs => w.into bs
  | .send .c _ data, true => if Tells 221 data then { w with spent := Function.update w.spent .c true } else w
  | .send .d _ data, true => w.outOf data
  | .closesocket s (some _), _ => { w with isOpen := Function.update w.isOpen s false }
  | _, _ => w

variable (polite : Prop)

/-- What the server may call. -/
def Watch.May (w : Watch) : Call → Prop
  | .sys c =>
    (c.paths ≠ [] → w.pass = true) ∧ guarded.may w.change c ∧
      match c with
      | .open _ _ | .opendir _ => polite → w.held = none
      | .stat _ | .mkdir _ | .rmdir _ | .unlink _ | .rename _ _ | .changeBegin _ | .changeEnd => True
      | _ => False
  | .fclose h => polite → IsFile h ∧ w.held = h
  | .closedir h | .readdir h => polite → IsDir h ∧ w.held = h
  | .fread h _ => (polite → IsFile h ∧ w.held = h) ∧ ∃ x, w.moved = some (x, x)
  | .fwrite h data => (polite → IsFile h ∧ w.held = h) ∧ ∃ x, w.moved = some (x ++ data, x)
  | .time | .config | .overrun => True
  | .socket s => s.listener = s ∧ w.isOpen s = false
  | .listen s sd => s.listener = s ∧ w.Uses s (some sd)
  | .accept s l => w.isOpen s = false ∧ w.Uses s.listener l
  | .recv s sd _ => w.Uses s (some sd) ∧ (s = .d → ∃ x, w.moved = some (x, x))
  | .send .c sd data => w.Uses .c sd ∧ (Tells 226 data → sd ≠ none → w.Even)
  | .send s sd data => w.Uses s sd ∧ ∀ m ∈ w.moved, m.1 = m.2 ++ data
  | .closesocket s sd => w.Uses s sd

/-- What the server may rely on: a polite client sends a transfer command only with an open data
    connection. -/
def Watch.Gives (w : Watch) : (c : Call) → c.Answer → Prop
  | .recv .c _ _, .data bs => polite → (∃ cmd ∈ (loginWord bs).1, cmd.transfers = true) → w.isOpen .d = true
  | _, _ => True

def watched : Contract Call Call.Answer Watch where
  may w c := w.May polite c
  gives w c r := w.Gives polite c r
  next w c r := w.after c r

end FdcSds.Ftp
