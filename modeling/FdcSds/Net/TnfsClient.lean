import FdcSds.Net.TnfsProto
import FdcSds.Schemes.Programs

/-! The TNFS client (`src/net/tnfs.c`), over UDP.

    A command is sent up to three times with one sequence byte and one payload, until a datagram with its
    sequence byte and command comes back; the byte moves on when it does. `tnfs_read_at` and
    `tnfs_write_at` move at most 1024 bytes a command, and seek first unless the server's position is
    remembered to be there already.

        read_at ──▶ seek? ──LSEEK──▶ ──READ──▶ got bytes ──▶ seek? ──▶ …
                                      └─ anything else: position forgotten, the call fails -/

namespace FdcSds
open Schemes

/-! ### Calls -/

/-- What the client asks of its socket and of the scheduler. -/
inductive NetCall where
  | send (data : Bytes)
  | await (seq cmd : UInt8)
  | delay (ms : ℕ)

/-- `await` is `udp_response`: the first datagram that matches, or `none` when the receive timeout of
    700 ms runs out. -/
abbrev NetCall.Answer : NetCall → Type
  | .send _ => Bool
  | .await _ _ => Option Bytes
  | .delay _ => Unit

/-- A program over the client's calls. -/
abbrev Net : Type → Type := Prog NetCall NetCall.Answer

def netSend (data : Bytes) : Net Bool := .ask (NetCall.send data)
def netDelay (ms : ℕ) : Net Unit := .ask (NetCall.delay ms)

/-- `udp_response`. -/
def udpResponse (seq cmd : UInt8) : Net (Option Bytes) := .ask (NetCall.await seq cmd)

/-- What `udp_response` lets pass: no runt, and not a stale reply to an earlier command. -/
def udpMatches (seq cmd : UInt8) (m : Bytes) : Bool :=
  tnfsStatusOff + 1 ≤ m.length && m.getD 2 0 == seq && m.getD 3 0 == cmd

/-! ### Commands -/

def tnfsRetries : ℕ := 3

/-- `tnfs_file_t`, of what outlives a command. -/
structure TnfsFile where
  conn : UInt16
  seq : UInt8
  fd : UInt8
  size : UInt32
  pos : UInt32
  posValid : Bool
  deriving DecidableEq

/-- The datagram of a command. -/
def TnfsFile.request (f : TnfsFile) (cmd : UInt8) (pl : Bytes) : Bytes := tnfsHeader f.conn f.seq cmd ++ pl

/-- The status byte of a reply. -/
def replyStatus (m : Bytes) : UInt8 := m.getD tnfsStatusOff 0

/-- How long an EAGAIN asks to wait. -/
def backoffMs (m : Bytes) : ℕ :=
  let ms := if tnfsStatusOff + 3 ≤ m.length then word m (tnfsStatusOff + 1) else 100
  if ms = 0 then 100 else ms

/-- The attempts of `tnfs_command`. -/
def attempts (req : Bytes) (s cmd : UInt8) : ℕ → Net (Except EspErr Bytes)
  | 0 => pure (.error .timeout)
  | n + 1 => do
    let sent ← netSend req
    if !sent then pure (.error .fail)
    else do
      match ← udpResponse s cmd with
      | none => attempts req s cmd n
      | some m =>
        if replyStatus m = tnfsEagain then do
          let _ ← netDelay (backoffMs m)
          attempts req s cmd n
        else pure (.ok m)

/-- `tnfs_command`: the file afterwards, and the reply. -/
def tnfsCommand (f : TnfsFile) (cmd : UInt8) (pl : Bytes) : Net (TnfsFile × Except EspErr Bytes) :=
  if tnfsHdrLen + pl.length > tnfsMsgCap then pure (f, .error .invalidSize)
  else do
    match ← attempts (f.request cmd pl) f.seq cmd tnfsRetries with
    | .error e => pure (f, .error e)
    | .ok m => pure ({ f with seq := f.seq + 1 }, .ok m)

/-! ### Reads and writes -/

def TnfsFile.forget (f : TnfsFile) : TnfsFile := { f with posValid := false }

def TnfsFile.advance (f : TnfsFile) (n : ℕ) : TnfsFile := { f with pos := f.pos + UInt32.ofNat n }

def TnfsFile.grow (f : TnfsFile) (off : UInt32) : TnfsFile :=
  if f.size < off then { f with size := off } else f

/-- The payload of an LSEEK. -/
def seekPayload (fd whence : UInt8) (off : UInt32) : Bytes := [fd, whence] ++ le32 off.toNat

def readPayload (fd : UInt8) (want : ℕ) : Bytes := [fd] ++ le16 want

def writePayload (fd : UInt8) (data : Bytes) : Bytes := [fd] ++ le16 data.length ++ data

/-- `tnfs_seek`. -/
def tnfsSeek (f : TnfsFile) (off : UInt32) : Net (TnfsFile × Except EspErr Unit) :=
  if f.posValid && f.pos == off then pure (f, .ok ())
  else do
    match ← tnfsCommand f tnfsLseek (seekPayload f.fd tnfsSeekSet off) with
    | (f, .error e) => pure (f.forget, .error e)
    | (f, .ok m) =>
      if replyStatus m ≠ tnfsOk then pure (f.forget, .error .fail)
      else pure ({ f with pos := off, posValid := true }, .ok ())

/-- The bytes of a READ reply that `tnfs_read_at` takes. -/
def readReply (want : ℕ) (m : Bytes) : Option Bytes :=
  if (replyStatus m ≠ tnfsOk ∧ replyStatus m ≠ tnfsEof) ∨ m.length < tnfsStatusOff + 3 then none
  else
    let got := word m (tnfsStatusOff + 1)
    if got = 0 ∨ want < got ∨ m.length < tnfsStatusOff + 3 + got then none
    else some (slice m (tnfsStatusOff + 3) got)

/-- The count of a WRITE reply that `tnfs_write_at` takes. -/
def writeReply (want : ℕ) (m : Bytes) : Option ℕ :=
  if replyStatus m ≠ tnfsOk ∨ m.length < tnfsStatusOff + 3 then none
  else
    let put := word m (tnfsStatusOff + 1)
    if put = 0 ∨ want < put then none else some put

/-- The loop of `tnfs_read_at`; `dst` holds what was read. Each round moves a byte or more, so no more
    rounds are made than there are bytes. -/
def readLoop (f : TnfsFile) (off : UInt32) (dst : Bytes) (len : ℕ) : ℕ → Net (TnfsFile × Except EspErr Bytes)
  | 0 => pure (f, .ok dst)
  | rounds + 1 =>
    if len = 0 then pure (f, .ok dst)
    else do
      match ← tnfsSeek f off with
      | (f, .error e) => pure (f, .error e)
      | (f, .ok ()) =>
        let want := min len tnfsIoChunk
        match ← tnfsCommand f tnfsRead (readPayload f.fd want) with
        | (f, .error e) => pure (f.forget, .error e)
        | (f, .ok m) =>
          match readReply want m with
          | none => pure (f.forget, .error .fail)
          | some data =>
            readLoop (f.advance data.length) (off + UInt32.ofNat data.length) (dst ++ data)
              (len - data.length) rounds

/-- `tnfs_read_at`. -/
def tnfsReadAt (f : TnfsFile) (off : UInt32) (len : ℕ) : Net (TnfsFile × Except EspErr Bytes) :=
  readLoop f off [] len len

/-- The loop of `tnfs_write_at`; `src` is still to be written. -/
def writeLoop (f : TnfsFile) (off : UInt32) (src : Bytes) : ℕ → Net (TnfsFile × Except EspErr Unit)
  | 0 => pure (f, .ok ())
  | rounds + 1 =>
    if src.length = 0 then pure (f, .ok ())
    else do
      match ← tnfsSeek f off with
      | (f, .error e) => pure (f, .error e)
      | (f, .ok ()) =>
        let chunk := src.take tnfsIoChunk
        match ← tnfsCommand f tnfsWrite (writePayload f.fd chunk) with
        | (f, .error e) => pure (f.forget, .error e)
        | (f, .ok m) =>
          match writeReply chunk.length m with
          | none => pure (f.forget, .error .fail)
          | some put =>
            let off := off + UInt32.ofNat put
            writeLoop ((f.advance put).grow off) off (src.drop put) rounds

/-- `tnfs_write_at`. -/
def tnfsWriteAt (f : TnfsFile) (off : UInt32) (src : Bytes) : Net (TnfsFile × Except EspErr Unit) :=
  writeLoop f off src src.length

/-! ### Open -/

/-- `tnfs_query_size`. -/
def tnfsQuerySize (f : TnfsFile) : Net (TnfsFile × Except EspErr Unit) := do
  match ← tnfsCommand f tnfsLseek (seekPayload f.fd tnfsSeekEnd 0) with
  | (f, .error _) => pure (f, .error .fail)
  | (f, .ok m) =>
    if replyStatus m ≠ tnfsOk ∨ m.length < tnfsStatusOff + 5 then pure (f, .error .fail)
    else pure ({ f with size := UInt32.ofNat (dword m (tnfsStatusOff + 1)), posValid := false }, .ok ())

/-- The end of `tnfs_open`, once OPEN is answered. -/
def tnfsOpened (f : TnfsFile) (create : Bool) : Net TnfsFile :=
  if create then pure { f with size := 0 }.forget
  else do
    let (f, _) ← tnfsQuerySize { f with size := 0 }
    pure f.forget

end FdcSds
