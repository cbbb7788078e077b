import FdcSds.Fdc.Refinement
import FdcSds.Schemes.Programs

/-! The host's side of the link (`tools/fdc-sim/fdcsim.py`).

    The simulator plays the Altair: it flushes its input, sends a block, and reads the reply with a
    deadline. `Wire` joins it to the engine over a link that loses nothing and takes its time: a byte that
    is late is not in the answer of the call that waited for it, nor in the engine's window. The lines the
    simulator prints are left out.

        doStat, doRead, doWrit ──calls──▶ Wire ──arrived──▶ fdcTask ──sent──▶ come ──▶ recv -/

namespace FdcSds.Fdcsim
open Schemes Prog

/-- The calls of `Link`. The deadline of a `recv` is in seconds. -/
inductive LinkCall where
  | flushInput
  | send (data : Bytes)
  | recv (need timeout : ℕ)

/-- `recv` gives the bytes that came before the deadline, `need` of them at most. -/
abbrev LinkCall.Answer : LinkCall → Type
  | .flushInput | .send _ => Unit
  | .recv _ _ => Bytes

/-- A program of the host. -/
abbrev Host : Type → Type := Prog LinkCall LinkCall.Answer

/-! ### Blocks -/

def checksum16 (data : Bytes) : ℕ := byteSum data &&& 0xFFFF

def rd16 (data : Bytes) (off : ℕ) : ℕ := word data off

/-- A command block with its checksum. -/
def buildBlock (mnemonic : Bytes) (word1 word2 : ℕ) : Bytes :=
  let body := (mnemonic.take 4).rightpad 4 0 ++ (le16 word1 ++ le16 word2)
  body ++ le16 (checksum16 body)

/-- Word1 of READ and WRIT. -/
def readEncode (drive track : ℕ) : ℕ := (drive &&& 0xF) <<< 12 ||| track &&& 0x0FFF

/-- A response block. -/
structure Response where
  mnem : Bytes
  code : ℕ
  data : ℕ

def recvBlock (timeout : ℕ) : Host (Option Response) := do
  let blk ← ask (LinkCall.recv 10 timeout)
  if blk.length ≠ 10 then pure none
  else if checksum16 (blk.take 8) ≠ rd16 blk 8 then pure none
  else pure (some ⟨blk.take 4, rd16 blk 4, rd16 blk 6⟩)

/-! ### Transactions -/

/-- The bitmap of the mounted drives, or none when no good reply came. -/
def doStat (drive : ℕ) (head : Bool) (track : ℕ) : Host (Option ℕ) := do
  let word1 := drive &&& 0xFF ||| (if head then 1 else 0) <<< 8
  let _ ← ask LinkCall.flushInput
  let _ ← ask (LinkCall.send (buildBlock fdcStat word1 track))
  match ← recvBlock 1 with
  | none => pure none
  | some r => pure (if r.mnem ≠ fdcStat then none else some r.data)

/-- `cmd_stat`: its exit code, and the drives it lists. -/
def cmdStat (drive : ℕ) : Host (ℕ × List ℕ) := do
  match ← doStat drive true 0 with
  | none => pure (1, [])
  | some bitmap => pure (0, (List.range 16).filter fun d => bitmap.testBit d)

/-- Why a READ failed. -/
inductive ReadError where
  | short (got need : ℕ)
  | badChecksum (got want : ℕ)
  deriving DecidableEq

/-- The payload of a READ. -/
def doRead (drive track length : ℕ) : Host (Except ReadError Bytes) := do
  let _ ← ask LinkCall.flushInput
  let _ ← ask (LinkCall.send (buildBlock fdcRead (readEncode drive track) length))
  let payload ← ask (LinkCall.recv (length + 2) 7)
  if payload.length ≠ length + 2 then pure (.error (.short payload.length (length + 2)))
  else
    let data := payload.take length
    let ck := rd16 payload length
    if checksum16 data ≠ ck then pure (.error (.badChecksum ck (checksum16 data))) else pure (.ok data)

/-- Why a WRIT failed. -/
inductive WritError where
  | noWrit
  | notWrit (mnem : Bytes)
  | notReady (code : ℕ)
  | noWsta
  | notWsta (mnem : Bytes)
  deriving DecidableEq

/-- The WRIT handshake: the final code, and the error. -/
def doWrit (drive track : ℕ) (data : Bytes) : Host (Option ℕ × Option WritError) := do
  let _ ← ask LinkCall.flushInput
  let _ ← ask (LinkCall.send (buildBlock fdcWrit (readEncode drive track) data.length))
  match ← recvBlock 1 with
  | none => pure (none, some .noWrit)
  | some r =>
    if r.mnem ≠ fdcWrit then pure (none, some (.notWrit r.mnem))
    else if r.code ≠ 0 then pure (some r.code, some (.notReady r.code))
    else do
      let _ ← ask (LinkCall.send (data ++ le16 (checksum16 data)))
      match ← recvBlock 7 with
      | none => pure (none, some .noWsta)
      | some r => if r.mnem ≠ fdcWsta then pure (none, some (.notWsta r.mnem)) else pure (some r.code, none)

/-- The rounds of `cmd_verify` over these tracks: its exit code. -/
def verifyTracks (image : Bytes) (drive tlen : ℕ) (write : Bool) : List ℕ → Host ℕ
  | [] => pure 0
  | t :: ts => do
    let want := slice image (t * tlen) tlen
    match ← doRead drive t tlen with
    | .error _ => pure 1
    | .ok data =>
      if data ≠ want then pure 1
      else if write then do
        let (code, _) ← doWrit drive t want
        if code ≠ some 0 then pure 1
        else do
          match ← doRead drive t tlen with
          | .error _ => pure 1
          | .ok back => if back ≠ want then pure 1 else verifyTracks image drive tlen write ts
      else verifyTracks image drive tlen write ts

/-- `cmd_verify`: its exit code. -/
def cmdVerify (image : Bytes) (drive tlen : ℕ) (write : Bool) : Host ℕ :=
  if image.length % tlen ≠ 0 then pure 1
  else verifyTracks image drive tlen write (List.range (image.length / tlen))

/-! ### The wire -/

/-- How the link and the engine take their time, call by call of the host: how many more bytes can come
    to it in so many seconds, and what the engine's receive calls see of the bytes it sends. -/
structure Line where
  comes : ℕ → ℕ → ℕ
  reaches : ℕ → Bytes → List Arrival

/-- A block comes within a second, a status and a track of `n` bytes with its checksum within seven, and
    what the host sends of either comes before the engine's windows run out. -/
structure Line.Carries (line : Line) (n : ℕ) : Prop where
  block : ∀ i, 10 ≤ line.comes i 1
  status : ∀ i, 10 ≤ line.comes i 7
  track : ∀ i, n + 2 ≤ line.comes i 7
  whole : ∀ i bytes, bytes.length ≤ 10 ∨ bytes.length ≤ n + 2 → line.reaches i bytes = bytes.map .byte

/-- A link without loss: the engine as it was at the start, what its receive calls have seen since, how
    much of what it sent has come to the host, how much of that the host has taken, and the number of
    its next call. -/
structure Wire where
  engine : Engine
  arrived : List Arrival
  come : ℕ
  taken : ℕ
  calls : ℕ

/-- Before the first call, with all that was sent at the host. -/
def Wire.start (e : Engine) (taken : ℕ) : Wire := ⟨e, [], e.sent.length, taken, 0⟩

/-- The engine by now. Each round that does anything takes an arrival. -/
def Wire.now (w : Wire) : Engine := (w.engine.fdcTask w.arrived.length w.arrived).1

/-- What the engine has sent and the host has not taken. -/
def Wire.due (w : Wire) : Bytes := w.now.sent.drop w.taken

/-- A `recv` ends with the last byte it needs; what is still on its way then comes to a later call. -/
def wire (line : Line) (w : Wire) : (c : LinkCall) → Wire × c.Answer
  | .flushInput =>
    let come := min w.now.sent.length (w.come + line.comes w.calls 0)
    ({ w with come, taken := come, calls := w.calls + 1 }, ())
  | .send data => ({ w with arrived := w.arrived ++ line.reaches w.calls data, calls := w.calls + 1 }, ())
  | .recv need timeout =>
    let got := w.due.take (min need (w.come - w.taken + line.comes w.calls timeout))
    ({ w with
        come := max w.come (w.taken + got.length)
        taken := w.taken + got.length
        calls := w.calls + 1 }, got)

end FdcSds.Fdcsim
