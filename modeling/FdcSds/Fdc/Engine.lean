import FdcSds.Disk.Sequential

/-! The FDC+ protocol engine (`src/fdc/fdc.c`).

    One task reads command blocks from the link, runs them and answers. What arrives on the link is a
    list of arrivals: bytes, and the points where a receive window runs out before the next byte. The
    scratch buffers `s_cmd`, `s_data` and `s_resp` are shared by all transactions and keep stale bytes
    between them. LEDs, counters and log lines do not reach the link or the images and are left out.

        idle ─1 byte─▶ command window ─10 bytes, valid─▶ dispatch ─▶ STAT / READ / WRIT
          ▲                  │ expired: flush                              │
          └──────────────────┴───────── reply, or silence ◀────────────────┘ -/

namespace FdcSds
open Schemes

/-- What the receive calls see: a byte, or a window that expires before the next byte. By the time
    the task gets to flush, the `late` bytes after an expiry have arrived. -/
inductive Arrival where
  | byte (b : UInt8)
  | expire (late : ℕ)
  deriving DecidableEq, Repr

/-- What one `link_recv` call leaves. -/
structure Recv where
  got : Bytes
  late : ℕ
  rest : List Arrival

/-- `link_recv`: up to `need` bytes, fewer when the window expires (or nothing more ever arrives). -/
def linkRecv : ℕ → List Arrival → Recv
  | 0, s => ⟨[], 0, s⟩
  | _ + 1, [] => ⟨[], 0, []⟩
  | _ + 1, .expire late :: s => ⟨[], late, s⟩
  | need + 1, .byte b :: s => let r := linkRecv need s; { r with got := b :: r.got }

/-- `link_flush_input`: discard the bytes that have already arrived. -/
def linkFlushInput : ℕ → List Arrival → List Arrival
  | late + 1, .byte _ :: s => linkFlushInput late s
  | _, s => s

/-! The four-byte mnemonics, in ASCII. -/

def fdcStat : Bytes := [0x53, 0x54, 0x41, 0x54]
def fdcRead : Bytes := [0x52, 0x45, 0x41, 0x44]
def fdcWrit : Bytes := [0x57, 0x52, 0x49, 0x54]
def fdcWsta : Bytes := [0x57, 0x53, 0x54, 0x41]

/-- The engine: the disk, its scratch buffers, and everything it has sent. -/
structure Engine where
  disk : Disk
  cmd : Bytes
  data : Bytes
  resp : Bytes
  sent : Bytes

namespace Engine

/-- `link_send`. -/
def linkSend (e : Engine) (bytes : Bytes) : Engine := { e with sent := e.sent ++ bytes }

/-- `build_resp`: a response block in `s_resp`. -/
def buildResp (e : Engine) (cmd : Bytes) (word1 word2 : UInt16) : Engine :=
  let resp := patch e.resp 0 cmd
  let resp := patch resp fdcOffWord1 (fdcWriteLe16 word1)
  let resp := patch resp fdcOffWord2 (fdcWriteLe16 word2)
  { e with resp := fdcBlockFinalize resp }

/-- Send the ten bytes of `s_resp`. -/
def sendResp (e : Engine) : Engine := e.linkSend (e.resp.take fdcBlockLen)

def handleStat (e : Engine) : Engine :=
  (e.buildResp fdcStat fdcRespOk e.disk.diskStatusBitmap).sendResp

def handleRead (e : Engine) : Engine :=
  let word1 := fdcReadLe16 e.cmd fdcOffWord1
  let len := fdcReadLe16 e.cmd fdcOffWord2
  let drive := fdcWord1Drive word1
  let track := fdcWord1Track word1
  match e.disk.diskReadTrack drive.toNat track.toUInt32 len.toNat with
  | (disk, .error _) => { e with disk }   -- passive responder: no reply
  | (disk, .ok dst) =>
    let e := { e with disk, data := memcpy e.data dst }
    let e := e.linkSend (e.data.take len.toNat)
    e.linkSend (fdcWriteLe16 (fdcChecksum16 (e.data.take len.toNat)))

/-- The length fits the track buffer and the drive is mounted read-write. -/
def writReady (w : Disk) (drive len : ℕ) : Bool :=
  0 < len && len ≤ diskTrackBufSize && w.diskIsMounted drive && !w.diskIsReadonly drive

/-- The transfer and its WSTA, once payload and checksum are in. -/
def finishWrit (e : Engine) (drive : ℕ) (track : UInt32) (len : ℕ) (ck : Bytes) : Engine :=
  let payload := e.data.take len
  let (e, code) :=
    if fdcReadLe16 ck 0 ≠ fdcChecksum16 payload then (e, fdcRespCsumErr)
    else match e.disk.diskWriteTrack drive track len payload with
      | (disk, .error _) => ({ e with disk }, fdcRespWriteErr)
      | (disk, .ok ()) => ({ e with disk }, fdcRespOk)
  (e.buildResp fdcWsta code 0).sendResp

/-- The rest of an accepted WRIT: payload, checksum, transfer. -/
def receiveWrit (e : Engine) (drive : ℕ) (track : UInt32) (len : ℕ) (s : List Arrival) :
    Engine × List Arrival :=
  let r := linkRecv len s
  let e := { e with data := memcpy e.data r.got }
  if r.got.length ≠ len then (e, linkFlushInput r.late r.rest)
  else
    let ck := linkRecv fdcChecksumLen r.rest
    if ck.got.length ≠ fdcChecksumLen then (e, linkFlushInput ck.late ck.rest)
    else (e.finishWrit drive track len ck.got, ck.rest)

def handleWrit (e : Engine) (s : List Arrival) : Engine × List Arrival :=
  let word1 := fdcReadLe16 e.cmd fdcOffWord1
  let len := (fdcReadLe16 e.cmd fdcOffWord2).toNat
  let drive := (fdcWord1Drive word1).toNat
  let track := (fdcWord1Track word1).toUInt32
  let ready := writReady e.disk drive len
  let e := (e.buildResp fdcWrit (if ready then fdcRespOk else fdcRespNotReady) 0).sendResp
  if !ready then (e, s) else e.receiveWrit drive track len s

def dispatch (e : Engine) (s : List Arrival) : Engine × List Arrival :=
  if e.cmd.take fdcCmdLen = fdcStat then (e.handleStat, s)
  else if e.cmd.take fdcCmdLen = fdcRead then (e.handleRead, s)
  else if e.cmd.take fdcCmdLen = fdcWrit then e.handleWrit s
  else (e, s)

/-- One round of the task's loop: poll for a first byte, complete the block, check it, run it. -/
def fdcRound (e : Engine) (s : List Arrival) : Engine × List Arrival :=
  let r := linkRecv 1 s
  let e := { e with cmd := memcpy e.cmd r.got }
  if r.got.length ≠ 1 then (e, r.rest)
  else
    let r := linkRecv (fdcBlockLen - 1) r.rest
    let e := { e with cmd := patch e.cmd 1 r.got }
    if r.got.length ≠ fdcBlockLen - 1 then (e, linkFlushInput r.late r.rest)
    else if !fdcBlockValid e.cmd then (e, r.rest)
    else e.dispatch r.rest

/-- The task's loop for `n` rounds. -/
def fdcTask : ℕ → Engine → List Arrival → Engine × List Arrival
  | 0, e, s => (e, s)
  | n + 1, e, s => let r := e.fdcRound s; fdcTask n r.1 r.2

end Engine

end FdcSds
