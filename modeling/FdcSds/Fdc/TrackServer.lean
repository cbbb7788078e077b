import FdcSds.Fdc.Engine
import Mathlib.Data.Nat.Bitwise

/-! The FDC+ track server, as the protocol document describes it.

    The reference for the engine: drives hold media, media hold images, numbers are naturals, there is
    no cache, no scratch buffer and no receive loop. A `Txn` is one transaction of the host: a lapse of
    the idle poll, a command block that never completes, or a whole block, with the track data a host
    sends when (and only when) its WRIT was accepted.

        Txn ──wire──▶ List Arrival ──fdcTask──▶ bytes sent, images
         └────────────────── Server.step ──────▶ bytes sent, images          (equal) -/

namespace FdcSds
open Schemes

/-- A mounted image. -/
structure Medium where
  image : ImageId
  writable : Bool

/-- The abstract server: what is in each drive, and what each image holds. -/
structure Server where
  drive : ℕ → Option Medium
  img : ImageId → Bytes

/-- A command block, decoded. -/
inductive Command where
  | ignored
  | stat
  | read (drive track len : ℕ)
  | writ (drive track len : ℕ)

/-- What the host sends after a WRIT OK: everything, or not enough before the window closes. -/
inductive Body where
  | complete (payload ck : Bytes)
  | cut (head late : Bytes)

/-- One transaction of the host. -/
inductive Txn where
  | idle (late : ℕ)
  | truncated (head late : Bytes)
  | block (cmd : Bytes) (body : Body)

/-- Ignored unless the checksum is right and the mnemonic known. -/
def decode (cmd : Bytes) : Command :=
  let (word1, word2) := (word cmd 4, word cmd 6)
  if word cmd 8 ≠ byteSum (cmd.take 8) % 65536 then .ignored
  else if cmd.take 4 = fdcStat then .stat
  else if cmd.take 4 = fdcRead then .read (word1 / 4096) (word1 % 4096) word2
  else if cmd.take 4 = fdcWrit then .writ (word1 / 4096) (word1 % 4096) word2
  else .ignored

/-- A well-formed response block. -/
def respBlock (cmd : Bytes) (word1 word2 : ℕ) : Bytes :=
  let body := cmd ++ le16 word1 ++ le16 word2
  body ++ le16 (byteSum body % 65536)

namespace Server

/-- Bit `n` is set iff drive `n` is mounted. -/
def statWord (s : Server) : ℕ := Nat.ofBits fun n : Fin 16 => (s.drive n).isSome

/-- The image in the drive, if the length is legal and the whole track lies inside it. -/
def inside (s : Server) (drive track len : ℕ) : Option ImageId :=
  match s.drive drive with
  | none => none
  | some m =>
    if 1 ≤ len ∧ len ≤ 8192 ∧ track * len + len ≤ (s.img m.image).length then some m.image else none

/-- WRIT is accepted: the drive is mounted, writable, and the length legal. -/
def accepts (s : Server) (drive len : ℕ) : Bool :=
  match s.drive drive with
  | none => false
  | some m => m.writable && decide (1 ≤ len ∧ len ≤ 8192)

/-- The reply to a READ. -/
def read (s : Server) (drive track len : ℕ) : Bytes :=
  match s.inside drive track len with
  | none => []
  | some i =>
    let data := slice (s.img i) (track * len) len
    data ++ le16 (byteSum data % 65536)

/-- The outcome of an accepted WRIT: the code of its WSTA, if one is sent, and the server after. -/
def write (s : Server) (drive track len : ℕ) : Body → Option ℕ × Server
  | .cut .. => (none, s)
  | .complete payload ck =>
    if word ck 0 ≠ byteSum payload % 65536 then (some 2, s)
    else match s.inside drive track len with
      | none => (some 3, s)
      | some i =>
        (some 0, { s with img := Function.update s.img i (patch (s.img i) (track * len) payload) })

/-- A WRIT: the bytes sent and the server after. -/
def writ (s : Server) (drive track len : ℕ) (body : Body) : Bytes × Server :=
  if s.accepts drive len then
    let (code, s') := s.write drive track len body
    (respBlock fdcWrit 0 0 ++ (code.elim [] fun c => respBlock fdcWsta c 0), s')
  else (respBlock fdcWrit 1 0, s)

/-- One transaction: the bytes sent and the server after. -/
def step (s : Server) : Txn → Bytes × Server
  | .idle _ => ([], s)
  | .truncated .. => ([], s)
  | .block cmd body =>
    match decode cmd with
    | .ignored => ([], s)
    | .stat => (respBlock fdcStat 0 s.statWord, s)
    | .read drive track len => (s.read drive track len, s)
    | .writ drive track len => s.writ drive track len body

/-- The bytes of a body and the expiry that ends a cut one. -/
def bodyWire : Body → List Arrival
  | .complete payload ck => (payload ++ ck).map .byte
  | .cut head late => head.map .byte ++ .expire late.length :: late.map .byte

/-- What follows the block of a WRIT: the body, if the WRIT was accepted. -/
def writWire (s : Server) (drive len : ℕ) (body : Body) : List Arrival :=
  if s.accepts drive len then bodyWire body else []

/-- What the link carries for one transaction. -/
def wire (s : Server) : Txn → List Arrival
  | .idle late => [.expire late]
  | .truncated head late => head.map .byte ++ .expire late.length :: late.map .byte
  | .block cmd body =>
    cmd.map .byte ++
      match decode cmd with
      | .writ drive _ len => s.writWire drive len body
      | _ => []

/-- The body has the announced length, or stops short of it. -/
def bodyFits (len : ℕ) : Body → Prop
  | .complete payload ck => payload.length = len ∧ ck.length = 2
  | .cut head _ => head.length < len + 2

/-- The transaction has the shape of one. -/
def fits (s : Server) : Txn → Prop
  | .idle _ => True
  | .truncated head _ => 0 < head.length ∧ head.length < 10
  | .block cmd body =>
    cmd.length = 10 ∧
      match decode cmd with
      | .writ drive _ len => s.accepts drive len = true → bodyFits len body
      | _ => True

/-- A run: everything sent and the server after. -/
def run (s : Server) : List Txn → Bytes × Server
  | [] => ([], s)
  | t :: ts => let r := s.step t; let q := run r.2 ts; (r.1 ++ q.1, q.2)

/-- What the link carries for a run. -/
def runWire (s : Server) : List Txn → List Arrival
  | [] => []
  | t :: ts => s.wire t ++ runWire (s.step t).2 ts

/-- Every transaction of the run has the shape of one. -/
def runFits (s : Server) : List Txn → Prop
  | [] => True
  | t :: ts => s.fits t ∧ runFits (s.step t).2 ts

end Server

/-- The track server a disk stands for. -/
def Disk.server (w : Disk) : Server where
  drive n :=
    if w.diskIsMounted n then
      (w.drv n).backing.map fun b => ⟨(w.heap b).image, !(w.drv n).readonly⟩
    else none
  img := w.img

end FdcSds
