import FdcSds.Sd.Vfs
import FdcSds.Sd.Volume

/-! The streams of a copy, as the C library has them (`fopen`, `fread`, `fwrite`, `fclose`).

    One stream reads a file and one writes a file. What a path means is up to the names of the card; the
    two may mean one file, which is then cut short under its reader. `Weather` says how each call fares:
    reads may be short, and every call may fail.

        fopen "rb" ──▶ pos 0 ──fread──▶ pos + got          fopen "wb" ──▶ empty ──fwrite──▶ longer -/

namespace FdcSds
open Schemes Prog

/-- `sin` and `sout` of `cmd_copy`. -/
inductive FilePtr where
  | sin
  | sout
  deriving DecidableEq

/-- `sin` is opened with `"rb"`, `sout` with `"wb"`. -/
inductive StdioCall where
  | fopen (f : FilePtr) (path : CStr)
  | fread (n : ℕ)
  | ferror
  | fwrite (data : Bytes)
  | fclose (f : FilePtr)
  | changeBegin (path : CStr)
  | changeEnd

/-- `fclose` says whether it went well. -/
abbrev StdioCall.Answer : StdioCall → Type
  | .fopen _ _ => Except Errno Unit
  | .fread _ => Bytes
  | .ferror | .fclose _ => Bool
  | .fwrite _ => ℕ
  | .changeBegin _ => Option ℕ
  | .changeEnd => Unit

/-- What a path means. A file that was there is known by its place, and `none` is the one that was made. -/
inductive Named where
  | absent
  | folder
  | file (i : Option Loc)
  deriving DecidableEq

/-- How a call fares: whether it fails, and how many bytes it moves at most. A read that does not fail
    moves at least one byte, unless none is left. Of a file cut short under it, a read may give nothing or
    the bytes of freed clusters, `stale`: the card is built without file locking. -/
structure Weather where
  fails : Bool
  most : ℕ
  stale : Bytes

/-- `size` is what the source had when it was opened, and `cut` says that it was truncated since. -/
structure Stdio where
  names : CStr → Named
  data : Option Loc → Bytes
  guard : CStr → Option ℕ
  weather : ℕ → Weather
  time : ℕ
  source : Option Loc
  size : ℕ
  cut : Bool
  pos : ℕ
  bad : Bool
  dest : Option Loc

namespace Stdio

/-- The content of the file a path means. -/
def contentOf (s : Stdio) (path : CStr) : Option Bytes :=
  match s.names path with
  | .file i => some (s.data i)
  | _ => none

/-- What a reader of the source has before it. -/
def left (s : Stdio) : Bytes :=
  if s.cut then (s.weather s.time).stale.take (s.size - s.pos) else (s.data s.source).drop s.pos

/-- What the next `fread` of up to `n` bytes gives. -/
def reads (s : Stdio) (n : ℕ) : Bytes :=
  let w := s.weather s.time
  s.left.take (min n (if w.fails then w.most else max 1 w.most))

/-- What the next `fwrite` of `bs` writes. -/
def puts (s : Stdio) (bs : Bytes) : Bytes :=
  if (s.weather s.time).fails then bs.take (s.weather s.time).most else bs

def write (s : Stdio) (bs : Bytes) : Stdio := { s with data := Function.update s.data s.dest bs }

/-- The files and the streams, call by call. -/
def call (s : Stdio) : (c : StdioCall) → Stdio × c.Answer
  | .fopen .sin path =>
    let next := { s with time := s.time + 1 }
    if (s.weather s.time).fails then (next, .error .eio)
    else match s.names path with
      | .absent => (next, .error .enoent)
      | .folder => (next, .error .eisdir)
      | .file i =>
        ({ next with source := i, size := (s.data i).length, cut := false, pos := 0, bad := false }, .ok ())
  | .fopen .sout path =>
    let next := { s with time := s.time + 1 }
    if (s.weather s.time).fails then (next, .error .eio)
    else match s.names path with
      | .absent =>
        (({ next with names := Function.update s.names path (.file none), dest := none } : Stdio).write
          [], .ok ())
      | .folder => (next, .error .eisdir)
      | .file i => (({ next with dest := i, cut := s.cut || i == s.source } : Stdio).write [], .ok ())
  | .fread n =>
    ({ s with
        time := s.time + 1
        pos := s.pos + (s.reads n).length
        bad := s.bad || (s.weather s.time).fails }, s.reads n)
  | .ferror => (s, s.bad)
  | .fwrite bs =>
    (({ s with time := s.time + 1 } : Stdio).write (s.data s.dest ++ s.puts bs), (s.puts bs).length)
  | .fclose .sin => ({ s with time := s.time + 1 }, !(s.weather s.time).fails)
  | .fclose .sout =>
    let next := { s with time := s.time + 1 }
    -- what was not flushed is lost
    if (s.weather s.time).fails then (next.write ((s.data s.dest).take (s.weather s.time).most),
      false) else (next, true)
  | .changeBegin path => (s, s.guard path)
  | .changeEnd => (s, ())

/-- What the paths of a volume mean. -/
def namesOf (v : Volume) (path : CStr) : Named :=
  match v.card.denotes path with
  | none => .absent
  | some l => if v.regular l then .file (some l) else .folder

/-- The card before a copy. -/
def start (v : Volume) (files : Loc → Bytes) (guard : CStr → Option ℕ) (weather : ℕ → Weather) : Stdio where
  names := namesOf v
  data i := i.elim [] files
  guard := guard
  weather := weather
  time := 0
  source := none
  size := 0
  cut := false
  pos := 0
  bad := false
  dest := none

end Stdio

end FdcSds
