import FdcSds.Fdc.Protocol
import Mathlib.Logic.Function.Basic

/-! The mount table, the shared track buffer and its one-entry cache (`src/disk/disk.c`).

    Every definition here is one region of `disk.c` that runs under `s_lock`, as a function of the
    state it locks. Callers and the disk-I/O worker interleave between regions, never inside one, so
    the sequential engine and the concurrent machine are built from the same regions.

        disk_read_track:   lock [readEnter] unlock ── worker ──▶ lock [readCopy] unlock
        disk_write_track:  lock [writeEnter] unlock
        worker:            lock [workerLookup] unlock ── I/O ──▶ lock [workerPublish] unlock

    A region that calls into a backing lists those calls, so that the order of calls is data. -/

namespace FdcSds
open Schemes

/-- A C string, one byte a character, without its terminator. -/
abbrev CStr := List Char

/-- Capacity of a configured file name or URL, terminator included (`CONFIG_FILE_CAP`). -/
def configFileCap : ℕ := 129

/-- `strlcpy` into a buffer of `cap` bytes. -/
def strlcpy (cap : ℕ) (s : CStr) : CStr := s.take (cap - 1)

/-- A string that fits is copied whole. -/
theorem strlcpy_of_lt {cap : ℕ} {s : CStr} (h : s.length < cap) : strlcpy cap s = s :=
  List.take_of_length_le (by omega)

/-- The errors of `esp_err_t` these paths return; `ESP_OK` is `Except.ok`. -/
inductive EspErr where
  | fail | noMem | invalidArg | invalidState | invalidSize | notFound | notSupported | timeout
  deriving DecidableEq, Repr

/-- The numbers of `esp_err_t` that are compared with what a library returned, or given where it may have. -/
def espOk : ℤ := 0
def espFail : ℤ := -1
def espErrNoMem : ℤ := 0x101
def espErrInvalidArg : ℤ := 0x102
def espErrInvalidState : ℤ := 0x103
def espErrNotSupported : ℤ := 0x106
def espErrTimeout : ℤ := 0x107
def espErrInvalidResponse : ℤ := 0x108
def espErrHttpsOtaInProgress : ℤ := 0x9001

/-- What an image is: a file on the SD card or a file behind a TNFS session. -/
inductive ImageId where
  | sd (n : ℕ)
  | tnfs (n : ℕ)
  deriving DecidableEq, Repr

/-- The image lives behind a TNFS session. -/
def ImageId.remote : ImageId → Bool
  | .sd _ => false
  | .tnfs _ => true

/-- An open backing: the image behind it and the size recorded when it was opened. -/
structure Backing where
  image : ImageId
  size : UInt32
  deriving DecidableEq

/-- One slot of the mount table; a backing is named by its heap index. -/
structure Drive where
  mounted : Bool
  remote : Bool
  readonly : Bool
  name : CStr
  canon : CStr
  backing : Option ℕ
  deriving DecidableEq

/-- An empty slot. -/
def Drive.empty : Drive := ⟨false, false, false, [], [], none⟩

/-- The cache key of the shared track buffer. -/
structure Cache where
  valid : Bool
  drive : ℕ
  track : UInt32
  len : ℕ
  deriving DecidableEq

/-- The state under `s_lock`, with the open backings and the images behind them. -/
structure Disk where
  drv : ℕ → Drive
  buf : Bytes
  cache : Cache
  heap : ℕ → Backing
  img : ImageId → Bytes

/-- The methods of the backing interface. -/
inductive Method where
  | size | read | write | close
  deriving DecidableEq, Repr

/-- What a region leaves: the state, the backing calls it made in order, and its result. -/
structure Region (α : Type) where
  disk : Disk
  calls : List (Method × ℕ)
  ret : α

/-- The verdict of a track call's first region: finished, or handed to the worker. -/
inductive Entry (α : Type) where
  | done (r : Except EspErr α)
  | handOff

/-- How a backing's `read_at` ends; a failed one may have filled part of the buffer. -/
inductive ReadIo where
  | ok
  | failed (junk : Bytes)

/-- How a backing's `write_at` ends; a failed one may have changed any byte it covers. -/
inductive WriteIo where
  | ok
  | failed (junk : Bytes)

def driveOk (drive : ℕ) : Bool := drive < diskMaxDrive

namespace Disk

/-! ### Backing I/O -/

/-- A `read_at` that succeeds returns the image's current bytes. -/
def readAt (w : Disk) (b : ℕ) (off : UInt32) (len : ℕ) : Bytes :=
  slice (w.img (w.heap b).image) off.toNat len

/-- The images with `data` written at `off` through backing `b`. -/
def writeAt (w : Disk) (b : ℕ) (off : UInt32) (data : Bytes) : Disk :=
  let i := (w.heap b).image
  { w with img := Function.update w.img i (patch (w.img i) off.toNat data) }

/-! ### The cache and the slots -/

/-- Put a track into the shared buffer and key the cache with it. -/
def fill (w : Disk) (drive : ℕ) (track : UInt32) (len : ℕ) (data : Bytes) : Disk :=
  { w with buf := memcpy w.buf data, cache := ⟨true, drive, track, len⟩ }

/-- Drop the cache whatever it holds. -/
def cacheDrop (w : Disk) : Disk := { w with cache := { w.cache with valid := false } }

/-- `cache_drop_drive`: drop the cache if it refers to `drive`. -/
def cacheDropDrive (w : Disk) (drive : ℕ) : Disk :=
  if w.cache.valid && w.cache.drive == drive then w.cacheDrop else w

/-- Give a slot a new record; the cache of that drive goes with the old one. -/
def setDrive (w : Disk) (drive : ℕ) (new : Drive) : Disk :=
  { w with drv := Function.update w.drv drive new }.cacheDropDrive drive

/-- `check_track`: on success, the backing that was checked. -/
def checkTrack (w : Disk) (drive : ℕ) (track : UInt32) (len : ℕ) :
    List (Method × ℕ) × Except EspErr ℕ :=
  if !driveOk drive then ([], .error .invalidArg)
  else if len == 0 || diskTrackBufSize < len then ([], .error .invalidSize)
  else match (w.drv drive).mounted, (w.drv drive).backing with
    | true, some b =>
      ([(.size, b)], if diskTrackInBounds track (.ofNat len) (w.heap b).size then .ok b
        else .error .invalidSize)
    | _, _ => ([], .error .invalidState)

/-- `cache_copy_out`: the buffered track, if it is exactly (drive, track, len). -/
def cacheCopyOut (w : Disk) (drive : ℕ) (track : UInt32) (len : ℕ) : Option Bytes :=
  if w.cache.valid && w.cache.drive == drive && w.cache.track == track && w.cache.len == len
  then some (w.buf.take len) else none

/-! ### Track I/O -/

/-- `disk_read_track` up to its first unlock. -/
def readEnter (w : Disk) (drive : ℕ) (track : UInt32) (len : ℕ) (io : ReadIo) :
    Region (Entry Bytes) :=
  match w.checkTrack drive track len with
  | (asked, .error e) => ⟨w, asked, .done (.error e)⟩
  | (asked, .ok b) =>
    match w.cacheCopyOut drive track len with
    | some data => ⟨w, asked, .done (.ok data)⟩
    | none =>
      if (w.drv drive).remote then ⟨w, asked, .handOff⟩
      else match io with
        | .ok =>
          let data := w.readAt b (diskTrackOffset track (.ofNat len)) len
          ⟨w.fill drive track len data, asked ++ [(.read, b)], .done (.ok data)⟩
        | .failed junk =>
          ⟨{ w with buf := memcpy w.buf (junk.take len) }.cacheDrop, asked ++ [(.read, b)],
            .done (.error .fail)⟩

/-- The second region of a remote read: copy out what the worker fetched, if it is still there. -/
def readCopy (w : Disk) (drive : ℕ) (track : UInt32) (len : ℕ) : Except EspErr Bytes :=
  match w.cacheCopyOut drive track len with
  | some data => .ok data
  | none => .error .invalidState

/-- `disk_write_track` up to its unlock. -/
def writeEnter (w : Disk) (drive : ℕ) (track : UInt32) (len : ℕ) (data : Bytes) (io : WriteIo) :
    Region (Entry Unit) :=
  match w.checkTrack drive track len with
  | (asked, .error e) => ⟨w, asked, .done (.error e)⟩
  | (asked, .ok b) =>
    if (w.drv drive).readonly then ⟨w, asked, .done (.error .notSupported)⟩
    else if (w.drv drive).remote then ⟨w, asked, .handOff⟩
    else
      let off := diskTrackOffset track (.ofNat len)
      match io with
      | .ok =>
        ⟨(w.writeAt b off data).fill drive track len data, asked ++ [(.write, b)], .done (.ok ())⟩
      | .failed junk =>
        ⟨(w.writeAt b off (junk.take len)).cacheDropDrive drive, asked ++ [(.write, b)],
          .done (.error .fail)⟩

/-! ### The worker's regions -/

/-- The locked lookup at the head of `worker_read` and `worker_write`. -/
def workerLookup (w : Disk) (drive : ℕ) (track : UInt32) (len : ℕ) (write : Bool) :
    List (Method × ℕ) × Option ℕ :=
  let dr := w.drv drive
  if driveOk drive && dr.mounted && dr.remote && !(write && dr.readonly) then
    match dr.backing with
    | some b =>
      ([(.size, b)],
        if diskTrackInBounds track (.ofNat len) (w.heap b).size then some b else none)
    | none => ([], none)
  else ([], none)

/-- Is the backing the worker used still the drive's? -/
def stillMounted (w : Disk) (drive b : ℕ) : Bool :=
  (w.drv drive).mounted && (w.drv drive).backing == some b

/-- The locked tail of `worker_read` and `worker_write` after a good transfer. -/
def workerPublish (w : Disk) (drive : ℕ) (track : UInt32) (len : ℕ) (b : ℕ) (data : Bytes) : Disk :=
  if w.stillMounted drive b then w.fill drive track len data else w

/-- `worker_mount`'s first region: the URL of a configured, not-ready remote slot. -/
def workerWants (w : Disk) (drive : ℕ) : Option CStr :=
  let dr := w.drv drive
  if driveOk drive && dr.remote && !dr.mounted && !dr.name.isEmpty
  then some (strlcpy configFileCap dr.name) else none

/-- `worker_mount`'s second region: install the session if the slot still wants this URL. -/
def workerInstall (w : Disk) (drive : ℕ) (url : CStr) (b : ℕ) (readonly : Bool) : Option Disk :=
  let dr := w.drv drive
  if driveOk drive && dr.remote && !dr.mounted && dr.name == url then
    some (w.setDrive drive { dr with backing := some b, mounted := true, readonly := readonly })
  else none

/-! ### Mount and unmount -/

/-- The table update of `remote_configure`. -/
def configure (w : Disk) (drive : ℕ) (url : CStr) : Disk :=
  w.setDrive drive ⟨false, true, false, strlcpy configFileCap url, [], none⟩

/-- The table update of a local `disk_mount`. -/
def mountLocal (w : Disk) (drive : ℕ) (name canon : CStr) (b : ℕ) : Disk :=
  w.setDrive drive
    ⟨true, false, false, strlcpy configFileCap name, strlcpy (2 * configFileCap) canon, some b⟩

/-- The table update of `disk_unmount`. -/
def unmount (w : Disk) (drive : ℕ) : Disk := w.setDrive drive .empty

/-- One iteration of the sweep in `disk_remote_unmount_all`. -/
def sweepOne (w : Disk) (drive : ℕ) : Disk × List ℕ :=
  let dr := w.drv drive
  if dr.remote && dr.mounted then
    (w.setDrive drive { dr with backing := none, mounted := false, readonly := false },
      dr.backing.toList)
  else (w, [])

/-- The locked loop of `disk_remote_unmount_all`, with the backings left to close. -/
def sweep (w : Disk) : Disk × List ℕ :=
  (List.range diskMaxDrive).foldl
    (fun (acc : Disk × List ℕ) i => let r := acc.1.sweepOne i; (r.1, acc.2 ++ r.2)) (w, [])

/-! ### Queries -/

def diskIsMounted (w : Disk) (drive : ℕ) : Bool := driveOk drive && (w.drv drive).mounted

def diskIsReadonly (w : Disk) (drive : ℕ) : Bool := driveOk drive && (w.drv drive).readonly

def diskStatusBitmap (w : Disk) : UInt16 :=
  diskStatusBitmapOf ((List.range diskMaxDrive).map fun i => (w.drv i).mounted)

end Disk

end FdcSds
