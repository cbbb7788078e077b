import FdcSds.Disk.Sequential
import FdcSds.Schemes.Runs

/-! The disk module as a concurrent machine (`src/disk/disk.c`, the WiFi events of `src/net/net.c`,
    and the WRIT transaction of `src/fdc/fdc.c`).

    Any number of tasks (the fdc task, the consoles) call the module, the disk-I/O worker runs queued
    jobs one at a time, and the event task runs the link hooks. A program point per party says where it
    stands between locked regions; a step moves one party across one region, one blocking call or one
    piece of network I/O. The outcome of everything the module does not control (an allocation, a full
    queue, an `fopen`, a `tnfs_open`, a transfer, a timeout) is a parameter of the action.

        task:    call ─region─▶ post ─enqueue─▶ wait ─wake / timeout─▶ copy-out or return
        worker:  take ▶ lookup ▶ link check ▶ I/O ▶ publish ▶ finish      (READ, WRITE)
                 take ▶ want ▶ link check ▶ tnfs_open ▶ backing ▶ install ▶ finish   (MOUNT)
        events:  DISCONNECTED ▶ sweep ▶ dispose …      GOT_IP ▶ schedule mounts …

    Fields under `ghost` record what happened and are never read by a step. -/

namespace FdcSds
open Schemes Runs

/-- What a job may ask for a drive. A WRITE owns its copy of the data; `ack` is the image the WRIT OK
    was sent for. -/
inductive Request where
  | read (drive : ℕ) (track : UInt32) (len : ℕ)
  | write (drive : ℕ) (track : UInt32) (len : ℕ) (data : Bytes) (ack : Option ImageId)
  | mount (drive : ℕ)
  deriving DecidableEq

/-- `rjob_t` by type: a request, or a backing to close. -/
inductive JobKind where
  | request (r : Request)
  | close (b : ℕ)
  deriving DecidableEq

/-- A job; `sync` when a caller waits on it. -/
structure Job where
  id : ℕ
  sync : Bool
  kind : JobKind
  deriving DecidableEq

/-- The caller's side of a synchronous job (`completed` / `abandoned`). -/
inductive JobState where
  | pending
  | completed (r : Except EspErr Unit)
  | abandoned
  deriving DecidableEq

/-- Where a task continues after `backing_dispose`. -/
inductive After where
  | ret
  | unlock
  | config (drive : ℕ)
  deriving DecidableEq

/-- Program points of a calling task. -/
inductive TaskPc where
  | idle
  | post (k : Request)
  | wait (id : ℕ) (k : Request)
  | copyOut (drive : ℕ) (track : UInt32) (len : ℕ)
  -- WRIT: the ready check half done, ready, OK sent, payload in
  | writMounted (drive : ℕ) (track : UInt32) (len : ℕ)
  | writReady (drive : ℕ) (track : UInt32) (len : ℕ)
  | writPayload (drive : ℕ) (track : UInt32) (len : ℕ) (ack : Option ImageId)
  | writStore (drive : ℕ) (track : UInt32) (len : ℕ) (data : Bytes) (ack : Option ImageId)
  -- disk_mount of a local image, holding the mount lock
  | opening (drive : ℕ) (name : CStr)
  | opened (drive : ℕ) (name : CStr) (b : ℕ)
  | dispose (b : ℕ) (remote : Bool) (k : After)
  | unlock
  | configNet (drive : ℕ)
  deriving DecidableEq

/-- Program points of the worker. -/
inductive WorkerPc where
  | idle
  | lookup (j : Job)
  | found (j : Job) (b : ℕ)
  | io (j : Job) (b : ℕ)
  | fetched (j : Job) (b : ℕ) (data : Bytes)
  | written (j : Job) (b : ℕ) (r : Except EspErr Unit) (data : Bytes)
  | want (j : Job) (drive : ℕ)
  | link (j : Job) (drive : ℕ) (url : CStr)
  | opening (j : Job) (drive : ℕ) (url : CStr) (readonly : Bool) (up : Option ℕ)
  | opened (j : Job) (drive : ℕ) (url : CStr) (readonly : Bool) (image : ℕ) (stamp : ℕ)
  | built (j : Job) (drive : ℕ) (url : CStr) (readonly : Bool) (b : ℕ)
  | sizing (j : Job) (b : ℕ)
  | discard (j : Job) (b : ℕ)
  | closing (j : Job) (b : ℕ)
  | finish (j : Job) (r : Except EspErr Unit)
  deriving DecidableEq

/-- Program points of the event task. -/
inductive EventPc where
  | idle
  | sweeping
  | disposing (bs : List ℕ)
  | mounting (i : ℕ)
  | mountPost (i : ℕ)
  deriving DecidableEq

/-- Who made a backing call. -/
inductive Who where
  | task (t : ℕ)
  | worker
  deriving DecidableEq

/-- One backing call; a write carries the image its WRIT was acknowledged for. -/
structure Call where
  who : Who
  method : Method
  b : ℕ
  ack : Option ImageId
  deriving DecidableEq

/-- A completed write: the bytes an image was left with. -/
structure Write where
  image : ImageId
  off : ℕ
  data : Bytes
  deriving DecidableEq

/-- A `disk_read_track` that returned `ESP_OK`. -/
structure Read where
  task : ℕ
  drive : ℕ
  track : UInt32
  len : ℕ
  dst : Bytes
  deriving DecidableEq

structure State where
  w : Disk
  next : ℕ
  nextJob : ℕ
  net : Bool
  mountLock : Option ℕ
  queue : List Job
  job : ℕ → JobState
  task : ℕ → TaskPc
  worker : WorkerPc
  evt : EventPc
  -- ghost
  calls : List Call
  leaked : List ℕ
  base : ImageId → Bytes
  writes : List Write
  reads : List Read
  stamp : ℕ → ℕ
  reconnects : ℕ
  swept : Bool

/-- `REMOTE_QUEUE_LEN`. -/
def remoteQueueLen : ℕ := 12

/-- The images as the completed writes left them, latest first. -/
def replay (base : ImageId → Bytes) : List Write → ImageId → Bytes
  | [] => base
  | x :: xs => Function.update (replay base xs) x.image (patch (replay base xs x.image) x.off x.data)

def JobKind.closes : JobKind → Option ℕ
  | .close b => some b
  | _ => none

def After.pc : After → TaskPc
  | .ret => .idle
  | .unlock => .unlock
  | .config drive => .configNet drive

/-- `backing_dispose` begins: nothing to do for a slot that held no backing. -/
def disposeOf (old : Drive) (k : After) : TaskPc :=
  match old.backing with
  | none => k.pc
  | some b => .dispose b old.remote k

/-- `tnfs_is_url`: the name starts with `tnfs://`, whatever its case. -/
def tnfsIsUrl (name : CStr) : Bool :=
  (name.take 7).map Char.toLower == ['t', 'n', 'f', 's', ':', '/', '/']

/-- What the worker does with a job it has taken. -/
def Job.begin (j : Job) : WorkerPc :=
  match j.kind with
  | .request (.mount drive) => .want j drive
  | .request _ => .lookup j
  | .close b => .closing j b

/-- The drive, track, length and kind of a transfer. -/
def JobKind.transfer : JobKind → Option (ℕ × UInt32 × ℕ × Bool)
  | .request (.read drive track len) => some (drive, track, len, false)
  | .request (.write drive track len _ _) => some (drive, track, len, true)
  | _ => none

/-- The bytes a `write_at` of `data` leaves over the range it covers. -/
def WriteIo.left (data : Bytes) : WriteIo → Bytes
  | .ok => data
  | .failed junk => junk

/-- The backing a region wrote to, if any. -/
def Region.wrote {α : Type} (r : Region α) : Option ℕ :=
  (r.calls.find? fun m => m.1 == .write).map (·.2)

namespace State

/-! ### Updates -/

/-- The image mounted on a drive. -/
def imageOn (s : State) (drive : ℕ) : Option ImageId :=
  (s.w.drv drive).backing.map fun b => (s.w.heap b).image

/-- What a read would find if every write took effect on completion. -/
def settled (s : State) : ImageId → Bytes := replay s.base s.writes

def setTask (s : State) (t : ℕ) (pc : TaskPc) : State :=
  { s with task := Function.update s.task t pc }

def setWorker (s : State) (pc : WorkerPc) : State := { s with worker := pc }

def setEvt (s : State) (pc : EventPc) : State := { s with evt := pc }

def setDisk (s : State) (w : Disk) : State := { s with w }

/-- Record the backing calls of a region, latest first. -/
def log (s : State) (who : Who) (ms : List (Method × ℕ)) (ack : Option ImageId) : State :=
  { s with calls := (ms.map fun m => ⟨who, m.1, m.2, ack⟩).reverse ++ s.calls }

/-- Record a completed write. -/
def logWrite (s : State) (b off : ℕ) (data : Bytes) : State :=
  { s with writes := ⟨(s.w.heap b).image, off, data⟩ :: s.writes }

/-- Record a read that returned `ESP_OK`. -/
def logRead (s : State) (t drive : ℕ) (track : UInt32) (len : ℕ) (dst : Bytes) : State :=
  { s with reads := ⟨t, drive, track, len, dst⟩ :: s.reads }

/-- A backing could not be handed to the worker. -/
def leak (s : State) (b : ℕ) : State := { s with leaked := b :: s.leaked }

/-- Enqueue a job. -/
def push (s : State) (sync : Bool) (kind : JobKind) : State :=
  { s with
    queue := s.queue ++ [⟨s.nextJob, sync, kind⟩]
    nextJob := s.nextJob + 1
    job := Function.update s.job s.nextJob .pending }

/-- Open a backing on an image, recording its size. -/
def alloc (s : State) (image : ImageId) (stamp : ℕ) : State :=
  { s with
    w := { s.w with
      heap := Function.update s.w.heap s.next ⟨image, .ofNat (s.w.img image).length⟩ }
    stamp := Function.update s.stamp s.next stamp
    next := s.next + 1 }

/-- `rjob_complete`: tell the waiting caller, if there still is one. -/
def complete (s : State) (j : Job) (r : Except EspErr Unit) : State :=
  if j.sync && s.job j.id == .pending then
    { s with job := Function.update s.job j.id (.completed r) }
  else s

end State

/-! ### Actions -/

inductive TaskAct where
  | read (drive : ℕ) (track : UInt32) (len : ℕ) (io : ReadIo)
  | enqueue (k : Request)
  | postFail (k : Request)
  | wake (id : ℕ) (k : Request) (r : Except EspErr Unit)
  | timeout (id : ℕ) (k : Request)
  | copyOut (drive : ℕ) (track : UInt32) (len : ℕ)
  | writCheck (drive : ℕ) (track : UInt32) (len : ℕ)
  | writCheckRw (drive : ℕ) (track : UInt32) (len : ℕ)
  | writReply (drive : ℕ) (track : UInt32) (len : ℕ)
  | payload (drive : ℕ) (track : UInt32) (len : ℕ) (ack : Option ImageId) (data : Option Bytes)
  | write (drive : ℕ) (track : UInt32) (len : ℕ) (data : Bytes) (ack : Option ImageId) (io : WriteIo)
  | unmount (drive : ℕ)
  | mountBegin (drive : ℕ) (name : CStr)
  | mountOpen (drive : ℕ) (name : CStr) (image : Option ℕ)
  | mountSwap (drive : ℕ) (name canon : CStr) (b : ℕ)
  | unlock
  | config (drive : ℕ) (url : CStr)
  | configNet (drive : ℕ)
  | disposeLocal (b : ℕ) (k : After)
  | disposeSend (b : ℕ) (k : After)
  | disposeLeak (b : ℕ) (k : After)
  | imageSize (drive : ℕ)

inductive WorkerAct where
  | take (j : Job) (rest : List Job)
  | lookup (j : Job)
  | linkCheck (j : Job) (b : ℕ)
  | tear (j : Job) (b : ℕ) (junk : Bytes)
  | readEnd (j : Job) (b : ℕ) (err : Option EspErr)
  | writeEnd (j : Job) (b : ℕ) (err : Option (EspErr × Bytes))
  | publishRead (j : Job) (b : ℕ) (data : Bytes)
  | publishWrite (j : Job) (b : ℕ) (r : Except EspErr Unit) (data : Bytes)
  | want (j : Job) (drive : ℕ)
  | mountLink (j : Job) (drive : ℕ) (url : CStr)
  | sessionUp (j : Job) (drive : ℕ) (url : CStr) (readonly : Bool) (up : Option ℕ)
  | openOk (j : Job) (drive : ℕ) (url : CStr) (readonly : Bool) (stamp image : ℕ)
  | openFail (j : Job) (drive : ℕ) (url : CStr) (readonly : Bool) (up : Option ℕ) (err : EspErr)
  | newBacking (j : Job) (drive : ℕ) (url : CStr) (readonly : Bool) (image stamp : ℕ) (ok : Bool)
  | install (j : Job) (drive : ℕ) (url : CStr) (readonly : Bool) (b : ℕ)
  | sizeLog (j : Job) (b : ℕ)
  | discard (j : Job) (b : ℕ)
  | close (j : Job) (b : ℕ)
  | finish (j : Job) (r : Except EspErr Unit)

inductive EventAct where
  | disconnected
  | sweep
  | disposeSend (b : ℕ) (bs : List ℕ)
  | disposeLeak (b : ℕ) (bs : List ℕ)
  | disposeDone
  | gotIp
  | mountNext (i : ℕ)
  | mountPost (i : ℕ)
  | mountPostFail (i : ℕ)
  | mountDone

inductive Act where
  | task (t : ℕ) (a : TaskAct)
  | worker (a : WorkerAct)
  | evt (a : EventAct)

/-! ### Steps -/

namespace State

/-- A task crosses one region or one blocking call. -/
def taskStep (s : State) (t : ℕ) : TaskAct → Option State
  -- disk_read_track
  | .read drive track len io =>
    let r := s.w.readEnter drive track len io
    let s' := (s.setDisk r.disk).log (.task t) r.calls none
    when (s.task t = .idle) <| match r.ret with
      | .done (.ok dst) => s'.logRead t drive track len dst
      | .done (.error _) => s'
      | .handOff => s'.setTask t (.post (.read drive track len))
  | .copyOut drive track len =>
    when (s.task t = .copyOut drive track len) <| match s.w.readCopy drive track len with
      | .ok dst => (s.logRead t drive track len dst).setTask t .idle
      | .error _ => s.setTask t .idle
  -- rjob_post_wait
  | .enqueue k =>
    when (s.task t = .post k ∧ s.queue.length < remoteQueueLen)
      ((s.push true (.request k)).setTask t (.wait s.nextJob k))
  | .postFail k => when (s.task t = .post k) (s.setTask t .idle)
  | .wake id k r =>
    when (s.task t = .wait id k ∧ s.job id = .completed r) <| s.setTask t <| match k, r with
      | .read drive track len, .ok () => .copyOut drive track len
      | _, _ => .idle
  | .timeout id k =>
    when (s.task t = .wait id k ∧ s.job id = .pending)
      ({ s with job := Function.update s.job id .abandoned }.setTask t .idle)
  -- handle_writ and disk_write_track
  | .writCheck drive track len =>
    when (s.task t = .idle) <|
      if 0 < len ∧ len ≤ diskTrackBufSize ∧ s.w.diskIsMounted drive then
        s.setTask t (.writMounted drive track len)
      else s
  | .writCheckRw drive track len =>
    when (s.task t = .writMounted drive track len) <| s.setTask t <|
      if s.w.diskIsReadonly drive then .idle else .writReady drive track len
  | .writReply drive track len =>
    when (s.task t = .writReady drive track len)
      (s.setTask t (.writPayload drive track len (s.imageOn drive)))
  | .payload drive track len ack data =>
    when (s.task t = .writPayload drive track len ack ∧ ∀ x ∈ data, x.length = len) <|
      s.setTask t <| match data with
        | none => .idle   -- timed out, or a bad checksum: nothing is written
        | some x => .writStore drive track len x ack
  | .write drive track len data ack io =>
    let r := s.w.writeEnter drive track len data io
    let s' := (s.setDisk r.disk).log (.task t) r.calls ack
    let s' := match r.wrote with
      | some b => s'.logWrite b (track.toNat * len) (io.left data)
      | none => s'
    when (s.task t = .writStore drive track len data ack ∧ (io.left data).length = len) <|
      match r.ret with
        | .done _ => s'.setTask t .idle
        | .handOff => s'.setTask t (.post (.write drive track len data ack))
  -- disk_unmount
  | .unmount drive =>
    when (s.task t = .idle ∧ driveOk drive ∧ s.mountLock = none)
      ((s.setDisk (s.w.unmount drive)).setTask t (disposeOf (s.w.drv drive) .ret))
  -- disk_mount of a local image
  | .mountBegin drive name =>
    when (s.task t = .idle ∧ driveOk drive ∧ name ≠ [] ∧ tnfsIsUrl name = false ∧ s.mountLock = none)
      ({ s with mountLock := some t }.setTask t (.opening drive name))
  | .mountOpen drive name image =>
    when (s.task t = .opening drive name ∧ ∀ n ∈ image, (s.w.img (.sd n)).length < 2 ^ 32) <|
      match image with
        | some n => (s.alloc (.sd n) s.reconnects).setTask t (.opened drive name s.next)
        | none =>
          (s.setDisk (s.w.unmount drive)).setTask t (disposeOf (s.w.drv drive) .unlock)
  | .mountSwap drive name canon b =>
    when (s.task t = .opened drive name b) <|
      ({ (s.setDisk (s.w.mountLocal drive name canon b)) with mountLock := none }.log (.task t)
        [(.size, b)] none).setTask t (disposeOf (s.w.drv drive) .ret)
  | .unlock => when (s.task t = .unlock) ({ s with mountLock := none }.setTask t .idle)
  -- remote_configure
  | .config drive url =>
    when (s.task t = .idle ∧ driveOk drive ∧ tnfsIsUrl url = true ∧ s.mountLock = none)
      ((s.setDisk (s.w.configure drive url)).setTask t (disposeOf (s.w.drv drive) (.config drive)))
  | .configNet drive =>
    when (s.task t = .configNet drive)
      (s.setTask t (if s.net then .post (.mount drive) else .idle))
  -- backing_dispose
  | .disposeLocal b k =>
    when (s.task t = .dispose b false k) ((s.log (.task t) [(.close, b)] none).setTask t k.pc)
  | .disposeSend b k =>
    when (s.task t = .dispose b true k ∧ s.queue.length < remoteQueueLen)
      ((s.push false (.close b)).setTask t k.pc)
  | .disposeLeak b k => when (s.task t = .dispose b true k) ((s.leak b).setTask t k.pc)
  -- disk_image_size
  | .imageSize drive =>
    when (s.task t = .idle ∧ driveOk drive)
      (s.log (.task t) ((s.w.drv drive).backing.toList.map fun b => (.size, b)) none)

/-- The worker crosses one region, one blocking call or one piece of network I/O. -/
def workerStep (s : State) : WorkerAct → Option State
  | .take j rest =>
    when (s.worker = .idle ∧ s.queue = j :: rest) ({ s with queue := rest }.setWorker j.begin)
  -- worker_read and worker_write
  | .lookup j =>
    when (s.worker = .lookup j) <| match j.kind.transfer with
      | some (drive, track, len, write) =>
        let r := s.w.workerLookup drive track len write
        let s' := s.log .worker r.1 none
        match r.2 with
        | some b => s'.setWorker (.found j b)
        | none => s'.setWorker (.finish j (.error .invalidState))
      | none => s
  | .linkCheck j b =>
    when (s.worker = .found j b)
      (s.setWorker (if s.net then .io j b else .finish j (.error .invalidState)))
  | .readEnd j b err =>
    when (s.worker = .io j b) <| match j.kind with
      | .request (.read _ track len) =>
        let s' := s.log .worker [(.read, b)] none
        match err with
        | none =>
          s'.setWorker (.fetched j b (s.w.readAt b (diskTrackOffset track (.ofNat len)) len))
        | some e => s'.setWorker (.finish j (.error e))
      | _ => s
  | .publishRead j b data =>
    when (s.worker = .fetched j b data) <| match j.kind with
      | .request (.read drive track len) =>
        if s.w.stillMounted drive b then
          (s.setDisk (s.w.workerPublish drive track len b data)).setWorker (.finish j (.ok ()))
        else s.setWorker (.finish j (.error .invalidState))
      | _ => s
  | .tear j b junk =>
    when (s.worker = .io j b) <| match j.kind with
      | .request (.write _ track len _ _) =>
        if junk.length = len then
          s.setDisk (s.w.writeAt b (diskTrackOffset track (.ofNat len)) junk)
        else s
      | _ => s
  | .writeEnd j b err =>
    when (s.worker = .io j b) <| match j.kind with
      | .request (.write _ track len data ack) =>
        let off := diskTrackOffset track (.ofNat len)
        let s' := s.log .worker [(.write, b)] ack
        match err with
        | none => (s'.setDisk (s.w.writeAt b off data)).setWorker (.written j b (.ok ()) data)
        | some (e, junk) =>
          if junk.length = len then
            (s'.setDisk (s.w.writeAt b off junk)).setWorker (.written j b (.error e) junk)
          else s
      | _ => s
  | .publishWrite j b r left =>
    when (s.worker = .written j b r left) <| match j.kind with
      | .request (.write drive track len data _) =>
        let s' := s.logWrite b (track.toNat * len) left
        match r with
        | .ok () =>
          (s'.setDisk (s.w.workerPublish drive track len b data)).setWorker (.finish j (.ok ()))
        | .error e => (s'.setDisk (s.w.cacheDropDrive drive)).setWorker (.finish j (.error e))
      | _ => s
  -- worker_mount
  | .want j drive =>
    when (s.worker = .want j drive) <| s.setWorker <| match s.w.workerWants drive with
      | some url => .link j drive url
      | none => .finish j (.ok ())
  | .mountLink j drive url =>
    when (s.worker = .link j drive url) <| s.setWorker <|
      if s.net then .opening j drive url false none else .finish j (.error .invalidState)
  | .sessionUp j drive url readonly up =>
    when (s.worker = .opening j drive url readonly up)
      (s.setWorker (.opening j drive url readonly (some s.reconnects)))
  | .openOk j drive url readonly stamp image =>
    when (s.worker = .opening j drive url readonly (some stamp) ∧
        (s.w.img (.tnfs image)).length < 2 ^ 32)
      (s.setWorker (.opened j drive url readonly image stamp))
  | .openFail j drive url readonly up err =>
    when (s.worker = .opening j drive url readonly up) <| s.setWorker <|
      if readonly then .finish j (.error err) else .opening j drive url true none
  | .newBacking j drive url readonly image stamp ok =>
    when (s.worker = .opened j drive url readonly image stamp ∧
        (s.w.img (.tnfs image)).length < 2 ^ 32) <|
      if ok then (s.alloc (.tnfs image) stamp).setWorker (.built j drive url readonly s.next)
      else s.setWorker (.finish j (.error .noMem))
  | .install j drive url readonly b =>
    when (s.worker = .built j drive url readonly b) <|
      match s.w.workerInstall drive url b readonly with
      | some w => (s.setDisk w).setWorker (.sizing j b)
      | none => s.setWorker (.discard j b)
  | .sizeLog j b =>
    when (s.worker = .sizing j b)
      ((s.log .worker [(.size, b)] none).setWorker (.finish j (.ok ())))
  | .discard j b =>
    when (s.worker = .discard j b)
      ((s.log .worker [(.close, b)] none).setWorker (.finish j (.ok ())))
  -- RJOB_CLOSE
  | .close j b =>
    when (s.worker = .closing j b)
      ((s.log .worker [(.close, b)] none).setWorker (.finish j (.ok ())))
  | .finish j r => when (s.worker = .finish j r) ((s.complete j r).setWorker .idle)

/-- The event task handles a link event, or continues one. -/
def evtStep (s : State) : EventAct → Option State
  -- WIFI_EVENT_STA_DISCONNECTED and disk_remote_unmount_all
  | .disconnected => when (s.evt = .idle) ({ s with net := false }.setEvt .sweeping)
  | .sweep =>
    let r := s.w.sweep
    when (s.evt = .sweeping) ({ (s.setDisk r.1) with swept := true }.setEvt (.disposing r.2))
  | .disposeSend b bs =>
    when (s.evt = .disposing (b :: bs) ∧ s.queue.length < remoteQueueLen)
      ((s.push false (.close b)).setEvt (.disposing bs))
  | .disposeLeak b bs => when (s.evt = .disposing (b :: bs)) ((s.leak b).setEvt (.disposing bs))
  | .disposeDone => when (s.evt = .disposing []) (s.setEvt .idle)
  -- IP_EVENT_STA_GOT_IP and disk_remote_mount_all
  | .gotIp =>
    when (s.evt = .idle)
      ({ s with net := true, swept := false,
                reconnects := s.reconnects + if s.swept then 1 else 0 }.setEvt (.mounting 0))
  | .mountNext i =>
    when (s.evt = .mounting i ∧ i < diskMaxDrive) <| s.setEvt <|
      let dr := s.w.drv i
      if dr.remote && !dr.mounted && !dr.name.isEmpty then .mountPost i else .mounting (i + 1)
  | .mountPost i =>
    when (s.evt = .mountPost i ∧ s.queue.length < remoteQueueLen)
      ((s.push false (.request (.mount i))).setEvt (.mounting (i + 1)))
  | .mountPostFail i => when (s.evt = .mountPost i) (s.setEvt (.mounting (i + 1)))
  | .mountDone => when (s.evt = .mounting diskMaxDrive) (s.setEvt .idle)

def step (s : State) : Act → Option State
  | .task t a => s.taskStep t a
  | .worker a => s.workerStep a
  | .evt a => s.evtStep a

/-- Before the first call: nothing open, nothing mounted (a slot may be configured as a remote drive),
    the link down, every party idle. -/
structure Start (s : State) : Prop where
  drv : ∀ d, (s.w.drv d).mounted = false ∧ (s.w.drv d).readonly = false ∧ (s.w.drv d).backing = none
  cache : s.w.cache.valid = false
  base : s.base = s.w.img
  idle : (∀ t, s.task t = .idle) ∧ s.worker = .idle ∧ s.evt = .idle
  empty : s.queue = [] ∧ s.calls = [] ∧ s.leaked = [] ∧ s.writes = [] ∧ s.reads = []
  counters : s.next = 0 ∧ s.reconnects = 0
  link : s.net = false ∧ s.swept = true ∧ s.mountLock = none

end State

/-- The disk module and its callers. -/
def diskMachine : Machine State Act := ⟨State.Start, State.step⟩

/-- Power-up with an empty table: card images hold 1 2 3 4, remote ones 5 6 7 8. -/
def State.boot : State where
  w := { drv := fun _ => .empty
         buf := []
         cache := ⟨false, 0, 0, 0⟩
         heap := fun _ => ⟨.sd 0, 0⟩
         img := fun i => if i.remote then [5, 6, 7, 8] else [1, 2, 3, 4] }
  next := 0
  nextJob := 0
  net := false
  mountLock := none
  queue := []
  job := fun _ => .abandoned
  task := fun _ => .idle
  worker := .idle
  evt := .idle
  calls := []
  leaked := []
  base := fun i => if i.remote then [5, 6, 7, 8] else [1, 2, 3, 4]
  writes := []
  reads := []
  stamp := fun _ => 0
  reconnects := 0
  swept := true

theorem State.boot_start : boot.Start :=
  ⟨fun _ => ⟨rfl, rfl, rfl⟩, rfl, rfl, ⟨fun _ => rfl, rfl, rfl⟩, ⟨rfl, rfl, rfl, rfl, rfl⟩, ⟨rfl, rfl⟩,
    rfl, rfl, rfl⟩

namespace State

/-- Mount a card image on drive 0. -/
def mountFirst : List Act :=
  [.task 0 (.mountBegin 0 ['A']), .task 0 (.mountOpen 0 ['A'] (some 0)),
    .task 0 (.mountSwap 0 ['A'] ['A'] 0)]

theorem exec_mountFirst : (diskMachine.exec boot mountFirst).isSome = true := by decide

/-- Power-up, then one mount. -/
def firstMounted : State := (diskMachine.exec boot mountFirst).get exec_mountFirst

end State

/-! ### What a party's step leaves alone -/

namespace State

variable {s s' : State}

theorem taskStep_frame {t : ℕ} {a : TaskAct} (h : s.taskStep t a = some s') :
    s'.worker = s.worker ∧ s'.evt = s.evt ∧ s'.net = s.net ∧ s'.swept = s.swept ∧
      s'.reconnects = s.reconnects ∧ s'.base = s.base ∧ (∀ u, u ≠ t → s'.task u = s.task u) := by
  cases a <;> simp only [taskStep, when_eq_some] at h <;> obtain ⟨-, rfl⟩ := h
  all_goals
    repeat' split
  all_goals
    refine ⟨rfl, rfl, rfl, rfl, rfl, rfl, fun u hu => ?_⟩
    first | rfl | exact Function.update_of_ne hu ..

theorem workerStep_frame {a : WorkerAct} (h : s.workerStep a = some s') :
    s'.task = s.task ∧ s'.evt = s.evt ∧ s'.net = s.net ∧ s'.swept = s.swept ∧
      s'.reconnects = s.reconnects ∧ s'.base = s.base ∧ s'.mountLock = s.mountLock ∧
      s'.leaked = s.leaked ∧ s'.reads = s.reads := by
  cases a <;> simp only [workerStep, when_eq_some] at h <;> obtain ⟨-, rfl⟩ := h
  case finish => unfold complete; split <;> exact ⟨rfl, rfl, rfl, rfl, rfl, rfl, rfl, rfl, rfl⟩
  all_goals
    repeat' split
  all_goals exact ⟨rfl, rfl, rfl, rfl, rfl, rfl, rfl, rfl, rfl⟩

theorem evtStep_frame {a : EventAct} (h : s.evtStep a = some s') :
    s'.task = s.task ∧ s'.worker = s.worker ∧ s'.base = s.base ∧ s'.mountLock = s.mountLock ∧
      s'.reads = s.reads ∧ s'.writes = s.writes ∧ s'.stamp = s.stamp ∧ s'.calls = s.calls := by
  cases a <;> simp only [evtStep, when_eq_some] at h <;> obtain ⟨-, rfl⟩ := h <;>
    exact ⟨rfl, rfl, rfl, rfl, rfl, rfl, rfl, rfl⟩

end State

end FdcSds
