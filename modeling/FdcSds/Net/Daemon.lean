import FdcSds.Net.Sessions
import FdcSds.Schemes.Contracts
import FdcSds.Schemes.Runs

/-! The TNFS server task (`tnfsd_task`), over any card.

    The session table starts as zeros, so a slot's descriptors read as 0 until the first loop of the
    task has freed every slot. After that the task serves datagrams, times out waiting for one, and drops
    all sessions when the link goes down. `log` records each call on the card with the slot on whose
    behalf it was made: reaping and dropping act for the slot they free, a turn for the slot it chose.

        zeroed table ──start──▶ serve ◀──▶ datagram, timeout, link down -/

namespace FdcSds.Tnfsd
open Schemes Schemes.Runs Prog

/-- A slot of the static table before `tnfsd_task` runs: all zeros, so descriptor 0 everywhere. -/
def Session.static : Session := { Session.zero with files := fun _ => some 0 }

/-- A call on the card and its answer. -/
abbrev SysOp : Type := Op SysCall SysCall.Answer

structure Daemon (σ : Type) where
  started : Bool
  server : Server
  card : σ
  log : List (ℕ × SysOp)

inductive Beat where
  | start
  | datagram (now : ℕ) (peer : Peer) (rx : Bytes)
  | timeout (now : ℕ)
  | linkDown

/-- The loop at the start of `tnfsd_task`, over the first `n` slots. -/
def startLoop : ℕ → Server → Sys Server
  | 0, v => pure v
  | n + 1, v => do
    let v ← startLoop n v
    let s ← freeSession (v.sessions n)
    pure (v.setSession n s)

namespace Daemon

variable {σ : Type} (world : σ → (c : SysCall) → σ × c.Answer)

/-- The calls of `reap_idle`, each with the slot it frees. -/
def reapOps (now : ℕ) : ℕ → σ → Server → List (ℕ × SysOp)
  | 0, _, _ => []
  | n + 1, card, v =>
    let w := run world card (Server.reapIdle now n v)
    reapOps now n card v ++
      if (w.2.sessions n).inUse && tnfsdIdleUs < now - (w.2.sessions n).lastActiveUs then
        (trace world w.1 (freeSession (w.2.sessions n))).map (Prod.mk n)
      else []

/-- The calls of `drop_all_sessions`, each with the slot it frees. -/
def dropOps : ℕ → σ → Server → List (ℕ × SysOp)
  | 0, _, _ => []
  | n + 1, card, v =>
    let w := run world card (Server.dropSessions n v)
    dropOps n card v ++
      if (w.2.sessions n).inUse then (trace world w.1 (freeSession (w.2.sessions n))).map (Prod.mk n)
      else []

/-- The calls of the first loop, each with the slot it frees. -/
def startOps : ℕ → σ → Server → List (ℕ × SysOp)
  | 0, _, _ => []
  | n + 1, card, v =>
    let w := run world card (startLoop n v)
    startOps n card v ++ (trace world w.1 (freeSession (w.2.sessions n))).map (Prod.mk n)

/-- The calls of one turn: the reaping, then what the datagram makes the server do. -/
def serveOps (now : ℕ) (peer : Peer) (rx : Bytes) (card : σ) (v : Server) : List (ℕ × SysOp) :=
  let w := run world card (Server.reapIdle now tnfsdMaxSessions v)
  let t := w.2.turn peer rx
  reapOps world now tnfsdMaxSessions card v ++
    (trace world w.1 (w.2.answer now peer rx t)).map (Prod.mk t.slot)

def step (d : Daemon σ) : Beat → Option (Daemon σ)
  | .start =>
    let w := run world d.card (startLoop tnfsdMaxSessions d.server)
    when (d.started = false)
      ⟨true, w.2, w.1, d.log ++ startOps world tnfsdMaxSessions d.card d.server⟩
  | .datagram now peer rx =>
    let w := run world d.card (d.server.serve now peer (rx.take tnfsMsgCap))
    when (d.started = true)
      ⟨true, w.2.1, w.1, d.log ++ serveOps world now peer (rx.take tnfsMsgCap) d.card d.server⟩
  | .timeout now =>
    let w := run world d.card (d.server.serve now ⟨0, 0⟩ [])
    when (d.started = true) ⟨true, w.2.1, w.1, d.log ++ serveOps world now ⟨0, 0⟩ [] d.card d.server⟩
  | .linkDown =>
    let w := run world d.card (Server.dropSessions tnfsdMaxSessions d.server)
    when (d.started = true)
      ⟨true, w.2, w.1, d.log ++ dropOps world tnfsdMaxSessions d.card d.server⟩

def machine : Machine (Daemon σ) Beat where
  start d := ∃ card, d = ⟨false, ⟨fun _ => .static, 1⟩, card, []⟩
  step d b := d.step world b

/-! ### The slots in the log are annotations -/

theorem map_snd_tag (n : ℕ) (ops : List SysOp) : (ops.map (Prod.mk n)).map Prod.snd = ops := by
  simp [Function.comp_def]

theorem reapOps_erase (now n : ℕ) (card : σ) (v : Server) :
    (reapOps world now n card v).map Prod.snd = trace world card (Server.reapIdle now n v) := by
  induction n with
  | zero => rfl
  | succ n ih =>
    simp only [reapOps, Server.reapIdle, trace_bind, List.map_append, ih]
    split
    · rw [trace_bind, map_snd_tag]
      exact congrArg _ (List.append_nil _).symm
    · rfl

theorem dropOps_erase (n : ℕ) (card : σ) (v : Server) :
    (dropOps world n card v).map Prod.snd = trace world card (Server.dropSessions n v) := by
  induction n with
  | zero => rfl
  | succ n ih =>
    simp only [dropOps, Server.dropSessions, trace_bind, List.map_append, ih]
    split
    · rw [trace_bind, map_snd_tag]
      exact congrArg _ (List.append_nil _).symm
    · rfl

theorem startOps_erase (n : ℕ) (card : σ) (v : Server) :
    (startOps world n card v).map Prod.snd = trace world card (startLoop n v) := by
  induction n with
  | zero => rfl
  | succ n ih =>
    simp only [startOps, startLoop, trace_bind, List.map_append, ih, map_snd_tag]
    exact congrArg _ (List.append_nil _).symm

/-- Without the slots, the log of a turn is the calls the server makes in it. -/
theorem serveOps_erase (now : ℕ) (peer : Peer) (rx : Bytes) (card : σ) (v : Server) :
    (serveOps world now peer rx card v).map Prod.snd = trace world card (v.serve now peer rx) := by
  simp only [serveOps, Server.serve, trace_bind, List.map_append, reapOps_erase, map_snd_tag]

end Daemon

end FdcSds.Tnfsd
