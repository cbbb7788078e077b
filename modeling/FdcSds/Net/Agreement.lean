import FdcSds.Net.Directory
import FdcSds.Net.Answers

/-! The client reads what the server said.

    Every handler answers with a `Reply` that tells what the card's calls gave it: the descriptor opened,
    the position, the count, the data, and the directory entries in the order they were read, where an
    entry that did not fit waits in the slot for the next request. With the names `readdir` gives, each
    reply fits the client's buffer and its length rules; at the end of a file they do not fit.

        calls ──log──▶ handler ──▶ Reply, Told by the log ──▶ bytes ──▶ client -/

namespace FdcSds.Tnfsd
open Schemes Schemes.Runs Prog

/-- Any call may be made, and the answers are as documented. -/
abbrev documented : Contract SysCall SysCall.Answer (List SysOp) :=
  spoken (fun _ => True) fun _ => SysCall.Documented

theorem documented_reads (k : ℕ) : Reads (fun _ => True) (fun _ => SysCall.Documented) k :=
  ⟨trivial, fun _ => trivial, fun _ _ _ h => h⟩

/-- The reply tells what the calls gave, and where the session has it now. `s` is the session before,
    `t` after the request `pl`. -/
def Reply.Told (s t : Session) (pl : Bytes) (log : List SysOp) : Reply → Prop
  | .file h => ∃ path flags fd, (⟨.open path flags, .ok fd⟩ : SysOp) ∈ log ∧ t.files h.toNat = some fd
  | .dir h | .listing h _ =>
    ∃ path d, (⟨.opendir path, .ok d⟩ : SysOp) ∈ log ∧ (t.dirs h.toNat).map DirSlot.dir = some d
  | .moved pos => ∃ fd off w, (⟨.lseek fd off w, .ok pos⟩ : SysOp) ∈ log
  | .wrote n => ∃ fd data, (⟨.write fd data, .ok n⟩ : SysOp) ∈ log
  | .data d => ∃ fd n, (⟨.read fd n, .ok d⟩ : SysOp) ∈ log
  | .name x => ∃ e d d', e.name = x ∧ s.dirSlot (pl.getD 0 0) = some d ∧ t.dirSlot (pl.getD 0 0) = some d' ∧
      d.pending.toList ++ d.entriesIn log = e :: d'.pending.toList
  | .batch _ _ es => ∃ d d', s.dirSlot (pl.getD 0 0) = some d ∧ t.dirSlot (pl.getD 0 0) = some d' ∧
      d.pending.toList ++ d.entriesIn log = es ++ d'.pending.toList
  | _ => True

def Session.Named (s : Session) : Prop := ∀ i d, s.dirs i = some d → d.Named

/-! ### What the handlers say -/

/-- A reply the command can get, that tells what the calls gave. -/
def Said (s : Session) (cmd : UInt8) (pl : Bytes) (log : List SysOp) (r : Session × Bytes) : Prop :=
  r.1.Named ∧ ∃ a : Reply, r.2 = a.body ∧ a.Fits cmd ∧ a.Told s r.1 pl log

variable {s : Session} {d : DirSlot} {log : List SysOp} {cmd st : UInt8} {pl : Bytes}

theorem said_failed (hs : s.Named) (hok : st ≠ tnfsOk) (hagain : st ≠ tnfsEagain) :
    Said s cmd pl log (s, [st]) :=
  ⟨hs, .failed st, rfl, ⟨hok, hagain⟩, trivial⟩

theorem said_errno (hs : s.Named) (e : Errno) : Said s cmd pl log (s, [errnoToTnfs e]) :=
  said_failed hs (by cases e <;> decide) (by cases e <;> decide)

theorem withPath_said {k : CStr → Sys (Session × Bytes)} (hs : s.Named)
    (hk : ∀ abs, documented.Obeys [] (k abs) (Said s cmd pl)) :
    documented.Obeys [] (withPath s pl k) (Said s cmd pl) := by
  unfold withPath
  split
  · exact said_failed hs (by decide) (by decide)
  · split
    · exact said_failed hs (by decide) (by decide)
    · split
      · next hres =>
        rcases resolvePath_error hres with rfl | rfl <;> exact said_failed hs (by decide) (by decide)
      · exact hk _

theorem hClose_said (hs : s.Named) : documented.Obeys [] (hClose s pl) (Said s tnfsClose pl) := by
  unfold hClose
  split
  · exact said_failed hs (by decide) (by decide)
  · split
    · exact said_failed hs (by decide) (by decide)
    · exact ⟨trivial, fun _ _ => ⟨hs, .done, rfl, .inr (.inl rfl), trivial⟩⟩

theorem hRead_said (hs : s.Named) : documented.Obeys [] (hRead s pl) (Said s tnfsRead pl) := by
  unfold hRead
  split
  · exact said_failed hs (by decide) (by decide)
  · split
    · exact said_failed hs (by decide) (by decide)
    · next fd _ =>
      refine ⟨trivial, fun r hr => ?_⟩
      cases r with
      | error e => exact said_errno hs e
      | ok data =>
        refine Contract.obeys_ite (said_failed hs (by decide) (by decide)) ?_
        have hlen : data.length ≤ min (word pl 1) tnfsIoChunk := hr
        refine ⟨hs, .data data, rfl, ⟨rfl, hlen.trans (min_le_right ..)⟩, fd, min (word pl 1) tnfsIoChunk, ?_⟩
        exact List.mem_singleton_self _

theorem hWrite_said (hs : s.Named) : documented.Obeys [] (hWrite s pl) (Said s tnfsWrite pl) := by
  unfold hWrite
  split
  · exact said_failed hs (by decide) (by decide)
  · split
    · exact said_failed hs (by decide) (by decide)
    · split
      · exact said_failed hs (by decide) (by decide)
      · next fd _ =>
        refine ⟨trivial, fun r hr => ?_⟩
        cases r with
        | error e => exact said_errno hs e
        | ok w =>
          have hlen : w ≤ (slice pl 3 (word pl 1)).length := hr
          have hslice : (slice pl 3 (word pl 1)).length ≤ word pl 1 := List.length_take_le ..
          have hword := word_lt pl 1
          refine ⟨hs, .wrote w, rfl, ⟨rfl, by omega⟩, fd, slice pl 3 (word pl 1), ?_⟩
          exact List.mem_singleton_self _

theorem hLseek_said (hs : s.Named) : documented.Obeys [] (hLseek s pl) (Said s tnfsLseek pl) := by
  unfold hLseek
  split
  · exact said_failed hs (by decide) (by decide)
  · split
    · exact said_failed hs (by decide) (by decide)
    · next fd _ =>
      split
      · exact said_failed hs (by decide) (by decide)
      · next w _ =>
        refine ⟨trivial, fun r hr => ?_⟩
        cases r with
        | error e => exact said_errno hs e
        | ok pos =>
          exact ⟨hs, .moved pos, rfl, ⟨rfl, hr⟩, fd, int32 (dword pl 2), w, List.mem_singleton_self _⟩

theorem Session.setDir_dirs (s : Session) (h : UInt8) (d : Option DirSlot) (i : ℕ) :
    (s.setDir h d).dirs i = if i = h.toNat then d else s.dirs i := Function.update_apply ..

theorem Session.Named.setDir {s : Session} (hs : s.Named) {h : UInt8} {d : Option DirSlot}
    (hd : ∀ d', d = some d' → d'.Named) : (s.setDir h d).Named := by
  intro i d' hi
  rw [s.setDir_dirs] at hi
  split at hi
  · exact hd d' hi
  · exact hs i d' hi

theorem Session.Named.dirSlot {s : Session} (hs : s.Named) {h : UInt8} {d : DirSlot}
    (hd : s.dirSlot h = some d) :
    d.Named := by
  unfold Session.dirSlot at hd
  split at hd
  · exact hs _ d hd
  · cases hd

/-- The open of a file, between the guard and its end for a writing one. -/
theorem openGuarded_said (path : CStr) (of : OpenFlags) :
    documented.Obeys log (openGuarded path of) fun log' r =>
    ∀ fd, r = some (.ok fd) → (⟨.open path of, .ok fd⟩ : SysOp) ∈ log' := by
  unfold openGuarded
  split
  · refine ⟨trivial, fun drive _ => ?_⟩
    change documented.Obeys _ (if drive.isSome = true then _ else _) _
    refine Contract.obeys_ite (by rintro fd ⟨⟩) ⟨trivial, fun r _ => ⟨trivial, fun _ _ => ?_⟩⟩
    rintro fd ⟨⟩
    change _ ∈ log ++ _ ++ _ ++ _
    simp
  · refine ⟨trivial, fun r _ => ?_⟩
    rintro fd ⟨⟩
    change _ ∈ log ++ _
    simp

theorem hOpen_said (hs : s.Named) : documented.Obeys [] (hOpen s pl) (Said s tnfsOpen pl) := by
  unfold hOpen
  split
  · exact said_failed hs (by decide) (by decide)
  · split
    · exact said_failed hs (by decide) (by decide)
    · split
      · next hres =>
        rcases resolvePath_error hres with rfl | rfl <;> exact said_failed hs (by decide) (by decide)
      · next abs _ =>
        split
        · exact said_failed hs (by decide) (by decide)
        · next slot hslot =>
          obtain ⟨hlt, -⟩ := firstSlot_some hslot
          refine Contract.Obeys.bind ((openGuarded_said abs _).mono fun log r hopen => ?_)
          rcases r with _ | e | fd
          · exact said_failed hs (by decide) (by decide)
          · exact said_errno hs e
          · have hnat : (UInt8.ofNat slot).toNat = slot := by
              have hmax : tnfsdMaxFiles = 4 := rfl
              simp only [UInt8.toNat_ofNat']
              omega
            refine ⟨hs, .file (UInt8.ofNat slot), rfl, rfl, abs, _, fd, hopen fd rfl, ?_⟩
            exact (congrArg _ hnat).trans (Function.update_self ..)

theorem hClosedir_said (hs : s.Named) : documented.Obeys [] (hClosedir s pl) (Said s tnfsClosedir pl) := by
  unfold hClosedir
  split
  · exact said_failed hs (by decide) (by decide)
  · split
    · exact said_failed hs (by decide) (by decide)
    · exact ⟨trivial, fun _ _ => ⟨hs.setDir (by rintro d' ⟨⟩), .done, rfl, .inr (.inr rfl), trivial⟩⟩

/-- A new slot in a session of named ones. -/
theorem Session.Named.opened {s : Session} (hs : s.Named) {slot : ℕ} (hlt : slot < tnfsdMaxDirs) {d : DirSlot}
    (hd : d.pending = none) : ({ s with dirs := Function.update s.dirs slot (some d) } : Session).Named ∧
      (Function.update s.dirs slot (some d) (UInt8.ofNat slot).toNat).map DirSlot.dir = some d.dir := by
  have hnat : (UInt8.ofNat slot).toNat = slot := by
    have hmax : tnfsdMaxDirs = 2 := rfl
    simp only [UInt8.toNat_ofNat']
    omega
  have hnamed : (s.setDir (UInt8.ofNat slot) (some d)).Named := by
    refine hs.setDir ?_
    rintro d' ⟨⟩ e he
    rw [hd] at he
    cases he
  rw [Session.setDir, hnat] at hnamed
  refine ⟨hnamed, ?_⟩
  rw [hnat, Function.update_self]
  rfl

theorem hOpendir_said (hs : s.Named) : documented.Obeys [] (hOpendir s pl) (Said s tnfsOpendir pl) := by
  refine withPath_said hs fun abs => ?_
  split
  · exact said_failed hs (by decide) (by decide)
  · next slot hslot =>
    obtain ⟨hlt, -⟩ := firstSlot_some hslot
    refine ⟨trivial, fun r _ => ?_⟩
    cases r with
    | error e => exact said_errno hs e
    | ok stream =>
      obtain ⟨hnamed, hdir⟩ := hs.opened hlt (d := ⟨stream, strlcpy tnfsdAbsCap abs, [], 0, none⟩) rfl
      exact ⟨hnamed, .dir (UInt8.ofNat slot), rfl, rfl, abs, stream, List.mem_singleton_self _, hdir⟩

/-- Counting only reads names. -/
theorem countLoop_log {op : SysOp} (hop : op ∈ log) (fuel count : ℕ) :
    documented.Obeys log (countLoop d fuel count) fun log' _ => op ∈ log' := by
  induction fuel generalizing log count with
  | zero => exact hop
  | succ fuel ih =>
    refine ⟨trivial, fun r _ => ?_⟩
    cases r with
    | none => exact List.mem_append_left _ hop
    | some de => exact ih (List.mem_append_left _ hop) _

theorem hOpendirx_said (hs : s.Named) : documented.Obeys [] (hOpendirx s pl) (Said s tnfsOpendirx pl) := by
  unfold hOpendirx
  split
  · exact said_failed hs (by decide) (by decide)
  · split
    · exact said_failed hs (by decide) (by decide)
    · split
      · exact said_failed hs (by decide) (by decide)
      · split
        · next hres =>
          rcases resolvePath_error hres with rfl | rfl <;> exact said_failed hs (by decide) (by decide)
        · next abs _ =>
          split
          · exact said_failed hs (by decide) (by decide)
          · next slot hslot =>
            obtain ⟨hlt, -⟩ := firstSlot_some hslot
            refine ⟨trivial, fun r _ => ?_⟩
            cases r with
            | error e => exact said_errno hs e
            | ok stream =>
              change documented.Obeys _ (countLoop _ fatDirEntries 0 >>= _) _
              refine Contract.Obeys.bind ((countLoop_log (List.mem_singleton_self _) _ _).mono
                fun log' count hmem => ?_)
              refine ⟨trivial, fun _ _ => ?_⟩
              obtain ⟨hnamed, hdir⟩ := hs.opened hlt (d := ⟨stream, strlcpy tnfsdAbsCap abs, _, 0, none⟩) rfl
              refine ⟨hnamed, .listing (UInt8.ofNat slot) count, rfl, rfl, abs, stream, ?_, hdir⟩
              exact List.mem_append_left _ hmem

theorem Session.dirSlot_setDir {s : Session} {h : UInt8} {d d' : DirSlot} (hd : s.dirSlot h = some d) :
    (s.setDir h (some d')).dirSlot h = some d' := by
  unfold Session.dirSlot at hd ⊢
  split at hd
  · next hlt => rw [if_pos hlt, s.setDir_dirs, if_pos rfl]
  · cases hd

theorem hReaddir_said (hs : s.Named) : documented.Obeys [] (hReaddir s pl) (Said s tnfsReaddir pl) := by
  unfold hReaddir
  split
  · exact said_failed hs (by decide) (by decide)
  · split
    · exact said_failed hs (by decide) (by decide)
    · next d hd =>
      refine Contract.Obeys.bind ((dirNext_moves (documented_reads _) (hs.dirSlot hd)).mono ?_)
      rintro log ⟨d', r⟩ ⟨⟨-, hd', hnames, given, hgave, hgiven⟩, -⟩
      have hnamed : (s.setDir (pl.getD 0 0) (some d')).Named := hs.setDir (by rintro d'' ⟨⟩; exact hd')
      cases r with
      | none => exact ⟨hnamed, .failed tnfsEof, rfl, ⟨by decide, by decide⟩, trivial⟩
      | some e =>
        have hname : WireName e.name := hnames e (by simp)
        refine ⟨hnamed, .name e.name, ?_, ⟨rfl, hname⟩, e, d, d', rfl, hd, Session.dirSlot_setDir hd, ?_⟩
        · dsimp only
          rw [hname.take_bytes]
          rfl
        · rw [hgave.entriesIn, hgiven]
          rfl

theorem hReaddirx_said (hs : s.Named) : documented.Obeys [] (hReaddirx s pl) (Said s tnfsReaddirx pl) := by
  unfold hReaddirx
  split
  · exact said_failed hs (by decide) (by decide)
  · split
    · exact said_failed hs (by decide) (by decide)
    · next d hd =>
      refine Contract.Obeys.bind ((readdirxLoop_batched (documented_reads _) (hs.dirSlot hd) _ [] 0
        (by decide)).mono ?_)
      rintro log ⟨d', out, count, status⟩ ⟨es, ⟨hsame, hd', hnames, given, hgave, hgiven⟩, rfl,
        rfl, hlen, hroom, -, -⟩
      have hnamed : (s.setDir (pl.getD 0 0) (some d')).Named := hs.setDir (by rintro d'' ⟨⟩; exact hd')
      refine Contract.obeys_ite ⟨hnamed, .failed tnfsEof, rfl, ⟨by decide, by decide⟩, trivial⟩ ?_
      have hbyte := (pl.getD 1 0).toNat_lt
      refine ⟨hs.setDir (by rintro d'' ⟨⟩; exact hd'), .batch status d'.pos es, ?_,
        ⟨rfl, by omega, hnames, ?_⟩, d, _, hd,
        Session.dirSlot_setDir hd, ?_⟩
      · simp [Reply.body]
      · simpa using hroom
      · rw [hgave.entriesIn, hgiven]

/-- The commands the client issues. -/
def clientCommands : List UInt8 :=
  [tnfsMount, tnfsUmount, tnfsOpen, tnfsClose, tnfsLseek, tnfsRead, tnfsWrite,
  tnfsOpendir, tnfsOpendirx, tnfsReaddir, tnfsReaddirx, tnfsClosedir]

theorem handle_said (hs : s.Named) (hcmd : cmd ∈ clientCommands) :
    documented.Obeys [] (handle s cmd pl) (Said s cmd pl) := by
  simp only [clientCommands, List.mem_cons, List.not_mem_nil, or_false] at hcmd
  rcases hcmd with rfl | rfl | rfl | rfl | rfl | rfl | rfl | rfl | rfl | rfl | rfl | rfl
  · exact said_failed hs (by decide) (by decide)
  · exact ⟨hs, .done, rfl, .inl rfl, trivial⟩
  · exact hOpen_said hs
  · exact hClose_said hs
  · exact hLseek_said hs
  · exact hRead_said hs
  · exact hWrite_said hs
  · exact hOpendir_said hs
  · exact hOpendirx_said hs
  · exact hReaddir_said hs
  · exact hReaddirx_said hs
  · exact hClosedir_said hs

/-- What a program ensures it ensures under the contract: any call may be made. -/
theorem documented_of_ensures {α : Type} {p : Sys α} {P : α → Prop} (h : p.Ensures P) :
    documented.Obeys log p fun _ a => P a := by
  induction p generalizing log with
  | ret a => exact h
  | call call k ih => exact ⟨trivial, fun r _ => ih r (h r)⟩

/-- A handler that only answers. -/
theorem withPath_same {k : CStr → Sys (Session × Bytes)} (hk : ∀ abs, (k abs).Ensures fun r => r.1 = s) :
    (withPath s pl k).Ensures fun r => r.1 = s := by
  unfold withPath
  repeat' split
  any_goals exact rfl
  exact hk _

theorem handle_other (hcmd : cmd ∉ clientCommands) : (handle s cmd pl).Ensures fun r => r.1 = s := by
  simp only [clientCommands, List.mem_cons, List.not_mem_nil, or_false, not_or] at hcmd
  obtain ⟨-, humount, hopen, hclose, hlseek, hread, hwrite, hopendir, hopendirx, hreaddir,
    hreaddirx, hclosedir⟩ := hcmd
  have hpath : ∀ op, (hPathop op s pl).Ensures fun r => r.1 = s := fun op =>
    withPath_same fun abs => Ensures.bind_of_forall fun _ => rfl
  rw [handle, if_neg humount, if_neg hopen, if_neg hread, if_neg hwrite, if_neg hclose, if_neg hlseek]
  refine ensures_ite (withPath_same fun abs => Ensures.bind_of_forall fun r => ?_) ?_
  · cases r <;> rfl
  refine ensures_ite (hpath _) (ensures_ite (hpath _) (ensures_ite (hpath _) (ensures_ite ?_ ?_)))
  · unfold hRename
    repeat' split
    any_goals exact rfl
    exact Ensures.bind_of_forall fun _ => rfl
  rw [if_neg hopendir, if_neg hopendirx, if_neg hreaddir, if_neg hreaddirx, if_neg hclosedir]
  exact ensures_ite rfl rfl

theorem handle_named (hs : s.Named) : documented.Obeys [] (handle s cmd pl) fun _ r => r.1.Named := by
  by_cases hcmd : cmd ∈ clientCommands
  · exact (handle_said hs hcmd).mono fun _ r h => h.1
  · exact documented_of_ensures ((handle_other hcmd).mono fun r hr => hr ▸ hs)

/-! ### Turns -/

namespace Server

variable {v : Server}

def Named (v : Server) : Prop := ∀ i, (v.sessions i).Named

theorem named_zero : Session.zero.Named := by
  rintro i d ⟨⟩

theorem Named.freed {v' : Server} (h : v.Named) (hf : v.Freed v') : v'.Named := by
  intro i
  rcases hf i with hsame | hzero
  · rw [hsame]
    exact h i
  · rw [hzero]
    exact named_zero

theorem Named.slot {v' : Server} (h : v.Named) {k : ℕ} (hrest : ∀ j ≠ k, v'.sessions j = v.sessions j)
    (hk : (v'.sessions k).Named) : v'.Named := by
  intro i
  by_cases hi : i = k
  · rwa [hi]
  · rw [hrest i hi]
    exact h i

/-- The reply `m` to `rx` says what the turn of `v` for slot `k` did, which gave `v'`. -/
def Says (v v' : Server) (k : ℕ) (rx : Bytes) (log : List SysOp) (m : Sent) : Prop :=
  ∃ (sid : UInt16) (a : Reply), m.data = tnfsHeader sid (rx.getD 2 0) (rx.getD 3 0) ++ a.body ∧
    a.Fits (rx.getD 3 0) ∧
    a.Told (v.sessions k) (v'.sessions k) (rx.drop tnfsHdrLen) log ∧
      (∀ ms, a = .mounted ms → (v'.sessions k).sid = sid)

theorem process_tells (now : ℕ) {s : Session} (hs : s.Named) (seq cmd : UInt8) (pl : Bytes) :
    documented.Obeys [] (process now s seq cmd pl) fun log r => r.1.Named ∧
      (cmd ∈ clientCommands → cmd ≠ tnfsMount →
      ∃ (m : Sent) (sid : UInt16) (a : Reply), r.2 = [m] ∧
        m.data = tnfsHeader sid seq cmd ++ a.body ∧ a.Fits cmd ∧
        a.Told s r.1 pl log) := by
  have hhandle : documented.Obeys [] (handle s cmd pl) fun log r => r.1.Named ∧
      (cmd ∈ clientCommands → Said s cmd pl log r) := by
    by_cases hcmd : cmd ∈ clientCommands
    · exact (handle_said hs hcmd).mono fun _ r h => ⟨h.1, fun _ => h⟩
    · exact (handle_named hs).mono fun _ r h => ⟨h, fun hin => absurd hin hcmd⟩
  refine Contract.Obeys.bind (hhandle.mono ?_)
  rintro log ⟨u, body⟩ ⟨hnamed, hsaid⟩
  -- the whole body goes into the reply buffer
  have hreply : cmd ∈ clientCommands → ∃ a :
    Reply, (u.cacheReply seq cmd body).reply = tnfsHeader u.sid seq cmd ++ a.body ∧
      a.Fits cmd ∧ a.Told s u pl log := by
    intro hcmd
    obtain ⟨-, a, rfl, hfits, htold⟩ := hsaid hcmd
    refine ⟨a, ?_, hfits, htold⟩
    rw [Session.cacheReply, List.take_of_length_le hfits.short]
  dsimp only
  split
  · next humount =>
    refine Contract.Obeys.bind ((documented_of_ensures (freeSession_zero _)).mono fun log' z hz => ?_)
    subst hz
    refine ⟨named_zero, fun hcmd _ => ?_⟩
    obtain ⟨a, hdata, hfits, htold⟩ := hreply hcmd
    refine ⟨_, u.sid, a, rfl, hdata, hfits, ?_⟩
    subst humount
    cases a with
    | failed | busy | done | mounted => trivial
    | file | dir | listing => cases (hfits : tnfsUmount = _)
    | moved | wrote | data | name | batch => cases hfits.1
  · refine ⟨hnamed, fun hcmd _ => ?_⟩
    obtain ⟨a, hdata, hfits, htold⟩ := hreply hcmd
    refine ⟨_, u.sid, a, rfl, hdata, hfits, ?_⟩
    cases a <;> exact htold

theorem mountIn_tells (now : ℕ) (peer : Peer) (seq : UInt8) (pl : Bytes) (hv : v.Named) (i : ℕ) :
    (v.mountIn now peer seq pl i).Ensures fun r => r.1.Named ∧ ∃ (m : Sent) (sid : UInt16)
    (a : Reply), r.2 = [m] ∧
      m.data = tnfsHeader sid seq tnfsMount ++ a.body ∧ a.Fits tnfsMount ∧ (∀ s t pl log, a.Told s t pl log) ∧
      (∀ ms, a = .mounted ms → (r.1.sessions i).sid = sid) := by
  have hslot : ∀ (v' : Server), (∀ j ≠ i, v'.sessions j = v.sessions j) →
    (v'.sessions i).dirs = (fun _ => none) → v'.Named := by
    intro v' hrest hdirs
    refine hv.slot hrest fun h d hd => ?_
    rw [hdirs] at hd
    cases hd
  refine Ensures.bind_of_forall fun _ => ensures_ite ?_ ?_
  · refine Ensures.bind ((freeSession_zero _).mono fun z hz => ?_)
    subst hz
    refine ⟨hslot _ (fun j hj => by simp [setSession, allocSession, hj])
      (by simp [setSession, Session.zero]), _, _,
      .failed tnfsEnoent, rfl, rfl, ⟨by decide, by decide⟩, fun _ _ _ _ => trivial, by rintro ms ⟨⟩⟩
  · refine ⟨hslot _ (fun j hj => by simp [setSession, allocSession, hj])
      (by simp [setSession, Session.cacheReply, allocSession, Session.zero]), _, _,
        .mounted tnfsdMinRetryMs, rfl, rfl, rfl,
      fun _ _ _ _ => trivial, fun ms _ => ?_⟩
    simp [setSession, Session.cacheReply, allocSession]

/-- Every turn keeps the names, and a handler's reply says what it did. -/
theorem answer_tells (now : ℕ) (peer : Peer) (rx : Bytes) (hv : v.Named) :
    documented.Obeys [] (v.answer now peer rx (v.turn peer rx)) fun log r => r.1.Named ∧
      (rx.getD 3 0 ∈ clientCommands → (∀ i, v.turn peer rx ≠ .replay i) →
        ∀ m ∈ r.2, v.Says r.1 (v.turn peer rx).slot rx log m) := by
  cases hturn : v.turn peer rx with
  | ignored => exact ⟨hv, fun _ _ m hm => absurd hm List.not_mem_nil⟩
  | replay i =>
    refine ⟨hv.slot (fun j hj => setSession_of_ne _ hj) ?_, fun _ hnew => absurd rfl (hnew i)⟩
    rw [resend, setSession_self]
    exact hv i
  | refused =>
    refine ⟨hv, fun _ _ m hm => ?_⟩
    have hcmd : rx.getD 3 0 = tnfsMount := turn_refused hturn
    rw [List.mem_singleton.mp hm]
    refine ⟨0, .busy tnfsdMinRetryMs, ?_, ⟨hcmd, by decide⟩, trivial, by rintro ms ⟨⟩⟩
    rw [hcmd]
    rfl
  | mount i =>
    obtain ⟨-, hcmd, -⟩ := turn_mount hturn
    refine (documented_of_ensures (mountIn_tells now peer _ _ hv i)).mono ?_
    rintro log ⟨v', out⟩ ⟨hnamed, m, sid, a, rfl, hdata, hfits, htold, hsid⟩
    refine ⟨hnamed, fun _ _ m' hm' => ?_⟩
    rw [List.mem_singleton.mp hm']
    rw [← hcmd] at hdata hfits
    exact ⟨sid, a, hdata, hfits, htold _ _ _ _, hsid⟩
  | run i =>
    obtain ⟨-, hmount, -⟩ := turn_run hturn
    refine Contract.Obeys.bind ((process_tells now (hv i) _ _ _).mono ?_)
    rintro log ⟨s, out⟩ ⟨hnamed, hsaid⟩
    refine ⟨hv.slot (fun j hj => setSession_of_ne _ hj) (by rwa [setSession_self]), fun hin _ m hm => ?_⟩
    obtain ⟨m', sid, a, rfl, hdata, hfits, htold⟩ := hsaid hin hmount
    rw [List.mem_singleton.mp hm]
    refine ⟨sid, a, hdata, hfits, ?_, ?_⟩
    · rw [Turn.slot, setSession_self]
      exact htold
    · rintro ms rfl
      exact absurd hfits hmount

end Server

/-! ### The end of a file -/

variable {σ : Type} (world : σ → (c : SysCall) → σ × c.Answer)

/-- A READ of one byte or more, of an open file, where the card has no more of it to give. -/
def ReadsAtEnd (card : σ) (s : Session) (pl : Bytes) : Prop :=
  3 ≤ pl.length ∧ 0 < word pl 1 ∧ ∃ fd, s.file (pl.getD 0 0) = some fd ∧
    (world card (.read fd (min (word pl 1) tnfsIoChunk))).2 = .ok []

variable {world}

theorem errno_ne_eof (e : Errno) : errnoToTnfs e ≠ tnfsEof := by cases e <;> decide

/-- READ answers EOF exactly there. -/
theorem hRead_eof_iff {card : σ} {s : Session} {pl : Bytes} :
    (run world card (hRead s pl)).2.2 = [tnfsEof] ↔ ReadsAtEnd world card s pl := by
  unfold hRead ReadsAtEnd
  split
  · next hshort =>
    simp only [run_pure, List.cons.injEq, and_true]
    exact ⟨fun h => absurd h (by decide), fun h => absurd h.1 (by omega)⟩
  · next hlong =>
    split
    · next hnone =>
      simp only [run_pure, List.cons.injEq, and_true]
      refine ⟨fun h => absurd h (by decide), ?_⟩
      rintro ⟨-, -, fd, hfd, -⟩
      rw [hnone] at hfd
      cases hfd
    · next fd hfd =>
      have hwant : 0 < min (word pl 1) tnfsIoChunk ↔ 0 < word pl 1 := by
        have hchunk : tnfsIoChunk = 1024 := rfl
        omega
      simp only [sysRead, run_bind, run_ask]
      cases hr : (world card (.read fd (min (word pl 1) tnfsIoChunk))).2 with
      | error e =>
        simp only [run_pure, List.cons.injEq, and_true]
        refine ⟨fun h => absurd h (errno_ne_eof e), ?_⟩
        rintro ⟨-, -, fd', hfd', hend⟩
        rw [hfd] at hfd'
        cases hfd'
        rw [hr] at hend
        cases hend
      | ok data =>
        dsimp only
        split
        · next hempty =>
          simp only [run_pure, true_iff]
          exact ⟨Nat.not_lt.mp hlong, hwant.mp hempty.2, fd, hfd,
            by rw [hr, List.length_eq_zero_iff.mp hempty.1]⟩
        · next hsome =>
          refine ⟨fun h => absurd (congrArg List.length h) ?_, ?_⟩
          · simp only [run_pure, List.length_append, length_le16, List.length_singleton]
            omega
          · rintro ⟨-, hpos, fd', hfd', hend⟩
            rw [hfd] at hfd'
            cases hfd'
            rw [hr] at hend
            cases hend
            exact absurd ⟨rfl, hwant.mpr hpos⟩ hsome

/-- The datagram of `process`. -/
theorem run_process (world : σ → (c : SysCall) → σ × c.Answer) (now : ℕ) (s : Session) (seq cmd : UInt8)
    (pl : Bytes) (card : σ) :
    ∃ peer sid, (run world card (process now s seq cmd pl)).2.2 =
      [⟨peer, tnfsHeader sid seq cmd ++ (run world card (handle s cmd pl)).2.2.take
        (tnfsMsgCap - tnfsHdrLen)⟩] := by
  refine ⟨(run world card (handle s cmd pl)).2.1.peer, (run world card (handle s cmd pl)).2.1.sid, ?_⟩
  simp only [process, run_bind]
  split
  · rw [run_bind]
    rfl
  · rfl

theorem Reply.Fits.body_eof {cmd : UInt8} {a : Reply} (h : a.Fits cmd) :
    a.body = [tnfsEof] ↔ a = .failed tnfsEof := by
  constructor
  · intro heq
    have hlen : a.body.length = 1 := congrArg List.length heq
    cases a with
    | failed st =>
      cases heq
      rfl
    | done => cases heq
    | _ => simp [Reply.body] at hlen
  · rintro rfl
    rfl

/-- On a card that answers as documented, the log is the calls made. -/
theorem documented_run {α : Type} {p : Sys α} {Q : List SysOp → α → Prop}
    (hdoc : ∀ card call, SysCall.Documented call (world card call).2)
    (h : documented.Obeys [] p Q) (card : σ) :
    Q (trace world card p) (run world card p).2 := by
  have hkept : documented.KeptBy world fun _ _ => True := fun card _ call _ _ => ⟨hdoc card call, trivial⟩
  have hq := (h.sound hkept (s := card) trivial).2.1
  rwa [spoken_after, List.nil_append] at hq

namespace Daemon

theorem serve_named (hdoc : ∀ card call, SysCall.Documented call (world card call).2) {v : Server}
    (hv : v.Named) (now : ℕ) (peer : Peer) (rx : Bytes) (card : σ) :
    (run world card (v.serve now peer rx)).2.1.Named := by
  have hreaped := (Server.reapIdle_reaped now tnfsdMaxSessions v).run world card
  rw [Server.serve, run_bind, hreaped]
  exact (documented_run hdoc (Server.answer_tells now peer rx
    (hv.freed (Server.reaped_freed now tnfsdMaxSessions v))) _).1

theorem reach_named (hdoc : ∀ card call, SysCall.Documented call (world card call).2) {d : Daemon σ}
    {ok : Daemon σ → Beat → Prop} (h : (machine world).Reach ok d) : d.server.Named := by
  refine h.invariant (I := fun d => d.server.Named) ?_ ?_
  · rintro d ⟨card, rfl⟩ i j slot ⟨⟩
  · intro d b d' hv _ hstep
    cases b with
    | start =>
      obtain ⟨-, rfl⟩ := when_eq_some.mp hstep
      exact hv.freed ((startLoop_freed tnfsdMaxSessions d.server).run world d.card)
    | datagram now peer rx =>
      obtain ⟨-, rfl⟩ := when_eq_some.mp hstep
      exact serve_named hdoc hv now peer _ d.card
    | timeout now =>
      obtain ⟨-, rfl⟩ := when_eq_some.mp hstep
      exact serve_named hdoc hv now _ _ d.card
    | linkDown =>
      obtain ⟨-, rfl⟩ := when_eq_some.mp hstep
      exact hv.freed ((Server.dropSessions_freed tnfsdMaxSessions d.server).run world d.card)

/-- The server and the card when a datagram that comes in at `now` is looked at. -/
def reapedAt (world : σ → (c : SysCall) → σ × c.Answer) (d : Daemon σ) (now : ℕ) : σ × Server :=
  run world d.card (Server.reapIdle now tnfsdMaxSessions d.server)

/-- The client takes the reply off a stream whole and reads in it what the server did. -/
def Agrees (v v' : Server) (k : ℕ) (rx : Bytes) (log : List SysOp) (m : Sent) : Prop :=
  ∃ (sid : UInt16) (a : Reply), m.data = tnfsHeader sid (rx.getD 2 0) (rx.getD 3 0) ++ a.body ∧
    a.Told (v.sessions k) (v'.sessions k) (rx.drop tnfsHdrLen) log ∧
      (∀ ms, a = .mounted ms → (v'.sessions k).sid = sid) ∧
    a.Decoded (rx.getD 3 0) sid m.data

/-- CORRECT: the client recovers every reply that the server makes to a command of its own, but for the
    answer to a READ at the end of a file: there the server sends a bare status, and the client waits
    for a count. -/
theorem client_decodes (hdoc : ∀ card call, SysCall.Documented call (world card call).2) {d : Daemon σ}
    (h : (machine world).Reach Machine.always d) (now : ℕ) (peer : Peer) (rx : Bytes)
    (hcmd : rx.getD 3 0 ∈ clientCommands) (hnew : ∀ i, (reapedAt world d now).2.turn peer rx ≠ .replay i) :
    ∀ m ∈ (run world d.card (d.server.serve now peer rx)).2.2,
      (Agrees (reapedAt world d now).2 (run world d.card (d.server.serve now peer rx)).2.1
        ((reapedAt world d now).2.turn peer rx).slot rx
        (trace world (reapedAt world d now).1
          ((reapedAt world d now).2.answer now peer rx ((reapedAt world d now).2.turn peer rx))) m ↔
      ¬ ∃ i, (reapedAt world d now).2.turn peer rx = .run i ∧ rx.getD 3 0 = tnfsRead ∧
        ReadsAtEnd world (reapedAt world d now).1 ((reapedAt world d now).2.sessions i)
          (rx.drop tnfsHdrLen)) := by
  have hreaped : (reapedAt world d now).2 = d.server.reaped now tnfsdMaxSessions :=
    (Server.reapIdle_reaped now tnfsdMaxSessions d.server).run world d.card
  have hv : (reapedAt world d now).2.Named := by
    rw [hreaped]
    exact (reach_named hdoc h).freed (Server.reaped_freed now tnfsdMaxSessions d.server)
  have hserve : run world d.card (d.server.serve now peer rx) = run world (reapedAt world d now).1
      ((reapedAt world d now).2.answer now peer rx ((reapedAt world d now).2.turn peer rx)) := by
    rw [Server.serve, run_bind]
    rfl
  rw [hserve]
  generalize reapedAt world d now = w at *
  intro m hm
  obtain ⟨sid, a, hdata, hfits, htold, hsid⟩ :=
    (documented_run hdoc (Server.answer_tells now peer rx hv) w.1).2 hcmd hnew m hm
  -- in a READ that is run, the reply says EOF exactly at the end of the file
  have heof : ∀ i, w.2.turn peer rx = .run i → rx.getD 3 0 = tnfsRead →
      (a = .failed tnfsEof ↔ ReadsAtEnd world w.1 (w.2.sessions i) (rx.drop tnfsHdrLen)) := by
    intro i hturn hread
    obtain ⟨peer', sid', hout⟩ := run_process world now (w.2.sessions i) (rx.getD 2 0) (rx.getD 3 0)
      (rx.drop tnfsHdrLen) w.1
    have hm' : m.data = tnfsHeader sid' (rx.getD 2 0) (rx.getD 3 0) ++
        (run world w.1 (handle (w.2.sessions i) (rx.getD 3 0) (rx.drop tnfsHdrLen))).2.2.take
          (tnfsMsgCap - tnfsHdrLen) := by
      rw [hturn, Server.answer, run_bind, run_pure, hout, List.mem_singleton] at hm
      rw [hm]
    have hbody := (List.append_inj (hdata.symm.trans hm') rfl).2
    rw [hread] at hbody
    have hhandle : handle (w.2.sessions i) tnfsRead (rx.drop tnfsHdrLen) = hRead (w.2.sessions i)
      (rx.drop tnfsHdrLen) := rfl
    rw [hhandle] at hbody
    rw [← hfits.body_eof, ← hRead_eof_iff, hbody]
    have hcap : tnfsMsgCap - tnfsHdrLen = 1028 := rfl
    rw [hcap]
    cases (run world w.1 (hRead (w.2.sessions i) (rx.drop tnfsHdrLen))).2.2 with
    | nil => simp
    | cons b bs => cases bs <;> simp
  constructor
  · rintro ⟨sid', a', hdata', -, -, hdec⟩ ⟨i, hturn, hread, hend⟩
    have ha := (heof i hturn hread).mpr hend
    subst ha
    have hframed := hdec.framed []
    rw [hread] at hdata hframed
    rw [List.append_nil, hdata] at hframed
    exact absurd (hframed.symm.trans Reply.read_eof_short) (by rintro ⟨⟩)
  · intro hend
    refine ⟨sid, a, hdata, htold, hsid, ?_⟩
    rw [hdata]
    refine hfits.decoded ?_
    rintro ⟨hread, rfl⟩
    cases hturn : w.2.turn peer rx with
    | ignored => rw [hturn] at hm; cases hm
    | replay i => exact hnew i hturn
    | refused => exact absurd (hread.symm.trans (Server.turn_refused hturn)) (by decide)
    | mount i => exact absurd (hread.symm.trans (Server.turn_mount hturn).2.1) (by decide)
    | run i => exact hend ⟨i, hturn, hread, (heof i hturn hread).mp rfl⟩

/-! ### A client that seeks, and one that reads an empty file -/

theorem numberedCard_documented (n : ℕ) (call : SysCall) :
    SysCall.Documented call (numberedCard n call).2 := by
  cases call with
  | read fd n => exact Nat.zero_le n
  | lseek => exact Nat.two_pow_pos 32
  | write fd data => exact le_rfl
  | _ => trivial

/-- An LSEEK to the end, on the descriptor `firstOpened` has. -/
def seekEnd : Bytes := [1, 0, 2, tnfsLseek, 0, tnfsSeekEnd, 0, 0, 0, 0]

theorem client_decodes_seekEnd :
    ∃ m ∈ (run numberedCard firstOpened.card (firstOpened.server.serve 2 ⟨1, 1⟩ seekEnd)).2.2,
      Agrees (reapedAt numberedCard firstOpened 2).2
        (run numberedCard firstOpened.card (firstOpened.server.serve 2 ⟨1, 1⟩ seekEnd)).2.1
        ((reapedAt numberedCard firstOpened 2).2.turn ⟨1, 1⟩ seekEnd).slot seekEnd
        (trace numberedCard (reapedAt numberedCard firstOpened 2).1
          ((reapedAt numberedCard firstOpened 2).2.answer 2 ⟨1, 1⟩
          seekEnd ((reapedAt numberedCard firstOpened 2).2.turn ⟨1, 1⟩ seekEnd))) m := by
  have hturn : (reapedAt numberedCard firstOpened 2).2.turn ⟨1, 1⟩ seekEnd = .run 0 := by decide
  have hout : (run numberedCard firstOpened.card (firstOpened.server.serve 2 ⟨1, 1⟩ seekEnd)).2.2 =
      [⟨⟨1, 1⟩, [1, 0, 2, tnfsLseek, tnfsOk, 0, 0, 0, 0]⟩] := by decide
  have hmem : (⟨⟨1, 1⟩, [1, 0, 2, tnfsLseek, tnfsOk, 0, 0, 0, 0]⟩ : Sent) ∈
      (run numberedCard firstOpened.card (firstOpened.server.serve 2 ⟨1, 1⟩ seekEnd)).2.2 := by
    rw [hout]
    exact List.mem_singleton_self _
  refine ⟨_, hmem, (client_decodes numberedCard_documented reach_firstOpened 2 ⟨1, 1⟩ seekEnd
    (by decide) ?_ _ hmem).mpr ?_⟩
  · rw [hturn]
    rintro i ⟨⟩
  · rintro ⟨i, -, hread, -⟩
    exact absurd hread (by decide)

/-- A READ of the same descriptor; there is nothing in the file. -/
def readEmpty : Bytes := [1, 0, 2, tnfsRead, 0, 0, 4]

/-- Behind the answer to a READ at the end of a file, the client takes what follows for a count and data. -/
theorem read_eof_overread : ∃ d, (machine numberedCard).Reach Machine.always d ∧
    ∃ m ∈ (run numberedCard d.card (d.server.serve 2 ⟨1, 1⟩ readEmpty)).2.2,
      (reapedAt numberedCard d 2).2.turn ⟨1, 1⟩ readEmpty = .run 0 ∧ m.data = [1, 0, 2, tnfsRead, tnfsEof] ∧
      (tcpResponse tnfsRead).run (m.data ++ [1, 0, 3]) = .ok (m.data ++ [1, 0, 3], []) := by
  have hout : (run numberedCard firstOpened.card (firstOpened.server.serve 2 ⟨1, 1⟩ readEmpty)).2.2 =
      [⟨⟨1, 1⟩, [1, 0, 2, tnfsRead, tnfsEof]⟩] := by decide
  refine ⟨firstOpened, reach_firstOpened, ⟨⟨1, 1⟩, [1, 0, 2, tnfsRead, tnfsEof]⟩, ?_, by decide, rfl, by rfl⟩
  rw [hout]
  exact List.mem_singleton_self _

end Daemon

end FdcSds.Tnfsd
