import FdcSds.Disk.Coherence
import FdcSds.Net.RemoteFile

/-! A remote drive's file, opened by the worker (`worker_mount` in `src/disk/disk.c`).

    The worker opens the file read-write and falls back to read-only on any error, each time with a
    session and a socket of its own. Which errors there are is up to the losses: whether the MOUNT is
    answered, and then the OPEN, can be told from the fates of their datagrams.

        read-write: MOUNT ─▶ OPEN ─ok─▶ writable
                      └─ no answer, refused, no memory ─▶ read-only: MOUNT ─▶ OPEN ─ok─▶ read-only -/

namespace FdcSds.Tnfsd
open Schemes Prog

/-! ### The worker -/

section Model

variable {σ : Type} (world : σ → (c : SysCall) → σ × c.Answer) (clock : ℕ → ℕ) (fate : ℕ → Fate) (me : Peer)

/-- `tnfs_open` on a socket of its own. `got`: there was memory, an address and a socket. -/
def Wire.openIn (got writable : Bool) (path : CStr) (w : Wire σ) : Wire σ × Except EspErr TnfsFile :=
  if got then run (wired world clock fate me) { w with inbox := [] } (tnfsOpenPath path writable false)
  else (w, .error .noMem)

/-- The two opens of `worker_mount`: the file, and whether it is read-only. The second one has another
    socket, `me'`. -/
def Wire.workerOpen (me' : Peer) (got got' : Bool) (path : CStr) (w : Wire σ) :
    Wire σ × Except EspErr (TnfsFile × Bool) :=
  let r := w.openIn world clock fate me got true path
  match r.2 with
  | .ok f => (r.1, .ok (f, false))
  | .error _ =>
    let r' := r.1.openIn world clock fate me' got' false path
    match r'.2 with
    | .ok f => (r'.1, .ok (f, true))
    | .error e => (r'.1, .error e)

/-- The status that `tnfs_open` gets for its OPEN, if it gets to one. -/
def Wire.openStatus (flags : ℕ) (path : CStr) (w : Wire σ) : Option UInt8 :=
  match run (wired world clock fate me) { w with inbox := [] } (tnfsMountRoot ⟨0, 0, 0, 0, 0, false⟩) with
  | (_, _, .error _) => none
  | (w, f, .ok ()) =>
    match (run (wired world clock fate me) w (tnfsCommand f tnfsOpen (openPayload flags path))).2.2 with
    | .error _ => none
    | .ok m => some (replyStatus m)

/-- The read-write OPEN was sent, and the server answered it with an error status. -/
def Wire.Refused (got : Bool) (path : CStr) (w : Wire σ) : Prop :=
  got = true ∧ ∃ st, w.openStatus world clock fate me (openModeFlags true false) path = some st ∧ st ≠ tnfsOk

/-- `worker_mount` marks a drive read-only: the slot `drive` that wants `url` is one in the table `d` it
    finds when it is done with the opens. -/
def Wire.MarksReadonly (me' : Peer) (got got' : Bool) (path : CStr) (w : Wire σ) : Prop :=
  ∃ (f : TnfsFile) (readonly : Bool) (d d' : Disk) (drive b : ℕ) (url : CStr),
    (w.workerOpen world clock fate me me' got got' path).2 = .ok (f, readonly) ∧
      d.workerInstall drive url b readonly = some d' ∧ (d'.drv drive).readonly = true

end Model

/-! ### Datagrams that are answered -/

/-- The first of the `n` datagrams from the `sent`-th on that is answered. -/
def answeredAt (fate : ℕ → Fate) : ℕ → ℕ → Option ℕ
  | 0, _ => none
  | n + 1, sent => if fate sent = .answered then some sent else answeredAt fate n (sent + 1)

/-- From the `sent`-th datagram on, the MOUNT is answered in one of its tries and then the OPEN in one
    of its own. -/
def openAnswered (clock : ℕ → ℕ) (fate : ℕ → Fate) (sent : ℕ) : Bool :=
  match answeredAt fate tnfsRetries sent with
  | none => false
  | some i => answeredIn clock fate tnfsRetries (i + 1) (clock i)

variable {σ : Type} {world : σ → (c : SysCall) → σ × c.Answer} {clock : ℕ → ℕ} {fate : ℕ → Fate}
    {me me' : Peer} {w : Wire σ} {f : TnfsFile} {pos : σ → ℕ → Option ℕ} {path abs : CStr}
    {content : Bytes} {flags : ℕ} {got got' writable : Bool}

/-- The turn of the server for the MOUNT of a client without a session. -/
theorem Wire.Mounting.served (h : w.Mounting me) (hseq : f.seq = 0) :
    ∃ s, w.heard world clock me (f.request tnfsMount mountPayload) = [s.reply] ∧ s.Fresh me ∧
      (w.served world clock me (f.request tnfsMount mountPayload)).server.sessions 0 = s ∧
      (w.served world clock me (f.request tnfsMount mountPayload)).Mounting me ∧
        s.lastActiveUs = clock w.sent := by
  obtain ⟨card', v', s, hturned, hslot, hothers, hfresh, hlast⟩ := h.turned world clock hseq
  have hserver : (w.served world clock me (f.request tnfsMount mountPayload)).server = v' := by
    rw [Wire.served, hturned]
  refine ⟨s, ?_, hfresh, by rw [hserver, hslot], ⟨.inr ?_, ?_, h.quiet⟩, hlast⟩
  · rw [Wire.heard, hturned]
    simp
  · rw [hserver, hslot]
    exact hfresh
  · rw [hserver]
    exact hothers

/-- A MOUNT succeeds at its first answer. -/
theorem mount_attempts (hseq : f.seq = 0) (n : ℕ) (h : w.Mounting me) :
    (answeredAt fate n w.sent = none ∧
        ∃ e, (run (wired world clock fate me) w
          (attempts (f.request tnfsMount mountPayload) f.seq tnfsMount n)).2 = .error e) ∨
      ∃ i w' s, answeredAt fate n w.sent = some i ∧
        run (wired world clock fate me) w
          (attempts (f.request tnfsMount mountPayload) f.seq tnfsMount n) = (w', .ok s.reply) ∧
        s.Fresh me ∧ w'.server.sessions 0 = s ∧ w'.Mounting me ∧ w'.sent = i + 1 ∧
          s.lastActiveUs = clock i := by
  induction n generalizing w with
  | zero => exact .inl ⟨rfl, .timeout, rfl⟩
  | succ n ih =>
    obtain ⟨s, hheard, hfresh, hslot, hnext, hlast⟩ := @Wire.Mounting.served _ world clock me _ f h hseq
    rw [answeredAt]
    cases hfate : fate w.sent with
    | lost =>
      have hlost : Wire.Mounting me { w with sent := w.sent + 1 } := ⟨h.slot, h.others, h.quiet⟩
      rw [if_neg (by decide), run_attempts_unheard n hlost.quiet (by simp only [wired, hfate])]
      exact ih hlost
    | unheard =>
      rw [if_neg (by decide), run_attempts_unheard n hnext.quiet (by simp only [wired, hfate])]
      exact ih hnext
    | answered =>
      have hmatch : udpMatches f.seq tnfsMount s.reply = true := by
        rw [hfresh.reply, hseq]
        rfl
      have hagain : replyStatus s.reply ≠ tnfsEagain := by
        rw [hfresh.reply]
        exact (by decide : tnfsOk ≠ tnfsEagain)
      rw [if_pos rfl]
      exact .inr ⟨w.sent, _, s, rfl, attempts_first n h.quiet hfate hheard hmatch hagain, hfresh,
        hslot, hnext, rfl, hlast⟩

/-- `tnfs_mount_root` for a server without sessions. -/
theorem mountRoot_answered (hw : w.Gone) :
    (answeredAt fate tnfsRetries w.sent = none ∧
        ∃ w' f' e, run (wired world clock fate me) w (tnfsMountRoot f) = (w', f', .error e)) ∨
      ∃ i w' f' s, answeredAt fate tnfsRetries w.sent = some i ∧
        run (wired world clock fate me) w (tnfsMountRoot f) = (w', f', .ok ()) ∧
        w'.Holds me f' s ∧ w'.sent = i + 1 ∧ s.lastActiveUs = clock i := by
  have hmounting : w.Mounting me := ⟨.inl (hw.zero 0), fun j _ => hw.zero j, hw.quiet⟩
  have hlen : tnfsHdrLen + mountPayload.length ≤ tnfsMsgCap := by decide
  rw [tnfsMountRoot, ← mountPayload, run_bind]
  rcases @mount_attempts _ world clock fate me w { f with seq := 0, conn := 0 } rfl tnfsRetries hmounting with
    ⟨hnone, e, herr⟩ | ⟨i, w', s, hat, hrun, hfresh, hslot, hmounted, hsent, hlast⟩
  · generalize hq : run (wired world clock fate me) w (attempts _ _ tnfsMount tnfsRetries) = q at herr
    obtain ⟨w', o⟩ := q
    obtain rfl : o = .error e := herr
    rw [run_command hlen hq]
    exact .inl ⟨hnone, w', _, e, rfl⟩
  · rw [run_command hlen hrun]
    dsimp only
    rw [hfresh.mountReply]
    exact .inr ⟨i, w', _, s, hat, rfl, hmounted.holds hslot hfresh _, hsent, hlast⟩

/-- An OPEN in a fresh session is answered if the network lets it. -/
theorem open_answered {s : Session} (hopens : OpensAt world pos flags path) (hw : w.Holds me f s)
    (hlen : tnfsHdrLen + (openPayload flags path).length ≤ tnfsMsgCap) :
    (∃ m, (run (wired world clock fate me) w (tnfsCommand f tnfsOpen (openPayload flags path))).2.2 = .ok m) ↔
      answeredIn clock fate tnfsRetries w.sent s.lastActiveUs = true := by
  refine hw.answered (by decide) (by decide) hlen ?_
  have hhandle : handle s tnfsOpen (openPayload flags path) = hOpen s (openPayload flags path) := rfl
  rw [ranReply, hhandle]
  rcases hopens s w.card hw.root with ⟨st, -, hagain, hrun⟩ | ⟨slot, fd, card', -, -, hrun⟩
  · rw [hrun]
    exact hagain
  · rw [hrun]
    exact (by decide : tnfsOk ≠ tnfsEagain)

/-- An OPEN that is answered is refused, or gives a handle. -/
theorem open_replied {s : Session} (hopens : OpensAt world pos flags path) (hw : w.Holds me f s)
    (hlen : tnfsHdrLen + (openPayload flags path).length ≤ tnfsMsgCap) {m : Bytes}
    (hm : (run (wired world clock fate me) w (tnfsCommand f tnfsOpen (openPayload flags path))).2.2 = .ok m) :
    replyStatus m ≠ tnfsOk ∨ ∃ fd, handleReply m = some fd := by
  obtain ⟨s', hreply, -⟩ := (@Wire.Holds.command _ world clock fate me _ _ _ _ _ hw (by decide)
    (by decide) hlen _ rfl).1 m hm
  have hhandle : handle s tnfsOpen (openPayload flags path) = hOpen s (openPayload flags path) := rfl
  have hcases := (handleReply_cases hreply).2
  rw [ranReply] at hreply
  rw [hhandle] at hreply hcases
  rcases hopens s w.card hw.root with ⟨st, hst, -, hrun⟩ | ⟨slot, fd, card', -, -, hrun⟩
  · left
    rw [hreply, hrun]
    exact hst
  · right
    rw [hrun] at hcases
    exact ⟨_, hcases (Nat.le_refl 2) rfl⟩

/-! ### Opens -/

theorem openPayload_fits (flags : ℕ) (path : CStr) :
    ¬ tnfsMsgCap - tnfsHdrLen < 4 + (path.length + 1) ↔
      tnfsHdrLen + (openPayload flags path).length ≤ tnfsMsgCap := by
  have hcap : tnfsMsgCap = 1032 ∧ tnfsHdrLen = 4 := ⟨rfl, rfl⟩
  have hlen : (openPayload flags path).length = 4 + (path.length + 1) := by
    simp only [openPayload, List.length_append, List.length_cons, List.length_nil,
      length_le16, FdcSds.length_bytes]
    omega
  omega

theorem command_fits {cmd : UInt8} {pl m : Bytes}
    (hm : (run (wired world clock fate me) w (tnfsCommand f cmd pl)).2.2 = .ok m) :
    tnfsHdrLen + pl.length ≤ tnfsMsgCap := by
  by_contra hlong
  rw [tnfsCommand, if_pos (Nat.lt_of_not_le hlong)] at hm
  cases hm

/-- `tnfs_open` succeeds up to its question for the size when its MOUNT is answered and its OPEN gets a
    handle. -/
theorem openFile_ok : (run (wired world clock fate me) w (tnfsOpenFile flags path)).2.2 = .ok () ↔
    ∃ w₁ f m fd, run (wired world clock fate me) w (tnfsMountRoot ⟨0, 0, 0, 0, 0, false⟩) = (w₁, f, .ok ()) ∧
      (run (wired world clock fate me) w₁ (tnfsCommand f tnfsOpen (openPayload flags path))).2.2 =
        .ok m ∧ handleReply m = some fd := by
  have fails : ∀ (w' : Wire σ) (f' : TnfsFile) (e : EspErr),
    (run (wired world clock fate me) w' (failOpen f' e)).2.2 ≠ .ok () := by
    intro w' f' e
    rw [failOpen, run_bind, run_pure]
    rintro ⟨⟩
  rw [tnfsOpenFile, run_bind]
  generalize run (wired world clock fate me) w (tnfsMountRoot ⟨0, 0, 0, 0, 0, false⟩) = q
  obtain ⟨w₁, f, e | _⟩ := q
  · refine iff_of_false ?_ ?_
    · rintro ⟨⟩
    · rintro ⟨w₁, f, m, fd, hq, -⟩
      cases hq
  · dsimp only
    have hunique : (∃ w₂ f₂ m fd, (w₁, f, (Except.ok () : Except EspErr Unit)) = (w₂, f₂, .ok ()) ∧
        (run (wired world clock fate me) w₂ (tnfsCommand f₂ tnfsOpen (openPayload flags path))).2.2 =
          .ok m ∧ handleReply m = some fd) ↔
        ∃ m fd, (run (wired world clock fate me) w₁
          (tnfsCommand f tnfsOpen (openPayload flags path))).2.2 = .ok m ∧
          handleReply m = some fd := by
      constructor
      · rintro ⟨w₂, f₂, m, fd, ⟨⟩, h⟩
        exact ⟨m, fd, h⟩
      · rintro ⟨m, fd, h⟩
        exact ⟨w₁, f, m, fd, rfl, h⟩
    rw [hunique]
    by_cases hfits : tnfsMsgCap - tnfsHdrLen < 4 + (path.length + 1)
    · rw [if_pos hfits]
      refine iff_of_false (fails _ _ _) ?_
      rintro ⟨m, fd, hm, -⟩
      exact (openPayload_fits flags path).mpr (command_fits hm) hfits
    · rw [if_neg hfits, run_bind]
      generalize run (wired world clock fate me) w₁ (tnfsCommand f tnfsOpen (openPayload flags path)) = q
      obtain ⟨w₂, f₂, e | m⟩ := q
      · refine iff_of_false (fails _ _ _) ?_
        rintro ⟨m, fd, ⟨⟩, -⟩
      · dsimp only
        cases hh : handleReply m with
        | none =>
          refine iff_of_false (fails _ _ _) ?_
          rintro ⟨m', fd, ⟨⟩, hm'⟩
          rw [hh] at hm'
          cases hm'
        | some fd => exact iff_of_true rfl ⟨m, fd, rfl, hh⟩

theorem openPath_ok : (∃ f, (run (wired world clock fate me) w (tnfsOpenPath path writable false)).2 =
      .ok f) ↔
    (run (wired world clock fate me) w (tnfsOpenFile (openModeFlags writable false) path)).2.2 = .ok () := by
  rw [tnfsOpenPath, run_bind]
  generalize run (wired world clock fate me) w (tnfsOpenFile (openModeFlags writable false) path) = q
  obtain ⟨w₁, f, e | _⟩ := q
  · refine iff_of_false ?_ ?_
    · rintro ⟨f, ⟨⟩⟩
    · rintro ⟨⟩
  · dsimp only
    rw [run_bind]
    exact iff_of_true ⟨_, rfl⟩ rfl

/-- Only a path that fits a datagram can be opened. -/
theorem openIn_fits {f : TnfsFile} (h : (w.openIn world clock fate me got writable path).2 = .ok f)
    (flags : ℕ) :
    tnfsHdrLen + (openPayload flags path).length ≤ tnfsMsgCap := by
  unfold Wire.openIn at h
  split at h
  · obtain ⟨w₁, f₁, m, fd, -, hm, -⟩ := openFile_ok.mp (openPath_ok.mp ⟨f, h⟩)
    exact (openPayload_fits flags path).mp ((openPayload_fits _ path).mpr (command_fits hm))
  · cases h

/-- The status of the OPEN tells whether the open succeeds. -/
theorem openFile_status (hopens : OpensAt world pos flags path) (hw : w.Gone) :
    (run (wired world clock fate me) w (tnfsOpenFile flags path)).2.2 = .ok () ↔
      w.openStatus world clock fate me flags path = some tnfsOk := by
  have hquiet : { w with inbox := [] } = w := by rw [← hw.quiet]
  rw [openFile_ok, Wire.openStatus, hquiet]
  rcases @mountRoot_answered _ world clock fate me w ⟨0, 0, 0, 0, 0, false⟩ hw with
    ⟨-, w₁, f, e, hmount⟩ | ⟨i, w₁, f, s, -, hmount, hholds, -⟩
  · rw [hmount]
    refine iff_of_false ?_ ?_
    · rintro ⟨w₂, f₂, m, fd, hq, -⟩
      cases hq
    · rintro ⟨⟩
  · rw [hmount]
    dsimp only
    cases hm : (run (wired world clock fate me) w₁ (tnfsCommand f tnfsOpen (openPayload flags path))).2.2 with
    | error e =>
      refine iff_of_false ?_ ?_
      · rintro ⟨w₂, f₂, m, fd, ⟨⟩, hm', -⟩
        rw [hm] at hm'
        cases hm'
      · rintro ⟨⟩
    | ok m =>
      rcases open_replied hopens hholds (command_fits hm) hm with hbad | ⟨fd, hfd⟩
      · refine iff_of_false ?_ fun h => hbad (Option.some.inj h)
        rintro ⟨w₂, f₂, m', fd, ⟨⟩, hm', hfd⟩
        obtain rfl : m = m' := Except.ok.inj (hm.symm.trans hm')
        rw [handleReply, if_pos (.inl hbad)] at hfd
        cases hfd
      · refine iff_of_true ⟨w₁, f, m, fd, rfl, hm, hfd⟩ (congrArg some ?_)
        by_contra hbad
        rw [handleReply, if_pos (.inl hbad)] at hfd
        cases hfd

/-- There is a status when the MOUNT and the OPEN are answered. -/
theorem openStatus_answered (hopens : OpensAt world pos flags path) (hw : w.Gone)
    (hlen : tnfsHdrLen + (openPayload flags path).length ≤ tnfsMsgCap) :
    (∃ st, w.openStatus world clock fate me flags path = some st) ↔
      openAnswered clock fate w.sent = true := by
  have hquiet : { w with inbox := [] } = w := by rw [← hw.quiet]
  rw [Wire.openStatus, hquiet, openAnswered]
  rcases @mountRoot_answered _ world clock fate me w ⟨0, 0, 0, 0, 0, false⟩ hw with
    ⟨hnone, w₁, f, e, hmount⟩ | ⟨i, w₁, f, s, hat, hmount, hholds, hsent, hlast⟩
  · rw [hmount, hnone]
    refine iff_of_false ?_ Bool.false_ne_true
    rintro ⟨st, ⟨⟩⟩
  · rw [hmount, hat]
    dsimp only
    rw [← hsent, ← hlast, ← open_answered hopens hholds hlen]
    cases (run (wired world clock fate me) w₁ (tnfsCommand f tnfsOpen (openPayload flags path))).2.2 with
    | error e => refine iff_of_false ?_ ?_ <;> rintro ⟨x, ⟨⟩⟩
    | ok m => exact iff_of_true ⟨_, rfl⟩ ⟨m, rfl⟩

theorem openStatus_fits {st : UInt8} (h : w.openStatus world clock fate me flags path = some st) :
    tnfsHdrLen + (openPayload flags path).length ≤ tnfsMsgCap := by
  unfold Wire.openStatus at h
  split at h
  · cases h
  · split at h
    · cases h
    · next hm => exact command_fits hm

/-! ### A file that may be written -/

def rdwrFlags : OpenFlags := ⟨.rdwr, false, false, false, false⟩

/-- How the card is documented to treat a file that may be opened either way, and that nobody changes. -/
structure Serves (world : σ → (c : SysCall) → σ × c.Answer) (abs : CStr) (content : Bytes)
    (pos : σ → ℕ → Option ℕ) : Prop
    extends Keeps world abs content pos where
  openRw : ∀ card fd, (world card (.open abs rdwrFlags)).2 = .ok fd →
    pos (world card (.open abs rdwrFlags)).1 fd = some 0
  changeEnd : ∀ card fd p, pos card fd = some p → pos (world card .changeEnd).1 fd = some p

theorem opensAt_rdwr (hpath : IsCString path) (hres : resolvePath .zero path = .ok abs)
    (hs : Serves world abs content pos) :
    OpensAt world pos tnfsORdwr path := by
  intro s card hroot
  refine (run_hOpen hpath hroot hres (by decide) card).imp_right ?_
  rintro ⟨slot, fd, hslot, hans, hrun⟩
  refine ⟨slot, fd, _, hslot, ?_, hrun⟩
  have hflags : openFlagsOf tnfsORdwr = rdwrFlags := by decide
  rw [hflags, openGuarded, if_pos (by decide), diskChangeBegin, run_bind, run_ask] at hans ⊢
  by_cases hbusy : (world card (.changeBegin abs)).2.isSome = true
  · rw [if_pos hbusy] at hans
    cases hans
  · rw [if_neg hbusy] at hans ⊢
    simp only [sysOpen, diskChangeEnd, run_bind, run_ask, run_pure] at hans ⊢
    exact hs.changeEnd _ _ _ (hs.openRw _ _ (Option.some.inj hans))

theorem opensAt_mode (hpath : IsCString path) (hres : resolvePath .zero path = .ok abs)
    (hs : Serves world abs content pos) (writable : Bool) :
    OpensAt world pos (openModeFlags writable false) path := by
  cases writable with
  | false => exact opensAt_rdonly hpath hres hs.toKeeps
  | true => exact opensAt_rdwr hpath hres hs

/-! ### The truth about the open -/

/-- The size is the length of the file just when the file is empty or its question is answered. -/
theorem openIn_size (hpath : IsCString path) (hres : resolvePath .zero path = .ok abs)
    (hs : Serves world abs content pos) (hw : w.Gone) :
    (∀ f, (w.openIn world clock fate me got writable path).2 = .ok f → f.size.toNat = content.length) ↔
      (got = true → ∀ w₁ f, run (wired world clock fate me) w
        (tnfsOpenFile (openModeFlags writable false) path) = (w₁, f, .ok ()) →
        content = [] ∨ w₁.SizeAnswered world clock fate me f) := by
  have hquiet : { w with inbox := [] } = w := by rw [← hw.quiet]
  rw [Wire.openIn, hquiet]
  cases got with
  | false =>
    refine iff_of_true ?_ ?_
    · rintro f ⟨⟩
    · rintro ⟨⟩
  | true =>
    rw [if_pos rfl]
    have hrun := tnfsOpenMode_run (opensAt_mode hpath hres hs writable) hs.toKeeps hw rfl
      (Eq.refl (run (wired world clock fate me) w (tnfsOpenPath path writable false)))
    generalize run (wired world clock fate me) w (tnfsOpenFile (openModeFlags writable false) path) =
      opened at hrun ⊢
    obtain ⟨w₁, f₁, o⟩ := opened
    rcases hrun with ⟨hfail, e, herr⟩ | ⟨hok, f', hf', hknown, hunknown⟩
    · refine iff_of_true ?_ ?_
      · intro f hf
        rw [herr] at hf
        cases hf
      · rintro - w₂ f ⟨⟩
        exact absurd rfl hfail
    · dsimp only at hok hknown hunknown
      subst hok
      constructor
      · rintro hall - w₂ f ⟨⟩
        by_cases hans : w₁.SizeAnswered world clock fate me f₁
        · exact .inr hans
        · left
          have hsize := hall f' hf'
          rw [hunknown hans] at hsize
          exact List.length_eq_zero_iff.mp hsize.symm
      · intro hcase f hf
        obtain rfl : f' = f := Except.ok.inj (hf'.symm.trans hf)
        by_cases hans : w₁.SizeAnswered world clock fate me f₁
        · exact (hknown hans).2
        · rw [hunknown hans, (hcase rfl w₁ f₁ rfl).resolve_right hans]
          rfl

/-- A table whose first slot wants this URL. -/
def wanting (url : CStr) : Disk :=
  ⟨fun _ => ⟨false, true, false, url, [], none⟩, [], ⟨false, 0, 0, 0⟩, fun _ => ⟨.tnfs 0, 0⟩, fun _ => []⟩

theorem marksReadonly_iff : w.MarksReadonly world clock fate me me' got got' path ↔
    (¬ ∃ f, (w.openIn world clock fate me got true path).2 = .ok f) ∧
      ∃ f, ((w.openIn world clock fate me got true path).1.openIn world clock fate me' got' false
        path).2 = .ok f := by
  have hopens : ∀ f ro, (w.workerOpen world clock fate me me' got got' path).2 = .ok (f, ro) → ro = true →
      (¬ ∃ f, (w.openIn world clock fate me got true path).2 = .ok f) ∧
        ((w.openIn world clock fate me got true path).1.openIn world clock fate me' got' false path).2 =
          .ok f := by
    rintro f ro h rfl
    rw [Wire.workerOpen] at h
    dsimp only at h
    split at h
    · cases h
    · next e he =>
      refine ⟨?_, ?_⟩
      · rintro ⟨f, hf⟩
        rw [he] at hf
        cases hf
      · split at h
        · next f' hf' =>
          rw [hf']
          cases h
          rfl
        · cases h
  constructor
  · rintro ⟨f, ro, d, d', drive, b, url, hopen, hinstall, hmark⟩
    have hro : ro = true := by
      unfold Disk.workerInstall at hinstall
      dsimp only at hinstall
      split at hinstall
      · cases hinstall
        rw [Disk.setDrive_drv, Function.update_self] at hmark
        exact hmark
      · cases hinstall
    obtain ⟨hrw, hf⟩ := hopens f ro hopen hro
    exact ⟨hrw, f, hf⟩
  · rintro ⟨hrw, f, hf⟩
    refine ⟨f, true, wanting [], _, 0, 0, [], ?_, rfl, rfl⟩
    rw [Wire.workerOpen]
    dsimp only
    cases ho : (w.openIn world clock fate me got true path).2 with
    | ok f' => exact absurd ⟨f', ho⟩ hrw
    | error e =>
      dsimp only
      rw [hf]

/-- A drive is marked read-only just on an error status when the OPEN is answered, or nothing is opened. -/
theorem marksReadonly_refused (hpath : IsCString path) (hres : resolvePath .zero path = .ok abs)
    (hs : Serves world abs content pos) (hw : w.Gone) :
    (w.MarksReadonly world clock fate me me' got got' path → w.Refused world clock fate me got path) ↔
      (got = true ∧ openAnswered clock fate w.sent = true) ∨
        ¬ ∃ f, ((w.openIn world clock fate me got true path).1.openIn world clock fate me' got' false
          path).2 = .ok f := by
  have hquiet : { w with inbox := [] } = w := by rw [← hw.quiet]
  have hopens := opensAt_mode hpath hres hs true
  have hrw : (∃ f, (w.openIn world clock fate me got true path).2 = .ok f) ↔
      got = true ∧ w.openStatus world clock fate me (openModeFlags true false) path = some tnfsOk := by
    rw [Wire.openIn, hquiet]
    cases got with
    | false =>
      refine iff_of_false ?_ ?_
      · rintro ⟨f, ⟨⟩⟩
      · rintro ⟨⟨⟩, -⟩
    | true =>
      rw [if_pos rfl, openPath_ok, openFile_status hopens hw]
      exact (and_iff_right rfl).symm
  rw [marksReadonly_iff, hrw]
  constructor
  · intro himp
    by_contra hnot
    obtain ⟨hlost, hro⟩ := not_or.mp hnot
    have hnone : ¬ (got = true ∧ w.openStatus world clock fate me (openModeFlags true false)
      path = some tnfsOk) := by
      rintro ⟨hgot, hst⟩
      exact hlost ⟨hgot, (openStatus_answered hopens hw (openStatus_fits hst)).mp ⟨_, hst⟩⟩
    obtain ⟨hgot, st, hst, -⟩ := himp ⟨hnone, not_not.mp hro⟩
    exact hlost ⟨hgot, (openStatus_answered hopens hw (openStatus_fits hst)).mp ⟨st, hst⟩⟩
  · rintro (⟨hgot, hans⟩ | hno) ⟨hnot, f, hf⟩
    · obtain ⟨st, hst⟩ := (openStatus_answered hopens hw (openIn_fits hf _)).mpr hans
      refine ⟨hgot, st, hst, ?_⟩
      rintro rfl
      exact hnot ⟨hgot, hst⟩
    · exact absurd ⟨f, hf⟩ hno

/-- CORRECT: a file of a server that is opened has its size when the question for it is answered, or the
    file is empty; and a drive is marked read-only on an error status of the server when the read-write
    open can be made and its MOUNT and OPEN are answered, or the read-only one does not succeed either. -/
theorem remote_open_truth (hpath : IsCString path) (hres : resolvePath .zero path = .ok abs)
    (hs : Serves world abs content pos) (clock : ℕ → ℕ) (fate : ℕ → Fate) (me me' : Peer)
    (got got' : Bool) (hw : w.Gone) :
    (∀ writable, (∀ f, (w.openIn world clock fate me got writable path).2 = .ok f →
      f.size.toNat = content.length) ↔
      (got = true → ∀ w₁ f, run (wired world clock fate me) w
        (tnfsOpenFile (openModeFlags writable false) path) = (w₁, f, .ok ()) →
        content = [] ∨ w₁.SizeAnswered world clock fate me f)) ∧
    ((w.MarksReadonly world clock fate me me' got got' path → w.Refused world clock fate me got path) ↔
      (got = true ∧ openAnswered clock fate w.sent = true) ∨
        ¬ ∃ f, ((w.openIn world clock fate me got true path).1.openIn world clock fate me' got'
          false path).2 = .ok f) :=
  ⟨fun _ => openIn_size hpath hres hs hw, marksReadonly_refused hpath hres hs hw⟩

theorem oneFile_serves (content : Bytes) (abs : CStr) :
    Serves (oneFile content) abs content fun p _ => some p where
  toKeeps := oneFile_keeps content abs
  openRw _ _ _ := rfl
  changeEnd := by
    rintro card fd p ⟨⟩
    rfl

/-- A server without sessions, that was sent nothing. -/
def newWire : Wire ℕ := ⟨0, ⟨fun _ => .zero, 1⟩, 0, []⟩

/-- When everything is answered, the file of one byte is opened with its size, and writable. -/
theorem remote_open_truth_answered :
    (∀ f, (newWire.openIn (oneFile [7]) (fun _ => 0) (fun _ => .answered) ⟨1, 1⟩ true false
      ['/', 'B']).2 = .ok f → f.size.toNat = 1) ∧
      (newWire.MarksReadonly (oneFile [7]) (fun _ => 0) (fun _ => .answered) ⟨1, 1⟩
        ⟨1, 2⟩ true true ['/', 'B'] →
        newWire.Refused (oneFile [7]) (fun _ => 0) (fun _ => .answered) ⟨1, 1⟩ true ['/', 'B']) := by
  have hs := oneFile_serves [7] "/sd/B".toList
  have hpath : IsCString ['/', 'B'] := by simp [IsCString]
  obtain ⟨hsize, hmark⟩ := remote_open_truth hpath (by decide +kernel) hs (fun _ => 0)
    (fun _ => .answered) ⟨1, 1⟩ ⟨1, 2⟩ true true
    (w := newWire) ⟨fun _ => rfl, rfl⟩
  refine ⟨(hsize false).mpr fun _ w₁ f hopened => .inr ?_, hmark.mpr (.inl (by decide))⟩
  have hstands := tnfsOpenFile_run (opensAt_mode hpath (by decide +kernel) hs false)
    ⟨fun _ => rfl, rfl⟩ hopened.symm rfl
  obtain rfl : (run (wired (oneFile [7]) (fun _ => 0) (fun _ => .answered) ⟨1, 1⟩) newWire
      (tnfsOpenFile (openModeFlags false false) ['/', 'B'])).1 = w₁ := congrArg Prod.fst hopened
  obtain rfl : (run (wired (oneFile [7]) (fun _ => 0) (fun _ => .answered) ⟨1, 1⟩) newWire
      (tnfsOpenFile (openModeFlags false false) ['/', 'B'])).2.1 = f := congrArg (·.2.1) hopened
  have hasked : (run (wired (oneFile [7]) (fun _ => 0) (fun _ => .answered) ⟨1, 1⟩)
      (run (wired (oneFile [7]) (fun _ => 0) (fun _ => .answered) ⟨1, 1⟩) newWire
        (tnfsOpenFile (openModeFlags false false) ['/', 'B'])).1
      (tnfsQuerySize (run (wired (oneFile [7]) (fun _ => 0) (fun _ => .answered) ⟨1, 1⟩) newWire
        (tnfsOpenFile (openModeFlags false false) ['/', 'B'])).2.1)).2.2 = .ok () := by
    decide +kernel
  exact (tnfsQuerySize_answered hstands).mp hasked

/-- The datagrams of the question for the size are lost. -/
def sizeUnanswered (n : ℕ) : Fate := if 2 ≤ n ∧ n < 5 then .lost else .answered

/-- The datagrams of the first OPEN are lost, and those of the UMOUNT behind it. -/
def openUnanswered (n : ℕ) : Fate := if 1 ≤ n ∧ n < 7 then .lost else .answered

/-- A file of one byte is opened with size 0; and a drive is marked read-only though no OPEN came to the
    server before the read-only one. -/
theorem remote_open_lies :
    (∃ f, (newWire.openIn (oneFile [7]) (fun _ => 0) sizeUnanswered ⟨1, 1⟩ true true ['/', 'B']).2 = .ok f ∧
      f.size.toNat ≠ [(7 : UInt8)].length) ∧
      newWire.MarksReadonly (oneFile [7]) (fun _ => 0) openUnanswered ⟨1, 1⟩ ⟨1, 2⟩ true true ['/', 'B'] ∧
        ¬ newWire.Refused (oneFile [7]) (fun _ => 0) openUnanswered ⟨1, 1⟩ true ['/', 'B'] := by
  refine ⟨⟨⟨1, 2, 0, 0, 0, false⟩, by decide +kernel, by decide⟩,
    marksReadonly_iff.mpr ⟨?_, ⟨2, 3, 0, 1, 0, false⟩, by decide +kernel⟩, ?_⟩
  · have herr : (newWire.openIn (oneFile [7]) (fun _ => 0) openUnanswered ⟨1, 1⟩ true true
      ['/', 'B']).2 = .error .timeout := by
      decide +kernel
    rintro ⟨f, hf⟩
    rw [herr] at hf
    cases hf
  · have hnone : newWire.openStatus (oneFile [7]) (fun _ => 0) openUnanswered ⟨1, 1⟩
      (openModeFlags true false) ['/', 'B'] = none := by
      decide +kernel
    rintro ⟨-, st, hst, -⟩
    rw [hnone] at hst
    cases hst

end FdcSds.Tnfsd
