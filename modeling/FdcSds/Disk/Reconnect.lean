import FdcSds.Disk.Freshness
import FdcSds.Disk.Installs

/-! Remote sessions across a link drop.

    DISCONNECTED sweeps the mounted remote drives out of the table; GOT_IP queues a mount for each
    configured one. `worker_mount` opens its session between two regions and only compares the URL when
    it installs it, so a drop (or a drop and a reconnect) in between goes unnoticed.

        stamp b       the reconnect the session behind b was opened under
        swept         from the sweep to the next GOT_IP                        -/

namespace FdcSds
open Schemes Runs

namespace State

variable {s s' : State}

/-- A session is installed only under the connection it was opened on, before that is swept. -/
def installsLive (s : State) (a : Act) : Prop :=
  ∀ d b, s.installs a = some (d, b) → (s.w.heap b).image.remote = true →
    s.swept = false ∧ s.stamp b = s.reconnects

/-- No remote backing in a slot outlives its connection. -/
structure Linked (s : State) : Prop where
  live : ∀ d < diskMaxDrive, ∀ b, (s.w.drv d).backing = some b → (s.w.heap b).image.remote = true →
    s.swept = false ∧ s.stamp b = s.reconnects
  down : s.net = false → s.evt ≠ .sweeping → s.swept = true

/-- The sweep takes the backing of every mounted remote drive it visits. -/
theorem sweep_clears (ds : List ℕ) (w : Disk) (bs : List ℕ) {d : ℕ} (hd : d ∈ ds)
    (hr : (w.drv d).remote = true) (hm : (w.drv d).mounted = true) :
    let r := ds.foldl (fun (acc : Disk × List ℕ) i =>
      let q := acc.1.sweepOne i; (q.1, acc.2 ++ q.2)) (w, bs)
    (r.1.drv d).backing = none := by
  induction ds generalizing w bs with
  | nil => cases hd
  | cons i ds ih =>
    rw [List.foldl_cons]
    rcases eq_or_ne d i with rfl | hne
    · have hone : ((w.sweepOne d).1.drv d).backing = none := by
        unfold Disk.sweepOne
        simp [hr, hm]
      rcases sweep_drv ds (w.sweepOne d).1 (bs ++ (w.sweepOne d).2) d with heq | heq
      · exact (congrArg Drive.backing heq).trans hone
      · exact congrArg Drive.backing heq
    · have hone : (w.sweepOne i).1.drv d = w.drv d := by
        unfold Disk.sweepOne
        dsimp only
        split
        · rw [Disk.setDrive_drv, Function.update_of_ne hne]
        · rfl
      have hmem : d ∈ ds := (List.mem_cons.mp hd).resolve_left hne
      exact ih _ _ hmem (by rw [hone]; exact hr) (by rw [hone]; exact hm)

/-- Steps that leave the link and the event task alone. -/
theorem Linked.keep {a : Act} (h : s.Linked) (ho : s.ledger.Owned) (hok : s.installsLive a)
    (hs : s.step a = some s') (hswept : s'.swept = s.swept) (hrec : s'.reconnects = s.reconnects)
    (hdown : s'.net = false → s'.evt ≠ .sweeping → s.net = false ∧ s.evt ≠ .sweeping) : s'.Linked := by
  refine ⟨fun d hd b hb hrem => ?_, fun hnet hevt => ?_⟩
  · obtain ⟨hlt, hold⟩ : b < s.next ∧ ((s.w.drv d).backing = some b ∨ s.installs a = some (d, b)) := by
      rcases step_backing hs hb with hold | hinst
      · exact ⟨backing_lt ho d b hold, .inl hold⟩
      · exact ⟨installs_lt ho hs hinst, .inr hinst⟩
    obtain ⟨hheap, hstamp⟩ := (step_heap hs).2 b hlt
    rw [hheap] at hrem
    rw [hswept, hrec, hstamp]
    exact hold.elim (fun hold => h.live d hd b hold hrem) fun hinst => hok d b hinst hrem
  · rw [hswept]
    exact h.down (hdown hnet hevt).1 (hdown hnet hevt).2

theorem Linked.step {a : Act} (h : s.Linked) (ho : s.ledger.Owned) (hok : s.installsLive a)
    (hs : s.step a = some s') : s'.Linked := by
  cases a with
  | task t a =>
    obtain ⟨-, hevt, hnet, hswept, hrec, -⟩ := taskStep_frame hs
    exact h.keep ho hok hs hswept hrec fun hn he => ⟨hnet ▸ hn, hevt ▸ he⟩
  | worker a =>
    obtain ⟨-, hevt, hnet, hswept, hrec, -⟩ := workerStep_frame hs
    exact h.keep ho hok hs hswept hrec fun hn he => ⟨hnet ▸ hn, hevt ▸ he⟩
  | evt a =>
    have hs' := hs
    cases a <;> simp only [State.step, evtStep, when_eq_some] at hs <;> obtain ⟨hg, rfl⟩ := hs
    case disconnected => exact ⟨h.live, fun _ hevt => absurd rfl hevt⟩
    case sweep =>
      refine ⟨fun d hd b hb hrem => ?_, fun _ _ => rfl⟩
      -- a remote backing still in a slot was there before, and the sweep took it
      rcases step_backing hs' hb with hold | hinst
      · have hremote : (s.w.drv d).remote = true := by
          rw [backing_kind ho d b hold, ← hrem, ((step_heap hs').2 b (backing_lt ho d b hold)).1]
        have hmounted : (s.w.drv d).mounted = true := (ho.seated d).trans (by
          show (s.w.drv d).backing.isSome = true
          rw [hold]; rfl)
        have hgone := sweep_clears (List.range diskMaxDrive) s.w [] (List.mem_range.mpr hd) hremote hmounted
        exact absurd (hb.symm.trans hgone) (by rintro ⟨⟩)
      · cases hinst
    case gotIp =>
      refine ⟨fun d hd b hb hrem => ?_, by rintro ⟨⟩⟩
      obtain ⟨hswept, hstamp⟩ := h.live d hd b hb hrem
      refine ⟨rfl, ?_⟩
      show s.stamp b = s.reconnects + if s.swept then 1 else 0
      rw [hswept, hstamp]; rfl
    all_goals
      refine h.keep ho hok hs' rfl rfl fun hn _ => ⟨hn, ?_⟩
      first | rw [hg] | rw [hg.1]
      rintro ⟨⟩

theorem Start.linked (h : s.Start) : s.Linked := by
  refine ⟨fun d _ b hb => ?_, fun _ _ => h.link.2.1⟩
  rw [(h.drv d).2.2] at hb; cases hb

theorem reach_linked (h : diskMachine.Reach installsLive s) : s.ledger.Owned ∧ s.Linked :=
  h.invariant (I := fun s => s.ledger.Owned ∧ s.Linked) (fun _ hs => ⟨Start.owned hs, Start.linked hs⟩)
    fun _ _ _ ⟨ho, hl⟩ hok hstep => ⟨ho.path (step_moves ho hstep), hl.step ho hok hstep⟩

/-- CORRECT on these runs: from the sweep of a DISCONNECTED to the next GOT_IP no remote drive is
    reported mounted, and whatever remote drive is reported mounted uses a session of the current
    connection. Whenever the link is down, the sweep is done or about to be. -/
theorem no_stale_session (h : diskMachine.Reach installsLive s) :
    (s.swept = true → ∀ d, s.w.diskIsMounted d = true → (s.w.drv d).remote = false) ∧
    (∀ d, s.w.diskIsMounted d = true → (s.w.drv d).remote = true →
      ∃ b, (s.w.drv d).backing = some b ∧ s.stamp b = s.reconnects) ∧
    (s.net = false → s.evt ≠ .sweeping → s.swept = true) := by
  obtain ⟨ho, hl⟩ := reach_linked h
  have held : ∀ d, s.w.diskIsMounted d = true → (s.w.drv d).remote = true →
      ∃ b, (s.w.drv d).backing = some b ∧ s.swept = false ∧ s.stamp b = s.reconnects := by
    intro d hm hr
    simp only [Disk.diskIsMounted, driveOk, Bool.and_eq_true, decide_eq_true_eq] at hm
    have hseat : (s.w.drv d).mounted = (s.w.drv d).backing.isSome := ho.seated d
    obtain ⟨b, hb⟩ := Option.isSome_iff_exists.mp (hseat.symm.trans hm.2)
    exact ⟨b, hb, hl.live d hm.1 b hb (by rw [← backing_kind ho d b hb, hr])⟩
  refine ⟨fun hswept d hm => ?_, fun d hm hr => ?_, hl.down⟩
  · cases hr : (s.w.drv d).remote with
    | false => rfl
    | true =>
      obtain ⟨b, -, hlive, -⟩ := held d hm hr
      rw [hswept] at hlive; cases hlive
  · obtain ⟨b, hb, -, hstamp⟩ := held d hm hr
    exact ⟨b, hb, hstamp⟩

/-- A URL for the runs below. -/
def sampleUrl : CStr := ['t', 'n', 'f', 's', ':', '/', '/', 'a']

/-- The job GOT_IP queues for drive 0. -/
def mountJob : Job := ⟨0, false, .request (.mount 0)⟩

/-- Drive 0 is configured, the link comes up, and the worker is connected for its mount. -/
def connectFirst : List Act :=
  [.task 0 (.config 0 sampleUrl), .task 0 (.configNet 0), .evt .gotIp, .evt (.mountNext 0),
    .evt (.mountPost 0), .evt (.mountNext 1), .evt (.mountNext 2), .evt (.mountNext 3), .evt .mountDone,
    .worker (.take mountJob []), .worker (.want mountJob 0), .worker (.mountLink mountJob 0 sampleUrl),
    .worker (.sessionUp mountJob 0 sampleUrl false none)]

/-- The worker gets its file and installs the session. -/
def installFirst : List Act :=
  [.worker (.openOk mountJob 0 sampleUrl false 1 0),
    .worker (.newBacking mountJob 0 sampleUrl false 0 1 true),
    .worker (.install mountJob 0 sampleUrl false 0)]

/-- The link drops and the hook runs to its end. -/
def dropLink : List Act := [.evt .disconnected, .evt .sweep, .evt .disposeDone]

theorem exec_dropped :
    (diskMachine.exec boot (connectFirst ++ dropLink ++ installFirst)).isSome = true := by decide

theorem exec_reconnected :
    (diskMachine.exec boot (connectFirst ++ dropLink ++ installFirst ++ [.evt .gotIp])).isSome = true := by
  decide

/-- A drop during `tnfs_open` leaves the drive mounted on a dead link, and the next GOT_IP finds it
    mounted on the session of the connection before. -/
theorem stale_session :
    ¬(∀ s, diskMachine.Reach Machine.always s →
      (s.swept = true → s.evt = .idle → ∀ d, s.w.diskIsMounted d = true → (s.w.drv d).remote = false)) ∧
    ¬(∀ s, diskMachine.Reach Machine.always s → ∀ d, s.w.diskIsMounted d = true →
      (s.w.drv d).remote = true → ∃ b, (s.w.drv d).backing = some b ∧ s.stamp b = s.reconnects) := by
  have reach : ∀ {as : List Act} (h : (diskMachine.exec boot as).isSome = true),
      diskMachine.Reach Machine.always ((diskMachine.exec boot as).get h) :=
    fun h => ⟨boot, boot_start, Machine.exec_always (Option.some_get h).symm⟩
  refine ⟨fun hall => ?_, fun hall => ?_⟩
  · exact absurd (hall _ (reach exec_dropped) (by decide) (by decide) 0 (by decide)) (by decide)
  · obtain ⟨b, hb, hstamp⟩ := hall _ (reach exec_reconnected) 0 (by decide) (by decide)
    have hzero : b = 0 := Option.some.inj (hb.symm.trans (by decide))
    subst hzero
    exact absurd hstamp (by decide)

theorem exec_connected : (diskMachine.exec boot (connectFirst ++ installFirst)).isSome = true := by decide

/-- The same mount with the link up all along. -/
def connected : State := (diskMachine.exec boot (connectFirst ++ installFirst)).get exec_connected

/-- What `installsLive` asks for, as a check. -/
def installsLiveCheck (s : State) (a : Act) : Bool :=
  (s.installs a).all fun x => !s.swept && s.stamp x.2 == s.reconnects

theorem installsLive_of_check (s : State) (a : Act) (h : installsLiveCheck s a = true) :
    s.installsLive a := by
  intro d b hi _
  rw [installsLiveCheck, hi] at h
  simpa using h

theorem reach_connected : diskMachine.Reach installsLive connected :=
  ⟨boot, boot_start, Machine.exec_path _ installsLive_of_check (Option.some_get exec_connected).symm
    (by decide)⟩

/-- The mounted remote drive uses the session of this connection. -/
theorem no_stale_session_connected :
    ∃ b, (connected.w.drv 0).backing = some b ∧ connected.stamp b = connected.reconnects :=
  (no_stale_session reach_connected).2.1 0 (by decide) (by decide)

end State

end FdcSds
