import FdcSds.Ota.SdUpdate

/-! The update task and its single flight (`ota_run` and `ota_task` in `src/net/ota.c`).

    Any number of consoles may call; the flag is tested and set in one critical section, and cleared by
    the call that set it. A task that has given its semaphore has nothing left but to delete itself, and
    may still be about to when the next one starts.

        call:  enter ─▶ semaphore ─▶ task ─▶ wait ───────────────────▶ take ─▶ delete ─▶ flag down
        task:                         do_sd, do_repo, … ─┬─▶ give ─▶ gone
                                                         └─▶ unmount ─▶ delay ─▶ restart             -/

namespace FdcSds
open Schemes Schemes.Runs

/-- `ota_src_t`. -/
inductive OtaSrc where
  | status | sd | repo | url
  deriving DecidableEq

/-- Where a console's call of `ota_run` is; an idle console has what its last call returned. -/
inductive OtaPc where
  | idle (last : Option (Except OtaErr Unit))
  | grabbed (src : OtaSrc)
  | spawning
  | waiting
  | woken
  | undoing
  | releasing (r : Except OtaErr Unit)
  deriving DecidableEq

/-- Where the task of a job is, from its creation until it gives the semaphore. -/
inductive TaskAt where
  | absent
  | body
  | finished
  | unmounting | delaying | restarting
  | giving
  deriving DecidableEq

/-- `ota_job_t`, on the stack of the call. -/
structure OtaJob where
  src : OtaSrc
  reboot : Bool
  result : Except OtaErr Unit
  done : Bool
  deriving DecidableEq

/-- What belongs to a console: its call, the job and its task, and where `do_sd` is if that is the body. -/
structure OtaConsole where
  call : OtaPc
  job : OtaJob
  task : TaskAt
  run : SdRun

/-- `busy` is `s_busy`. `leaving` tasks have signalled and not deleted themselves yet; `down` says the device
    has restarted. -/
structure Updates where
  busy : Bool
  con : ℕ → OtaConsole
  leaving : ℕ
  dev : Device
  down : Bool

inductive OtaAct where
  | enter (n : ℕ) (src : OtaSrc)
  | semCreate (n : ℕ) (ok : Bool)
  | taskCreate (n : ℕ) (ok : Bool)
  | sd (n : ℕ) (a : SdAct)
  | sdReturns (n : ℕ)
  | other (n : ℕ) (slot : ℕ → Bytes) (boot : ℕ)
  | otherReturns (n : ℕ) (r : Except OtaErr Unit) (reboot : Bool)
  | judge (n : ℕ)
  | unmountAll (n : ℕ)
  | delay (n : ℕ)
  | restart (n : ℕ)
  | give (n : ℕ)
  | taskDelete
  | take (n : ℕ)
  | semDelete (n : ℕ)
  | release (n : ℕ)
  | outside (file : Option Bytes)

/-- The console whose call or task takes the step. -/
def OtaAct.console : OtaAct → Option ℕ
  | .enter n _ | .semCreate n _ | .taskCreate n _ | .sd n _ | .sdReturns n | .other n
      _ _ | .otherReturns n _ _ => some n
  | .judge n | .unmountAll n | .delay n | .restart n | .give n | .take n | .semDelete n | .release n => some n
  | .taskDelete | .outside _ => none

/-- A console is in a call. -/
def OtaPc.active : OtaPc → Bool
  | .idle _ => false
  | _ => true

/-- The task is on its way to `esp_restart`. -/
def TaskAt.rebooting : TaskAt → Bool
  | .unmounting | .delaying | .restarting => true
  | _ => false

/-- An update from the SD card is under way. -/
def OtaConsole.Flashing (c : OtaConsole) : Prop := c.task ≠ .absent ∧ c.job.src = .sd

namespace Updates

def put (s : Updates) (n : ℕ) (c : OtaConsole) : Updates := { s with con := Function.update s.con n c }

/-- The bodies of the other sources may write any partition, the boot partition included. -/
def act (s : Updates) : OtaAct → Option Updates
  | .enter n src =>
    let c := s.con n
    match c.call with
    | .idle _ => some <|
      if s.busy then s.put n { c with call := .idle (some (.error (.esp .invalidState))) }
      else { s.put n { c with call := .grabbed src } with busy := true }
    | _ => none
  | .semCreate n ok =>
    let c := s.con n
    match c.call with
    | .grabbed src => some <| s.put n <|
      if ok then { c with call := .spawning, job := ⟨src, false, .error (.esp .fail), false⟩ }
      else { c with call := .releasing (.error (.esp .noMem)) }
    | _ => none
  | .taskCreate n ok =>
    let c := s.con n
    when (c.call = .spawning) <| s.put n <|
      if ok then { c with call := .waiting, task := .body, run := .enter s.dev } else {
        c with call := .undoing }
  | .sd n a =>
    let c := s.con n
    if c.task = .body ∧ c.job.src = .sd then
      (SdRun.step s.dev c.run a).map fun x => { s.put n { c with run := x.2 } with dev := x.1 }
    else none
  | .sdReturns n =>
    let c := s.con n
    match c.run.pc with
    | .done r => when (c.task = .body ∧ c.job.src = .sd)
      (s.put n { c with task := .finished, job := { c.job with result := r, reboot := c.run.reboot } })
    | _ => none
  | .other n slot boot => when ((s.con n).task = .body ∧ (s.con n).job.src ≠ .sd)
    { s with dev.slot := slot, dev.boot := boot }
  | .otherReturns n r reboot =>
    let c := s.con n
    when (c.task = .body ∧ c.job.src ≠ .sd)
      (s.put n { c with task := .finished, job := { c.job with result := r, reboot } })
  | .judge n =>
    let c := s.con n
    when (c.task = .finished) <| s.put n <|
      if c.job.result = .ok () ∧ c.job.reboot =
        true then { c with task := .unmounting } else { c with task := .giving }
  | .unmountAll n =>
    let c := s.con n
    when (c.task = .unmounting) (s.put n { c with task := .delaying })
  | .delay n =>
    let c := s.con n
    when (c.task = .delaying) (s.put n { c with task := .restarting })
  | .restart n => when ((s.con n).task = .restarting) { s with down := true }
  | .give n =>
    let c := s.con n
    when (c.task = .giving) { s.put n
      { c with task := .absent, job.done := true } with leaving := s.leaving + 1 }
  | .taskDelete => when (0 < s.leaving) { s with leaving := s.leaving - 1 }
  | .take n =>
    let c := s.con n
    when (c.call = .waiting ∧ c.job.done = true) (s.put n { c with call := .woken, job.done := false })
  | .semDelete n =>
    let c := s.con n
    match c.call with
    | .woken => some (s.put n { c with call := .releasing c.job.result })
    | .undoing => some (s.put n { c with call := .releasing (.error (.esp .noMem)) })
    | _ => none
  | .release n =>
    let c := s.con n
    match c.call with
    | .releasing r => some { s.put n { c with call := .idle (some r) } with busy := false }
    | _ => none
  | .outside file => some { s with dev.file := file }

/-- After the restart nothing goes on. -/
def step (s : Updates) (a : OtaAct) : Option Updates := if s.down then none else s.act a

/-- Just booted. -/
def Start (s : Updates) : Prop :=
  s.busy = false ∧ (∀ n, (s.con n).call = .idle none ∧ (s.con n).task = .absent) ∧
    s.leaving = 0 ∧ s.down = false

def machine : Machine Updates OtaAct := ⟨Start, step⟩

/-- The firmware file is not changed from outside during an update from it. -/
def Undisturbed (s : Updates) : OtaAct → Prop
  | .outside _ => ∀ n, ¬(s.con n).Flashing
  | _ => True

end Updates

/-! ### What holds of a console -/

/-- A task is there only for a call that waits for it, and a call that waits has a task or its signal. -/
structure OtaConsole.Ok (d : Device) (c : OtaConsole) : Prop where
  tasked : c.task ≠ .absent → c.call = .waiting ∧ c.job.done = false
  awaited : c.call = .waiting → c.task = .absent → c.job.done = true
  spawning : c.call = .spawning → c.job.done = false
  inv : c.Flashing → SdRun.Inv d c.run
  ended : c.Flashing → c.task ≠ .body → c.run.pc = .done c.job.result ∧ c.job.reboot = c.run.reboot
  rebooting : c.task.rebooting = true → c.job.result = .ok () ∧ c.job.reboot = true

namespace OtaConsole

variable {d d' : Device} {c : OtaConsole}

/-- A console without a task does not look at the device. -/
theorem Ok.device (h : c.Ok d) (htask : c.task = .absent) : c.Ok d' where
  tasked := h.tasked
  awaited := h.awaited
  spawning := h.spawning
  inv hflash := absurd htask hflash.1
  ended := h.ended
  rebooting := h.rebooting

/-- Nor does one whose task has another source. -/
theorem Ok.device_other (h : c.Ok d) (hsrc : c.job.src ≠ .sd) : c.Ok d' where
  tasked := h.tasked
  awaited := h.awaited
  spawning := h.spawning
  inv hflash := absurd hflash.2 hsrc
  ended := h.ended
  rebooting := h.rebooting

/-- A call without a task goes on to where it neither waits nor is about to make one. -/
theorem Ok.goto (h : c.Ok d) (htask : c.task = .absent) {pc : OtaPc} (hwait : pc ≠ .waiting)
    (hspawn : pc ≠ .spawning) :
    ({ c with call := pc } : OtaConsole).Ok d where
  tasked ht := absurd htask ht
  awaited hpc := absurd hpc hwait
  spawning hpc := absurd hpc hspawn
  inv hflash := absurd htask hflash.1
  ended hflash := absurd htask hflash.1
  rebooting := h.rebooting

/-- A call that does not wait has no task. -/
theorem Ok.no_task (h : c.Ok d) (hpc : c.call ≠ .waiting) : c.task = .absent := by
  by_contra htask
  exact hpc (h.tasked htask).1

/-- The task goes on from one stage to another. -/
theorem Ok.advance (h : c.Ok d) {t : TaskAt} (hthere : c.task ≠ .absent) (hbody : c.task ≠ .body)
    (ht : t ≠ .absent) (hreboot : t.rebooting = true → c.job.result = .ok () ∧ c.job.reboot = true) :
    ({ c with task := t } : OtaConsole).Ok d where
  tasked _ := h.tasked hthere
  awaited _ htask := absurd htask ht
  spawning := h.spawning
  inv hflash := h.inv ⟨hthere, hflash.2⟩
  ended hflash _ := h.ended ⟨hthere, hflash.2⟩ hbody
  rebooting := hreboot

end OtaConsole

namespace Updates

/-! ### The invariant -/

/-- The flag is up just when one console is in a call, and it is one only. -/
structure Sound (s : Updates) : Prop where
  busy : ∀ n, (s.con n).call.active = true → s.busy = true
  sole : ∀ m n, (s.con m).call.active = true → (s.con n).call.active = true → m = n
  held : s.busy = true → ∃ n, (s.con n).call.active = true
  ok : ∀ n, (s.con n).Ok s.dev

variable {s s' : Updates} {n : ℕ} {c : OtaConsole}

@[simp] theorem put_self : (s.put n c).con n = c := Function.update_self ..

theorem put_other {m : ℕ} (hm : m ≠ n) : (s.put n c).con m = s.con m := Function.update_of_ne hm ..

/-- No two consoles have a task. -/
theorem Sound.single (h : s.Sound) {m : ℕ} (hm : (s.con m).task ≠ .absent)
    (hn : (s.con n).task ≠ .absent) : m = n := by
  refine h.sole m n ?_ ?_
  · rw [((h.ok m).tasked hm).1]
    rfl
  · rw [((h.ok n).tasked hn).1]
    rfl

/-- A console goes on without beginning or ending a call, and may change the device as far as the others
    do not mind. -/
theorem Sound.change (h : s.Sound) {d : Device} (hactive : c.call.active = (s.con n).call.active)
    (hok : c.Ok d) (hothers : ∀ m, m ≠ n → (s.con m).Ok d) :
    ({ s.put n c with dev := d } : Updates).Sound := by
  have hsame : ∀ m, ((s.put n c).con m).call.active = (s.con m).call.active := by
    intro m
    by_cases hm : m = n
    · subst hm
      rw [put_self, hactive]
    · rw [put_other hm]
  refine ⟨fun m hm => h.busy m (hsame m ▸ hm), fun l m hl hm =>
    h.sole l m (hsame l ▸ hl) (hsame m ▸ hm), fun hbusy => ?_, ?_⟩
  · obtain ⟨m, hm⟩ := h.held hbusy
    exact ⟨m, (hsame m).trans hm⟩
  · intro m
    by_cases hm : m = n
    · subst hm
      rw [put_self]
      exact hok
    · rw [put_other hm]
      exact hothers m hm

theorem Sound.put (h : s.Sound) (hactive : c.call.active = (s.con n).call.active)
    (hok : c.Ok s.dev) : (s.put n c).Sound :=
  h.change hactive hok fun m _ => h.ok m

/-- Where one console has a task, the others have none. -/
theorem Sound.others (h : s.Sound) (htask : (s.con n).task ≠ .absent) {m : ℕ} (hm : m ≠ n) :
    (s.con m).task = .absent := by
  by_contra hthere
  exact hm (h.single hthere htask)

/-- While the flag is down no console is in a call. -/
theorem Sound.quiet (h : s.Sound) (hbusy : s.busy = false) (m : ℕ) : (s.con m).call.active = false := by
  cases hm : (s.con m).call.active with
  | false => rfl
  | true => exact absurd (h.busy m hm) (by simp [hbusy])

/-! ### The steps of a call -/

theorem enter_sound (h : s.Sound) {src : OtaSrc} (hstep : s.act (.enter n src) = some s') : s'.Sound := by
  have hok := h.ok n
  cases hpc : (s.con n).call with
  | idle last =>
    have htask := hok.no_task (by rw [hpc]; rintro ⟨⟩)
    simp only [act, hpc, Option.some.injEq] at hstep
    subst hstep
    cases hbusy : s.busy with
    | true => exact h.put (by rw [hpc]; rfl) (hok.goto htask (by rintro ⟨⟩) (by rintro ⟨⟩))
    | false =>
      have hquiet := h.quiet hbusy
      have hactive : ∀ m, ((s.put n { s.con n with call := .grabbed src }).con m).call.active = true →
        m = n := by
        intro m hm
        by_contra hne
        rw [put_other hne, hquiet m] at hm
        cases hm
      refine ⟨fun _ _ => rfl, fun l m hl hm => (hactive l hl).trans (hactive m hm).symm, fun _ =>
        ⟨n, ?_⟩, fun m => ?_⟩
      · show ((s.put n _).con n).call.active = true
        rw [put_self]
        rfl
      · show ((s.put n _).con m).Ok s.dev
        by_cases hm : m = n
        · subst hm
          rw [put_self]
          exact hok.goto htask (by rintro ⟨⟩) (by rintro ⟨⟩)
        · rw [put_other hm]
          exact h.ok m
  | _ => simp [act, hpc] at hstep

theorem semCreate_sound (h : s.Sound) {ok : Bool} (hstep : s.act (.semCreate n ok) = some s') : s'.Sound := by
  have hok := h.ok n
  cases hpc : (s.con n).call with
  | grabbed src =>
    have htask := hok.no_task (by rw [hpc]; rintro ⟨⟩)
    simp only [act, hpc, Option.some.injEq] at hstep
    subst hstep
    cases ok with
    | true =>
      refine h.put (by rw [hpc]; rfl)
        ⟨fun ht => absurd htask ht, (by rintro ⟨⟩), fun _ => rfl, fun hflash => ?_, fun hflash => ?_, ?_⟩
      · exact absurd htask hflash.1
      · exact absurd htask hflash.1
      · intro hreboot
        have hno : (s.con n).task.rebooting = true := hreboot
        rw [htask] at hno
        cases hno
    | false => exact h.put (by rw [hpc]; rfl) (hok.goto htask (by rintro ⟨⟩) (by rintro ⟨⟩))
  | _ => simp [act, hpc] at hstep

theorem taskCreate_sound (h : s.Sound) {ok : Bool} (hstep : s.act (.taskCreate n ok) = some s') :
    s'.Sound := by
  have hok := h.ok n
  obtain ⟨hpc, rfl⟩ := when_eq_some.mp hstep
  have htask := hok.no_task (by rw [hpc]; rintro ⟨⟩)
  cases ok with
  | true =>
    refine h.put (by rw [hpc]; rfl)
      ⟨fun _ => ⟨rfl, hok.spawning hpc⟩, (by rintro - ⟨⟩), (by rintro ⟨⟩), fun _ => ?_, ?_, (by rintro ⟨⟩)⟩
    · exact SdRun.enter_inv s.dev
    · exact fun _ hbody => absurd rfl hbody
  | false => exact h.put (by rw [hpc]; rfl) (hok.goto htask (by rintro ⟨⟩) (by rintro ⟨⟩))

theorem take_sound (h : s.Sound) (hstep : s.act (.take n) = some s') : s'.Sound := by
  have hok := h.ok n
  obtain ⟨⟨hpc, hdone⟩, rfl⟩ := when_eq_some.mp hstep
  have htask : (s.con n).task = .absent := by
    by_contra hthere
    rw [(hok.tasked hthere).2] at hdone
    cases hdone
  refine h.put (by rw [hpc]; rfl)
    ⟨fun ht => absurd htask ht, (by rintro ⟨⟩), (by rintro ⟨⟩), fun hflash =>
      ?_, fun hflash => ?_, hok.rebooting⟩
  · exact absurd htask hflash.1
  · exact absurd htask hflash.1

theorem semDelete_sound (h : s.Sound) (hstep : s.act (.semDelete n) = some s') : s'.Sound := by
  have hok := h.ok n
  cases hpc : (s.con n).call with
  | woken | undoing =>
    have htask := hok.no_task (by rw [hpc]; rintro ⟨⟩)
    simp only [act, hpc, Option.some.injEq] at hstep
    subst hstep
    exact h.put (by rw [hpc]; rfl) (hok.goto htask (by rintro ⟨⟩) (by rintro ⟨⟩))
  | _ => simp [act, hpc] at hstep

theorem release_sound (h : s.Sound) (hstep : s.act (.release n) = some s') : s'.Sound := by
  have hok := h.ok n
  cases hpc : (s.con n).call with
  | releasing r =>
    have htask := hok.no_task (by rw [hpc]; rintro ⟨⟩)
    simp only [act, hpc, Option.some.injEq] at hstep
    subst hstep
    have hactive : ∀ m, ((s.put n { s.con n with call := .idle (some r) }).con m).call.active = false := by
      intro m
      by_cases hm : m = n
      · subst hm
        rw [put_self]
        rfl
      · rw [put_other hm]
        cases hbusy : (s.con m).call.active with
        | false => rfl
        | true => exact absurd (h.sole m n hbusy (by rw [hpc]; rfl)) hm
    refine ⟨fun m hm => ?_, fun l m hl => ?_, (by rintro ⟨⟩), fun m => ?_⟩
    · exact absurd hm (by simp [hactive m])
    · exact absurd hl (by simp [hactive l])
    · show ((s.put n _).con m).Ok s.dev
      by_cases hm : m = n
      · subst hm
        rw [put_self]
        exact hok.goto htask (by rintro ⟨⟩) (by rintro ⟨⟩)
      · rw [put_other hm]
        exact h.ok m
  | _ => simp [act, hpc] at hstep

/-! ### The steps of a task -/

theorem sd_cases {a : SdAct} (hstep : s.act (.sd n a) = some s') :
    ((s.con n).task = .body ∧ (s.con n).job.src = .sd) ∧
    ∃ d r, SdRun.step s.dev (s.con n).run a = some (d, r) ∧
      s' = { s.put n { s.con n with run := r } with dev := d } := by
  simp only [act] at hstep
  split at hstep
  · next hbody =>
    obtain ⟨⟨d, r⟩, hrun, rfl⟩ := Option.map_eq_some_iff.mp hstep
    exact ⟨hbody, d, r, hrun, rfl⟩
  · cases hstep

theorem sd_sound (h : s.Sound) {a : SdAct} (hstep : s.act (.sd n a) = some s') : s'.Sound := by
  obtain ⟨⟨hbody, hsrc⟩, d, r, hrun, rfl⟩ := sd_cases hstep
  have hok := h.ok n
  have hthere : (s.con n).task ≠ .absent := by
    rw [hbody]
    rintro ⟨⟩
  refine h.change rfl ⟨hok.tasked, hok.awaited, hok.spawning, fun _ => ?_, fun _ hnot =>
    absurd hbody hnot, hok.rebooting⟩ ?_
  · exact SdRun.step_inv (hok.inv ⟨hthere, hsrc⟩) hrun
  · exact fun m hm => (h.ok m).device (h.others hthere hm)

theorem other_sound (h : s.Sound) {slot : ℕ → Bytes} {boot : ℕ}
    (hstep : s.act (.other n slot boot) = some s') : s'.Sound := by
  obtain ⟨⟨hbody, hsrc⟩, rfl⟩ := when_eq_some.mp hstep
  have hthere : (s.con n).task ≠ .absent := by
    rw [hbody]
    rintro ⟨⟩
  refine ⟨h.busy, h.sole, h.held, fun m => ?_⟩
  by_cases hm : m = n
  · subst hm
    exact (h.ok m).device_other hsrc
  · exact (h.ok m).device (h.others hthere hm)

theorem outside_sound (h : s.Sound) {file : Option Bytes} (hok : s.Undisturbed (.outside file))
    (hstep : s.act (.outside file) = some s') : s'.Sound := by
  cases hstep
  refine ⟨h.busy, h.sole, h.held, fun m => ?_⟩
  by_cases hm : (s.con m).task = .absent
  · exact (h.ok m).device hm
  · exact (h.ok m).device_other fun hsrc => hok m ⟨hm, hsrc⟩

/-- A body returns. -/
theorem Sound.returns (h : s.Sound) (hbody : (s.con n).task = .body) {r : Except OtaErr Unit} {reboot : Bool}
    (hdone : (s.con n).job.src = .sd → (s.con n).run.pc = .done r ∧ reboot = (s.con n).run.reboot) :
    (s.put n { s.con n with task := .finished, job := { (s.con n).job with result := r, reboot } }).Sound := by
  have hok := h.ok n
  have hthere : (s.con n).task ≠ .absent := by
    rw [hbody]
    rintro ⟨⟩
  refine h.put rfl
    ⟨fun _ => hok.tasked hthere, (by rintro - ⟨⟩), hok.spawning, fun hflash =>
      ?_, fun hflash _ => ?_, (by rintro ⟨⟩)⟩
  · exact hok.inv ⟨hthere, hflash.2⟩
  · exact hdone hflash.2

theorem sdReturns_sound (h : s.Sound) (hstep : s.act (.sdReturns n) = some s') : s'.Sound := by
  cases hpc : (s.con n).run.pc with
  | done r =>
    simp only [act, hpc] at hstep
    obtain ⟨⟨hbody, -⟩, rfl⟩ := when_eq_some.mp hstep
    exact h.returns hbody fun _ => ⟨hpc, rfl⟩
  | _ => simp [act, hpc] at hstep

theorem otherReturns_sound (h : s.Sound) {r : Except OtaErr Unit} {reboot : Bool}
    (hstep : s.act (.otherReturns n r reboot) = some s') : s'.Sound := by
  obtain ⟨⟨hbody, hsrc⟩, rfl⟩ := when_eq_some.mp hstep
  exact h.returns hbody fun hsd => absurd hsd hsrc

theorem judge_sound (h : s.Sound) (hstep : s.act (.judge n) = some s') : s'.Sound := by
  obtain ⟨htask, rfl⟩ := when_eq_some.mp hstep
  have hthere : (s.con n).task ≠ .absent ∧ (s.con n).task ≠ .body := by
    rw [htask]
    exact ⟨by rintro ⟨⟩, by rintro ⟨⟩⟩
  split
  · next hboth => exact h.put rfl ((h.ok n).advance hthere.1 hthere.2 (by rintro ⟨⟩) fun _ => hboth)
  · exact h.put rfl ((h.ok n).advance hthere.1 hthere.2 (by rintro ⟨⟩) (by rintro ⟨⟩))

/-- A task on its way to the restart goes on. -/
theorem Sound.advance (h : s.Sound) {t t' : TaskAt} (htask : (s.con n).task = t) (ht : t.rebooting = true)
    (ht' : t' ≠ .absent) : (s.put n { s.con n with task := t' }).Sound := by
  have hreboot := (h.ok n).rebooting (htask.symm ▸ ht)
  refine h.put rfl ((h.ok n).advance ?_ ?_ ht' fun _ => hreboot)
  · rw [htask]
    rintro rfl
    cases ht
  · rw [htask]
    rintro rfl
    cases ht

theorem give_sound (h : s.Sound) (hstep : s.act (.give n) = some s') : s'.Sound := by
  obtain ⟨htask, rfl⟩ := when_eq_some.mp hstep
  have hok := h.ok n
  have hcall : (s.con n).call = .waiting := (hok.tasked (by rw [htask]; rintro ⟨⟩)).1
  have hsound : (s.put n { s.con n with task := .absent, job.done := true }).Sound := by
    refine h.put rfl ⟨fun ht => absurd rfl ht, fun _ _ => rfl, fun hpc => ?_, fun hflash =>
      ?_, fun hflash => ?_, (by rintro ⟨⟩)⟩
    · rw [hcall] at hpc
      cases hpc
    · exact absurd rfl hflash.1
    · exact absurd rfl hflash.1
  exact ⟨hsound.busy, hsound.sole, hsound.held, hsound.ok⟩

theorem act_sound {a : OtaAct} (h : s.Sound) (hok : s.Undisturbed a) (hstep : s.act a = some s') :
    s'.Sound := by
  cases a with
  | enter n src => exact enter_sound h hstep
  | semCreate n ok => exact semCreate_sound h hstep
  | taskCreate n ok => exact taskCreate_sound h hstep
  | sd n a => exact sd_sound h hstep
  | sdReturns n => exact sdReturns_sound h hstep
  | other n slot boot => exact other_sound h hstep
  | otherReturns n r reboot => exact otherReturns_sound h hstep
  | judge n => exact judge_sound h hstep
  | unmountAll n =>
    obtain ⟨htask, rfl⟩ := when_eq_some.mp hstep
    exact h.advance htask rfl (by rintro ⟨⟩)
  | delay n =>
    obtain ⟨htask, rfl⟩ := when_eq_some.mp hstep
    exact h.advance htask rfl (by rintro ⟨⟩)
  | restart n =>
    obtain ⟨-, rfl⟩ := when_eq_some.mp hstep
    exact ⟨h.busy, h.sole, h.held, h.ok⟩
  | give n => exact give_sound h hstep
  | taskDelete =>
    obtain ⟨-, rfl⟩ := when_eq_some.mp hstep
    exact ⟨h.busy, h.sole, h.held, h.ok⟩
  | take n => exact take_sound h hstep
  | semDelete n => exact semDelete_sound h hstep
  | release n => exact release_sound h hstep
  | outside file => exact outside_sound h hok hstep

theorem step_act {a : OtaAct} (hstep : s.step a = some s') : s.down = false ∧ s.act a = some s' := by
  unfold step at hstep
  split at hstep
  · cases hstep
  · next hdown => exact ⟨by simpa using hdown, hstep⟩

theorem Start.sound (h : s.Start) : s.Sound := by
  obtain ⟨hbusy, hidle, -, -⟩ := h
  have hactive : ∀ n, (s.con n).call.active = false := by
    intro n
    rw [(hidle n).1]
    rfl
  refine ⟨fun n hn => ?_, fun m n hm => ?_, fun hheld => ?_, fun n => ?_⟩
  · exact absurd hn (by simp [hactive n])
  · exact absurd hm (by simp [hactive m])
  · exact absurd hheld (by simp [hbusy])
  · obtain ⟨hcall, htask⟩ := hidle n
    refine ⟨fun ht => absurd htask ht, fun hpc => ?_, fun hpc => ?_, fun hflash => absurd htask hflash.1,
      fun hflash => absurd htask hflash.1, fun hreboot => ?_⟩
    · rw [hcall] at hpc
      cases hpc
    · rw [hcall] at hpc
      cases hpc
    · rw [htask] at hreboot
      cases hreboot

theorem reach_sound (h : machine.Reach Undisturbed s) : s.Sound :=
  Machine.Reach.invariant (I := fun s => s.Sound) (fun _ => Start.sound)
    (fun _ _ _ h hok hstep => act_sound h hok (step_act hstep).2) h

/-! ### All or nothing -/

/-- While a console flashes, only its own call of `do_sd` changes the device. -/
theorem flashing_device (h : s.Sound) {a : OtaAct} (hflash : (s.con n).Flashing) (hok : s.Undisturbed a)
    (hstep : s.act a = some s') : s'.dev = s.dev ∨
      ∃ b d r, SdRun.step s.dev (s.con n).run b = some (d, r) ∧ s'.dev = d := by
  cases a with
  | sd m b =>
    obtain ⟨⟨hbody, -⟩, d, r, hrun, rfl⟩ := sd_cases hstep
    obtain rfl : m = n := h.single (by rw [hbody]; rintro ⟨⟩) hflash.1
    exact .inr ⟨b, d, r, hrun, rfl⟩
  | other m slot boot =>
    obtain ⟨⟨hbody, hsrc⟩, -⟩ := when_eq_some.mp hstep
    obtain rfl : m = n := h.single (by rw [hbody]; rintro ⟨⟩) hflash.1
    exact absurd hflash.2 hsrc
  | outside file => exact absurd hflash (hok n)
  | enter m src =>
    simp only [act] at hstep
    split at hstep
    · cases hstep
      split <;> exact .inl rfl
    · cases hstep
  | semCreate m ok | semDelete m | release m | sdReturns m =>
    simp only [act] at hstep
    split at hstep <;> simp only [when_eq_some, Option.some.injEq, reduceCtorEq] at hstep
    all_goals first | (subst hstep; exact .inl rfl) | (obtain ⟨-, rfl⟩ := hstep; exact .inl rfl)
  | _ =>
    obtain ⟨-, rfl⟩ := when_eq_some.mp hstep
    exact .inl rfl

/-- The update of a console has failed, and its call is still to return. -/
def Failing (s : Updates) (n : ℕ) (e : OtaErr) : Prop :=
  let c := s.con n
  (c.task = .body ∧ c.job.src = .sd ∧ c.run.pc = .done (.error e)) ∨
    (c.task = .finished ∧ c.job.result = .error e) ∨ (c.task = .giving ∧ c.job.result = .error e) ∨
    (c.call = .waiting ∧ c.task = .absent ∧ c.job.result = .error e) ∨
      (c.call = .woken ∧ c.job.result = .error e) ∨
    (c.call = .undoing ∧ e = .esp .noMem) ∨ c.call = .releasing (.error e)

/-- The console alone can get the call to return `r` with the flag down, and then anyone can start an
    update. -/
def Frees (n : ℕ) (r : Except OtaErr Unit) (s : Updates) : Prop :=
  ∃ as s', (∀ a ∈ as, a.console = some n) ∧ machine.exec s as = some s' ∧ s'.busy = false ∧
    (s'.con n).call = .idle (some r) ∧ ∀ m src, ∃ s'', s'.step (.enter m src) = some s'' ∧
      (s''.con m).call = .grabbed src

theorem Frees.step {r : Except OtaErr Unit} {a : OtaAct} (ha : a.console = some n) (hdown : s.down = false)
    (hstep : s.act a = some s') (h : Frees n r s') : Frees n r s := by
  obtain ⟨as, s'', hown, hexec, hrest⟩ := h
  have hstep' : machine.step s a = some s' := by
    show s.step a = some s'
    rw [Updates.step, hdown]
    exact hstep
  refine ⟨a :: as, s'', List.forall_mem_cons.mpr ⟨ha, hown⟩, ?_, hrest⟩
  rw [Machine.exec, hstep']
  exact hexec

section Frees

variable {r : Except OtaErr Unit} {e : OtaErr}

/-- With the flag down every console is idle, and can start an update. -/
theorem Sound.startable (h : s.Sound) (hbusy : s.busy = false) (hdown : s.down = false)
    (m : ℕ) (src : OtaSrc) :
    ∃ s', s.step (.enter m src) = some s' ∧ (s'.con m).call = .grabbed src := by
  have hidle := h.quiet hbusy m
  cases hpc : (s.con m).call with
  | idle last =>
    refine ⟨{ s.put m { s.con m with call := .grabbed src } with busy := true }, ?_, ?_⟩
    · simp [step, act, hdown, hpc, hbusy]
    · show ((s.put m _).con m).call = .grabbed src
      rw [put_self]
  | _ =>
    rw [hpc] at hidle
    cases hidle

theorem frees_releasing (h : s.Sound) (hdown : s.down = false) (hpc : (s.con n).call = .releasing r) :
    Frees n r s := by
  have hstep : s.act (.release n) =
    some { s.put n { s.con n with call := .idle (some r) } with busy := false } := by
    simp only [act, hpc]
  have hsound := release_sound h hstep
  refine Frees.step rfl hdown hstep ⟨[], _, by simp, rfl, rfl, ?_, hsound.startable rfl hdown⟩
  show ((s.put n _).con n).call = .idle (some r)
  rw [put_self]

theorem frees_undoing (h : s.Sound) (hdown : s.down = false) (hpc : (s.con n).call = .undoing) :
    Frees n (.error (.esp .noMem)) s := by
  have hstep : s.act (.semDelete n) =
    some (s.put n { s.con n with call := .releasing (.error (.esp .noMem)) }) := by
    simp only [act, hpc]
  exact Frees.step rfl hdown hstep (frees_releasing (semDelete_sound h hstep) hdown (by rw [put_self]))

theorem frees_woken (h : s.Sound) (hdown : s.down = false) (hpc : (s.con n).call = .woken)
    (hr : (s.con n).job.result = r) : Frees n r s := by
  have hstep : s.act (.semDelete n) =
    some (s.put n { s.con n with call := .releasing (s.con n).job.result }) := by
    simp only [act, hpc]
  exact Frees.step rfl hdown hstep (frees_releasing (semDelete_sound h hstep) hdown (by rw [put_self, hr]))

theorem frees_signalled (h : s.Sound) (hdown : s.down = false) (hpc : (s.con n).call = .waiting)
    (htask : (s.con n).task = .absent) (hr : (s.con n).job.result = r) : Frees n r s := by
  have hdone := (h.ok n).awaited hpc htask
  have hstep : s.act (.take n) = some (s.put n { s.con n with call := .woken, job.done := false }) :=
    when_eq_some.mpr ⟨⟨hpc, hdone⟩, rfl⟩
  exact Frees.step rfl hdown hstep
    (frees_woken (take_sound h hstep) hdown (by rw [put_self]) (by rw [put_self]; exact hr))

theorem frees_giving (h : s.Sound) (hdown : s.down = false) (htask : (s.con n).task = .giving)
    (hr : (s.con n).job.result = r) : Frees n r s := by
  have hcall := ((h.ok n).tasked (by rw [htask]; rintro ⟨⟩)).1
  have hstep : s.act (.give n) =
      some { s.put n { s.con n with task := .absent, job.done := true } with leaving := s.leaving + 1 } :=
    when_eq_some.mpr ⟨htask, rfl⟩
  have hcon : ({ s.put n { s.con
    n with task := .absent, job.done := true } with leaving := s.leaving + 1 } : Updates).con n =
      { s.con n with task := .absent, job.done := true } := put_self
  refine Frees.step rfl hdown hstep (frees_signalled (give_sound h hstep) hdown ?_ ?_ ?_)
  · rw [hcon]
    exact hcall
  · rw [hcon]
  · rw [hcon]
    exact hr

theorem frees_finished (h : s.Sound) (hdown : s.down = false) (htask : (s.con n).task = .finished)
    (hr : (s.con n).job.result = .error e) : Frees n (.error e) s := by
  have hstep : s.act (.judge n) = some (s.put n { s.con n with task := .giving }) := by
    simp [act, htask, hr]
  exact Frees.step rfl hdown hstep (frees_giving (judge_sound h hstep) hdown (by rw [put_self])
    (by rw [put_self]; exact hr))

theorem frees_body (h : s.Sound) (hdown : s.down = false) (htask : (s.con n).task = .body)
    (hsrc : (s.con n).job.src = .sd) (hpc : (s.con n).run.pc = .done (.error e)) : Frees n (.error e) s := by
  have hstep : s.act (.sdReturns n) = some (s.put n { s.con n with
      task := .finished, job := { (s.con
        n).job with result := .error e, reboot := (s.con n).run.reboot } }) := by
    simp only [act, hpc]
    exact when_eq_some.mpr ⟨⟨htask, hsrc⟩, rfl⟩
  exact Frees.step rfl hdown hstep
    (frees_finished (sdReturns_sound h hstep) hdown (by rw [put_self]) (by rw [put_self]))

theorem Failing.frees (h : s.Sound) (hdown : s.down = false) (hfail : s.Failing n e) :
    Frees n (.error e) s := by
  rcases hfail with ⟨htask, hsrc, hpc⟩ | ⟨htask, hr⟩ | ⟨htask, hr⟩ | ⟨hpc, htask, hr⟩ | ⟨hpc,
    hr⟩ | ⟨hpc, rfl⟩ | hpc
  · exact frees_body h hdown htask hsrc hpc
  · exact frees_finished h hdown htask hr
  · exact frees_giving h hdown htask hr
  · exact frees_signalled h hdown hpc htask hr
  · exact frees_woken h hdown hpc hr
  · exact frees_undoing h hdown hpc
  · exact frees_releasing h hdown hpc

end Frees

/-- A step of another console, or of none, leaves this one alone. -/
theorem act_other {a : OtaAct} (ha : a.console ≠ some n) (hstep : s.act a = some s') :
    s'.con n = s.con n := by
  have hne : ∀ m, some m ≠ some n → n ≠ m := fun m hm hnm => hm (congrArg some hnm.symm)
  cases a with
  | enter m src =>
    have hm := hne m ha
    simp only [act] at hstep
    split at hstep
    · cases hstep
      split <;> exact put_other hm
    · cases hstep
  | semCreate m ok | semDelete m | release m | sdReturns m =>
    have hm := hne m ha
    simp only [act] at hstep
    split at hstep <;> simp only [when_eq_some, Option.some.injEq, reduceCtorEq] at hstep
    all_goals first | (subst hstep; exact put_other hm) | (obtain ⟨-, rfl⟩ := hstep; exact put_other hm)
  | sd m b =>
    obtain ⟨-, d, r, -, rfl⟩ := sd_cases hstep
    exact put_other (hne m ha)
  | other m slot boot | restart m =>
    obtain ⟨-, rfl⟩ := when_eq_some.mp hstep
    rfl
  | taskDelete =>
    obtain ⟨-, rfl⟩ := when_eq_some.mp hstep
    rfl
  | outside file =>
    cases hstep
    rfl
  | taskCreate m x | otherReturns m x y | judge m | unmountAll m | delay m | give m | take m =>
    obtain ⟨-, rfl⟩ := when_eq_some.mp hstep
    exact put_other (hne m ha)

/-- What updates from the SD card keep to, wherever they are. -/
structure AllOrNothing (s : Updates) : Prop where
  /-- Never two tasks: at most one that has not signalled its end. -/
  single : ∀ m n, (s.con m).task ≠ .absent → (s.con n).task ≠ .absent → m = n
  /-- The boot partition changes only when every byte of the file is in the inactive partition, in order, and
      `esp_ota_end` has accepted it. -/
  boot : ∀ n a s', (s.con n).Flashing → s.Undisturbed a → s.step a = some s' → s'.dev.boot ≠ s.dev.boot →
    (s.con n).run.accepted = true ∧ (s.con n).run.tgt ≠ s.dev.running ∧
      s.dev.file = some (s.dev.slot (s.con n).run.tgt)
  /-- The file goes only after `esp_ota_set_boot_partition` returned `ESP_OK`. -/
  file : ∀ n a s', (s.con n).Flashing → s.Undisturbed a → s.step a = some s' → s'.dev.file ≠ s.dev.file →
    (s.con n).run.bootSet = true ∧ s.dev.boot = (s.con n).run.tgt
  /-- So does a reboot. -/
  reboot : ∀ n, (s.con n).Flashing → (s.con n).run.reboot = true ∨ (s.con n).task.rebooting = true →
    (s.con n).run.bootSet = true ∧ s.dev.boot = (s.con n).run.tgt
  /-- The running partition is never written. -/
  running : ∀ n a s', (s.con n).Flashing → s.Undisturbed a → s.step a = some s' →
    s'.dev.slot s.dev.running = s.dev.slot s.dev.running
  /-- When it fails, the file and the boot partition are as they were found. -/
  failed : ∀ n e, (s.con n).Flashing → (s.con n).run.pc = .done (.error e) →
    s.dev.file = (s.con n).run.fileFound ∧ s.dev.boot = (s.con n).run.bootFound
  /-- Then the flag can come down, and nobody else can stop that. -/
  released : ∀ n e, s.down = false → s.Failing n e → Frees n (.error e) s
  kept : ∀ n e a s', s.Failing n e → a.console ≠ some n → s.step a = some s' → s'.Failing n e
  /-- The flag is not up without a call. -/
  free : (∀ n, (s.con n).call.active = false) → s.busy = false

/-- CORRECT: an update from the SD card is all or nothing, and one at a time. -/
theorem update_all_or_nothing (h : machine.Reach Undisturbed s) : s.AllOrNothing where
  single _ _ hm hn := (reach_sound h).single hm hn
  boot n a s' hflash hok hstep hboot := by
    have hinv := ((reach_sound h).ok n).inv hflash
    rcases flashing_device (reach_sound h) hflash hok (step_act hstep).2 with hdev | ⟨b, d, r, hrun, hdev⟩
    · exact absurd (congrArg Device.boot hdev) hboot
    · obtain ⟨⟨⟨hfile, -⟩, htgt, hwhole⟩, hacc⟩ := hinv.boot_changed hrun (hdev ▸ hboot)
      exact ⟨hacc, htgt, hfile.trans hwhole⟩
  file n a s' hflash hok hstep hfile := by
    have hinv := ((reach_sound h).ok n).inv hflash
    rcases flashing_device (reach_sound h) hflash hok (step_act hstep).2 with hdev | ⟨b, d, r, hrun, hdev⟩
    · exact absurd (congrArg Device.file hdev) hfile
    · exact hinv.file_changed hrun (hdev ▸ hfile)
  reboot n hflash hreboot := by
    have hok := (reach_sound h).ok n
    have hinv := hok.inv hflash
    have hdone : (s.con n).run.pc = .done (.ok ()) := by
      rcases hreboot with hreboot | hreboot
      · exact hinv.reboot hreboot
      · have hbody : (s.con n).task ≠ .body := by
          intro hbody
          rw [hbody] at hreboot
          cases hreboot
        rw [(hok.ended hflash hbody).1, (hok.rebooting hreboot).1]
    exact (hinv.at hdone).2
  running n a s' hflash hok hstep := by
    have hinv := ((reach_sound h).ok n).inv hflash
    rcases flashing_device (reach_sound h) hflash hok (step_act hstep).2 with hdev | ⟨b, d, r, hrun, hdev⟩
    · rw [hdev]
    · rw [hdev]
      exact (hinv.running_kept hrun).2
  failed n e hflash hpc := (((reach_sound h).ok n).inv hflash).at hpc
  released _ _ hdown hfail := hfail.frees (reach_sound h) hdown
  kept n e a s' hfail ha hstep := by
    unfold Failing at hfail ⊢
    rw [act_other ha (step_act hstep).2]
    exact hfail
  free hidle := by
    cases hbusy : s.busy with
    | false => rfl
    | true =>
      obtain ⟨n, hn⟩ := (reach_sound h).held hbusy
      exact absurd hn (by simp [hidle n])

/-! ### A card with an image of three bytes -/

def threeBytes : Device := ⟨some [0xE9, 1, 2], fun _ => [], 0, 0⟩

def withCard : Updates :=
  ⟨false, fun _ => ⟨.idle none, ⟨.status, false, .ok (), false⟩, .absent, .enter threeBytes⟩,
    0, threeBytes, false⟩

theorem withCard_start : withCard.Start := ⟨rfl, fun _ => ⟨rfl, rfl⟩, rfl, rfl⟩

/-- Up to the new boot partition; a second console is refused on the way. -/
def flashThree : List OtaAct :=
  [.enter 0 .sd, .semCreate 0 true, .taskCreate 0 true, .enter 1 .sd, .sd 0 (.sdMounted true),
    .sd 0 (.stat (some 3)),
    .sd 0 (.verOpen false), .sd 0 (.fopen true), .sd 0 (.nextPartition (some 1)), .sd 0 (.malloc true),
    .sd 0 (.otaBegin none []), .sd 0 (.fread [0xE9, 1] false), .sd 0 (.otaWrite none []),
      .sd 0 (.fread [2] false),
    .sd 0 (.otaWrite none []), .sd 0 (.fread [] false), .sd 0 .fclose, .sd 0 (.otaEnd none),
      .sd 0 (.setBoot none)]

theorem exec_flashThree : (machine.exec withCard flashThree).isSome = true := by decide

def flashedThree : Updates := (machine.exec withCard flashThree).get exec_flashThree

/-- A step that is none from outside. -/
def ownStep : OtaAct → Bool
  | .outside _ => false
  | _ => true

theorem undisturbed_of_ownStep {a : OtaAct} (h : ownStep a = true) : s.Undisturbed a := by
  cases a with
  | outside file => cases h
  | _ => trivial

theorem reach_flashedThree : machine.Reach Undisturbed flashedThree := by
  have hexec : machine.exec withCard flashThree = some flashedThree := (Option.some_get exec_flashThree).symm
  have hown : machine.execOk (fun _ a => ownStep a) withCard flashThree = true := by decide
  exact ⟨withCard, withCard_start, Machine.exec_path _ (fun _ _ => undisturbed_of_ownStep) hexec hown⟩

theorem update_all_or_nothing_flashedThree : flashedThree.AllOrNothing ∧ flashedThree.dev.boot = 1 ∧
    flashedThree.dev.slot 1 = [0xE9, 1, 2] ∧ flashedThree.dev.file = some [0xE9, 1, 2] ∧
    (flashedThree.con 1).call = .idle (some (.error (.esp .invalidState))) :=
  ⟨update_all_or_nothing reach_flashedThree,
    by decide +kernel, by decide +kernel, by decide +kernel, by decide +kernel⟩

end Updates

end FdcSds
