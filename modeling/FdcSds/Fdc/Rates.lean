import FdcSds.Cli.Settings
import FdcSds.Config.Consoles

/-! The rate on its way to the link (`cmd_baud`, `fdc_set_baud`, `apply_pending_baud`).

    A console writes the configuration and then the pending rate; the task of the FDC+ link reads the
    pending rate, clears it and programs the UART. Nothing locks the word between them.

        console: configuration, pending        task: read ─▶ clear ─▶ program -/

namespace FdcSds
open Schemes.Runs

/-- Where the task is in `apply_pending_baud`. -/
inductive RateTask where
  | idle
  | got (pb : UInt32)
  | cleared (pb : UInt32)
  deriving DecidableEq

/-- The configured rate, `s_pending_baud`, `s_baud`, and the consoles that have configured a rate and
    not told the link. -/
structure Rates where
  cfg : UInt32
  pending : UInt32
  baud : UInt32
  telling : Terminal → Option UInt32
  task : RateTask

inductive RateAct where
  | configSetBaud (t : Terminal) (rate : UInt32)
  | fdcSetBaud (t : Terminal)
  | poll
  | clear
  | program (ok : Bool)

namespace Rates

def step (s : Rates) : RateAct → Option Rates
  | .configSetBaud t rate =>
    when (s.telling t = none ∧ rate.toNat ∈ Settings.kBauds)
      { s with cfg := rate, telling := Function.update s.telling t (some rate) }
  | .fdcSetBaud t =>
    (s.telling t).map fun rate => { s with pending := rate, telling := Function.update s.telling t none }
  | .poll =>
    match s.task with
    | .idle => some (if s.pending ≠ 0 then { s with task := .got s.pending } else s)
    | _ => none
  | .clear =>
    match s.task with
    | .got pb => some { s with pending := 0, task := .cleared pb }
    | _ => none
  | .program ok =>
    match s.task with
    | .cleared pb => some { s with baud := if ok then pb else s.baud, task := .idle }
    | _ => none

/-- `fdc_init`. -/
def Start (s : Rates) : Prop := s.baud = s.cfg ∧ s.pending = 0 ∧ (∀ t, s.telling t = none) ∧ s.task = .idle

def machine : Machine Rates RateAct := ⟨Start, step⟩

/-- One console at a time sets a rate; none tells the link between the read and the clear; the UART
    takes the rate. -/
def Orderly (s : Rates) : RateAct → Prop
  | .configSetBaud _ _ => ∀ t, s.telling t = none
  | .fdcSetBaud _ => ∀ pb, s.task ≠ .got pb
  | .program ok => ok = true
  | _ => True

/-- Nothing is on its way. -/
def Quiet (s : Rates) : Prop := (∀ t, s.telling t = none) ∧ s.pending = 0 ∧ s.task = .idle

/-- What the task would set if nothing more came. -/
def due (s : Rates) : UInt32 :=
  if s.pending ≠ 0 then s.pending
  else match s.task with
    | .cleared pb => pb
    | _ => s.baud

structure Sound (s : Rates) : Prop where
  /-- A console that has not told the link yet is to tell what is configured. -/
  telling : ∀ t rate, s.telling t = some rate → rate = s.cfg ∧ rate ≠ 0
  due : (∀ t, s.telling t = none) → s.due = s.cfg
  got : ∀ pb, s.task = .got pb → s.pending = pb ∧ pb ≠ 0

theorem Start.sound {s : Rates} (h : s.Start) : s.Sound := by
  obtain ⟨hbaud, hpending, htelling, htask⟩ := h
  refine ⟨fun t rate hrate => ?_, fun _ => ?_, fun pb hpb => ?_⟩
  · rw [htelling t] at hrate
    cases hrate
  · rw [Rates.due, hpending, htask, if_neg (not_not.2 rfl)]
    exact hbaud
  · rw [htask] at hpb
    cases hpb

theorem step_sound {s s' : Rates} {a : RateAct} (h : s.Sound) (hok : s.Orderly a)
    (hstep : s.step a = some s') : s'.Sound := by
  cases a with
  | configSetBaud t rate =>
    obtain ⟨⟨-, hrate⟩, rfl⟩ := when_eq_some.1 hstep
    refine ⟨fun u r hr => ?_, fun hnone => ?_, h.got⟩
    · by_cases hu : u = t
      · subst hu
        simp only [Function.update_self, Option.some.injEq] at hr
        subst hr
        refine ⟨rfl, ?_⟩
        rintro rfl
        exact absurd hrate (by decide)
      · simp only [Function.update_of_ne hu, hok u] at hr
        cases hr
    · have ht := hnone t
      simp only [Function.update_self] at ht
      cases ht
  | fdcSetBaud t =>
    obtain ⟨rate, hrate, rfl⟩ := Option.map_eq_some_iff.1 hstep
    obtain ⟨hcfg, hne⟩ := h.telling t rate hrate
    refine ⟨fun u r hr => ?_, fun _ => ?_, fun pb hpb => absurd hpb (hok pb)⟩
    · by_cases hu : u = t
      · subst hu
        simp only [Function.update_self] at hr
        cases hr
      · simp only [Function.update_of_ne hu] at hr
        exact h.telling u r hr
    · simp only [Rates.due, if_pos hne]
      exact hcfg
  | poll =>
    simp only [step] at hstep
    split at hstep
    · next htask =>
      cases hstep
      split
      · next hpending =>
        refine ⟨h.telling, fun hnone => ?_, fun pb hpb => ?_⟩
        · have hdue := h.due hnone
          simp only [Rates.due, if_pos hpending] at hdue ⊢
          exact hdue
        · cases hpb
          exact ⟨rfl, hpending⟩
      · exact h
    · cases hstep
  | clear =>
    simp only [step] at hstep
    split at hstep
    · next pb htask =>
      cases hstep
      obtain ⟨hpending, hne⟩ := h.got pb htask
      refine ⟨h.telling, fun hnone => ?_, by rintro _ ⟨⟩⟩
      have hdue := h.due hnone
      rw [Rates.due, hpending, if_pos hne] at hdue
      simp only [Rates.due, ne_eq, not_true_eq_false, if_false]
      exact hdue
    · cases hstep
  | program ok =>
    have hok : ok = true := hok
    subst hok
    simp only [step] at hstep
    split at hstep
    · next pb htask =>
      cases hstep
      refine ⟨h.telling, fun hnone => ?_, by rintro _ ⟨⟩⟩
      have hdue := h.due hnone
      rw [Rates.due, htask] at hdue
      exact hdue
    · cases hstep

theorem reach_sound {s : Rates} (h : machine.Reach Orderly s) : s.Sound :=
  h.invariant (fun _ => Start.sound) fun _ _ _ => step_sound

theorem Sound.agrees {s : Rates} (h : s.Sound) (hquiet : s.Quiet) : s.baud = s.cfg := by
  obtain ⟨htelling, hpending, htask⟩ := hquiet
  have hdue := h.due htelling
  rwa [Rates.due, hpending, htask, if_neg (not_not.2 rfl)] at hdue

/-! ### The task comes round -/

/-- Only the task goes on, and the UART takes what it is told. -/
def Alone (_ : Rates) : RateAct → Prop
  | .poll | .clear => True
  | .program ok => ok = true
  | .configSetBaud _ _ | .fdcSetBaud _ => False

theorem Alone.orderly {s : Rates} {a : RateAct} (h : s.Alone a) : s.Orderly a := by
  cases a with
  | configSetBaud t rate => exact h.elim
  | fdcSetBaud t => exact h.elim
  | poll => trivial
  | clear => trivial
  | program ok => exact h

/-- The task by itself brings everything home, and leaves the configuration. -/
def Settles (s : Rates) : Prop := ∃ s', machine.Path Alone s s' ∧ s'.Quiet ∧ s'.cfg = s.cfg

theorem got_settles {s : Rates} (hnone : ∀ t, s.telling t = none) {pb : UInt32}
    (htask : s.task = .got pb) : s.Settles := by
  have hclear : machine.step s .clear = some { s with pending := 0, task := .cleared pb } := by
    simp only [machine, step, htask]
  exact ⟨{ s with pending := 0, baud := pb, task := .idle }, .head ⟨.clear, trivial, hclear⟩
    (.single ⟨.program true, rfl, rfl⟩),
    ⟨hnone, rfl, rfl⟩, rfl⟩

theorem idle_settles {s : Rates} (hnone : ∀ t, s.telling t = none) (htask : s.task = .idle) : s.Settles := by
  by_cases hpending : s.pending = 0
  · exact ⟨s, .refl, ⟨hnone, hpending, htask⟩, rfl⟩
  · have hpoll : machine.step s .poll = some { s with task := .got s.pending } := by
      simp only [machine, step, htask, ne_eq, hpending, not_false_eq_true, if_true]
    obtain ⟨s', hpath, hquiet, hcfg⟩ := got_settles (s := { s with task := .got s.pending }) hnone rfl
    exact ⟨s', .head ⟨.poll, trivial, hpoll⟩ hpath, hquiet, hcfg⟩

theorem settles {s : Rates} (hnone : ∀ t, s.telling t = none) : s.Settles := by
  cases htask : s.task with
  | idle => exact idle_settles hnone htask
  | got pb => exact got_settles hnone htask
  | cleared pb =>
    have hprogram : machine.step s (.program true) = some { s with baud := pb, task := .idle } := by
      simp only [machine, step, htask, if_true]
    obtain ⟨s', hpath, hquiet, hcfg⟩ := idle_settles (s := { s with baud := pb, task := .idle }) hnone rfl
    exact ⟨s', .head ⟨.program true, rfl, hprogram⟩ hpath, hquiet, hcfg⟩

/-- CORRECT: in an orderly run the link has the configured rate wherever nothing is on its way, and once
    the consoles are done the task gets it there by acts of its own. -/
theorem link_follows {s : Rates} (h : machine.Reach Orderly s) :
    (s.Quiet → s.baud = s.cfg) ∧
      ((∀ t, s.telling t = none) → ∃ s', machine.Path Alone s s' ∧ s'.Quiet ∧ s'.baud = s.cfg) := by
  refine ⟨(reach_sound h).agrees, fun hnone => ?_⟩
  obtain ⟨s', hpath, hquiet, hcfg⟩ := settles hnone
  have horderly : machine.Path Orderly s s' := by
    refine Relation.ReflTransGen.mono ?_ _ _ hpath
    rintro _ _ ⟨a, halone, hstep⟩
    exact ⟨a, halone.orderly, hstep⟩
  exact ⟨s', hpath, hquiet, ((reach_sound (h.path horderly)).agrees hquiet).trans hcfg⟩

def fresh : Rates := ⟨403200, 0, 403200, fun _ => none, .idle⟩

/-- A rate that was configured and told. -/
theorem link_follows_told : ∃ s', machine.Path Alone { fresh with cfg := 9600, pending := 9600 } s' ∧
      s'.Quiet ∧ s'.baud = 9600 := by
  have hnone : Function.update (Function.update fresh.telling .serial (some 9600))
    .serial none = fresh.telling := by
    funext t
    cases t <;> rfl
  have hstart : machine.Reach Orderly fresh := .of_start ⟨rfl, rfl, fun _ => rfl, rfl⟩
  have halone : fresh.Orderly (.configSetBaud .serial 9600) := fun _ => rfl
  have hstep : machine.step fresh (.configSetBaud .serial 9600) =
      some { fresh with cfg := 9600, telling := Function.update fresh.telling .serial (some 9600) } := by
    simp only [machine, step]
    exact when_eq_some.2 ⟨⟨rfl, by decide⟩, rfl⟩
  have hearly : Orderly
      { fresh with cfg := 9600, telling := Function.update fresh.telling .serial (some 9600) }
      (.fdcSetBaud .serial) := by rintro pb ⟨⟩
  have htold := (hstart.step halone hstep).step hearly rfl
  rw [hnone] at htold
  exact (link_follows htold).2 fun _ => rfl

/-- A rate that is told between the read and the clear is lost: the link stays behind the configuration. -/
example : (machine.exec fresh [.configSetBaud .serial 9600, .fdcSetBaud .serial, .poll,
      .configSetBaud .serial 19200, .fdcSetBaud .serial,
    .clear, .program true]).map (fun s => (s.cfg, s.pending, s.baud)) = some (19200, 0, 9600) := by decide

end Rates
end FdcSds
