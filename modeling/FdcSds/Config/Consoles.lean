import FdcSds.Config.Store
import FdcSds.Schemes.Runs

/-! Both consoles on one configuration.

    A setter is one step. `config_save` puts one key a step and `config_wipe` erases, each commits, and
    each lowers the flag in a step of its own. The NVS library answers reads from what was put so far;
    what a reboot finds follows at the commit, or at any time before it.

        save:  put k₀ ─▶ … ─▶ put k₁₇ ─▶ commit ─▶ flag down
        wipe:  erase all ─▶ commit ─▶ defaults ─▶ flag down        -/

namespace FdcSds
open Schemes.Runs

/-- The serial console and the network console, a task each. -/
inductive Terminal where
  | serial | network
  deriving DecidableEq

instance : Fintype Terminal := ⟨{.serial, .network}, fun t => by cases t <;> decide⟩

/-- Where a console is in a save or a wipe. -/
inductive Phase where
  | idle
  | saving (n : ℕ)
  | saved
  | erased
  | wiped
  | defaulted
  deriving DecidableEq

structure Consoles where
  live : LiveConfig
  nvs : Nvs
  flash : Nvs
  phase : Terminal → Phase

inductive Keystroke where
  | set (t : Terminal) (x : Setting)
  | saveOpen (t : Terminal)
  | put (t : Terminal)
  | putFails (t : Terminal)
  | saveCommit (t : Terminal)
  | saveCommitFails (t : Terminal)
  | saveClear (t : Terminal)
  | erase (t : Terminal)
  | wipeCommit (t : Terminal)
  | wipeCommitFails (t : Terminal)
  | setDefaults (t : Terminal)
  | wipeClear (t : Terminal)
  | flush (wrote : Key → Bool)
  | reboot

namespace Consoles

def setPhase (s : Consoles) (t : Terminal) (p : Phase) : Consoles :=
  { s with phase := Function.update s.phase t p }

/-- The key a save puts next. -/
def nextKey : Phase → Option Key
  | .saving n => saveKeys[n]?
  | _ => none

/-- A save or wipe that fails to open NVS, or a wipe that fails to erase it, changes nothing and is no
    step. Opening for writing creates a missing namespace. -/
def step (s : Consoles) : Keystroke → Option Consoles
  | .set t x => when (s.phase t = .idle) { s with live := x.apply s.live }
  | .saveOpen t => when (s.phase t = .idle) (s.setPhase t (.saving 0))
  | .put t =>
    match s.phase t, nextKey (s.phase t) with
    | .saving n, some k =>
      some ({ s with nvs := Function.update s.nvs k (some (s.live.cfg.value k)) }.setPhase t
        (.saving (n + 1)))
    | _, _ => none
  | .putFails t => when ((nextKey (s.phase t)).isSome = true) (s.setPhase t .idle)
  | .saveCommit t => when (s.phase t = .saving saveKeys.length) ({ s with flash := s.nvs }.setPhase t .saved)
  | .saveCommitFails t => when (s.phase t = .saving saveKeys.length) (s.setPhase t .idle)
  | .saveClear t => when (s.phase t = .saved) ({ s with live.dirty := false }.setPhase t .idle)
  | .erase t => when (s.phase t = .idle) ({ s with nvs := fun _ => none }.setPhase t .erased)
  | .wipeCommit t => when (s.phase t = .erased) ({ s with flash := s.nvs }.setPhase t .wiped)
  | .wipeCommitFails t => when (s.phase t = .erased) (s.setPhase t .idle)
  | .setDefaults t => when (s.phase t = .wiped) ({ s with live.cfg := .defaults }.setPhase t .defaulted)
  | .wipeClear t => when (s.phase t = .defaulted) ({ s with live.dirty := false }.setPhase t .idle)
  | .flush wrote => some { s with flash := fun k => if wrote k then s.nvs k else s.flash k }
  | .reboot => some ⟨configInit s.flash, s.flash, s.flash, fun _ => .idle⟩

/-- Just booted. -/
def Booted (s : Consoles) : Prop := s.live = configInit s.flash ∧ s.nvs = s.flash ∧ ∀ t, s.phase t = .idle

def machine : Machine Consoles Keystroke := ⟨Booted, step⟩

end Consoles

/-- The keys whose live value a save has put, or a wipe has reset, and whose flag is still to come down. -/
def Phase.passed : Phase → List Key
  | .saving n => saveKeys.take n
  | .saved | .defaulted => saveKeys
  | .idle | .erased | .wiped => []

/-- A wipe has erased the namespace and not yet reset the live copy. -/
def Phase.wiping : Phase → Bool
  | .erased | .wiped => true
  | .idle | .saving _ | .saved | .defaulted => false

namespace Consoles

/-- No setter changes a value a save in progress has already put; no save puts a value other than the
    default while a wipe is between erasing and resetting; and a wipe erases only when the flag is up or
    everything is at its default, and not what a save in progress has put. -/
def Guarded (s : Consoles) : Keystroke → Prop
  | .set _ x => ∀ t, ∀ k ∈ (s.phase t).passed, (x.apply s.live).cfg.value k = s.live.cfg.value k
  | .put t => ∀ u, (s.phase u).wiping = true →
      ∀ k ∈ nextKey (s.phase t), s.live.cfg.value k = Config.defaults.value k
  | .erase _ => (s.live.dirty = true ∨ s.live.cfg = .defaults) ∧
      ∀ t, ∀ k ∈ (s.phase t).passed, s.live.cfg.value k = Config.defaults.value k
  | _ => True

/-- What each phase has secured. -/
structure Secured (s : Consoles) (p : Phase) : Prop where
  passed : ∀ k ∈ p.passed, s.live.cfg.Stored s.nvs k
  settled : p = .saved ∨ p = .defaulted → ∀ k, s.live.cfg.Stored s.flash k
  wiping : p.wiping = true → ∀ k, Config.defaults.Stored s.nvs k
  wiped : p = .wiped → ∀ k, Config.defaults.Stored s.flash k

/-- With the flag down, NVS has the live copy. -/
structure Sound (s : Consoles) : Prop where
  clean : s.live.dirty = false → ∀ k, s.live.cfg.Stored s.nvs k ∧ s.live.cfg.Stored s.flash k
  secured : ∀ t, s.Secured (s.phase t)

theorem secured_idle (s : Consoles) : s.Secured .idle where
  passed := by rintro k ⟨⟩
  settled := by rintro (h | h) <;> cases h
  wiping := by rintro ⟨⟩
  wiped := by rintro ⟨⟩

variable {s s' : Consoles}

theorem secured_saving {n : ℕ} (h : ∀ k ∈ saveKeys.take n, s.live.cfg.Stored s.nvs k) :
    s.Secured (.saving n) where
  passed := h
  settled := by rintro (h | h) <;> cases h
  wiping := by rintro ⟨⟩
  wiped := by rintro ⟨⟩

theorem secured_erased (h : ∀ k, Config.defaults.Stored s.nvs k) : s.Secured .erased where
  passed := by rintro k ⟨⟩
  settled := by rintro (h | h) <;> cases h
  wiping := fun _ => h
  wiped := by rintro ⟨⟩

theorem secured_wiped (h : ∀ k, Config.defaults.Stored s.nvs k)
    (hflash : ∀ k, Config.defaults.Stored s.flash k) :
    s.Secured .wiped where
  passed := by rintro k ⟨⟩
  settled := by rintro (h | h) <;> cases h
  wiping := fun _ => h
  wiped := fun _ => hflash

/-- Phases that secured something in `s` still have it in `s'`, and console `t` has a new phase. -/
theorem Sound.setPhase (h : s'.Sound) {t : Terminal} {p : Phase} (hp : s'.Secured p) :
    (s'.setPhase t p).Sound where
  clean := h.clean
  secured := by
    intro u
    have hu : s'.Secured ((s'.setPhase t p).phase u) := by
      by_cases hut : u = t
      · subst hut
        simpa [Consoles.setPhase] using hp
      · simpa [Consoles.setPhase, hut] using h.secured u
    exact ⟨hu.passed, hu.settled, hu.wiping, hu.wiped⟩

/-- The live copy changes in no value a phase has secured. -/
theorem Secured.live {p : Phase} (h : s.Secured p) {live : LiveConfig}
    (hsame : ∀ k ∈ p.passed, live.cfg.value k = s.live.cfg.value k) : { s with live := live }.Secured p where
  passed := fun k hk => (h.passed k hk).trans (hsame k hk).symm
  settled := by
    intro hp k
    have hk : k ∈ p.passed := by
      rcases hp with rfl | rfl <;> exact mem_saveKeys k
    exact (h.settled hp k).trans (hsame k hk).symm
  wiping := h.wiping
  wiped := h.wiped

/-- NVS changes, and what a phase has secured there still stands. -/
theorem Secured.nvs {p : Phase} (h : s.Secured p) {nvs : Nvs}
    (hpassed : ∀ k ∈ p.passed, s.live.cfg.Stored nvs k)
    (hwiping : p.wiping = true → ∀ k, Config.defaults.Stored nvs k) : { s with nvs := nvs }.Secured p :=
  ⟨hpassed, h.settled, hwiping, h.wiped⟩

/-- Pending changes reach the flash. -/
theorem Secured.flash {p : Phase} (h : s.Secured p) {flash : Nvs}
    (hmix : ∀ k, flash k = s.nvs k ∨ flash k = s.flash k) : { s with flash := flash }.Secured p where
  passed := h.passed
  settled := by
    intro hp k
    have hk : k ∈ p.passed := by
      rcases hp with rfl | rfl <;> exact mem_saveKeys k
    rcases hmix k with hnew | hold
    · exact (h.passed k hk).congr hnew
    · exact (h.settled hp k).congr hold
  wiping := h.wiping
  wiped := by
    rintro rfl k
    rcases hmix k with hnew | hold
    · exact (h.wiping rfl k).congr hnew
    · exact (h.wiped rfl k).congr hold

theorem Sound.flash (h : s.Sound) {flash : Nvs} (hmix : ∀ k, flash k = s.nvs k ∨ flash k = s.flash k) :
    { s with flash := flash }.Sound where
  clean := by
    intro hclean k
    obtain ⟨hnvs, hflash⟩ := h.clean hclean k
    refine ⟨hnvs, ?_⟩
    rcases hmix k with hnew | hold
    · exact hnvs.congr hnew
    · exact hflash.congr hold
  secured := fun t => (h.secured t).flash hmix

/-- The flag comes down once the live copy is in NVS and on the flash. -/
theorem Sound.clear (h : s.Sound) (hstored : ∀ k, s.live.cfg.Stored s.nvs k ∧ s.live.cfg.Stored s.flash k) :
    { s with live.dirty := false }.Sound where
  clean := fun _ => hstored
  secured := fun t => (h.secured t).live fun _ _ => rfl

theorem Booted.sound (h : s.Booted) : s.Sound := by
  obtain ⟨hlive, hnvs, hidle⟩ := h
  refine ⟨fun _ k => ?_, fun t => ?_⟩
  · rw [hnvs, hlive]
    exact ⟨rfl, rfl⟩
  · rw [hidle t]
    exact s.secured_idle

/-- A save puts one key: what others have secured stands, unless a wipe is under way. -/
theorem put_sound (h : s.Sound) {k : Key} (hwipe : ∀ u, (s.phase u).wiping = true →
    s.live.cfg.value k = Config.defaults.value k) :
    { s with nvs := Function.update s.nvs k (some (s.live.cfg.value k)) }.Sound := by
  have live_put : ∀ j, s.live.cfg.Stored s.nvs j ∨ j = k →
      s.live.cfg.Stored (Function.update s.nvs k (some (s.live.cfg.value k))) j := by
    intro j hj
    by_cases hjk : j = k
    · subst hjk
      exact Config.stored_of_value (Function.update_self ..)
    · exact (hj.resolve_right hjk).congr (Function.update_of_ne hjk ..)
  refine ⟨fun hclean j => ?_, fun t => (h.secured t).nvs (fun j hj => ?_) fun hw j => ?_⟩
  · exact ⟨live_put j (.inl (h.clean hclean j).1), (h.clean hclean j).2⟩
  · exact live_put j (.inl ((h.secured t).passed j hj))
  · by_cases hjk : j = k
    · subst hjk
      exact Config.stored_of_value (by rw [Function.update_self, hwipe t hw])
    · exact ((h.secured t).wiping hw j).congr (Function.update_of_ne hjk ..)

theorem erase_sound (h : s.Sound) (hflag : s.live.dirty = true ∨ s.live.cfg = .defaults)
    (hpassed : ∀ t, ∀ k ∈ (s.phase t).passed, s.live.cfg.value k = Config.defaults.value k) :
    { s with nvs := fun _ => none }.Sound := by
  have gone : ∀ k, Config.defaults.Stored (fun _ => none) k := fun _ => Config.stored_of_none rfl
  refine ⟨fun hclean k => ⟨?_, (h.clean hclean k).2⟩, fun t =>
    (h.secured t).nvs (fun k hk => ?_) fun _ k => gone k⟩
  · have hdefault : s.live.cfg = .defaults := hflag.resolve_left (by simpa using hclean)
    change s.live.cfg.Stored _ k
    rw [hdefault]
    exact gone k
  · exact (gone k).trans (hpassed t k hk).symm

/-- A wipe that has committed resets the live copy. -/
theorem setDefaults_sound (h : s.Sound) {t : Terminal} (ht : s.phase t = .wiped) :
    { s with live.cfg := .defaults }.Sound := by
  have hown := h.secured t
  rw [ht] at hown
  have hnvs : ∀ k, Config.defaults.Stored s.nvs k := hown.wiping rfl
  have hflash : ∀ k, Config.defaults.Stored s.flash k := hown.wiped rfl
  exact ⟨fun _ k => ⟨hnvs k, hflash k⟩, fun u =>
    ⟨fun k _ => hnvs k, fun _ => hflash, fun _ => hnvs, fun _ => hflash⟩⟩

/-- What a finished save has secured: everything. -/
theorem Sound.all_stored (h : s.Sound) {t : Terminal} (ht : s.phase t = .saved ∨ s.phase t = .defaulted)
    (k : Key) :
    s.live.cfg.Stored s.nvs k ∧ s.live.cfg.Stored s.flash k := by
  have hk : k ∈ (s.phase t).passed := by
    rcases ht with ht | ht <;> rw [ht] <;> exact mem_saveKeys k
  exact ⟨(h.secured t).passed k hk, (h.secured t).settled ht k⟩

theorem step_sound {a : Keystroke} (h : s.Sound) (hok : s.Guarded a) (hstep : s.step a = some s') :
    s'.Sound := by
  cases a with
  | set t x =>
    obtain ⟨-, rfl⟩ := when_eq_some.mp hstep
    rcases x.apply_cases s.live with hsame | hdirty
    · rw [hsame]
      exact h
    · refine ⟨fun hclean => ?_, fun u => (h.secured u).live (hok u)⟩
      rw [hdirty] at hclean
      cases hclean
  | saveOpen t =>
    obtain ⟨-, rfl⟩ := when_eq_some.mp hstep
    exact h.setPhase (secured_saving (by rintro k ⟨⟩))
  | put t =>
    simp only [step] at hstep
    split at hstep
    · next n k hphase hkey =>
      cases hstep
      rw [hphase] at hkey
      have hput := put_sound (k := k) h fun u hu => hok u hu k (by rw [hphase]; exact hkey)
      have hearlier := (hput.secured t).passed
      change ∀ j ∈ (s.phase t).passed, _ at hearlier
      rw [hphase] at hearlier
      refine hput.setPhase (secured_saving fun j hj => ?_)
      -- the keys before this one are still there, and this one is new
      have hsplit : saveKeys.take (n + 1) = saveKeys.take n ++ [k] := by
        rw [List.take_add_one]
        exact congrArg _ (congrArg Option.toList hkey)
      rw [hsplit, List.mem_append, List.mem_singleton] at hj
      rcases hj with hj | rfl
      · exact hearlier j hj
      · exact Config.stored_of_value (Function.update_self ..)
    · cases hstep
  | putFails t | saveCommitFails t | wipeCommitFails t =>
    obtain ⟨-, rfl⟩ := when_eq_some.mp hstep
    exact h.setPhase s.secured_idle
  | saveCommit t =>
    obtain ⟨ht, rfl⟩ := when_eq_some.mp hstep
    have hown := h.secured t
    rw [ht] at hown
    have hall : ∀ k, s.live.cfg.Stored s.nvs k := fun k =>
      hown.passed k (by rw [Phase.passed, List.take_length]; exact mem_saveKeys k)
    exact (h.flash fun k => .inl rfl).setPhase ⟨fun k _ => hall k, fun _ => hall, by rintro ⟨⟩, by rintro ⟨⟩⟩
  | saveClear t =>
    obtain ⟨ht, rfl⟩ := when_eq_some.mp hstep
    exact (h.clear (h.all_stored (.inl ht))).setPhase (secured_idle _)
  | erase t =>
    obtain ⟨-, rfl⟩ := when_eq_some.mp hstep
    exact (erase_sound h hok.1 hok.2).setPhase (secured_erased fun _ => Config.stored_of_none rfl)
  | wipeCommit t =>
    obtain ⟨ht, rfl⟩ := when_eq_some.mp hstep
    have hown := h.secured t
    rw [ht] at hown
    have hgone : ∀ k, Config.defaults.Stored s.nvs k := hown.wiping rfl
    exact (h.flash fun k => .inl rfl).setPhase (secured_wiped hgone hgone)
  | setDefaults t =>
    obtain ⟨ht, rfl⟩ := when_eq_some.mp hstep
    have hown := h.secured t
    rw [ht] at hown
    exact (setDefaults_sound h ht).setPhase
      ⟨fun k _ => hown.wiping rfl k, fun _ => hown.wiped rfl, by rintro ⟨⟩, by rintro ⟨⟩⟩
  | wipeClear t =>
    obtain ⟨ht, rfl⟩ := when_eq_some.mp hstep
    exact (h.clear (h.all_stored (.inr ht))).setPhase (secured_idle _)
  | flush wrote =>
    cases hstep
    refine h.flash fun k => ?_
    by_cases hw : wrote k = true
    · exact .inl (if_pos hw)
    · exact .inr (if_neg hw)
  | reboot =>
    cases hstep
    exact Booted.sound ⟨rfl, rfl, fun _ => rfl⟩

/-- CORRECT: in every run of guarded steps, a reboot while the flag is down gives the live copy. -/
theorem clean_is_saved (h : machine.Reach Guarded s) (hclean : s.live.dirty = false) :
    configInit s.flash = s.live := by
  have hsound : s.Sound := h.invariant (fun _ hs => Booted.sound hs) fun _ _ _ hs hok => step_sound hs hok
  have hcfg := Config.load_of_stored fun k => (hsound.clean hclean k).2
  rw [configInit, hcfg, ← hclean]

instance (s : Consoles) (a : Keystroke) : Decidable (s.Guarded a) := by
  cases a <;> simp only [Guarded] <;> infer_instance

/-- A blank device. -/
def blank : Consoles := ⟨configInit fun _ => none, fun _ => none, fun _ => none, fun _ => .idle⟩

theorem blank_booted : blank.Booted := ⟨rfl, rfl, fun _ => rfl⟩

def saveRest (n : ℕ) : List Keystroke :=
  List.replicate n (.put .serial) ++ [.saveCommit .serial, .saveClear .serial]

/-- A save of a new baud rate; while it runs, the other console names an image the save has yet to put. -/
def saveBaud : List Keystroke :=
  [.set .serial (.baud 230400), .saveOpen .serial, .put .serial,
    .set .network (.drive 0 (some ['A']))] ++ saveRest 17

theorem exec_saveBaud : (machine.exec blank saveBaud).isSome = true := by decide +kernel

def savedBaud : Consoles := (machine.exec blank saveBaud).get exec_saveBaud

theorem reach_savedBaud : machine.Reach Guarded savedBaud :=
  ⟨blank, blank_booted, Machine.exec_path (fun s a => decide (s.Guarded a)) (fun _ _ => of_decide_eq_true)
    (Option.some_get exec_saveBaud).symm (by decide +kernel)⟩

theorem clean_is_saved_savedBaud : configInit savedBaud.flash = savedBaud.live :=
  clean_is_saved reach_savedBaud (by decide +kernel)

/-- The same, but the other console changes the baud rate the save has just put. -/
def saveStale : List Keystroke :=
  [.set .serial (.baud 230400), .saveOpen .serial, .put .serial, .set .network (.baud 9600)] ++ saveRest 17

theorem exec_saveStale : (machine.exec blank saveStale).isSome = true := by decide +kernel

/-- The flag is down and the later baud rate is lost. -/
theorem saveStale_lost : ∃ s, machine.Reach Machine.always s ∧ s.live.dirty = false ∧
    s.live.cfg.baudRate = 9600 ∧ (configInit s.flash).cfg.baudRate = 230400 :=
  ⟨_, ⟨blank, blank_booted, Machine.exec_always (Option.some_get exec_saveStale).symm⟩,
    by decide +kernel, by decide +kernel, by decide +kernel⟩

end Consoles

end FdcSds
