import FdcSds.Cli.Settings

/-! What a device keeps of its settings: sessions of the commands that set, `save`, `wipe` and restarts, in
    any order.

    A restart loads what NVS kept. So three tables tell what a device shows: the one set now, the one that
    was saved last, and the one the running parts go by, which are told of a change at once but not of a wipe.

                 set          save           restart
        now ◀───────── line   now ─▶ saved   saved ─▶ now, going by
                       line ─▶ going by                                              -/

namespace FdcSds.Settings
open Schemes OverNvs

/-- The calls that read. -/
def reads : NvsCall → Bool
  | .flashInit | .openNs _ | .getU32 _ | .getU16 _ | .getU8 _ | .getStr _ _ | .close => true
  | _ => false

/-- What the documentation of NVS promises of the store itself: reads leave it, and an erase empties it. -/
structure Steady {σ : Type} (world : σ → (c : NvsCall) → σ × c.Answer)
    (kept : σ → CStr → Option NvsValue) : Prop where
  reads : ∀ s c, reads c = true → kept (world s c).1 = kept s
  flashErase : ∀ s, (world s .flashErase).2 = .ok () → kept (world s .flashErase).1 = fun _ => none

/-! ### The device -/

/-- What the parts that run by a setting were last told. -/
structure Parts where
  baud : UInt32
  level : UInt8
  tz : CStr

def Parts.obey (p : Parts) : LiveOrder → Parts
  | .fdcSetBaud rate => { p with baud := rate }
  | .espLogLevelSet level => { p with level := level }
  | .setTz tz => { p with tz := tz }

/-- What `fdc_init`, `app_main` and `net_init` start the parts with. -/
def Parts.start (s : LiveConfig) : Parts :=
  ⟨s.cfg.baudRate, s.cfg.logLevel, if s.cfg.timeZone.1 = [] then "UTC0".toList else s.cfg.timeZone.1⟩

structure Device (σ : Type) where
  store : σ
  live : LiveConfig
  parts : Parts

inductive DeviceAct where
  | line (l : SettingsLine)
  | save
  | wipe
  | restart

section

variable {σ α β : Type} {world : σ → (c : NvsCall) → σ × c.Answer} {held kept : σ → CStr → Option NvsValue}

/-- One act. A save and a wipe are those that go through; a restart finds in NVS what was kept. -/
inductive DeviceStep (world : σ → (c : NvsCall) → σ × c.Answer) (held kept : σ → CStr → Option NvsValue) :
    Device σ → DeviceAct → Device σ → Prop
  | line (d : Device σ) (l : SettingsLine) :
    DeviceStep world held kept d (.line l)
      ⟨d.store, (l.run d.live).live, (l.run d.live).orders.foldl Parts.obey d.parts⟩
  | save (d : Device σ) (hok : ((configSave d.live).run world d.store).2.2 = .ok ()) :
    DeviceStep world held kept d .save
      ⟨((configSave d.live).run world d.store).1, ((configSave d.live).run world d.store).2.1, d.parts⟩
  | wipe (d : Device σ) (hok : ((configWipe d.live).run world d.store).2.2 = .ok ()) :
    DeviceStep world held kept d .wipe
      ⟨((configWipe d.live).run world d.store).1, ((configWipe d.live).run world d.store).2.1, d.parts⟩
  | restart (d : Device σ) (s' : σ) (before live : LiveConfig) (hheld : held s' = kept d.store)
    (hkept : kept s' = kept d.store)
    (hok : ((OverNvs.configInit before).run world s').2 = some (live, .ok ())) :
    DeviceStep world held kept d .restart ⟨((OverNvs.configInit before).run world s').1,
      live, Parts.start live⟩

/-- A run of acts. -/
def DeviceRuns (world : σ → (c : NvsCall) → σ × c.Answer) (held kept : σ → CStr → Option NvsValue) :
    Device σ → List DeviceAct → Device σ → Prop
  | d, [], d' => d' = d
  | d, a :: as, d' => ∃ e, DeviceStep world held kept d a e ∧ DeviceRuns world held kept e as d'

/-! ### What it is for -/

/-- The table set now, the one saved, and the one the parts go by. -/
structure Tables where
  now : Table
  saved : Table
  going : Table

def Tables.act (t : Tables) : DeviceAct → Tables
  | .line l =>
    match l.assigns with
    | some a => ⟨t.now.put a, t.saved, if toldOf a = [] then t.going else t.going.put a⟩
    | none => t
  | .save => { t with saved := t.now }
  | .wipe => { t with now := Config.defaults.value, saved := Config.defaults.value }
  | .restart => ⟨t.saved, t.saved, t.saved⟩

/-- The parts go by a table. -/
structure Parts.GoBy (p : Parts) (t : Table) : Prop where
  baud : t .baudRate = .u32 p.baud
  level : t .logLevel = .u8 p.level
  tz : ∃ zone, t .timeZone = .str zone ∧ p.tz = if zone = [] then "UTC0".toList else zone

/-- What a restart would find. -/
def storedTable (kept : σ → CStr → Option NvsValue) (s : σ) : Table :=
  (Config.defaults.loadFromNvs fun k => kept s k.text).value

/-- The device shows the three tables. -/
structure Device.Shows (kept : σ → CStr → Option NvsValue) (d : Device σ) (t : Tables) : Prop where
  now : d.live.cfg.value = t.now
  saved : storedTable kept d.store = t.saved
  going : d.parts.GoBy t.going

/-! ### Steps -/

/-- A program that leaves the store. -/
def Leaves (world : σ → (c : NvsCall) → σ × c.Answer) (kept : σ → CStr → Option NvsValue)
    (p : NvsProg α) : Prop :=
  ∀ s, kept (p.run world s).1 = kept s

theorem leaves_pure (v : α) : Leaves world kept (pure v) := fun _ => rfl

theorem Leaves.bind {p : NvsProg α} {f : α → NvsProg β} (hp : Leaves world kept p)
    (hf : ∀ v, Leaves world kept (f v)) :
    Leaves world kept (p >>= f) := by
  intro s
  rw [Prog.run_bind, hf, hp]

theorem leaves_ask (h : Steady world kept) {c : NvsCall} (hc : reads c = true) :
    Leaves world kept (Prog.ask c) :=
  fun s => h.reads s c hc

/-- What is made of the answer to one read. -/
theorem leaves_read (h : Steady world kept) {c : NvsCall} {f : c.Answer → α} (hc : reads c = true) :
    Leaves world kept (do return f (← Prog.ask c)) := fun s => h.reads s c hc

theorem leaves_drives (h : Steady world kept) (is : List (Fin configMaxDrive))
    (drive : Fin configMaxDrive → Text configFileCap) :
    Leaves world kept (loadDrives is drive) := by
  induction is generalizing drive with
  | nil => exact leaves_pure drive
  | cons i is ih => exact (leaves_read h rfl).bind fun _ => ih _

/-- `load_from_nvs` reads only. -/
theorem leaves_load (h : Steady world kept) (c : Config) : Leaves world kept (OverNvs.loadFromNvs c) := by
  iterate 14 refine (leaves_read h rfl).bind fun _ => ?_
  exact (leaves_drives h _ _).bind fun _ => leaves_pure _

theorem leaves_openAndLoad (h : Steady world kept) (live : LiveConfig) :
    Leaves world kept (openAndLoad live) := by
  refine (leaves_ask h rfl).bind fun r => ?_
  rcases r with e | u
  · cases e <;> exact leaves_pure _
  · exact (leaves_load h _).bind fun cfg => (leaves_ask h rfl).bind fun _ => leaves_pure _

/-- The partition is erased only where it holds nothing. -/
theorem bringUp_kept (h : IsNvs world held kept) (hs : Steady world kept) {s : σ} (hheld : held s = kept s)
    (hup : (bringUp.run world s).2 ≠ none) : kept (bringUp.run world s).1 = kept s := by
  rw [bringUp, Prog.run_bind, Prog.run_ask] at hup ⊢
  generalize herr : (world s .flashInit).2 = err at hup ⊢
  by_cases hasks : err = .error .noFreePages ∨ err = .error .newVersionFound
  · have hnone : kept s = fun _ => none := by
      rw [← hheld]
      by_contra hsome
      obtain ⟨hpages, hversion⟩ := h.intact s hsome
      rw [herr] at hpages hversion
      exact hasks.elim hpages hversion
    cases herase : (world (world s .flashInit).1 .flashErase).2 with
    | error e => simp [recover, hasks, herase] at hup
    | ok u =>
      simp only [recover, if_pos hasks, Prog.run_bind, Prog.run_ask, herase, Prog.run_pure]
      rw [hs.reads _ _ rfl, hs.flashErase _ herase, hnone]
  · simp only [recover, if_neg hasks, Prog.run_pure]
    exact hs.reads _ _ rfl

/-- A boot that goes through leaves the store. -/
theorem configInit_kept (h : IsNvs world held kept) (hs : Steady world kept) {s : σ} (hheld : held s = kept s)
    {before live : LiveConfig} (hok : ((OverNvs.configInit before).run world s).2 = some (live, .ok ())) :
    kept ((OverNvs.configInit before).run world s).1 = kept s := by
  rw [OverNvs.configInit, Prog.run_bind] at hok ⊢
  have hup := bringUp_kept h hs hheld
  rcases hbring : (bringUp.run world s).2 with _ | _ | u
  · rw [hbring] at hok
    cases hok
  · rw [hbring] at hok
    cases hok
  · simp only [Prog.run_bind, Prog.run_pure]
    rw [leaves_openAndLoad hs, hup (by rw [hbring]; rintro ⟨⟩)]

theorem configSave_cfg (live : LiveConfig) (s : σ) :
    ((OverNvs.configSave live).run world s).2.1.cfg = live.cfg := by
  have hcfg : (OverNvs.configSave live).Ensures fun r => r.1.cfg = live.cfg := by
    refine Prog.Ensures.bind_of_forall fun r => ?_
    rcases r with e | u
    · exact rfl
    · refine Prog.Ensures.bind_of_forall fun r => Prog.Ensures.bind_of_forall fun r => ?_
      rcases r with e | u <;> exact rfl
  exact hcfg.run world s

theorem configWipe_cfg {live : LiveConfig} {s : σ} (hok : ((configWipe live).run world s).2.2 = .ok ()) :
    ((configWipe live).run world s).2.1.cfg = Config.defaults := by
  have hcfg : (configWipe live).Ensures fun r => r.2 = .ok () → r.1.cfg = Config.defaults := by
    refine Prog.Ensures.bind_of_forall fun r => ?_
    rcases r with e | u
    · rintro ⟨⟩
    · exact fun _ => rfl
  exact hcfg.run world s hok

/-! ### The running parts -/

/-- A part that is told of a value goes by it; the others go by what they went by. -/
theorem Parts.GoBy.told {p : Parts} {t : Table} (h : p.GoBy t) (a : Assignment) :
    ((toldOf a).foldl Parts.obey p).GoBy (if toldOf a = [] then t else t.put a) := by
  by_cases htold : toldOf a = []
  · rw [if_pos htold, htold]
    exact h
  · rw [if_neg htold]
    obtain ⟨k, v⟩ := a
    cases k <;> cases v <;> first | exact absurd rfl htold | skip
    · exact ⟨rfl, h.level, h.tz⟩
    · exact ⟨h.baud, rfl, h.tz⟩
    · exact ⟨h.baud, h.level, _, rfl, rfl⟩

theorem parts_start (live : LiveConfig) : (Parts.start live).GoBy live.cfg.value := ⟨rfl, rfl, _, rfl, rfl⟩

/-! ### Runs -/

/-- Whatever it was before, a restarted device has what was kept. -/
theorem restart_shows (h : IsNvs world held kept) (hs : Steady world kept) {d e : Device σ}
    (hstep : DeviceStep world held kept d .restart e) :
    e.Shows kept ⟨storedTable kept d.store, storedTable kept d.store, storedTable kept d.store⟩ := by
  cases hstep with
  | restart s' before live hheld hkept hok =>
    have hlive : live.cfg.value = storedTable kept d.store := by
      rw [(configInit_boots h s').ok before live hok, storedTable, ← hheld]
      rfl
    refine ⟨hlive, ?_, ?_⟩
    · rw [storedTable, configInit_kept h hs (hheld.trans hkept.symm) hok, hkept, storedTable]
    · have hgoing := parts_start live
      rw [hlive] at hgoing
      exact hgoing

/-- Each act of the device is one on the tables. -/
theorem step_shows (h : IsNvs world held kept) (hs : Steady world kept) {d d' : Device σ} {t : Tables}
    {a : DeviceAct} (hd : d.Shows kept t) (hstep : DeviceStep world held kept d a d') :
    d'.Shows kept (t.act a) := by
  cases hstep with
  | line l =>
    have hline := run_lawful l d.live
    cases ha : l.assigns with
    | none =>
      simp only [Tables.act, ha]
      refine ⟨?_, hd.saved, ?_⟩
      · exact (congrArg (fun s => s.cfg.value) (hline.keeps ha)).trans hd.now
      · rw [hline.orders, ha]
        exact hd.going
    | some a =>
      simp only [Tables.act, ha]
      refine ⟨?_, hd.saved, ?_⟩
      · rw [← hd.now]
        exact (hline.sets a ha).value
      · rw [hline.orders, ha]
        exact hd.going.told a
  | save hok =>
    obtain ⟨-, hvalue⟩ := configSave_ok h hok
    refine ⟨?_, ?_, hd.going⟩
    · exact (congrArg Config.value (configSave_cfg d.live d.store)).trans hd.now
    · exact (congrArg Config.value (Config.load_of_stored fun k =>
        Config.stored_of_value (hvalue k))).trans hd.now
  | wipe hok =>
    obtain ⟨-, hkept⟩ := configWipe_ok h hok
    refine ⟨congrArg Config.value (configWipe_cfg hok), ?_, hd.going⟩
    rw [storedTable, hkept]
    rfl
  | restart s' before live hheld hkept hok =>
    have hrestarted := restart_shows h hs (.restart d s' before live hheld hkept hok)
    rw [hd.saved] at hrestarted
    exact hrestarted

theorem run_shows (h : IsNvs world held kept) (hs : Steady world kept) {acts : List DeviceAct}
    {d d' : Device σ} {t : Tables} (hd : d.Shows kept t) (hrun : DeviceRuns world held kept d acts d') :
    d'.Shows kept (acts.foldl Tables.act t) := by
  induction acts generalizing d t with
  | nil =>
    subst hrun
    exact hd
  | cons a as ih =>
    obtain ⟨e, hstep, hrun⟩ := hrun
    exact ih (step_shows h hs hd hstep) hrun

/-! ### What is ever set -/

/-- What a line can put under the keys that parts run by. -/
structure Proper (a : Assignment) : Prop where
  baud : a.1 = .baudRate → ∃ rate ∈ kBauds, a.2 = .u32 (.ofNat rate)
  level : a.1 = .logLevel → ∃ level ≤ 5, a.2 = .u8 level
  tz : a.1 = .timeZone → ∃ zone, a.2 = .str zone

/-- It goes under another key. -/
theorem proper_other {a : Assignment} (hbaud : a.1 ≠ .baudRate) (hlevel : a.1 ≠ .logLevel)
    (htz : a.1 ≠ .timeZone) : Proper a :=
  ⟨fun h => absurd h hbaud, fun h => absurd h hlevel, fun h => absurd h htz⟩

theorem levelOf_le {v : CStr} {level : UInt8} (h : levelOf v = some level) : level ≤ 5 := by
  have hall : ∀ l ∈ kLogLevels, l.2 ≤ 5 := by decide
  unfold levelOf at h
  split at h
  · cases h
    decide
  · split at h
    · cases h
      decide
    · obtain ⟨l, hl, rfl⟩ := Option.map_eq_some_iff.1 h
      exact hall l (List.mem_of_find?_eq_some hl)

theorem fitting_some {id : ConfigStrId} {v : CStr} {a : Assignment} (h : fitting id v = some a) :
    a = (id.key, .str v) := by
  unfold fitting at h
  split at h
  · cases h
  · exact (Option.some.inj h).symm

theorem assigns_proper {l : SettingsLine} {a : Assignment} (h : l.assigns = some a) : Proper a := by
  obtain ⟨cmd, arg, link⟩ := l
  obtain ⟨v, -, hv⟩ := Option.bind_eq_some_iff.1 h
  have htext : ∀ {id : ConfigStrId}, id.key ≠ .timeZone → fitting id v = some a → Proper a := by
    intro id hid hfit
    rw [fitting_some hfit]
    exact proper_other (by cases id <;> rintro ⟨⟩) (by cases id <;> rintro ⟨⟩) hid
  have hflag : ∀ {k : Key}, k ≠ .baudRate → k ≠ .logLevel → k ≠ .timeZone →
      ((onOff v).map fun on => (k, NvsValue.u8 on.toUInt8)) = some a → Proper a := by
    intro k hbaud hlevel htz hon
    obtain ⟨on, -, rfl⟩ := Option.map_eq_some_iff.1 hon
    exact proper_other hbaud hlevel htz
  cases cmd with
  | hostname => exact htext (by decide) hv
  | ssid => exact htext (by decide) hv
  | pass => exact htext (by decide) hv
  | ftpuser => exact htext (by decide) hv
  | ftppass => exact htext (by decide) hv
  | telnetd => exact hflag (by decide) (by decide) (by decide) hv
  | ftpd => exact hflag (by decide) (by decide) (by decide) hv
  | tnfsd => exact hflag (by decide) (by decide) (by decide) hv
  | tz =>
    rw [fitting_some hv]
    exact ⟨by rintro ⟨⟩, by rintro ⟨⟩, fun _ => ⟨_, rfl⟩⟩
  | baud =>
    obtain ⟨rate, hrate, rfl⟩ := Option.map_eq_some_iff.1 hv
    exact ⟨fun _ => ⟨rate, rateOf_mem hrate, rfl⟩, by rintro ⟨⟩, by rintro ⟨⟩⟩
  | log =>
    obtain ⟨level, hlevel, rfl⟩ := Option.map_eq_some_iff.1 hv
    exact ⟨by rintro ⟨⟩, fun _ => ⟨level, levelOf_le hlevel, rfl⟩, by rintro ⟨⟩⟩
  | fdctcp =>
    obtain ⟨port, -, rfl⟩ := Option.map_eq_some_iff.1 hv
    exact proper_other (by rintro ⟨⟩) (by rintro ⟨⟩) (by rintro ⟨⟩)

/-- What no part is told of goes under a key that none runs by. -/
theorem Proper.untold {a : Assignment} (h : Proper a) (htold : toldOf a = []) :
    a.1 ≠ .baudRate ∧ a.1 ≠ .logLevel ∧ a.1 ≠ .timeZone := by
  obtain ⟨k, v⟩ := a
  refine ⟨?_, ?_, ?_⟩
  · rintro rfl
    obtain ⟨rate, -, rfl⟩ := h.baud rfl
    cases htold
  · rintro rfl
    obtain ⟨level, -, rfl⟩ := h.level rfl
    cases htold
  · rintro rfl
    obtain ⟨zone, rfl⟩ := h.tz rfl
    cases htold

/-! ### The parts and the configuration -/

/-- The parts go by what is set. -/
def Tables.Abreast (t : Tables) : Prop :=
  t.going .baudRate = t.now .baudRate ∧ t.going .logLevel = t.now .logLevel ∧
    t.going .timeZone = t.now .timeZone

theorem put_congr {f g : Table} {k : Key} (h : f k = g k) (a : Assignment) : f.put a k = g.put a k := by
  by_cases hk : k = a.1
  · subst hk
    rw [Table.put, Table.put, Function.update_self, Function.update_self]
  · rw [Table.put, Table.put, Function.update_of_ne hk, Function.update_of_ne hk, h]

/-- Only a wipe leaves the parts behind. -/
theorem act_abreast {t : Tables} (h : t.Abreast) {a : DeviceAct} (ha : a ≠ .wipe) : (t.act a).Abreast := by
  obtain ⟨hbaud, hlevel, htz⟩ := h
  cases a with
  | line l =>
    cases has : l.assigns with
    | none =>
      simp only [Tables.act, has]
      exact ⟨hbaud, hlevel, htz⟩
    | some x =>
      simp only [Tables.act, has]
      by_cases htold : toldOf x = []
      · obtain ⟨nbaud, nlevel, ntz⟩ := (assigns_proper has).untold htold
        rw [if_pos htold]
        exact ⟨hbaud.trans (Function.update_of_ne nbaud.symm ..).symm,
          hlevel.trans (Function.update_of_ne nlevel.symm ..).symm,
          htz.trans (Function.update_of_ne ntz.symm ..).symm⟩
      · rw [if_neg htold]
        exact ⟨put_congr hbaud x, put_congr hlevel x, put_congr htz x⟩
  | save => exact ⟨hbaud, hlevel, htz⟩
  | wipe => exact absurd rfl ha
  | restart => exact ⟨rfl, rfl, rfl⟩

theorem acts_abreast {t : Tables} (h : t.Abreast) {acts : List DeviceAct} (hacts : DeviceAct.wipe ∉ acts) :
    (acts.foldl Tables.act t).Abreast := by
  induction acts generalizing t with
  | nil => exact h
  | cons a as ih =>
    rw [List.mem_cons, not_or] at hacts
    exact ih (act_abreast h (Ne.symm hacts.1)) hacts.2

theorem Device.Shows.parts_eq {d : Device σ} {t : Tables} (h : d.Shows kept t) (ht : t.Abreast) :
    d.parts = Parts.start d.live := by
  obtain ⟨hbaud, hlevel, htz⟩ := ht
  rw [← h.now] at hbaud hlevel htz
  obtain ⟨zone, hzone, hset⟩ := h.going.tz
  have hb : d.parts.baud = d.live.cfg.baudRate := NvsValue.u32.inj (h.going.baud.symm.trans hbaud)
  have hl : d.parts.level = d.live.cfg.logLevel := NvsValue.u8.inj (h.going.level.symm.trans hlevel)
  have hz : zone = d.live.cfg.timeZone.1 := NvsValue.str.inj (hzone.symm.trans htz)
  rw [Parts.start, ← hb, ← hl, ← hz, ← hset]

/-- What a wipe leaves behind: the parts run on as they were told. -/
theorem wipe_leaves_parts {d d' : Device σ} (hstep : DeviceStep world held kept d .wipe d') :
    d'.live.cfg = Config.defaults ∧ d'.parts = d.parts := by
  cases hstep with
  | wipe hok => exact ⟨configWipe_cfg hok, rfl⟩

/-- From a restart on, over any lines, saves, wipes and restarts: the device shows the table its
    accepted lines made, NVS has the table of the last save, and without a wipe since the restart the
    running parts have what the configuration says. -/
theorem device_exact (h : IsNvs world held kept) (hs : Steady world kept) {d d' : Device σ}
    {acts : List DeviceAct} (hrun : DeviceRuns world held kept d (.restart :: acts) d') :
    d'.Shows kept (acts.foldl Tables.act ⟨storedTable kept d.store, storedTable kept d.store,
      storedTable kept d.store⟩) ∧
      (DeviceAct.wipe ∉ acts → d'.parts = Parts.start d'.live) := by
  obtain ⟨e, hstep, hrun⟩ := hrun
  have hend := run_shows h hs (restart_shows h hs hstep) hrun
  exact ⟨hend, fun hwipe => hend.parts_eq (acts_abreast ⟨rfl, rfl, rfl⟩ hwipe)⟩

/-! ### The rate of the link -/

/-- A table with a rate that `baud` offers. -/
def Offered (t : Table) : Prop := ∃ rate ∈ kBauds, t .baudRate = .u32 (.ofNat rate)

theorem offered_defaults : Offered Config.defaults.value := ⟨403200, by decide, rfl⟩

theorem Offered.put {t : Table} (h : Offered t) {a : Assignment} (ha : Proper a) : Offered (t.put a) := by
  by_cases hk : a.1 = .baudRate
  · obtain ⟨rate, hrate, hvalue⟩ := ha.baud hk
    exact ⟨rate, hrate, by rw [Table.put, hk, Function.update_self, hvalue]⟩
  · obtain ⟨rate, hrate, hvalue⟩ := h
    exact ⟨rate, hrate, by rw [Table.put, Function.update_of_ne (Ne.symm hk), hvalue]⟩

structure Tables.AllOffered (t : Tables) : Prop where
  now : Offered t.now
  saved : Offered t.saved
  going : Offered t.going

theorem act_offered {t : Tables} (h : t.AllOffered) (a : DeviceAct) : (t.act a).AllOffered := by
  cases a with
  | line l =>
    cases has : l.assigns with
    | none =>
      simp only [Tables.act, has]
      exact h
    | some x =>
      have hproper := assigns_proper has
      simp only [Tables.act, has]
      refine ⟨h.now.put hproper, h.saved, ?_⟩
      split
      · exact h.going
      · exact h.going.put hproper
  | save => exact ⟨h.now, h.now, h.going⟩
  | wipe => exact ⟨offered_defaults, offered_defaults, h.going⟩
  | restart => exact ⟨h.saved, h.saved, h.saved⟩

theorem acts_offered {t : Tables} (h : t.AllOffered) (acts : List DeviceAct) :
    (acts.foldl Tables.act t).AllOffered := by
  induction acts generalizing t with
  | nil => exact h
  | cons a as ih => exact ih (act_offered h a)

theorem Offered.rate {t : Table} (h : Offered t) {rate : UInt32} (hrate : t .baudRate = .u32 rate) :
    rate.toNat ∈ kBauds := by
  have hall : ∀ r ∈ kBauds, (UInt32.ofNat r).toNat = r := by decide
  obtain ⟨r, hr, hvalue⟩ := h
  rw [NvsValue.u32.inj (hrate.symm.trans hvalue), hall r hr]
  exact hr

/-- The link is never told a rate that `baud` does not offer, and the configuration never has one, when
    the store had none: over any lines, saves, wipes and restarts. -/
theorem rate_offered (h : IsNvs world held kept) (hs : Steady world kept) {d d' : Device σ}
    {acts : List DeviceAct} (hoffered : Offered (storedTable kept d.store))
    (hrun : DeviceRuns world held kept d (.restart :: acts) d') :
    d'.parts.baud.toNat ∈ kBauds ∧ d'.live.cfg.baudRate.toNat ∈ kBauds := by
  obtain ⟨e, hstep, hrun⟩ := hrun
  have hend := run_shows h hs (restart_shows h hs hstep) hrun
  have hall := acts_offered (t := ⟨_, _, _⟩) ⟨hoffered, hoffered, hoffered⟩ acts
  exact ⟨hall.going.rate hend.going.baud, hall.now.rate (congrFun hend.now.symm .baudRate)⟩

end

/-! ### A device with its store in memory -/

theorem memory_steady : Steady memory Prod.snd where
  reads s c hc := by cases c <;> first | rfl | cases hc
  flashErase _ _ := rfl

/-- In memory everything goes through. -/
theorem memory_runs (acts : List DeviceAct)
    (d : Device ((CStr → Option NvsValue) × (CStr → Option NvsValue))) :
    ∃ d', DeviceRuns memory Prod.fst Prod.snd d acts d' := by
  induction acts generalizing d with
  | nil => exact ⟨d, rfl⟩
  | cons a as ih =>
    have hstep : ∃ e, DeviceStep memory Prod.fst Prod.snd d a e := by
      cases a with
      | line l => exact ⟨_, .line d l⟩
      | save => exact ⟨_, .save d rfl⟩
      | wipe => exact ⟨_, .wipe d rfl⟩
      | restart =>
        have hboots := configInit_boots memory_isNvs (d.store.2, d.store.2)
        exact ⟨_, .restart d (d.store.2, d.store.2) d.live _ rfl rfl (hboots.up d.live ⟨rfl, .inl rfl⟩)⟩
    obtain ⟨e, hstep⟩ := hstep
    obtain ⟨d', hrun⟩ := ih e
    exact ⟨d', e, hstep, hrun⟩

def blank : Device ((CStr → Option NvsValue) × (CStr → Option NvsValue)) :=
  ⟨(fun _ => none, fun _ => none), ⟨Config.defaults, false⟩, Parts.start ⟨Config.defaults, false⟩⟩

/-- A rate that is saved, and one that is not. -/
def baudActs : List DeviceAct :=
  [.line ⟨.baud, some "9600".toList, ⟨.uart, .off, 0, [], 403200⟩⟩, .save,
    .line ⟨.baud, some "19200".toList, ⟨.uart, .off, 0, [], 9600⟩⟩, .restart]

/-- The saved one is what comes back. -/
theorem device_exact_baud : ∃ d', DeviceRuns memory Prod.fst Prod.snd blank (.restart :: baudActs) d' ∧
    d'.live.cfg.baudRate = 9600 ∧ d'.parts = Parts.start d'.live := by
  obtain ⟨d', hrun⟩ := memory_runs (.restart :: baudActs) blank
  obtain ⟨hshows, hparts⟩ := device_exact memory_isNvs memory_steady hrun
  exact ⟨d', hrun, NvsValue.u32.inj (congrFun hshows.now .baudRate), hparts (by simp [baudActs])⟩

theorem rate_offered_baud : ∃ d', DeviceRuns memory Prod.fst Prod.snd blank (.restart :: baudActs) d' ∧
    d'.parts.baud.toNat ∈ kBauds := by
  obtain ⟨d', hrun⟩ := memory_runs (.restart :: baudActs) blank
  exact ⟨d', hrun, (rate_offered memory_isNvs memory_steady (d := blank) offered_defaults hrun).1⟩

end FdcSds.Settings
