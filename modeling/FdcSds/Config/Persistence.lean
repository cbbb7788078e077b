import FdcSds.Config.Store
import FdcSds.Schemes.Programs

/-! `config_init`, `config_save` and `config_wipe` (`src/config/config.c`), call by call.

    NVS is not part of the program: it is a world that answers calls, and what is relied on is what its
    documentation promises. A save that went through has put each field under a key of its own, in the
    type and within the length the load of that field asks for, so the two lists fit together.

        config_save ──set, set, … commit──▶ NVS ──restart──▶ NVS ──get, get, …──▶ config_init    -/

namespace FdcSds
open Schemes

/-! ### NVS -/

/-- The errors of NVS, as far as the code tells them apart. -/
inductive NvsErr where
  | notFound | noFreePages | newVersionFound
  | other (code : ℤ)
  deriving DecidableEq

/-- The calls, on the namespace of the program. -/
inductive NvsCall where
  | flashInit
  | flashErase
  | openNs (readwrite : Bool)
  | set (key : CStr) (v : NvsValue)
  | getU32 (key : CStr)
  | getU16 (key : CStr)
  | getU8 (key : CStr)
  | getStr (key : CStr) (cap : ℕ)
  | commit
  | eraseAll
  | close

/-- The answers. -/
abbrev NvsCall.Answer : NvsCall → Type
  | .getU32 _ => Except NvsErr UInt32
  | .getU16 _ => Except NvsErr UInt16
  | .getU8 _ => Except NvsErr UInt8
  | .getStr _ cap => Except NvsErr (Text cap)
  | .close => Unit
  | _ => Except NvsErr Unit

/-- A program that calls NVS. -/
abbrev NvsProg (α : Type) : Type := Prog NvsCall NvsCall.Answer α

abbrev nvsFlashInit : NvsProg (Except NvsErr Unit) := Prog.ask NvsCall.flashInit
abbrev nvsFlashErase : NvsProg (Except NvsErr Unit) := Prog.ask NvsCall.flashErase
abbrev nvsOpen (readwrite : Bool) : NvsProg (Except NvsErr Unit) := Prog.ask (NvsCall.openNs readwrite)
abbrev nvsSet (key : CStr) (v : NvsValue) : NvsProg (Except NvsErr Unit) := Prog.ask (NvsCall.set key v)
abbrev nvsGetU32 (key : CStr) : NvsProg (Except NvsErr UInt32) := Prog.ask (NvsCall.getU32 key)
abbrev nvsGetU16 (key : CStr) : NvsProg (Except NvsErr UInt16) := Prog.ask (NvsCall.getU16 key)
abbrev nvsGetU8 (key : CStr) : NvsProg (Except NvsErr UInt8) := Prog.ask (NvsCall.getU8 key)
abbrev nvsGetStr (key : CStr) (cap : ℕ) : NvsProg (Except NvsErr (Text cap)) :=
  Prog.ask (NvsCall.getStr key cap)
abbrev nvsCommit : NvsProg (Except NvsErr Unit) := Prog.ask NvsCall.commit
abbrev nvsEraseAll : NvsProg (Except NvsErr Unit) := Prog.ask NvsCall.eraseAll
abbrev nvsClose : NvsProg Unit := Prog.ask NvsCall.close

def NvsValue.asU32 : NvsValue → Option UInt32
  | .u32 v => some v
  | _ => none

def NvsValue.asU16 : NvsValue → Option UInt16
  | .u16 v => some v
  | _ => none

def NvsValue.asU8 : NvsValue → Option UInt8
  | .u8 v => some v
  | _ => none

/-- A string that fits a buffer. -/
def NvsValue.asText (cap : ℕ) : NvsValue → Option (Text cap)
  | .str s => if h : s.length < cap then some ⟨s, h⟩ else none
  | _ => none

/-- The longest key. -/
def nvsKeyMax : ℕ := 15

/-- What the documentation of NVS promises: `held` is what a handle sees, `kept` what a restart leaves. -/
structure IsNvs {σ : Type} (world : σ → (c : NvsCall) → σ × c.Answer)
    (held kept : σ → CStr → Option NvsValue) : Prop where
  /-- A value replaces what was stored under its key. -/
  set : ∀ s key v, key.length ≤ nvsKeyMax → (world s (.set key v)).2 = .ok () →
    held (world s (.set key v)).1 = Function.update (held s) key (some v)
  /-- A read gives what was last stored, when it is of the type asked for. -/
  getU32 : ∀ s key, key.length ≤ nvsKeyMax →
    (world s (.getU32 key)).2.toOption = (held s key).bind NvsValue.asU32
  getU16 : ∀ s key, key.length ≤ nvsKeyMax →
    (world s (.getU16 key)).2.toOption = (held s key).bind NvsValue.asU16
  getU8 : ∀ s key, key.length ≤ nvsKeyMax →
    (world s (.getU8 key)).2.toOption = (held s key).bind NvsValue.asU8
  getStr : ∀ s key cap, key.length ≤ nvsKeyMax →
    (world s (.getStr key cap)).2.toOption = (held s key).bind (NvsValue.asText cap)
  /-- Reads change nothing. -/
  getU32_held : ∀ s key, held (world s (.getU32 key)).1 = held s
  getU16_held : ∀ s key, held (world s (.getU16 key)).1 = held s
  getU8_held : ∀ s key, held (world s (.getU8 key)).1 = held s
  getStr_held : ∀ s key cap, held (world s (.getStr key cap)).1 = held s
  /-- A commit writes out what is pending. -/
  commit : ∀ s, (world s .commit).2 = .ok () → held (world s .commit).1 = held s ∧
    kept (world s .commit).1 = held s
  eraseAll : ∀ s, (world s .eraseAll).2 = .ok () → held (world s .eraseAll).1 = fun _ => none
  close : ∀ s, held (world s .close).1 = held s ∧ kept (world s .close).1 = kept s
  openNs : ∀ s rw, held (world s (.openNs rw)).1 = held s ∧ kept (world s (.openNs rw)).1 = kept s
  /-- A namespace that is not found holds nothing. -/
  notFound : ∀ s rw, (world s (.openNs rw)).2 = .error .notFound → (held s = fun _ => none) ∧
    kept s = fun _ => none
  flashInit : ∀ s, (world s .flashInit).2 = .ok () → held (world s .flashInit).1 = held s
  flashErase : ∀ s, (world s .flashErase).2 = .ok () → held (world s .flashErase).1 = fun _ => none
  /-- Where something is stored, the partition is neither truncated nor of a newer format. -/
  intact : ∀ s, held s ≠ (fun _ => none) →
    (world s .flashInit).2 ≠ .error .noFreePages ∧ (world s .flashInit).2 ≠ .error .newVersionFound

/-! ### The keys -/

def keyBaud : CStr := "baudRate".toList
def keyLogLvl : CStr := "logLevel".toList
def keyWifiEn : CStr := "wifiEnabled".toList
def keyTelnetEn : CStr := "telnetEnabled".toList
def keyFtpEn : CStr := "ftpEnabled".toList
def keyTnfsdEn : CStr := "tnfsdEnabled".toList
def keyFdcTcp : CStr := "fdcTcpPort".toList
def keySsid : CStr := "wifiSSID".toList
def keyPass : CStr := "wifiPass".toList
def keyName : CStr := "wifiName".toList
def keyTz : CStr := "timeZone".toList
def keyFtpUser : CStr := "ftpUser".toList
def keyFtpPass : CStr := "ftpPass".toList
def keyOtaRepo : CStr := "otaRepo".toList

def keyDrive (n : Fin configMaxDrive) : CStr :=
  ["Drive0".toList, "Drive1".toList, "Drive2".toList, "Drive3".toList].get n

/-- The text of a key. -/
def Key.text : Key → CStr
  | .baudRate => keyBaud
  | .logLevel => keyLogLvl
  | .wifiEnabled => keyWifiEn
  | .telnetEnabled => keyTelnetEn
  | .ftpEnabled => keyFtpEn
  | .tnfsdEnabled => keyTnfsdEn
  | .fdcTcpPort => keyFdcTcp
  | .wifiSsid => keySsid
  | .wifiPass => keyPass
  | .wifiName => keyName
  | .timeZone => keyTz
  | .ftpUser => keyFtpUser
  | .ftpPass => keyFtpPass
  | .otaRepo => keyOtaRepo
  | .drive n => keyDrive n

/-- No two fields share a key. -/
theorem nodup_keys : (saveKeys.map Key.text).Nodup := by decide

theorem Key.text_length (k : Key) : k.text.length ≤ nvsKeyMax := by
  have hall : ∀ k ∈ saveKeys, k.text.length ≤ nvsKeyMax := by decide
  exact hall k (mem_saveKeys k)

namespace OverNvs

/-! ### Loading -/

/-- The integer reads: what is in place stays when the read fails. -/
def loadU32 (key : CStr) (dst : UInt32) : NvsProg UInt32 := return (← nvsGetU32 key).toOption.getD dst
def loadU16 (key : CStr) (dst : UInt16) : NvsProg UInt16 := return (← nvsGetU16 key).toOption.getD dst
def loadU8 (key : CStr) (dst : UInt8) : NvsProg UInt8 := return (← nvsGetU8 key).toOption.getD dst

def loadBool (key : CStr) (dst : Bool) : NvsProg Bool :=
  return ((← nvsGetU8 key).toOption.map (· != 0)).getD dst

/-- `load_str`; the length asked for is the buffer's. -/
def loadStr {cap : ℕ} (key : CStr) (dst : Text cap) : NvsProg (Text cap) :=
  return (← nvsGetStr key cap).toOption.getD dst

/-- The loop over the drives. -/
def loadDrives : List (Fin configMaxDrive) → (Fin configMaxDrive → Text configFileCap) →
    NvsProg (Fin configMaxDrive → Text configFileCap)
  | [], drive => pure drive
  | i :: is, drive => do
    let name ← loadStr (keyDrive i) (drive i)
    loadDrives is (Function.update drive i name)

/-- `load_from_nvs`. -/
def loadFromNvs (c : Config) : NvsProg Config := do
  let baudRate ← loadU32 keyBaud c.baudRate
  let logLevel ← loadU8 keyLogLvl c.logLevel
  let wifiEnabled ← loadBool keyWifiEn c.wifiEnabled
  let telnetEnabled ← loadBool keyTelnetEn c.telnetEnabled
  let ftpEnabled ← loadBool keyFtpEn c.ftpEnabled
  let tnfsdEnabled ← loadBool keyTnfsdEn c.tnfsdEnabled
  let fdcTcpPort ← loadU16 keyFdcTcp c.fdcTcpPort
  let wifiSsid ← loadStr keySsid c.wifiSsid
  let wifiPass ← loadStr keyPass c.wifiPass
  let wifiName ← loadStr keyName c.wifiName
  let timeZone ← loadStr keyTz c.timeZone
  let ftpUser ← loadStr keyFtpUser c.ftpUser
  let ftpPass ← loadStr keyFtpPass c.ftpPass
  let otaRepo ← loadStr keyOtaRepo c.otaRepo
  let drive ← loadDrives (List.finRange configMaxDrive) c.drive
  return ⟨baudRate, logLevel, wifiEnabled, telnetEnabled, ftpEnabled, tnfsdEnabled, fdcTcpPort,
    wifiSsid, wifiPass, wifiName, timeZone, ftpUser, ftpPass, otaRepo, drive⟩

/-- `config_init` behind `nvs_flash_init`; `s` has the defaults. -/
def openAndLoad (s : LiveConfig) : NvsProg (LiveConfig × Except NvsErr Unit) := do
  match ← nvsOpen false with
  | .error .notFound => return (⟨s.cfg, false⟩, .ok ())
  | .error e => return (s, .error e)
  | .ok () =>
    let cfg ← loadFromNvs s.cfg
    nvsClose
    return (⟨cfg, false⟩, .ok ())

/-- The partition is erased and brought up once more when it asks for that; `none` when the erase fails,
    which restarts the device. -/
def recover (err : Except NvsErr Unit) : NvsProg (Option (Except NvsErr Unit)) := do
  if err = .error .noFreePages ∨ err = .error .newVersionFound then
    match ← nvsFlashErase with
    | .error _ => return none
    | .ok () => return some (← nvsFlashInit)
  else return some err

def bringUp : NvsProg (Option (Except NvsErr Unit)) := do recover (← nvsFlashInit)

/-- `config_init`. -/
def configInit (s : LiveConfig) : NvsProg (Option (LiveConfig × Except NvsErr Unit)) := do
  let s : LiveConfig := { s with cfg := Config.defaults }
  match ← bringUp with
  | none => return none
  | some (.error e) => return some (s, .error e)
  | some (.ok ()) => return some (← openAndLoad s)

/-! ### Saving -/

/-- What `config_save` writes, in order. -/
def saveLines (c : Config) : List (CStr × NvsValue) :=
  [(keyBaud, .u32 c.baudRate), (keyLogLvl, .u8 c.logLevel), (keyWifiEn, .u8 (if c.wifiEnabled then 1 else 0)),
    (keyTelnetEn, .u8 (if c.telnetEnabled then 1 else 0)), (keyFtpEn, .u8 (if c.ftpEnabled then 1 else 0)),
    (keyTnfsdEn, .u8 (if c.tnfsdEnabled then 1 else 0)), (keyFdcTcp, .u16 c.fdcTcpPort),
    (keySsid, .str c.wifiSsid), (keyPass, .str c.wifiPass), (keyName, .str c.wifiName),
      (keyTz, .str c.timeZone),
    (keyFtpUser, .str c.ftpUser), (keyFtpPass, .str c.ftpPass), (keyOtaRepo, .str c.otaRepo)] ++
    (List.finRange configMaxDrive).map fun i => (keyDrive i, .str (c.drive i))

/-- One call after the other, up to the first that fails. -/
def setAll : List (CStr × NvsValue) → NvsProg (Except NvsErr Unit)
  | [] => pure (.ok ())
  | (key, v) :: lines => do
    match ← nvsSet key v with
    | .error e => return .error e
    | .ok () => setAll lines

/-- A handle is committed when all went well so far, and closed. -/
def commitAndClose (err : Except NvsErr Unit) : NvsProg (Except NvsErr Unit) := do
  let err ← if err = .ok () then nvsCommit else pure err
  nvsClose
  return err

/-- `config_save`. -/
def configSave (s : LiveConfig) : NvsProg (LiveConfig × Except NvsErr Unit) := do
  match ← nvsOpen true with
  | .error e => return (s, .error e)
  | .ok () =>
    match ← commitAndClose (← setAll (saveLines s.cfg)) with
    | .error e => return (s, .error e)
    | .ok () => return (⟨s.cfg, false⟩, .ok ())

/-- What `config_wipe` does to NVS. -/
def eraseNs : NvsProg (Except NvsErr Unit) := do
  match ← nvsOpen true with
  | .ok () => commitAndClose (← nvsEraseAll)
  | .error .notFound => return .ok ()
  | .error e => return .error e

/-- `config_wipe`. -/
def configWipe (s : LiveConfig) : NvsProg (LiveConfig × Except NvsErr Unit) := do
  match ← eraseNs with
  | .error e => return (s, .error e)
  | .ok () => return (⟨Config.defaults, false⟩, .ok ())

section Boot

variable {σ α β : Type} {world : σ → (c : NvsCall) → σ × c.Answer} {held kept : σ → CStr → Option NvsValue}
  {n : CStr → Option NvsValue} {s : σ}

/-! ### What a load finds -/

/-- The program gives `v` when `n` is stored, and changes nothing there. -/
def Reads (world : σ → (c : NvsCall) → σ × c.Answer) (held : σ → CStr → Option NvsValue)
    (n : CStr → Option NvsValue) (p : NvsProg α) (v : α) : Prop :=
  ∀ s, held s = n → (p.run world s).2 = v ∧ held (p.run world s).1 = n

theorem reads_pure (v : α) : Reads world held n (pure v) v := fun _ hs => ⟨rfl, hs⟩

theorem Reads.bind {p : NvsProg α} {f : α → NvsProg β} {v : α} {w : β} (hp : Reads world held n p v)
    (hf : Reads world held n (f v) w) : Reads world held n (p >>= f) w := by
  intro s hs
  obtain ⟨hv, hs'⟩ := hp s hs
  rw [Prog.run_bind, hv]
  exact hf _ hs'

/-- What is made of the answer to one read. -/
theorem reads_ask {c : NvsCall} {f : c.Answer → α} {v : α} (hheld : ∀ s, held (world s c).1 = held s)
    (hv : ∀ s, held s = n → f (world s c).2 = v) :
    Reads world held n (do return f (← Prog.ask c)) v :=
  fun s hs => ⟨hv s hs, (hheld s).trans hs⟩

theorem reads_u32 (h : IsNvs world held kept) (k : Key) (dst : UInt32) :
    Reads world held n (loadU32 k.text dst) (FdcSds.loadU32 (n k.text) dst) := by
  refine reads_ask (h.getU32_held · _) fun s hs => ?_
  rw [h.getU32 s _ k.text_length, hs]
  rcases n k.text with _ | ⟨_ | _ | _ | _⟩ <;> rfl

theorem reads_u16 (h : IsNvs world held kept) (k : Key) (dst : UInt16) :
    Reads world held n (loadU16 k.text dst) (FdcSds.loadU16 (n k.text) dst) := by
  refine reads_ask (h.getU16_held · _) fun s hs => ?_
  rw [h.getU16 s _ k.text_length, hs]
  rcases n k.text with _ | ⟨_ | _ | _ | _⟩ <;> rfl

theorem reads_u8 (h : IsNvs world held kept) (k : Key) (dst : UInt8) :
    Reads world held n (loadU8 k.text dst) (FdcSds.loadU8 (n k.text) dst) := by
  refine reads_ask (h.getU8_held · _) fun s hs => ?_
  rw [h.getU8 s _ k.text_length, hs]
  rcases n k.text with _ | ⟨_ | _ | _ | _⟩ <;> rfl

theorem reads_bool (h : IsNvs world held kept) (k : Key) (dst : Bool) :
    Reads world held n (loadBool k.text dst) (FdcSds.loadBool (n k.text) dst) := by
  refine reads_ask (h.getU8_held · _) fun s hs => ?_
  rw [h.getU8 s _ k.text_length, hs]
  rcases n k.text with _ | ⟨_ | _ | _ | _⟩ <;> rfl

theorem reads_str (h : IsNvs world held kept) (k : Key) {cap : ℕ} (dst : Text cap) :
    Reads world held n (loadStr k.text dst) (FdcSds.loadStr (n k.text) dst) := by
  refine reads_ask (h.getStr_held · _ _) fun s hs => ?_
  rw [h.getStr s _ cap k.text_length, hs]
  cases hn : n k.text with
  | none => rfl
  | some v =>
    cases v with
    | str t =>
      simp only [Option.bind_some, NvsValue.asText, FdcSds.loadStr]
      split <;> rfl
    | _ => rfl

theorem reads_drives (h : IsNvs world held kept) {is : List (Fin configMaxDrive)} (hnodup : is.Nodup)
    (drive : Fin configMaxDrive → Text configFileCap) : Reads world held n (loadDrives is drive)
      fun i => if i ∈ is then FdcSds.loadStr (n (Key.drive i).text) (drive i) else drive i := by
  induction is generalizing drive with
  | nil => exact reads_pure drive
  | cons i is ih =>
    obtain ⟨hi, hnodup⟩ := List.nodup_cons.mp hnodup
    refine (reads_str h (.drive i) (drive i)).bind ?_
    convert ih hnodup (Function.update drive i (FdcSds.loadStr (n (Key.drive i).text) (drive i))) using 1
    funext j
    by_cases hj : j = i
    · subst hj
      simp [hi]
    · simp [hj]

/-- `load_from_nvs` lays what is stored over the configuration. -/
theorem reads_config (h : IsNvs world held kept) (c : Config) :
    Reads world held n (loadFromNvs c) (c.loadFromNvs fun k => n k.text) := by
  refine (reads_u32 h .baudRate _).bind ?_
  refine (reads_u8 h .logLevel _).bind ?_
  refine (reads_bool h .wifiEnabled _).bind ?_
  refine (reads_bool h .telnetEnabled _).bind ?_
  refine (reads_bool h .ftpEnabled _).bind ?_
  refine (reads_bool h .tnfsdEnabled _).bind ?_
  refine (reads_u16 h .fdcTcpPort _).bind ?_
  refine (reads_str h .wifiSsid _).bind ?_
  refine (reads_str h .wifiPass _).bind ?_
  refine (reads_str h .wifiName _).bind ?_
  refine (reads_str h .timeZone _).bind ?_
  refine (reads_str h .ftpUser _).bind ?_
  refine (reads_str h .ftpPass _).bind ?_
  refine (reads_str h .otaRepo _).bind ?_
  refine (reads_drives h (List.nodup_finRange _) _).bind ?_
  simp only [List.mem_finRange, if_true]
  exact reads_pure _

/-! ### A boot -/

/-- `nvs_flash_init` and `nvs_open` do not fail at boot. -/
def NvsUp (world : σ → (c : NvsCall) → σ × c.Answer) (s : σ) : Prop :=
  (world s .flashInit).2 = .ok () ∧
    ((world (world s .flashInit).1 (.openNs false)).2 = .ok () ∨
      (world (world s .flashInit).1 (.openNs false)).2 = .error .notFound)

/-- Whenever `config_init` returns `ESP_OK` it gives `live`, and it does so when NVS comes up. -/
structure BootsTo (world : σ → (c : NvsCall) → σ × c.Answer) (s : σ) (live : LiveConfig) : Prop where
  ok : ∀ before l, ((configInit before).run world s).2 = some (l, .ok ()) → l = live
  up : ∀ before, NvsUp world s → ((configInit before).run world s).2 = some (live, .ok ())

theorem loadFromNvs_none (c : Config) : c.loadFromNvs (fun _ => none) = c := rfl

/-- What `config_init` does once the partition is up. -/
theorem openAndLoad_ok (h : IsNvs world held kept) (live : LiveConfig) :
    (∃ e, (world s (.openNs false)).2 = .error e ∧ e ≠ .notFound ∧
      ((openAndLoad live).run world s).2 = (live, .error e)) ∨
      ((openAndLoad live).run world s).2 =
        (⟨live.cfg.loadFromNvs fun k => held s k.text, false⟩, .ok ()) := by
  obtain ⟨hheld, -⟩ := h.openNs s false
  cases hopen : (world s (.openNs false)).2 with
  | ok u =>
    refine .inr ?_
    have hload := (reads_config h live.cfg (world s (.openNs false)).1 hheld).1
    simp only [openAndLoad, Prog.run_bind, Prog.run_ask, Prog.run_pure, hopen, hload]
  | error e =>
    by_cases he : e = .notFound
    · subst he
      refine .inr ?_
      simp only [openAndLoad, Prog.run_bind, Prog.run_ask, Prog.run_pure, hopen,
        (h.notFound s false hopen).1, loadFromNvs_none]
    · refine .inl ⟨e, rfl, he, ?_⟩
      simp only [openAndLoad, Prog.run_bind, Prog.run_ask, hopen]
      cases e with
      | notFound => exact absurd rfl he
      | _ => rfl

/-- The partition comes up with what was stored, or with nothing where nothing was. -/
theorem bringUp_ok (h : IsNvs world held kept) (hup : (bringUp.run world s).2 = some (.ok ())) :
    held (bringUp.run world s).1 = held s := by
  rw [bringUp, Prog.run_bind, Prog.run_ask] at hup ⊢
  generalize herr : (world s .flashInit).2 = err at hup ⊢
  by_cases hasks : err = .error .noFreePages ∨ err = .error .newVersionFound
  · have hnone : held s = fun _ => none := by
      by_contra hsome
      obtain ⟨hpages, hversion⟩ := h.intact s hsome
      rw [herr] at hpages hversion
      exact hasks.elim hpages hversion
    cases herase : (world (world s .flashInit).1 .flashErase).2 with
    | error e => simp [recover, hasks, herase] at hup
    | ok u =>
      simp only [recover, if_pos hasks, Prog.run_bind, Prog.run_ask, herase, Prog.run_pure,
        Option.some.injEq] at hup ⊢
      rw [h.flashInit _ hup, h.flashErase _ herase, hnone]
  · simp only [recover, if_neg hasks, Prog.run_pure, Option.some.injEq] at hup ⊢
    exact h.flashInit s (herr.trans hup)

/-- A boot gives the defaults with every stored key laid over them. -/
theorem configInit_boots (h : IsNvs world held kept) (s : σ) :
    BootsTo world s (FdcSds.configInit fun k => held s k.text) := by
  refine ⟨fun before l hl => ?_, fun before hup => ?_⟩
  · simp only [configInit, Prog.run_bind] at hl
    rcases hbring : (bringUp.run world s).2 with _ | _ | u
    · rw [hbring] at hl
      cases hl
    · rw [hbring] at hl
      cases hl
    · simp only [hbring, Prog.run_bind, Prog.run_pure, Option.some.injEq] at hl
      have hheld := bringUp_ok h hbring
      rcases openAndLoad_ok (s := (bringUp.run world s).1) h
        ⟨Config.defaults, before.dirty⟩ with ⟨e, -, -, hrun⟩ | hrun
      · rw [hrun] at hl
        cases hl
      · rw [hrun, hheld] at hl
        exact (Prod.mk.inj hl).1.symm
  · obtain ⟨hinit, hopen⟩ := hup
    have hbring : bringUp.run world s = ((world s .flashInit).1, some (.ok ())) := by
      simp [bringUp, recover, hinit]
    simp only [configInit, Prog.run_bind, hbring, Prog.run_pure]
    rcases openAndLoad_ok (s := (world s .flashInit).1) h
      ⟨Config.defaults, before.dirty⟩ with ⟨e, herr, hne, -⟩ | hrun
    · rcases hopen with hopen | hopen
      · rw [hopen] at herr
        cases herr
      · rw [hopen] at herr
        exact absurd (Except.error.inj herr).symm hne
    · rw [hrun, h.flashInit s hinit]
      rfl

/-! ### A save and a wipe -/

/-- What lies under other keys stays. -/
theorem setAll_frame (h : IsNvs world held kept) {lines : List (CStr × NvsValue)}
    (hkeys : ∀ line ∈ lines, line.1.length ≤ nvsKeyMax) (hok : ((setAll lines).run world s).2 = .ok ())
    {key : CStr} (hkey : key ∉ lines.map Prod.fst) :
    held ((setAll lines).run world s).1 key = held s key := by
  induction lines generalizing s with
  | nil => rfl
  | cons line lines ih =>
    obtain ⟨k, v⟩ := line
    rw [List.forall_mem_cons] at hkeys
    rw [List.map_cons, List.mem_cons, not_or] at hkey
    cases hset : (world s (.set k v)).2 with
    | error e => simp [setAll, hset] at hok
    | ok u =>
      simp only [setAll, Prog.run_bind, Prog.run_ask, hset] at hok ⊢
      rw [ih hkeys.2 hok hkey.2, h.set s k v hkeys.1 hset, Function.update_of_ne hkey.1]

/-- Every value is under its key afterwards. -/
theorem setAll_stores (h : IsNvs world held kept) {lines : List (CStr × NvsValue)}
    (hkeys : ∀ line ∈ lines, line.1.length ≤ nvsKeyMax) (hnodup : (lines.map Prod.fst).Nodup)
    (hok : ((setAll lines).run world s).2 = .ok ()) {key : CStr} {v : NvsValue} (hline : (key, v) ∈ lines) :
    held ((setAll lines).run world s).1 key = some v := by
  induction lines generalizing s with
  | nil => cases hline
  | cons line lines ih =>
    obtain ⟨k, w⟩ := line
    rw [List.forall_mem_cons] at hkeys
    obtain ⟨hk, hnodup⟩ := List.nodup_cons.mp hnodup
    cases hset : (world s (.set k w)).2 with
    | error e => simp [setAll, hset] at hok
    | ok u =>
      simp only [setAll, Prog.run_bind, Prog.run_ask, hset] at hok ⊢
      rcases List.mem_cons.mp hline with heq | hline
      · obtain ⟨rfl, rfl⟩ := Prod.mk.inj heq
        rw [setAll_frame h hkeys.2 hok hk, h.set s _ _ hkeys.1 hset, Function.update_self]
      · exact ih hkeys.2 hnodup hok hline

/-- The lines of a save are the fields under their keys. -/
theorem saveLines_eq (c : Config) : saveLines c = saveKeys.map fun k => (k.text, c.value k) := by
  have hbool : ∀ b : Bool, (if b then 1 else 0) = b.toUInt8 := by decide
  simp only [saveLines, hbool]
  rfl

/-- A commit that went through leaves in the store what the handle saw. -/
theorem commitAndClose_ok (h : IsNvs world held kept) {err : Except NvsErr Unit}
    (hok : ((commitAndClose err).run world s).2 = .ok ()) : err = .ok () ∧
      held ((commitAndClose err).run world s).1 = held s ∧
        kept ((commitAndClose err).run world s).1 = held s := by
  by_cases herr : err = .ok ()
  · simp only [commitAndClose, if_pos herr, Prog.run_bind, Prog.run_ask, Prog.run_pure] at hok ⊢
    obtain ⟨hheld, hkept⟩ := h.commit s hok
    obtain ⟨hheld', hkept'⟩ := h.close (world s .commit).1
    exact ⟨herr, hheld'.trans hheld, hkept'.trans hkept⟩
  · simp only [commitAndClose, if_neg herr, Prog.run_bind, Prog.run_pure] at hok
    exact absurd hok herr

/-- What a save that went through leaves in the store. -/
theorem configSave_ok (h : IsNvs world held kept) {live : LiveConfig}
    (hok : ((configSave live).run world s).2.2 = .ok ()) :
    held ((configSave live).run world s).1 = kept ((configSave live).run world s).1 ∧
      ∀ k : Key, kept ((configSave live).run world s).1 k.text = some (live.cfg.value k) := by
  rw [configSave, Prog.run_bind, Prog.run_ask] at hok ⊢
  cases hopen : (world s (.openNs true)).2 with
  | error e => simp [hopen] at hok
  | ok u =>
    simp only [hopen, Prog.run_bind] at hok ⊢
    generalize (world s (.openNs true)).1 = s₀ at hok ⊢
    generalize hset : (setAll (saveLines live.cfg)).run world s₀ = set at hok ⊢
    cases hclosed : ((commitAndClose set.2).run world set.1).2 with
    | error e => simp [hclosed] at hok
    | ok u =>
      obtain ⟨hall, hheld, hkept⟩ := commitAndClose_ok h hclosed
      simp only [Prog.run_pure]
      refine ⟨hheld.trans hkept.symm, fun k => ?_⟩
      rw [hkept, ← hset]
      rw [← hset] at hall
      refine setAll_stores h ?_ ?_ hall ?_
      · rw [saveLines_eq, List.forall_mem_map]
        exact fun k _ => k.text_length
      · rw [saveLines_eq, List.map_map]
        exact nodup_keys
      · rw [saveLines_eq]
        exact List.mem_map_of_mem (mem_saveKeys k)

/-- A wipe that went through leaves nothing. -/
theorem configWipe_ok (h : IsNvs world held kept) {live : LiveConfig}
    (hok : ((configWipe live).run world s).2.2 = .ok ()) :
    (held ((configWipe live).run world s).1 = fun _ => none) ∧
      kept ((configWipe live).run world s).1 = fun _ => none := by
  have herased : (eraseNs.run world s).2 = .ok () →
      (held (eraseNs.run world s).1 = fun _ => none) ∧ kept (eraseNs.run world s).1 = fun _ => none := by
    intro hok
    obtain ⟨hheld, hkept⟩ := h.openNs s true
    rw [eraseNs, Prog.run_bind, Prog.run_ask] at hok ⊢
    cases hopen : (world s (.openNs true)).2 with
    | ok u =>
      simp only [hopen, Prog.run_bind, Prog.run_ask] at hok ⊢
      generalize (world s (.openNs true)).1 = s₀ at hok ⊢
      obtain ⟨herase, hheld, hkept⟩ := commitAndClose_ok h hok
      rw [hheld, hkept, h.eraseAll s₀ herase]
      exact ⟨rfl, rfl⟩
    | error e =>
      cases e with
      | notFound =>
        obtain ⟨hnone, hnone'⟩ := h.notFound s true hopen
        exact ⟨hheld.trans hnone, hkept.trans hnone'⟩
      | _ => simp [hopen] at hok
  rw [configWipe, Prog.run_bind] at hok ⊢
  cases hres : (eraseNs.run world s).2 with
  | error e => simp [hres] at hok
  | ok u => exact herased hres

end Boot

/-- The live configuration after some calls of setters. -/
def reached (settings : List Setting) : LiveConfig :=
  settings.foldl (fun s x => x.apply s) ⟨Config.defaults, false⟩

/-- What was saved comes back, field for field, and after a wipe the defaults do: on the store itself, and on
    what a restart leaves of it. -/
theorem save_then_init {σ : Type} {world : σ → (c : NvsCall) → σ × c.Answer}
    {held kept : σ → CStr → Option NvsValue} (h : IsNvs world held kept) (settings : List Setting) (s : σ) :
    (((configSave (reached settings)).run world s).2.2 = .ok () →
      ∀ s', s' = ((configSave (reached settings)).run world s).1 ∨
          held s' = kept ((configSave (reached settings)).run world s).1 →
        BootsTo world s' ⟨(reached settings).cfg, false⟩) ∧
    (((configWipe (reached settings)).run world s).2.2 = .ok () →
      ∀ s', s' = ((configWipe (reached settings)).run world s).1 ∨
          held s' = kept ((configWipe (reached settings)).run world s).1 →
        BootsTo world s' ⟨Config.defaults, false⟩) := by
  constructor
  · intro hok s' hs'
    obtain ⟨hheld, hvalue⟩ := configSave_ok h hok
    have hstored : held s' = kept ((configSave (reached settings)).run world s).1 := by
      rcases hs' with rfl | hs'
      · exact hheld
      · exact hs'
    have hload : FdcSds.configInit (fun k => held s' k.text) = ⟨(reached settings).cfg, false⟩ := by
      rw [FdcSds.configInit, Config.load_of_stored]
      intro k
      exact Config.stored_of_value (by rw [hstored, hvalue k])
    exact hload ▸ configInit_boots h s'
  · intro hok s' hs'
    obtain ⟨hheld, hkept⟩ := configWipe_ok h hok
    have hstored : held s' = fun _ => none := by
      rcases hs' with rfl | hs'
      · exact hheld
      · exact hs'.trans hkept
    have hload : FdcSds.configInit (fun k => held s' k.text) = ⟨Config.defaults, false⟩ := by
      rw [hstored]
      rfl
    exact hload ▸ configInit_boots h s'

/-! ### A store in memory -/

/-- A store in memory: what the handle sees, and what is written out. -/
def memory (s : (CStr → Option NvsValue) × (CStr → Option NvsValue)) (c : NvsCall) :
    ((CStr → Option NvsValue) × (CStr → Option NvsValue)) × c.Answer :=
  match c with
  | .flashInit => (s, .ok ())
  | .flashErase => ((fun _ => none, fun _ => none), .ok ())
  | .openNs _ => (s, .ok ())
  | .set key v => ((Function.update s.1 key (some v), s.2), .ok ())
  | .getU32 key => (s, (((s.1 key).bind NvsValue.asU32).elim (.error .notFound) .ok))
  | .getU16 key => (s, (((s.1 key).bind NvsValue.asU16).elim (.error .notFound) .ok))
  | .getU8 key => (s, (((s.1 key).bind NvsValue.asU8).elim (.error .notFound) .ok))
  | .getStr key cap => (s, (((s.1 key).bind (NvsValue.asText cap)).elim (.error .notFound) .ok))
  | .commit => ((s.1, s.1), .ok ())
  | .eraseAll => ((fun _ => none, s.2), .ok ())
  | .close => (s, ())

theorem toOption_elim {α : Type} (o : Option α) :
    (o.elim (.error .notFound) .ok : Except NvsErr α).toOption = o := by
  cases o <;> rfl

theorem memory_isNvs : IsNvs memory Prod.fst Prod.snd where
  set _ _ _ _ _ := rfl
  getU32 _ _ _ := toOption_elim _
  getU16 _ _ _ := toOption_elim _
  getU8 _ _ _ := toOption_elim _
  getStr _ _ _ _ := toOption_elim _
  getU32_held _ _ := rfl
  getU16_held _ _ := rfl
  getU8_held _ _ := rfl
  getStr_held _ _ _ := rfl
  commit _ _ := ⟨rfl, rfl⟩
  eraseAll _ _ := rfl
  close _ := ⟨rfl, rfl⟩
  openNs _ _ := ⟨rfl, rfl⟩
  notFound _ _ h := by cases h
  flashInit _ _ := rfl
  flashErase _ _ := rfl
  intact _ _ := ⟨by rintro ⟨⟩, by rintro ⟨⟩⟩

/-- A name that is too long is cut when it is set, and then comes back as it was saved. -/
theorem save_then_init_memory : (((configInit ⟨Config.defaults, true⟩).run memory
    ((configSave (reached [.baud 9600, .str .wifiName (some (List.replicate 50 'n')),
      .drive 2 (some ['a'])])).run memory
      (fun _ => some (.u8 7), fun _ => none)).1).2) =
    some (⟨(reached [.baud 9600, .str .wifiName (some (List.replicate 50 'n')),
      .drive 2 (some ['a'])]).cfg, false⟩, .ok ()) :=
  ((save_then_init memory_isNvs _ _).1 rfl _ (.inl rfl)).up _ ⟨rfl, .inl rfl⟩

end OverNvs

end FdcSds
