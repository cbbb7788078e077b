import FdcSds.Disk.Table
import Mathlib.Data.Fintype.Pi

/-! The configuration store (`src/config/config.c`).

    One live copy and a dirty flag in RAM, eighteen keys in NVS. Setters touch the copy and raise the
    flag; what a reboot gives is the defaults with every stored key laid over them.

        set_defaults ──▶ live copy ◀── setters, flag up
                             │  config_save, key by key
        config_init ◀───── NVS                              -/

namespace FdcSds

/-! ### The live copy -/

abbrev configMaxDrive : ℕ := 4
def configSsidCap : ℕ := 81
def configPassCap : ℕ := 81
def configNameCap : ℕ := 41
def configTzCap : ℕ := 41
def configFtpCap : ℕ := 33
def configRepoCap : ℕ := 65

instance : NeZero configMaxDrive := ⟨by decide⟩
instance : NeZero configSsidCap := ⟨by decide⟩
instance : NeZero configPassCap := ⟨by decide⟩
instance : NeZero configNameCap := ⟨by decide⟩
instance : NeZero configTzCap := ⟨by decide⟩
instance : NeZero configFtpCap := ⟨by decide⟩
instance : NeZero configRepoCap := ⟨by decide⟩
instance : NeZero configFileCap := ⟨by decide⟩

/-- A C string in a buffer of `cap` bytes. -/
abbrev Text (cap : ℕ) : Type := { s : CStr // s.length < cap }

/-- `strlcpy` into such a buffer. -/
def Text.copy (cap : ℕ) [NeZero cap] (s : CStr) : Text cap :=
  ⟨strlcpy cap s, lt_of_le_of_lt (List.length_take_le ..) (Nat.sub_lt (NeZero.pos cap) Nat.one_pos)⟩

/-- `config_t`. -/
structure Config where
  baudRate : UInt32
  logLevel : UInt8
  wifiEnabled : Bool
  telnetEnabled : Bool
  ftpEnabled : Bool
  tnfsdEnabled : Bool
  fdcTcpPort : UInt16
  wifiSsid : Text configSsidCap
  wifiPass : Text configPassCap
  wifiName : Text configNameCap
  timeZone : Text configTzCap
  ftpUser : Text configFtpCap
  ftpPass : Text configFtpCap
  otaRepo : Text configRepoCap
  drive : Fin configMaxDrive → Text configFileCap
  deriving DecidableEq

/-- `set_defaults`. -/
def Config.defaults : Config where
  baudRate := 403200
  logLevel := 2   -- ESP_LOG_WARN
  wifiEnabled := false
  telnetEnabled := true
  ftpEnabled := true
  tnfsdEnabled := true
  fdcTcpPort := 0
  wifiSsid := ⟨[], by decide⟩
  wifiPass := ⟨[], by decide⟩
  wifiName := ⟨"FDC-SDS-ESP32".toList, by decide⟩
  timeZone := ⟨"UTC0".toList, by decide⟩
  ftpUser := ⟨"fdc".toList, by decide⟩
  ftpPass := ⟨"fdc".toList, by decide⟩
  otaRepo := ⟨"deltecent/fdc-sds-pio".toList, by decide⟩
  drive _ := ⟨[], by decide⟩

/-! ### NVS -/

/-- The keys of the namespace, in the order `config_save` writes them. -/
inductive Key where
  | baudRate | logLevel | wifiEnabled | telnetEnabled | ftpEnabled | tnfsdEnabled | fdcTcpPort
  | wifiSsid | wifiPass | wifiName | timeZone | ftpUser | ftpPass | otaRepo
  | drive (n : Fin configMaxDrive)
  deriving DecidableEq

def saveKeys : List Key :=
  [.baudRate, .logLevel, .wifiEnabled, .telnetEnabled, .ftpEnabled, .tnfsdEnabled, .fdcTcpPort,
    .wifiSsid, .wifiPass, .wifiName, .timeZone, .ftpUser, .ftpPass, .otaRepo,
    .drive 0, .drive 1, .drive 2, .drive 3]

theorem mem_saveKeys (k : Key) : k ∈ saveKeys := by
  have hdrive : ∀ n : Fin configMaxDrive, Key.drive n ∈ saveKeys := by decide
  cases k with
  | drive n => exact hdrive n
  | _ => decide

inductive NvsValue where
  | u8 (v : UInt8)
  | u16 (v : UInt16)
  | u32 (v : UInt32)
  | str (s : CStr)
  deriving DecidableEq

/-- The stored values; a missing key has none. -/
abbrev Nvs : Type := Key → Option NvsValue

/-- The integer reads of `load_from_nvs`: what is in place stays unless the key holds this type. -/
def loadU32 (v : Option NvsValue) (dst : UInt32) : UInt32 := match v with | some (.u32 x) => x | _ => dst
def loadU16 (v : Option NvsValue) (dst : UInt16) : UInt16 := match v with | some (.u16 x) => x | _ => dst
def loadU8 (v : Option NvsValue) (dst : UInt8) : UInt8 := match v with | some (.u8 x) => x | _ => dst
def loadBool (v : Option NvsValue) (dst : Bool) : Bool := match v with | some (.u8 x) => x != 0 | _ => dst

/-- `load_str`: a string that does not fit is not read. -/
def loadStr {cap : ℕ} (v : Option NvsValue) (dst : Text cap) : Text cap :=
  match v with
  | some (.str s) => if h : s.length < cap then ⟨s, h⟩ else dst
  | _ => dst

/-- `load_from_nvs`. -/
def Config.loadFromNvs (c : Config) (n : Nvs) : Config where
  baudRate := loadU32 (n .baudRate) c.baudRate
  logLevel := loadU8 (n .logLevel) c.logLevel
  wifiEnabled := loadBool (n .wifiEnabled) c.wifiEnabled
  telnetEnabled := loadBool (n .telnetEnabled) c.telnetEnabled
  ftpEnabled := loadBool (n .ftpEnabled) c.ftpEnabled
  tnfsdEnabled := loadBool (n .tnfsdEnabled) c.tnfsdEnabled
  fdcTcpPort := loadU16 (n .fdcTcpPort) c.fdcTcpPort
  wifiSsid := loadStr (n .wifiSsid) c.wifiSsid
  wifiPass := loadStr (n .wifiPass) c.wifiPass
  wifiName := loadStr (n .wifiName) c.wifiName
  timeZone := loadStr (n .timeZone) c.timeZone
  ftpUser := loadStr (n .ftpUser) c.ftpUser
  ftpPass := loadStr (n .ftpPass) c.ftpPass
  otaRepo := loadStr (n .otaRepo) c.otaRepo
  drive i := loadStr (n (.drive i)) (c.drive i)

/-- The value `config_save` writes under a key. -/
def Config.value (c : Config) : Key → NvsValue
  | .baudRate => .u32 c.baudRate
  | .logLevel => .u8 c.logLevel
  | .wifiEnabled => .u8 c.wifiEnabled.toUInt8
  | .telnetEnabled => .u8 c.telnetEnabled.toUInt8
  | .ftpEnabled => .u8 c.ftpEnabled.toUInt8
  | .tnfsdEnabled => .u8 c.tnfsdEnabled.toUInt8
  | .fdcTcpPort => .u16 c.fdcTcpPort
  | .wifiSsid => .str c.wifiSsid
  | .wifiPass => .str c.wifiPass
  | .wifiName => .str c.wifiName
  | .timeZone => .str c.timeZone
  | .ftpUser => .str c.ftpUser
  | .ftpPass => .str c.ftpPass
  | .otaRepo => .str c.otaRepo
  | .drive i => .str (c.drive i)

/-- A configuration is what it would save. -/
theorem Config.ext_value {c d : Config} (h : ∀ k, c.value k = d.value k) : c = d := by
  have hbool : ∀ a b : Bool, NvsValue.u8 a.toUInt8 = .u8 b.toUInt8 → a = b := by decide
  have htext : ∀ {cap : ℕ} {a b : Text cap}, NvsValue.str a = .str b → a = b :=
    fun hab => Subtype.ext (NvsValue.str.inj hab)
  cases c
  cases d
  congr 1
  · exact NvsValue.u32.inj (h .baudRate)
  · exact NvsValue.u8.inj (h .logLevel)
  · exact hbool _ _ (h .wifiEnabled)
  · exact hbool _ _ (h .telnetEnabled)
  · exact hbool _ _ (h .ftpEnabled)
  · exact hbool _ _ (h .tnfsdEnabled)
  · exact NvsValue.u16.inj (h .fdcTcpPort)
  · exact htext (h .wifiSsid)
  · exact htext (h .wifiPass)
  · exact htext (h .wifiName)
  · exact htext (h .timeZone)
  · exact htext (h .ftpUser)
  · exact htext (h .ftpPass)
  · exact htext (h .otaRepo)
  · exact funext fun i => htext (h (.drive i))

/-! ### What a reboot gives -/

/-- What a reboot finds under `k` is what `c` has. -/
def Config.Stored (c : Config) (n : Nvs) (k : Key) : Prop :=
  (Config.defaults.loadFromNvs n).value k = c.value k

section Stored

variable {c : Config} {n n' : Nvs} {k : Key}

theorem Config.Stored.congr (h : c.Stored n k) (hsame : n' k = n k) : c.Stored n' k := by
  unfold Stored at *
  rw [← h]
  cases k <;> simp only [value, loadFromNvs, hsame]

theorem loadStr_self {cap : ℕ} (t dst : Text cap) : loadStr (some (.str t)) dst = t := dif_pos t.2

/-- What was saved is read back: every value fits the field it came from. -/
theorem Config.stored_of_value (h : n k = some (c.value k)) : c.Stored n k := by
  have hbool : ∀ b : Bool, (b.toUInt8 != 0) = b := by decide
  unfold Stored
  cases k <;> simp only [value, loadFromNvs, h, loadU32, loadU16, loadU8, loadBool, loadStr_self, hbool]

theorem Config.stored_of_none (h : n k = none) : Config.defaults.Stored n k := by
  unfold Stored
  cases k <;> simp only [value, loadFromNvs, h, loadU32, loadU16, loadU8, loadBool, loadStr]

/-- A reboot gives `c` when every key has its value. -/
theorem Config.load_of_stored (h : ∀ k, c.Stored n k) :
    Config.defaults.loadFromNvs n = c := Config.ext_value h

end Stored

/-! ### Setters -/

/-- `s_cfg` and `s_dirty`. -/
structure LiveConfig where
  cfg : Config
  dirty : Bool
  deriving DecidableEq

/-- `config_init`. -/
def configInit (flash : Nvs) : LiveConfig := ⟨Config.defaults.loadFromNvs flash, false⟩

namespace LiveConfig

/-- A value that differs is stored, and the flag goes up. -/
def assign {α : Type} [DecidableEq α] (s : LiveConfig) (old new : α) (store : Config) : LiveConfig :=
  if old ≠ new then ⟨store, true⟩ else s

def configSetBaud (s : LiveConfig) (baud : UInt32) : LiveConfig :=
  s.assign s.cfg.baudRate baud { s.cfg with baudRate := baud }

def configSetWifiEnabled (s : LiveConfig) (enabled : Bool) : LiveConfig :=
  s.assign s.cfg.wifiEnabled enabled { s.cfg with wifiEnabled := enabled }

def configSetTelnetEnabled (s : LiveConfig) (enabled : Bool) : LiveConfig :=
  s.assign s.cfg.telnetEnabled enabled { s.cfg with telnetEnabled := enabled }

def configSetFtpEnabled (s : LiveConfig) (enabled : Bool) : LiveConfig :=
  s.assign s.cfg.ftpEnabled enabled { s.cfg with ftpEnabled := enabled }

def configSetTnfsdEnabled (s : LiveConfig) (enabled : Bool) : LiveConfig :=
  s.assign s.cfg.tnfsdEnabled enabled { s.cfg with tnfsdEnabled := enabled }

def configSetFdcTcpPort (s : LiveConfig) (port : UInt16) : LiveConfig :=
  s.assign s.cfg.fdcTcpPort port { s.cfg with fdcTcpPort := port }

def configSetLogLevel (s : LiveConfig) (level : UInt8) : LiveConfig :=
  s.assign s.cfg.logLevel level { s.cfg with logLevel := level }

/-- The string setters: `strncmp` over the buffer, then `strlcpy`. A NULL value counts as empty. -/
def assignText {cap : ℕ} [NeZero cap] (s : LiveConfig) (dst : Text cap) (val : Option CStr)
    (store : Text cap → Config) : LiveConfig :=
  s.assign dst.1 ((val.getD []).take cap) (store (Text.copy cap (val.getD [])))

end LiveConfig

/-- `config_str_id_t`. -/
inductive ConfigStrId where
  | wifiSsid | wifiPass | wifiName | timeZone | ftpUser | ftpPass | otaRepo
  deriving DecidableEq

namespace LiveConfig

def configSetStr (s : LiveConfig) (id : ConfigStrId) (val : Option CStr) : LiveConfig :=
  match id with
  | .wifiSsid => s.assignText s.cfg.wifiSsid val fun t => { s.cfg with wifiSsid := t }
  | .wifiPass => s.assignText s.cfg.wifiPass val fun t => { s.cfg with wifiPass := t }
  | .wifiName => s.assignText s.cfg.wifiName val fun t => { s.cfg with wifiName := t }
  | .timeZone => s.assignText s.cfg.timeZone val fun t => { s.cfg with timeZone := t }
  | .ftpUser => s.assignText s.cfg.ftpUser val fun t => { s.cfg with ftpUser := t }
  | .ftpPass => s.assignText s.cfg.ftpPass val fun t => { s.cfg with ftpPass := t }
  | .otaRepo => s.assignText s.cfg.otaRepo val fun t => { s.cfg with otaRepo := t }

def configSetDrive (s : LiveConfig) (n : ℤ) (filename : Option CStr) : LiveConfig :=
  if h : 0 ≤ n ∧ n.toNat < configMaxDrive then
    let i : Fin configMaxDrive := ⟨n.toNat, h.2⟩
    s.assignText (s.cfg.drive i) filename fun t => { s.cfg with drive := Function.update s.cfg.drive i t }
  else s

end LiveConfig

/-- A call of a setter. -/
inductive Setting where
  | baud (baud : UInt32)
  | wifiEnabled (enabled : Bool)
  | telnetEnabled (enabled : Bool)
  | ftpEnabled (enabled : Bool)
  | tnfsdEnabled (enabled : Bool)
  | fdcTcpPort (port : UInt16)
  | logLevel (level : UInt8)
  | str (id : ConfigStrId) (val : Option CStr)
  | drive (n : ℤ) (filename : Option CStr)

def Setting.apply (x : Setting) (s : LiveConfig) : LiveConfig :=
  match x with
  | .baud v => s.configSetBaud v
  | .wifiEnabled v => s.configSetWifiEnabled v
  | .telnetEnabled v => s.configSetTelnetEnabled v
  | .ftpEnabled v => s.configSetFtpEnabled v
  | .tnfsdEnabled v => s.configSetTnfsdEnabled v
  | .fdcTcpPort v => s.configSetFdcTcpPort v
  | .logLevel v => s.configSetLogLevel v
  | .str id val => s.configSetStr id val
  | .drive n filename => s.configSetDrive n filename

theorem LiveConfig.assign_cases {α : Type} [DecidableEq α] (s : LiveConfig) (old new : α) (store : Config) :
    s.assign old new store = s ∨ (s.assign old new store).dirty = true := by
  unfold assign
  split
  · exact .inr rfl
  · exact .inl rfl

/-- Every setter leaves everything as it was, or raises the flag. -/
theorem Setting.apply_cases (x : Setting) (s : LiveConfig) : x.apply s = s ∨ (x.apply s).dirty = true := by
  cases x with
  | str id val => cases id <;> exact LiveConfig.assign_cases ..
  | drive n filename =>
    simp only [apply, LiveConfig.configSetDrive]
    split
    · exact LiveConfig.assign_cases ..
    · exact .inl rfl
  | _ => exact LiveConfig.assign_cases ..

end FdcSds
