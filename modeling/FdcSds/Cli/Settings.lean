import FdcSds.Cli.Nesting
import FdcSds.Config.Persistence

/-! The commands that set (`cmd_hostname`, `cmd_baud`, `cmd_log`, `cmd_ssid`, `cmd_tz`, `cmd_fdctcp` and their
    like): a session of them, over the live configuration.

    What a user should see is a table: a line that is accepted puts one value under one key, a line that is
    refused puts nothing. The setters cut what does not fit; that is never seen, for every command refuses
    it first.

        line ─▶ accepted? ─▶ setter ─▶ live copy ─▶ save ─▶ restart ─▶ the same table
                    └─▶ refused: nothing                                               -/

namespace FdcSds

/-- The buffer of `str_field`. -/
def ConfigStrId.cap : ConfigStrId → ℕ
  | .wifiSsid => configSsidCap
  | .wifiPass => configPassCap
  | .wifiName => configNameCap
  | .timeZone => configTzCap
  | .ftpUser => configFtpCap
  | .ftpPass => configFtpCap
  | .otaRepo => configRepoCap

/-- The key a text is saved under. -/
def ConfigStrId.key : ConfigStrId → Key
  | .wifiSsid => .wifiSsid
  | .wifiPass => .wifiPass
  | .wifiName => .wifiName
  | .timeZone => .timeZone
  | .ftpUser => .ftpUser
  | .ftpPass => .ftpPass
  | .otaRepo => .otaRepo

namespace Settings

/-! ### Numbers -/

/-- `isspace`. -/
def isSpace (ch : Char) : Bool := ch = ' ' || (9 ≤ ch.toNat && ch.toNat ≤ 13)

def ulongMax : ℕ := 2 ^ 32 - 1

/-- The sign of a number: whether it is a minus, and what follows. -/
def signOf : CStr → Bool × CStr
  | c :: s => if c = '-' then (true, s) else if c = '+' then (false, s) else (false, c :: s)
  | [] => (false, [])

/-- `strtoul` to base 10: the number, and where it ended. Too large a number is `ULONG_MAX`; a minus wraps. -/
def strtoul (s : CStr) : ℕ × CStr :=
  let body := signOf (s.dropWhile isSpace)
  let digits := body.2.takeWhile Char.isDigit
  if digits = [] then (0, s)
  else
    let n := Nat.ofDigitChars 10 digits 0
    (if ulongMax < n then ulongMax else if body.1 then (2 ^ 32 - n) % 2 ^ 32 else n,
      body.2.dropWhile Char.isDigit)

/-- `%lu`. -/
def decimal (n : ℕ) : CStr := Nat.toDigits 10 n

theorem isDigit_decimal {n : ℕ} : ∀ ch ∈ decimal n, ch.isDigit = true :=
  fun _ h => Nat.isDigit_of_mem_toDigits (by decide) (by decide) h

theorem digit_plain {ch : Char} (h : ch.isDigit = true) : isSpace ch = false ∧ ch ≠ '-' ∧ ch ≠ '+' := by
  have hrange : 48 ≤ ch.toNat := by
    simp only [Char.isDigit, Bool.and_eq_true, decide_eq_true_eq] at h
    exact h.1
  refine ⟨?_, by rintro rfl; exact absurd hrange (by decide), by rintro rfl; exact absurd hrange (by decide)⟩
  simp only [isSpace, Bool.or_eq_false_iff, decide_eq_false_iff_not, Bool.and_eq_false_iff]
  refine ⟨by rintro rfl; exact absurd hrange (by decide), .inr ?_⟩
  omega

/-- A number that was printed reads back. -/
theorem strtoul_decimal {n : ℕ} (h : n ≤ ulongMax) : strtoul (decimal n) = (n, []) := by
  have hall : (decimal n).takeWhile Char.isDigit = decimal n := List.takeWhile_eq_self_iff.2 isDigit_decimal
  have hrest : (decimal n).dropWhile Char.isDigit = [] := List.dropWhile_eq_nil_iff.2 isDigit_decimal
  have hbody : signOf ((decimal n).dropWhile isSpace) = (false, decimal n) := by
    cases hn : decimal n with
    | nil => exact absurd hn Nat.toDigits_ne_nil
    | cons c s =>
      obtain ⟨hspace, hminus, hplus⟩ := digit_plain (isDigit_decimal c (hn ▸ List.mem_cons_self))
      rw [List.dropWhile_cons_of_neg (by rw [hspace]; decide), signOf, if_neg hminus, if_neg hplus]
  have hsome : decimal n ≠ [] := Nat.toDigits_ne_nil
  have hvalue : Nat.ofDigitChars 10 (decimal n) 0 = n := Nat.ofDigitChars_ten_toDigits
  rw [strtoul, hbody]
  dsimp only
  rw [hall, hrest, if_neg hsome, hvalue, if_neg (not_lt.2 h)]
  rfl

/-! ### What a command comes to -/

/-- What a part that runs is told at once. -/
inductive LiveOrder where
  | fdcSetBaud (rate : UInt32)
  | espLogLevelSet (level : UInt8)
  | setTz (tz : CStr)
  deriving DecidableEq

/-- The configuration afterwards, the lines on the console, what was told to other parts, and what is
    returned. -/
structure Outcome where
  live : LiveConfig
  said : List CStr
  orders : List LiveOrder
  code : ℤ

def crlf : CStr := ['\r', '\n']

/-- Nothing is set. -/
def shows (s : LiveConfig) (said : List CStr) : Outcome := ⟨s, said, [], 0⟩

def refuses (s : LiveConfig) (said : List CStr) : Outcome := ⟨s, said, [], 1⟩

/-- `(max N)`. -/
def tooLong (what : CStr) (id : ConfigStrId) : CStr :=
  what ++ " too long (max ".toList ++ decimal (id.cap - 1) ++ ")\r\n".toList

/-- The commands of a text: without an argument it is shown; what does not fit is refused. -/
def cmdStr (id : ConfigStrId) (what shown : CStr) (done : CStr → CStr) (s : LiveConfig) :
    Option CStr → Outcome
  | none => shows s [shown ++ crlf]
  | some v =>
    if id.cap ≤ v.length then refuses s [tooLong what id]
    else ⟨s.configSetStr id (some v), [done v ++ crlf], [], 0⟩

def orUnset (text : CStr) : CStr := if text = [] then "(unset)".toList else text

def setOrUnset (text : CStr) : CStr := if text = [] then "unset".toList else "set".toList

def cmdHostname (s : LiveConfig) : Option CStr → Outcome :=
  cmdStr .wifiName "hostname".toList s.cfg.wifiName.1 (fun v => "hostname set to ".toList ++ v) s

def cmdSsid (s : LiveConfig) : Option CStr → Outcome :=
  cmdStr .wifiSsid "SSID".toList (orUnset s.cfg.wifiSsid.1) (fun v => "SSID set to ".toList ++ v) s

def cmdPass (s : LiveConfig) : Option CStr → Outcome :=
  cmdStr .wifiPass "password".toList ("WiFi password is ".toList ++ setOrUnset s.cfg.wifiPass.1)
    (fun _ => "WiFi password set".toList) s

def cmdFtpuser (s : LiveConfig) : Option CStr → Outcome :=
  cmdStr .ftpUser "FTP username".toList (orUnset s.cfg.ftpUser.1)
    (fun v => "FTP username set to ".toList ++ v ++ " (save; applies on next connect)".toList) s

def cmdFtppass (s : LiveConfig) : Option CStr → Outcome :=
  cmdStr .ftpPass "FTP password".toList ("FTP password is ".toList ++ setOrUnset s.cfg.ftpPass.1)
    (fun _ => "FTP password set (save; applies on next connect)".toList) s

/-- `on` or `off`. -/
def onOff (v : CStr) : Option Bool :=
  if sameText v "on".toList then some true else if sameText v "off".toList then some false else none

def enabledWord (on : Bool) : CStr := if on then "enabled".toList else "disabled".toList

/-- The commands of a service. -/
def cmdService (title command : CStr) (now : Bool) (set : Bool → LiveConfig) (s : LiveConfig) :
    Option CStr → Outcome
  | none => shows s [title ++ " is ".toList ++ enabledWord now ++ crlf]
  | some v =>
    match onOff v with
    | some on =>
      ⟨set on, [title ++ ' ' :: enabledWord on ++ " (save, then reboot to apply)\r\n".toList], [], 0⟩
    | none => refuses s ["usage: ".toList ++ command ++ " [on|off]\r\n".toList]

def cmdTelnetd (s : LiveConfig) : Option CStr → Outcome :=
  cmdService "Telnet console".toList "telnetd".toList s.cfg.telnetEnabled s.configSetTelnetEnabled s

def cmdFtpd (s : LiveConfig) : Option CStr → Outcome :=
  cmdService "FTP server".toList "ftpd".toList s.cfg.ftpEnabled s.configSetFtpEnabled s

def cmdTnfsd (s : LiveConfig) : Option CStr → Outcome :=
  cmdService "TNFS server".toList "tnfsd".toList s.cfg.tnfsdEnabled s.configSetTnfsdEnabled s

def kBauds : List ℕ := [9600, 19200, 38400, 57600, 76800, 115200, 230400, 403200, 460800]

/-- The rate an argument of `baud` names: a number to its end, and one of the table. -/
def rateOf (v : CStr) : Option ℕ :=
  if (strtoul v).2 = [] ∧ (strtoul v).1 ∈ kBauds then some (strtoul v).1 else none

/-- Every rate of the table is accepted as `help baud` lists it. -/
theorem rateOf_decimal {rate : ℕ} (h : rate ∈ kBauds) : rateOf (decimal rate) = some rate := by
  have hall : ∀ r ∈ kBauds, r ≤ ulongMax := by decide
  rw [rateOf, strtoul_decimal (hall rate h), if_pos ⟨rfl, h⟩]

/-- Nothing else is. -/
theorem rateOf_mem {v : CStr} {rate : ℕ} (h : rateOf v = some rate) : rate ∈ kBauds := by
  unfold rateOf at h
  split at h
  · next hok =>
    cases h
    exact hok.2
  · cases h

def cmdBaud (s : LiveConfig) : Option CStr → Outcome
  | none => shows s ["baud ".toList ++ decimal s.cfg.baudRate.toNat ++ crlf]
  | some v =>
    match rateOf v with
    | some rate =>
      ⟨s.configSetBaud (.ofNat rate),
        ["baud set to ".toList ++ decimal rate ++ " (applies to FDC+ link)\r\n".toList],
        [.fdcSetBaud (.ofNat rate)], 0⟩
    | none =>
      refuses s ("unsupported baud; use one of:\r\n ".toList ::
        kBauds.map (fun b => ' ' :: decimal b) ++ [crlf])

def kLogLevels : List (CStr × UInt8) :=
  [("none".toList, 0), ("error".toList, 1), ("warn".toList, 2), ("info".toList, 3), ("debug".toList, 4),
    ("verbose".toList, 5)]

def logLevelName (level : UInt8) : CStr := ((kLogLevels.find? fun l => l.2 = level).map Prod.fst).getD ['?']

/-- The level an argument of `log` names. -/
def levelOf (v : CStr) : Option UInt8 :=
  if sameText v "off".toList then some 0
  else if sameText v "on".toList then some 3
  else (kLogLevels.find? fun l => sameText v l.1).map Prod.snd

def cmdLog (s : LiveConfig) : Option CStr → Outcome
  | none => shows s ["log level: ".toList ++ logLevelName s.cfg.logLevel ++ crlf]
  | some v =>
    match levelOf v with
    | some level =>
      ⟨s.configSetLogLevel level, ["log level set to ".toList ++ logLevelName level ++
        " (save to persist)\r\n".toList],
        [.espLogLevelSet level], 0⟩
    | none => refuses s ["usage: log none|error|warn|info|debug|verbose\r\n".toList]

inductive FdcTransport where
  | uart | tcp
  deriving DecidableEq

inductive FdcTcpState where
  | off | listening | connected
  deriving DecidableEq

/-- What `print_fdc_interface` reads of `fdc_stats_t`, and `fdc_baud`. -/
structure FdcLink where
  transport : FdcTransport
  tcpState : FdcTcpState
  tcpPort : UInt16
  tcpPeer : CStr
  baud : UInt32

def fdcTcpStateName : FdcTcpState → CStr
  | .listening => "listening".toList
  | .connected => "connected".toList
  | .off => "off".toList

def printFdcInterface (link : FdcLink) (indent : CStr) : List CStr :=
  [indent ++ if link.transport = .tcp then "interface: TCP (".toList ++ link.tcpPeer ++ ")\r\n".toList
    else "interface: UART (".toList ++ decimal link.baud.toNat ++ " baud)\r\n".toList,
   indent ++ if link.tcpPort ≠ 0 then
      "socket:    ".toList ++ fdcTcpStateName link.tcpState ++ [' ', ':'] ++
        decimal link.tcpPort.toNat ++ crlf
    else "socket:    off\r\n".toList]

/-- The port an argument of `fdctcp` names; off is port 0. -/
def portOf (v : CStr) : Option ℕ :=
  if sameText v "off".toList then some 0
  else if (strtoul v).2 ≠ [] ∨ (strtoul v).1 < 1 ∨ 65535 < (strtoul v).1 then none
  else some (strtoul v).1

theorem portOf_decimal {port : ℕ} (h₁ : 1 ≤ port) (h₂ : port ≤ 65535) :
    portOf (decimal port) = some port := by
  have hoff : sameText (decimal port) "off".toList = false := by
    cases hn : decimal port with
    | nil => exact absurd hn Nat.toDigits_ne_nil
    | cons c s =>
      have hc : c.isDigit = true := isDigit_decimal c (hn ▸ List.mem_cons_self)
      have hlower : c.toLower = c := by
        simp only [Char.isDigit, Bool.and_eq_true, decide_eq_true_eq] at hc
        have hlow : ¬ 'A'.val ≤ c.val := UInt32.not_le.2 (UInt32.lt_of_le_of_lt hc.2 (by decide))
        exact dif_neg fun h => hlow h.1
      have hne : c ≠ 'o' := by
        rintro rfl
        exact absurd hc (by decide)
      simp [sameText, foldCase, hlower, hne]
  rw [portOf, hoff, strtoul_decimal (h₂.trans (by decide))]
  rw [if_neg (by decide), if_neg (by simp; omega)]

/-- A port is stored whole. -/
theorem portOf_whole {v : CStr} {port : ℕ} (h : portOf v = some port) : (UInt16.ofNat port).toNat = port := by
  have hle : port ≤ 65535 := by
    unfold portOf at h
    split at h
    · cases h
      decide
    · split at h
      · cases h
      · next hok =>
        cases h
        omega
  exact Nat.mod_eq_of_lt (Nat.lt_succ_of_le hle)

def cmdFdctcp (link : FdcLink) (s : LiveConfig) : Option CStr → Outcome
  | none =>
    let port := s.cfg.fdcTcpPort
    shows s ((if port ≠ 0 then "FDC+ TCP port is ".toList ++ decimal port.toNat ++
      crlf else "FDC+ TCP is off\r\n".toList) ::
      printFdcInterface link [])
  | some v =>
    match portOf v with
    | some port =>
      ⟨s.configSetFdcTcpPort (.ofNat port),
        [if port ≠ 0 then "FDC+ TCP set to port ".toList ++ decimal port ++
          " (save, then reboot to apply)\r\n".toList
          else "FDC+ TCP off (save, then reboot to apply)\r\n".toList], [], 0⟩
    | none => refuses s ["usage: fdctcp [off | <port 1-65535>]\r\n".toList]

def kTzs : List (CStr × CStr) :=
  [("UTC".toList, "UTC0".toList), ("Eastern".toList, "EST5EDT".toList), ("Central".toList, "CST6CDT".toList),
    ("Mountain".toList, "MST7MDT".toList), ("Arizona".toList, "MST7".toList),
      ("Pacific".toList, "PST8PDT".toList),
    ("Alaska".toList, "AKST9AKDT".toList), ("Hawaii".toList, "HST10".toList)]

/-- The zone an argument of `tz` names; what is no name stands for itself. -/
def zoneOf (v : CStr) : CStr := ((kTzs.find? fun z => sameText v z.1).map Prod.snd).getD v

/-- `net_apply_timezone`. -/
def netApplyTimezone (s : LiveConfig) : LiveOrder :=
  .setTz (if s.cfg.timeZone.1 = [] then "UTC0".toList else s.cfg.timeZone.1)

def cmdTz (s : LiveConfig) : Option CStr → Outcome
  | none => shows s ["timezone: ".toList ++ s.cfg.timeZone.1 ++ crlf]
  | some v =>
    let posix := zoneOf v
    if ConfigStrId.timeZone.cap ≤ posix.length then refuses s [tooLong "timezone".toList .timeZone]
    else
      let live := s.configSetStr .timeZone (some posix)
      ⟨live, ["timezone set to ".toList ++ posix ++ crlf], [netApplyTimezone live], 0⟩

/-! ### Sessions -/

/-- The commands that set. -/
inductive SettingsCmd where
  | hostname | ssid | pass | ftpuser | ftppass | tz | telnetd | ftpd | tnfsd | baud | log | fdctcp
  deriving DecidableEq

/-- A line: the command, its argument, and how the link to the FDC+ stands. -/
structure SettingsLine where
  cmd : SettingsCmd
  arg : Option CStr
  link : FdcLink

def SettingsLine.run (l : SettingsLine) (s : LiveConfig) : Outcome :=
  match l.cmd with
  | .hostname => cmdHostname s l.arg
  | .ssid => cmdSsid s l.arg
  | .pass => cmdPass s l.arg
  | .ftpuser => cmdFtpuser s l.arg
  | .ftppass => cmdFtppass s l.arg
  | .tz => cmdTz s l.arg
  | .telnetd => cmdTelnetd s l.arg
  | .ftpd => cmdFtpd s l.arg
  | .tnfsd => cmdTnfsd s l.arg
  | .baud => cmdBaud s l.arg
  | .log => cmdLog s l.arg
  | .fdctcp => cmdFdctcp l.link s l.arg

/-- What each line comes to, and the configuration in the end. -/
def session (s : LiveConfig) : List SettingsLine → List Outcome × LiveConfig
  | [] => ([], s)
  | l :: ls => ((l.run s) :: (session (l.run s).live ls).1, (session (l.run s).live ls).2)

/-! ### What a session means -/

/-- A table of settings, and one value put into it. -/
abbrev Table : Type := Key → NvsValue

abbrev Assignment : Type := Key × NvsValue

def Table.put (t : Table) (a : Assignment) : Table := Function.update t a.1 a.2

def fitting (id : ConfigStrId) (v : CStr) : Option Assignment :=
  if id.cap ≤ v.length then none else some (id.key, .str v)

/-- What an argument sets; nothing when the command refuses it. -/
def SettingsCmd.assigns (v : CStr) : SettingsCmd → Option Assignment
  | .hostname => fitting .wifiName v
  | .ssid => fitting .wifiSsid v
  | .pass => fitting .wifiPass v
  | .ftpuser => fitting .ftpUser v
  | .ftppass => fitting .ftpPass v
  | .tz => fitting .timeZone (zoneOf v)
  | .telnetd => (onOff v).map fun on => (.telnetEnabled, .u8 on.toUInt8)
  | .ftpd => (onOff v).map fun on => (.ftpEnabled, .u8 on.toUInt8)
  | .tnfsd => (onOff v).map fun on => (.tnfsdEnabled, .u8 on.toUInt8)
  | .baud => (rateOf v).map fun rate => (.baudRate, .u32 (.ofNat rate))
  | .log => (levelOf v).map fun level => (.logLevel, .u8 level)
  | .fdctcp => (portOf v).map fun port => (.fdcTcpPort, .u16 (.ofNat port))

def SettingsLine.assigns (l : SettingsLine) : Option Assignment := l.arg.bind fun v => l.cmd.assigns v

/-- The part that runs by a setting is told the value; the others read it at the next boot. -/
def toldOf : Assignment → List LiveOrder
  | (.baudRate, .u32 rate) => [.fdcSetBaud rate]
  | (.logLevel, .u8 level) => [.espLogLevelSet level]
  | (.timeZone, .str tz) => [.setTz (if tz = [] then "UTC0".toList else tz)]
  | _ => []

/-- A setter that puts `a` into the table, and raises the flag when that changes it. -/
structure Sets (s s' : LiveConfig) (a : Assignment) : Prop where
  value : s'.cfg.value = Table.put s.cfg.value a
  dirty : s'.dirty = true ↔ s.dirty = true ∨ s.cfg.value a.1 ≠ a.2

section

variable {s t : LiveConfig} {a : Assignment}

theorem assign_sets {α : Type} [DecidableEq α] {old new : α} {store : Config}
    (hvalue : store.value = Table.put s.cfg.value a) (hsame : old = new ↔ s.cfg.value a.1 = a.2) :
    Sets s (s.assign old new store) a := by
  unfold LiveConfig.assign
  by_cases h : old = new
  · have hkept : s.cfg.value = Table.put s.cfg.value a := by
      rw [Table.put, ← hsame.1 h, Function.update_eq_self]
    rw [if_neg (not_not.2 h)]
    exact ⟨hkept, ⟨.inl, fun hs => hs.resolve_right fun hne => hne (hsame.1 h)⟩⟩
  · rw [if_pos h]
    exact ⟨hvalue, ⟨fun _ => .inr fun heq => h (hsame.2 heq), fun _ => rfl⟩⟩

/-- A text that fits is stored whole. -/
theorem assignText_sets {cap : ℕ} [NeZero cap] {dst : Text cap} {v : CStr} {store : Text cap → Config}
    {k : Key} (h : v.length < cap) (hdst : s.cfg.value k = .str dst.1)
    (hstore : (store (Text.copy cap v)).value = Table.put s.cfg.value (k, .str v)) :
    Sets s (s.assignText dst (some v) store) (k, .str v) := by
  refine assign_sets hstore ?_
  rw [hdst, NvsValue.str.injEq, Option.getD_some, List.take_of_length_le h.le]

theorem configSetStr_sets {id : ConfigStrId} {v : CStr} (h : v.length < id.cap) :
    Sets s (s.configSetStr id (some v)) (id.key, .str v) := by
  cases id
  all_goals
    rw [LiveConfig.configSetStr]
    refine assignText_sets ?_ rfl (funext fun k => ?_)
    · exact h
    · cases k <;> first | rfl | exact congrArg NvsValue.str (strlcpy_of_lt h)

theorem configSetBaud_sets (baud : UInt32) : Sets s (s.configSetBaud baud) (.baudRate, .u32 baud) :=
  assign_sets (funext fun k => by cases k <;> rfl) (NvsValue.u32.injEq ..).symm.to_iff

theorem configSetLogLevel_sets (level : UInt8) : Sets s (s.configSetLogLevel level) (.logLevel, .u8 level) :=
  assign_sets (funext fun k => by cases k <;> rfl) (NvsValue.u8.injEq ..).symm.to_iff

theorem configSetFdcTcpPort_sets (port : UInt16) :
    Sets s (s.configSetFdcTcpPort port) (.fdcTcpPort, .u16 port) :=
  assign_sets (funext fun k => by cases k <;> rfl) (NvsValue.u16.injEq ..).symm.to_iff

/-- A flag is the byte it is saved as. -/
theorem flag_iff (a b : Bool) : a = b ↔ NvsValue.u8 a.toUInt8 = .u8 b.toUInt8 := by
  revert a b
  decide

theorem configSetTelnetEnabled_sets (on : Bool) :
    Sets s (s.configSetTelnetEnabled on) (.telnetEnabled, .u8 on.toUInt8) :=
  assign_sets (funext fun k => by cases k <;> rfl) (flag_iff ..)

theorem configSetFtpEnabled_sets (on : Bool) :
    Sets s (s.configSetFtpEnabled on) (.ftpEnabled, .u8 on.toUInt8) :=
  assign_sets (funext fun k => by cases k <;> rfl) (flag_iff ..)

theorem configSetTnfsdEnabled_sets (on : Bool) :
    Sets s (s.configSetTnfsdEnabled on) (.tnfsdEnabled, .u8 on.toUInt8) :=
  assign_sets (funext fun k => by cases k <;> rfl) (flag_iff ..)

/-! ### One line -/

/-- The outcome of a line with this argument that assigns `a`: it sets just that, tells the part that
    runs by it, and returns 0; or it leaves everything, and returns 1 where there was something to
    refuse. -/
structure Lawful (s : LiveConfig) (arg : Option CStr) (a : Option Assignment) (o : Outcome) : Prop where
  sets : ∀ x, a = some x → Sets s o.live x
  keeps : a = none → o.live = s
  orders : o.orders = a.elim [] toldOf
  code : o.code = if arg ≠ none ∧ a = none then 1 else 0

theorem lawful_shows (said : List CStr) : Lawful s none none (shows s said) :=
  ⟨by rintro x ⟨⟩, fun _ => rfl, rfl, rfl⟩

theorem lawful_refuses (v : CStr) (said : List CStr) : Lawful s (some v) none (refuses s said) :=
  ⟨by rintro x ⟨⟩, fun _ => rfl, rfl, rfl⟩

theorem lawful_sets (v : CStr) (said : List CStr) {live : LiveConfig} {orders : List LiveOrder}
    (h : Sets s live a) (htold : orders = toldOf a) : Lawful s (some v) (some a) ⟨live, said, orders, 0⟩ :=
  ⟨by rintro x ⟨⟩; exact h, by rintro ⟨⟩, htold, rfl⟩

theorem cmdStr_lawful {id : ConfigStrId} (hid : ∀ v, toldOf (id.key, .str v) = []) (what shown : CStr)
    (done : CStr → CStr) (arg : Option CStr) :
    Lawful s arg (arg.bind (fitting id)) (cmdStr id what shown done s arg) := by
  cases arg with
  | none => exact lawful_shows _
  | some v =>
    simp only [cmdStr, fitting, Option.bind_some]
    split
    · exact lawful_refuses v _
    · next hfits => exact lawful_sets v _ (configSetStr_sets (not_le.1 hfits)) (hid v).symm

theorem cmdService_lawful {k : Key} {set : Bool → LiveConfig}
    (hset : ∀ on, Sets s (set on) (k, .u8 on.toUInt8)) (hk : ∀ v, toldOf (k, .u8 v) = [])
    (title command : CStr) (now : Bool) (arg : Option CStr) :
    Lawful s arg (arg.bind fun v => (onOff v).map fun on => (k, .u8 on.toUInt8))
      (cmdService title command now set s arg) := by
  cases arg with
  | none => exact lawful_shows _
  | some v =>
    simp only [cmdService, Option.bind_some]
    cases onOff v with
    | none => exact lawful_refuses v _
    | some on => exact lawful_sets v _ (hset on) (hk _).symm

theorem cmdTz_lawful (arg : Option CStr) :
    Lawful s arg (arg.bind fun v => fitting .timeZone (zoneOf v)) (cmdTz s arg) := by
  cases arg with
  | none => exact lawful_shows _
  | some v =>
    simp only [cmdTz, fitting, Option.bind_some]
    split
    · exact lawful_refuses v _
    · next hfits =>
      have hsets := configSetStr_sets (s := s) (not_le.1 hfits)
      have hzone : (s.configSetStr .timeZone (some (zoneOf v))).cfg.timeZone.1 = zoneOf v := by
        have hvalue := congrFun hsets.value .timeZone
        exact NvsValue.str.inj hvalue
      exact lawful_sets v _ hsets (by rw [netApplyTimezone, hzone]; rfl)

theorem cmdBaud_lawful (arg : Option CStr) :
    Lawful s arg (arg.bind fun v => (rateOf v).map fun rate => (.baudRate, .u32 (.ofNat rate)))
      (cmdBaud s arg) := by
  cases arg with
  | none => exact lawful_shows _
  | some v =>
    simp only [cmdBaud, Option.bind_some]
    cases rateOf v with
    | none => exact lawful_refuses v _
    | some rate => exact lawful_sets v _ (configSetBaud_sets _) rfl

theorem cmdLog_lawful (arg : Option CStr) :
    Lawful s arg (arg.bind fun v => (levelOf v).map fun level => (.logLevel, .u8 level)) (cmdLog s arg) := by
  cases arg with
  | none => exact lawful_shows _
  | some v =>
    simp only [cmdLog, Option.bind_some]
    cases levelOf v with
    | none => exact lawful_refuses v _
    | some level => exact lawful_sets v _ (configSetLogLevel_sets _) rfl

theorem cmdFdctcp_lawful (link : FdcLink) (arg : Option CStr) :
    Lawful s arg (arg.bind fun v => (portOf v).map fun port => (.fdcTcpPort, .u16 (.ofNat port)))
      (cmdFdctcp link s arg) := by
  cases arg with
  | none => exact lawful_shows _
  | some v =>
    simp only [cmdFdctcp, Option.bind_some]
    cases portOf v with
    | none => exact lawful_refuses v _
    | some port => exact lawful_sets v _ (configSetFdcTcpPort_sets _) rfl

theorem run_lawful (l : SettingsLine) (s : LiveConfig) : Lawful s l.arg l.assigns (l.run s) := by
  obtain ⟨cmd, arg, link⟩ := l
  cases cmd with
  | hostname => exact cmdStr_lawful (fun _ => rfl) _ _ _ arg
  | ssid => exact cmdStr_lawful (fun _ => rfl) _ _ _ arg
  | pass => exact cmdStr_lawful (fun _ => rfl) _ _ _ arg
  | ftpuser => exact cmdStr_lawful (fun _ => rfl) _ _ _ arg
  | ftppass => exact cmdStr_lawful (fun _ => rfl) _ _ _ arg
  | tz => exact cmdTz_lawful arg
  | telnetd => exact cmdService_lawful configSetTelnetEnabled_sets (fun _ => rfl) _ _ _ arg
  | ftpd => exact cmdService_lawful configSetFtpEnabled_sets (fun _ => rfl) _ _ _ arg
  | tnfsd => exact cmdService_lawful configSetTnfsdEnabled_sets (fun _ => rfl) _ _ _ arg
  | baud => exact cmdBaud_lawful arg
  | log => exact cmdLog_lawful arg
  | fdctcp => exact cmdFdctcp_lawful link arg

/-! ### A session -/

/-- The table a session leaves. -/
def meaning (t : Table) (lines : List SettingsLine) : Table :=
  (lines.filterMap SettingsLine.assigns).foldl Table.put t

/-- One of the assignments finds another value under its key. -/
def Changes (t : Table) (as : List Assignment) : Prop :=
  ∃ before x after, as = before ++ x :: after ∧ before.foldl Table.put t x.1 ≠ x.2

theorem not_changes_nil (t : Table) : ¬ Changes t [] := by
  rintro ⟨before, x, after, has, -⟩
  exact List.append_ne_nil_of_right_ne_nil before (List.cons_ne_nil x after) has.symm

theorem changes_cons {f : Table} {as : List Assignment} : Changes f (a :: as) ↔ f a.1 ≠ a.2 ∨
      Changes (f.put a) as := by
  constructor
  · rintro ⟨before, x, after, has, hne⟩
    cases before with
    | nil =>
      obtain ⟨rfl, -⟩ := List.cons.inj has
      exact .inl hne
    | cons b before =>
      obtain ⟨rfl, rfl⟩ := List.cons.inj has
      exact .inr ⟨before, x, after, rfl, hne⟩
  · rintro (hne | ⟨before, x, after, rfl, hne⟩)
    · exact ⟨[], a, as, rfl, hne⟩
    · exact ⟨a :: before, x, after, rfl, hne⟩

theorem session_value (s : LiveConfig) (lines : List SettingsLine) :
    (session s lines).2.cfg.value = meaning s.cfg.value lines := by
  induction lines generalizing s with
  | nil => rfl
  | cons l ls ih =>
    have hline := run_lawful l s
    rw [session, ih, meaning, meaning, List.filterMap_cons]
    cases ha : l.assigns with
    | none => rw [hline.keeps ha]
    | some a => rw [(hline.sets a ha).value, List.foldl_cons]

/-- The flag goes up with the first value that is new. -/
theorem session_dirty (s : LiveConfig) (lines : List SettingsLine) :
    (session s lines).2.dirty = true ↔ s.dirty = true ∨
      Changes s.cfg.value (lines.filterMap SettingsLine.assigns) := by
  induction lines generalizing s with
  | nil => exact ⟨.inl, fun h => h.resolve_right (not_changes_nil _)⟩
  | cons l ls ih =>
    have hline := run_lawful l s
    rw [session, ih, List.filterMap_cons]
    cases ha : l.assigns with
    | none => rw [hline.keeps ha]
    | some a => rw [(hline.sets a ha).dirty, (hline.sets a ha).value, changes_cons, or_assoc]

theorem session_orders (s : LiveConfig) (lines : List SettingsLine) :
    (session s lines).1.flatMap Outcome.orders = (lines.filterMap SettingsLine.assigns).flatMap toldOf := by
  induction lines generalizing s with
  | nil => rfl
  | cons l ls ih =>
    rw [session, List.flatMap_cons, ih, (run_lawful l s).orders, List.filterMap_cons]
    cases l.assigns with
    | none => rfl
    | some a => rw [List.flatMap_cons, Option.elim_some]

theorem session_codes (s : LiveConfig) (lines : List SettingsLine) : (session s lines).1.map Outcome.code =
    lines.map fun l => if l.arg ≠ none ∧ l.assigns = none then 1 else 0 := by
  induction lines generalizing s with
  | nil => rfl
  | cons l ls ih => rw [session, List.map_cons, ih, (run_lawful l s).code, List.map_cons]

/-- A session is its table: the accepted lines put their values, whole and in order, and nothing else
    changes; the flag is up when a value was new; the parts that run by a setting are told each value
    that is set; and just the refused lines fail. -/
theorem session_exact (s : LiveConfig) (lines : List SettingsLine) :
    (session s lines).2.cfg.value = meaning s.cfg.value lines ∧
      ((session s lines).2.dirty = true ↔
        s.dirty = true ∨ Changes s.cfg.value (lines.filterMap SettingsLine.assigns)) ∧
      (session s lines).1.flatMap Outcome.orders = (lines.filterMap SettingsLine.assigns).flatMap toldOf ∧
      (session s lines).1.map Outcome.code = lines.map fun l => if l.arg ≠ none ∧
        l.assigns = none then 1 else 0 :=
  ⟨session_value s lines, session_dirty s lines, session_orders s lines, session_codes s lines⟩

/-! ### What the console does not tell -/

/-- Two tables that differ in passwords only, and are alike in which of them are empty. -/
structure Alike (f g : Table) : Prop where
  seen : ∀ k, k ≠ .wifiPass → k ≠ .ftpPass → f k = g k
  unset : ∀ k, f k = .str [] ↔ g k = .str []

theorem Alike.put {f g : Table} (h : Alike f g) (a : Assignment) : Alike (f.put a) (g.put a) := by
  refine ⟨fun k hw hf => ?_, fun k => ?_⟩
  · by_cases hk : k = a.1
    · subst hk
      rw [Table.put, Table.put, Function.update_self, Function.update_self]
    · rw [Table.put, Table.put, Function.update_of_ne hk, Function.update_of_ne hk, h.seen k hw hf]
  · by_cases hk : k = a.1
    · subst hk
      rw [Table.put, Table.put, Function.update_self, Function.update_self]
    · rw [Table.put, Table.put, Function.update_of_ne hk, Function.update_of_ne hk, h.unset k]

/-- What is printed and returned, and what other parts are told. -/
def Outcome.visible (o : Outcome) : List CStr × List LiveOrder × ℤ := (o.said, o.orders, o.code)

def cliPromptMax : ℕ := 48

/-- `config_prompt`: the prompt, with a mark of unsaved changes. -/
def configPrompt (s : LiveConfig) : CStr :=
  strlcpy cliPromptMax ((if s.dirty then ['*', ' '] else []) ++ s.cfg.wifiName.1 ++ ['>', ' '])

/-- The prompt that follows. -/
def Outcome.prompt (o : Outcome) : CStr := configPrompt o.live

/-- The prompt that follows, but for the mark. -/
def Outcome.unmarked (o : Outcome) : CStr := configPrompt { o.live with dirty := false }

/-- The line puts a password into the configuration. -/
def SettingsLine.SetsPassword (l : SettingsLine) : Prop :=
  ∃ a, l.assigns = some a ∧ (a.1 = .wifiPass ∨ a.1 = .ftpPass)

theorem cmdStr_said {id : ConfigStrId} {what shown shown' : CStr} {done : CStr → CStr}
    (hshown : shown = shown') (arg : Option CStr) :
    (cmdStr id what shown done s arg).said = (cmdStr id what shown' done t arg).said := by
  subst hshown
  cases arg with
  | none => rfl
  | some v =>
    simp only [cmdStr]
    split <;> rfl

theorem cmdService_said {title command : CStr} {now now' : Bool} {set set' : Bool → LiveConfig}
    (hnow : now = now') (arg : Option CStr) :
    (cmdService title command now set s arg).said = (cmdService title command now' set' t arg).said := by
  subst hnow
  cases arg with
  | none => rfl
  | some v =>
    simp only [cmdService]
    cases onOff v <;> rfl

/-- A line prints the same. -/
theorem run_said (h : Alike s.cfg.value t.cfg.value) (l : SettingsLine) :
    (l.run s).said = (l.run t).said := by
  have htext : ∀ {k : Key} {x y : CStr}, s.cfg.value k = .str x → t.cfg.value k = .str y →
    (x = [] ↔ y = []) := by
    intro k x y hx hy
    have hunset := h.unset k
    rwa [hx, hy, NvsValue.str.injEq, NvsValue.str.injEq] at hunset
  have hword : ∀ {x y : CStr}, (x = [] ↔ y = []) → setOrUnset x = setOrUnset y := by
    intro x y hxy
    simp only [setOrUnset, hxy]
  obtain ⟨cmd, arg, link⟩ := l
  cases cmd with
  | hostname => exact cmdStr_said (NvsValue.str.inj (h.seen .wifiName (by decide) (by decide))) arg
  | ssid =>
    exact cmdStr_said (congrArg orUnset (NvsValue.str.inj (h.seen .wifiSsid (by decide) (by decide)))) arg
  | pass => exact cmdStr_said (congrArg _ (hword (htext (k := .wifiPass) rfl rfl))) arg
  | ftpuser =>
    exact cmdStr_said (congrArg orUnset (NvsValue.str.inj (h.seen .ftpUser (by decide) (by decide)))) arg
  | ftppass => exact cmdStr_said (congrArg _ (hword (htext (k := .ftpPass) rfl rfl))) arg
  | telnetd => exact cmdService_said ((flag_iff ..).2 (h.seen .telnetEnabled (by decide) (by decide))) arg
  | ftpd => exact cmdService_said ((flag_iff ..).2 (h.seen .ftpEnabled (by decide) (by decide))) arg
  | tnfsd => exact cmdService_said ((flag_iff ..).2 (h.seen .tnfsdEnabled (by decide) (by decide))) arg
  | tz =>
    have hzone : s.cfg.timeZone.1 = t.cfg.timeZone.1 :=
      NvsValue.str.inj (h.seen .timeZone (by decide) (by decide))
    cases arg with
    | none => simp only [SettingsLine.run, cmdTz, shows, hzone]
    | some v =>
      simp only [SettingsLine.run, cmdTz]
      split <;> rfl
  | baud =>
    have hrate : s.cfg.baudRate = t.cfg.baudRate :=
      NvsValue.u32.inj (h.seen .baudRate (by decide) (by decide))
    cases arg with
    | none => simp only [SettingsLine.run, cmdBaud, shows, hrate]
    | some v =>
      simp only [SettingsLine.run, cmdBaud]
      cases rateOf v <;> rfl
  | log =>
    have hlevel : s.cfg.logLevel = t.cfg.logLevel :=
      NvsValue.u8.inj (h.seen .logLevel (by decide) (by decide))
    cases arg with
    | none => simp only [SettingsLine.run, cmdLog, shows, hlevel]
    | some v =>
      simp only [SettingsLine.run, cmdLog]
      cases levelOf v <;> rfl
  | fdctcp =>
    have hport : s.cfg.fdcTcpPort = t.cfg.fdcTcpPort :=
      NvsValue.u16.inj (h.seen .fdcTcpPort (by decide) (by decide))
    cases arg with
    | none => simp only [SettingsLine.run, cmdFdctcp, shows, hport]
    | some v =>
      simp only [SettingsLine.run, cmdFdctcp]
      cases portOf v <;> rfl

theorem run_alike (h : Alike s.cfg.value t.cfg.value) (l : SettingsLine) :
    (l.run s).visible = (l.run t).visible ∧ Alike (l.run s).live.cfg.value (l.run t).live.cfg.value := by
  have hs := run_lawful l s
  have ht := run_lawful l t
  refine ⟨by rw [Outcome.visible, Outcome.visible, run_said h, hs.orders, ht.orders, hs.code, ht.code], ?_⟩
  cases ha : l.assigns with
  | none => rwa [hs.keeps ha, ht.keeps ha]
  | some a =>
    rw [(hs.sets a ha).value, (ht.sets a ha).value]
    exact h.put a

/-- The prompts are alike but for the mark. -/
theorem unmarked_alike {o o' : Outcome} (h : Alike o.live.cfg.value o'.live.cfg.value) :
    o.unmarked = o'.unmarked := by
  have hname : o.live.cfg.wifiName.1 = o'.live.cfg.wifiName.1 :=
    NvsValue.str.inj (h.seen .wifiName (by decide) (by decide))
  rw [Outcome.unmarked, Outcome.unmarked, configPrompt, configPrompt, hname]

/-- A line leaves the same mark, unless it sets a password while no changes are unsaved. -/
theorem run_dirty (h : Alike s.cfg.value t.cfg.value) (hdirty : s.dirty = t.dirty) {l : SettingsLine}
    (hquiet : s.dirty = true ∨ ¬ l.SetsPassword) : (l.run s).live.dirty = (l.run t).live.dirty := by
  have hs := run_lawful l s
  have ht := run_lawful l t
  cases ha : l.assigns with
  | none => rw [hs.keeps ha, ht.keeps ha, hdirty]
  | some a =>
    rw [Bool.eq_iff_iff, (hs.sets a ha).dirty, (ht.sets a ha).dirty, ← hdirty]
    rcases hquiet with hup | hno
    · simp [hup]
    · have hw : a.1 ≠ .wifiPass := fun hk => hno ⟨a, ha, .inl hk⟩
      have hf : a.1 ≠ .ftpPass := fun hk => hno ⟨a, ha, .inr hk⟩
      rw [h.seen a.1 hw hf]

/-- A mark that is up stays up. -/
theorem run_dirty_up (hup : s.dirty = true) (l : SettingsLine) : (l.run s).live.dirty = true := by
  have hs := run_lawful l s
  cases ha : l.assigns with
  | none => rwa [hs.keeps ha]
  | some a => exact (hs.sets a ha).dirty.2 (.inl hup)

theorem session_visible (h : Alike s.cfg.value t.cfg.value) (lines : List SettingsLine) :
    (session s lines).1.map (fun o => (o.visible, o.unmarked)) = (session t lines).1.map fun o =>
      (o.visible, o.unmarked) := by
  induction lines generalizing s t with
  | nil => rfl
  | cons l ls ih =>
    obtain ⟨hvisible, hnext⟩ := run_alike h l
    rw [session, session, List.map_cons, List.map_cons, hvisible, unmarked_alike hnext, ih hnext]

theorem session_prompts (h : Alike s.cfg.value t.cfg.value) (hdirty : s.dirty = t.dirty)
    {lines : List SettingsLine} (hquiet : s.dirty = true ∨ ∀ l ∈ lines, ¬ l.SetsPassword) :
    (session s lines).1.map Outcome.prompt = (session t lines).1.map Outcome.prompt := by
  induction lines generalizing s t with
  | nil => rfl
  | cons l ls ih =>
    have hnext := (run_alike h l).2
    have hmark := run_dirty h hdirty (l := l) (hquiet.imp_right fun hall => hall l List.mem_cons_self)
    have hname : (l.run s).live.cfg.wifiName.1 = (l.run t).live.cfg.wifiName.1 :=
      NvsValue.str.inj (hnext.seen .wifiName (by decide) (by decide))
    have hprompt : (l.run s).prompt = (l.run t).prompt := by
      rw [Outcome.prompt, Outcome.prompt, configPrompt, configPrompt, hmark, hname]
    have hrest := ih hnext hmark (hquiet.imp (fun hup => run_dirty_up hup l) fun hall l' hl' =>
      hall l' (List.mem_cons_of_mem _ hl'))
    rw [session, session, List.map_cons, List.map_cons, hprompt, hrest]

/-- CORRECT: the passwords of a device show in no session. Whatever is asked and set, all that is seen
    is whether there is one, and, by the mark of unsaved changes in the prompt, whether a password that
    is set was the one there. The mark shows nothing either where changes were unsaved before, or where
    no password is set. -/
theorem passwords_unseen (h : Alike s.cfg.value t.cfg.value) (lines : List SettingsLine) :
    (session s lines).1.map (fun o => (o.visible, o.unmarked)) =
      (session t lines).1.map (fun o => (o.visible, o.unmarked)) ∧
      (s.dirty = t.dirty → (s.dirty = true ∨ ∀ l ∈ lines, ¬ l.SetsPassword) →
        (session s lines).1.map Outcome.prompt = (session t lines).1.map Outcome.prompt) :=
  ⟨session_visible h lines, fun hdirty hquiet => session_prompts h hdirty hquiet⟩

/-- One password for another. -/
theorem alike_of_pass (c : Config) {p q : Text configPassCap} (hp : p.1 ≠ []) (hq : q.1 ≠ []) :
    Alike { c with wifiPass := p }.value { c with wifiPass := q }.value := by
  refine ⟨fun k hw _ => ?_, fun k => ?_⟩
  · cases k <;> first | rfl | exact absurd rfl hw
  · cases k with
    | wifiPass => exact ⟨fun h => absurd (NvsValue.str.inj h) hp, fun h => absurd (NvsValue.str.inj h) hq⟩
    | _ => exact Iff.rfl

/-- The password is asked for, set, and asked for again. -/
def askPass : List SettingsLine :=
  [none, some "another".toList, none].map fun arg => ⟨.pass, arg, ⟨.uart, .off, 0, [], 403200⟩⟩

def keepsSecret (pass : Text configPassCap) (dirty : Bool) : LiveConfig :=
  ⟨{ Config.defaults with wifiPass := pass }, dirty⟩

theorem passwords_unseen_pass :
    (session (keepsSecret ⟨"secret".toList, by decide⟩ true) askPass).1.map Outcome.prompt =
      (session (keepsSecret ⟨"hidden".toList, by decide⟩ true) askPass).1.map Outcome.prompt :=
  (passwords_unseen (s := keepsSecret ⟨"secret".toList, by decide⟩ true)
    (t := keepsSecret ⟨"hidden".toList, by decide⟩ true)
    (alike_of_pass _ (by decide) (by decide)) askPass).2 rfl (.inl rfl)

/-- Without unsaved changes the mark tells the password that is set from another. -/
example : ((SettingsLine.mk .pass (some "secret".toList) ⟨.uart, .off, 0, [], 403200⟩).run
      (keepsSecret ⟨"secret".toList, by decide⟩ false)).prompt ≠
    ((SettingsLine.mk .pass (some "secret".toList) ⟨.uart, .off, 0, [], 403200⟩).run
      (keepsSecret ⟨"hidden".toList, by decide⟩ false)).prompt := by decide

end
end Settings
end FdcSds
