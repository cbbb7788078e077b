import FdcSds.Ota.Updates
import FdcSds.Cli.Settings
import FdcSds.Schemes.Contracts
import Mathlib.Data.Prod.Lex

/-! Updates over the network, and `update` alone (`do_https`, `do_repo`, `do_url`, `do_status`, `ota_task`).

    An image is streamed into the next update partition through one handle, which is given back once:
    with an abort, or with the finish that makes the partition boot. Only after such a finish does the
    task restart the device.

        begin ─▶ perform ⟲ ─▶ complete? ─▶ finish ─▶ unmount ─▶ delay ─▶ restart
                    └────────────┴─▶ abort ─▶ returns                                                -/

namespace FdcSds.Ota
open Schemes Prog

/-! ### Versions -/

/-- `FDCSDS_VERSION_MAJOR`, `FDCSDS_VERSION_MINOR` and `FDCSDS_VERSION_PATCH`. -/
def runningVersion : ℤ × ℤ × ℤ := (1, 0, 7)

/-- The sign of a number. -/
def scanSign : CStr → ℤ × CStr
  | [] => (1, [])
  | ch :: s => if ch = '-' then (-1, s) else if ch = '+' then (1, s) else (1, ch :: s)

/-- The `int` for a number: the nearest one, as `strtol` gives it where `long` is as wide. -/
def nearestInt (n : ℤ) : ℤ := max (-2 ^ 31) (min n (2 ^ 31 - 1))

/-- A `%d` of `sscanf`: blanks, a sign, digits. -/
def scanInt (s : CStr) : Option (ℤ × CStr) :=
  let (sign, s) := scanSign (s.dropWhile Settings.isSpace)
  let digits := s.takeWhile Char.isDigit
  if digits = [] then none else some (nearestInt (sign * Nat.ofDigitChars 10 digits 0),
    s.dropWhile Char.isDigit)

/-- A character of the format that stands for itself. -/
def scanChar (ch : Char) : CStr → Option CStr
  | c :: s => if c = ch then some s else none
  | [] => none

/-- What may stand before a version. -/
def leads (ch : Char) : Bool := ch = ' ' || ch = '\t' || ch = 'v' || ch = 'V'

/-- `parse_semver`. -/
def parseSemver (s : CStr) : Option (ℤ × ℤ × ℤ) := do
  let s := s.dropWhile leads
  let (maj, s) ← scanInt s
  let s ← scanChar '.' s
  let (min, s) ← scanInt s
  let s ← scanChar '.' s
  let (pat, _) ← scanInt s
  some (maj, min, pat)

/-- `version_newer`. -/
def versionNewer (v : ℤ × ℤ × ℤ) : Bool :=
  if v.1 ≠ runningVersion.1 then runningVersion.1 < v.1
  else if v.2.1 ≠ runningVersion.2.1 then runningVersion.2.1 < v.2.1
  else runningVersion.2.2 < v.2.2

inductive VersionRelation where
  | same | newer | older
  deriving DecidableEq

/-- `version_relation`. -/
def versionRelation (v : ℤ × ℤ × ℤ) : VersionRelation :=
  if v = runningVersion then .same else if versionNewer v then .newer else .older

section

variable {ch : Char} {rest : CStr}

theorem digit_ne (h : ch.isDigit = true) {c : Char} (hc : c.isDigit = false) : ch ≠ c := by
  rintro rfl
  rw [hc] at h
  cases h

/-- A digit does not lead. -/
theorem digit_leads (h : ch.isDigit = true) : leads ch = false := by
  simp only [leads, digit_ne h (c := ' ') rfl, digit_ne h (c := '\t') rfl, digit_ne h (c := 'v') rfl,
    digit_ne h (c := 'V') rfl,
    decide_false, Bool.or_false]

theorem isDigit_toDigits {n : ℕ} (h : ch ∈ Nat.toDigits 10 n) : ch.isDigit = true :=
  Nat.isDigit_of_mem_toDigits (by decide) (by decide) h

/-- What stops at a digit takes nothing of a number. -/
theorem dropWhile_toDigits {p : Char → Bool} (hp : ∀ ch, ch.isDigit = true → p ch = false)
    (n : ℕ) (rest : CStr) :
    (Nat.toDigits 10 n ++ rest).dropWhile p = Nat.toDigits 10 n ++ rest := by
  cases hn : Nat.toDigits 10 n with
  | nil => exact absurd hn Nat.toDigits_ne_nil
  | cons d ds =>
    have hd : p d = false := hp d (@isDigit_toDigits d n (by rw [hn]; exact List.mem_cons_self))
    rw [List.cons_append, List.dropWhile_cons_of_neg (by rw [hd]; decide)]

/-- A number that was printed reads back, up to what is no digit. -/
theorem scanInt_digits {n : ℕ} (hn : n < 2 ^ 31) (hrest : rest.takeWhile Char.isDigit = []) :
    scanInt (Nat.toDigits 10 n ++ rest) = some ((n : ℤ), rest) := by
  have hsign : scanSign (Nat.toDigits 10 n ++ rest) = (1, Nat.toDigits 10 n ++ rest) := by
    cases hn : Nat.toDigits 10 n with
    | nil => exact absurd hn Nat.toDigits_ne_nil
    | cons d ds =>
      have hd : d.isDigit = true := @isDigit_toDigits d n (by rw [hn]; exact List.mem_cons_self)
      rw [List.cons_append, scanSign, if_neg (digit_ne hd rfl), if_neg (digit_ne hd rfl)]
  have hdigits : (Nat.toDigits 10 n ++ rest).takeWhile Char.isDigit = Nat.toDigits 10 n := by
    rw [List.takeWhile_append_of_pos fun _ => isDigit_toDigits, hrest, List.append_nil]
  have hleft : (Nat.toDigits 10 n ++ rest).dropWhile Char.isDigit = rest := by
    have hall : rest.takeWhile Char.isDigit ++ rest.dropWhile Char.isDigit = rest :=
      List.takeWhile_append_dropWhile
    rw [hrest, List.nil_append] at hall
    rw [List.dropWhile_append_of_pos fun _ => isDigit_toDigits, hall]
  have hint : nearestInt (1 * (n : ℤ)) = n := by
    rw [nearestInt]
    omega
  rw [scanInt, dropWhile_toDigits (fun ch h => (Settings.digit_plain h).1), hsign]
  dsimp only
  rw [hdigits, hleft, if_neg Nat.toDigits_ne_nil, Nat.ofDigitChars_ten_toDigits, hint]

theorem parseSemver_printed {a b c : ℕ} (ha : a < 2 ^ 31) (hb : b < 2 ^ 31) (hc : c < 2 ^ 31)
    {lead tail : CStr} (hlead : ∀ ch ∈ lead, leads ch = true) (htail : tail.takeWhile Char.isDigit = []) :
    parseSemver (lead ++ (Nat.toDigits 10 a ++ '.' ::
      (Nat.toDigits 10 b ++ '.' :: (Nat.toDigits 10 c ++ tail)))) =
      some ((a : ℤ), (b : ℤ), (c : ℤ)) := by
  have hdot : ∀ s : CStr, ('.' :: s).takeWhile Char.isDigit = [] := fun _ => rfl
  rw [parseSemver, List.dropWhile_append_of_pos hlead, dropWhile_toDigits fun ch h => digit_leads h]
  simp only [scanInt_digits ha (hdot _), scanInt_digits hb (hdot _), scanInt_digits hc htail, scanChar,
    if_true, Option.bind_eq_bind, Option.bind_some]

theorem versionNewer_iff (v : ℤ × ℤ × ℤ) :
    versionNewer v = true ↔ 1 < v.1 ∨ v.1 = 1 ∧ (0 < v.2.1 ∨ v.2.1 = 0 ∧ 7 < v.2.2) := by
  have hmajor : runningVersion.1 = 1 := rfl
  have hminor : runningVersion.2.1 = 0 := rfl
  have hpatch : runningVersion.2.2 = 7 := rfl
  unfold versionNewer
  split
  · rw [decide_eq_true_iff]
    omega
  · split <;> rw [decide_eq_true_iff] <;> omega

theorem versionRelation_newer (v : ℤ × ℤ × ℤ) : versionRelation v = .newer ↔ versionNewer v = true := by
  unfold versionRelation
  split
  · next hsame =>
    rw [hsame]
    decide
  · split
    · next hnewer => exact ⟨fun _ => hnewer, fun _ => rfl⟩
    · next hold => exact ⟨by rintro ⟨⟩, fun hnewer => absurd hnewer hold⟩

theorem versionRelation_older (v : ℤ × ℤ × ℤ) : versionRelation v = .older ↔ v ≠ runningVersion ∧
      ¬versionNewer v = true := by
  unfold versionRelation
  split
  · next hsame => exact ⟨by rintro ⟨⟩, fun h => absurd hsame h.1⟩
  · next hother =>
    split
    · next hnewer => exact ⟨by rintro ⟨⟩, fun h => absurd hnewer h.2⟩
    · next hold => exact ⟨fun _ => ⟨hother, hold⟩, fun _ => rfl⟩

/-- CORRECT: what `update` says of an image whose version is printed as three numbers that an `int`
    holds, after blanks and a `v` and before anything but a digit: whether it is newer, in the order of
    versions, or older. -/
theorem version_relation_exact {a b c : ℕ} (ha : a < 2 ^ 31) (hb : b < 2 ^ 31) (hc : c < 2 ^ 31)
    (lead tail : CStr) (hlead : ∀ ch ∈ lead, leads ch = true) (htail : tail.takeWhile Char.isDigit = []) :
    ∃ relation, (parseSemver (lead ++
      (Nat.toDigits 10 a ++ '.' :: (Nat.toDigits 10 b ++ '.' :: (Nat.toDigits 10 c ++ tail))))).map
        versionRelation = some relation ∧
      (relation = .newer ↔ toLex (1, toLex (0, 7)) < toLex (a, toLex (b, c))) ∧
      (relation = .older ↔ toLex (a, toLex (b, c)) < toLex (1, toLex (0, 7))) := by
  refine ⟨versionRelation ((a : ℤ), (b : ℤ), (c : ℤ)),
    by rw [parseSemver_printed ha hb hc hlead htail]; rfl, ?_, ?_⟩
  · rw [versionRelation_newer, versionNewer_iff, Prod.Lex.toLex_lt_toLex, Prod.Lex.toLex_lt_toLex]
    dsimp only
    omega
  · rw [versionRelation_older, versionNewer_iff, Prod.Lex.toLex_lt_toLex, Prod.Lex.toLex_lt_toLex,
      runningVersion, Ne, Prod.mk.injEq,
      Prod.mk.injEq]
    dsimp only
    omega

/-- `v1.0.8` is newer. -/
theorem version_relation_v108 :
    ∃ relation, (parseSemver "v1.0.8".toList).map versionRelation = some relation ∧ relation = .newer := by
  obtain ⟨relation, hparse, hnewer, -⟩ := version_relation_exact (a := 1) (b := 0) (c := 8) (by decide)
    (by decide) (by decide) ['v'] [] (List.forall_mem_singleton.2 rfl) rfl
  exact ⟨relation, hparse, hnewer.mpr (by decide)⟩

end

/-! ### Calls -/

/-- The lines that go to the console. -/
inductive OtaLine where
  | notConnected
  | connecting (url : CStr)
  | connectFailed (err : ℤ)
  | installs (image : CStr) (relation : Option VersionRelation)
  | downloading (total : Option ℤ)
  | percent (n : ℤ)
  | dot
  | downloadFailed (err : ℤ)
  | incomplete
  | finishFailed (err : ℤ)
  | verified
  | noRepo
  | tnfsNotYet
  | badScheme
  | running
  | localNoCard
  | localNone
  | localImage (size : ℤ) (version : Option CStr)
  | otaNoRepo
  | otaOffline (repo : CStr)
  | otaFailed (repo : CStr) (err : ℤ)
  | otaOffers (repo version : CStr) (relation : Option VersionRelation)
  | howToInstall
  | rebooting
  deriving DecidableEq

/-- What leaves the task: `esp_https_ota_*`, the firmware file on the card, the console and the restart. -/
inductive OtaCall where
  | isConnected
  | begin (url : CStr)
  | imgDesc
  | imageSize
  | perform
  | lenRead
  | completeReceived
  | abort
  | finish
  | say (line : OtaLine)
  | sdMounted
  | stat
  | fopen
  | fseek
  | fread
  | fclose
  | unmountAll
  | delay
  | restart

/-- Errors are the numbers of `esp_err_t`. The version file gives its magic word and its version text. -/
abbrev OtaCall.Answer : OtaCall → Type
  | .isConnected | .completeReceived | .sdMounted | .fopen | .fseek => Bool
  | .begin _ | .imageSize | .perform | .lenRead | .finish => ℤ
  | .imgDesc => Except ℤ CStr
  | .stat => Option ℤ
  | .fread => Option (UInt32 × CStr)
  | .abort | .say _ | .fclose | .unmountAll | .delay | .restart => Unit

abbrev OtaProg : Type → Type := Prog OtaCall OtaCall.Answer

/-- `ESP_APP_DESC_MAGIC_WORD`. -/
def appDescMagic : UInt32 := 0xABCD5432

/-- `OTA_URL_MAX`, and the size of the version texts. -/
def otaUrlMax : ℕ := 256
def otaVersionMax : ℕ := 32

def say (line : OtaLine) : OtaProg Unit := ask (OtaCall.say line)

/-- `progress`, and the new mark. -/
def progress (done total mark : ℤ) : OtaProg ℤ :=
  if 0 < total then do
    let pct := (done * 100).tdiv total
    if pct ≠ mark then do
      say (.percent pct)
      pure pct
    else pure mark
  else do
    let dots := done.tdiv 65536
    if dots ≠ mark then do
      say .dot
      pure dots
    else pure mark

/-! ### The task -/

/-- What the body leaves in the job. -/
structure OtaEnd where
  result : ℤ
  reboot : Bool
  deriving DecidableEq

/-- `report_install_version`. -/
def reportInstallVersion (embedded : CStr) : OtaProg Unit :=
  say (.installs embedded ((parseSemver embedded).map versionRelation))

/-- The loop of `do_https`, up to so many rounds of it. -/
def performLoop (total mark : ℤ) : ℕ → OtaProg (Option ℤ)
  | 0 => pure none
  | rounds + 1 => do
    let err ← ask OtaCall.perform
    if err = espErrHttpsOtaInProgress then do
      let read ← ask OtaCall.lenRead
      let mark ← progress read total mark
      performLoop total mark rounds
    else pure (some err)

/-- What `do_https` says about the image it is about to install. -/
def reportImage : Except ℤ CStr → OtaProg Unit
  | .error _ => pure ()
  | .ok version => reportInstallVersion version

/-- `do_https`, when its loop has ended. -/
def endHttps (err : ℤ) : OtaProg OtaEnd := do
  if err ≠ espOk then do
    say (.downloadFailed err)
    ask OtaCall.abort
    pure ⟨err, false⟩
  else if !(← ask OtaCall.completeReceived) then do
    say .incomplete
    ask OtaCall.abort
    pure ⟨espFail, false⟩
  else do
    let err ← ask OtaCall.finish
    if err ≠ espOk then do
      say (.finishFailed err)
      pure ⟨err, false⟩
    else do
      say .verified
      pure ⟨espOk, true⟩

/-- `do_https`. -/
def doHttps (url : CStr) (rounds : ℕ) : OtaProg (Option OtaEnd) := do
  if !(← ask OtaCall.isConnected) then do
    say .notConnected
    pure (some ⟨espErrInvalidState, false⟩)
  else do
    say (.connecting url)
    let err ← ask (OtaCall.begin url)
    if err ≠ espOk then do
      say (.connectFailed err)
      pure (some ⟨err, false⟩)
    else do
      let desc ← ask OtaCall.imgDesc
      reportImage desc
      let total ← ask OtaCall.imageSize
      say (.downloading (if 0 < total then some total else none))
      match ← performLoop total (-1) rounds with
      | none => pure none
      | some err => some <$> endHttps err

/-- The image of a repository: `OTA_RAW_HOST "/%s/" OTA_BRANCH "/" OTA_DIR "/" OTA_BIN`, cut to its buffer. -/
def repoUrl (repo : CStr) : CStr :=
  ("https://raw.githubusercontent.com/".toList ++ repo ++ "/master/ota/firmware.bin".toList).take
    (otaUrlMax - 1)

/-- `do_repo`. -/
def doRepo (repo : CStr) (rounds : ℕ) : OtaProg (Option OtaEnd) := do
  if !(← ask OtaCall.isConnected) then do
    say .notConnected
    pure (some ⟨espErrInvalidState, false⟩)
  else if repo = [] then do
    say .noRepo
    pure (some ⟨espErrInvalidState, false⟩)
  else doHttps (repoUrl repo) rounds

/-- `strncasecmp` with a scheme, up to the length of the scheme. -/
def hasScheme (scheme url : CStr) : Bool := (url.take scheme.length).map Char.toLower == scheme

/-- `do_url`. -/
def doUrl (url : CStr) (rounds : ℕ) : OtaProg (Option OtaEnd) :=
  if hasScheme "https://".toList url then doHttps url rounds
  else if hasScheme "tnfs://".toList url then do
    say .tnfsNotYet
    pure (some ⟨espErrNotSupported, false⟩)
  else do
    say .badScheme
    pure (some ⟨espErrInvalidArg, false⟩)

/-- The descriptor of the open file. -/
def readDesc : OtaProg (Option (UInt32 × CStr)) := do
  if !(← ask OtaCall.fseek) then pure none else ask OtaCall.fread

/-- `image_file_version`, of the firmware file. -/
def imageFileVersion : OtaProg (Option CStr) := do
  if !(← ask OtaCall.fopen) then pure none
  else do
    let found ← readDesc
    ask OtaCall.fclose
    match found with
    | none => pure none
    | some (magic, version) =>
      pure (if magic = appDescMagic then some (version.take (otaVersionMax - 1)) else none)

/-- `report_local`. -/
def reportLocal : OtaProg Unit := do
  if !(← ask OtaCall.sdMounted) then say .localNoCard
  else do
    match ← ask OtaCall.stat with
    | none => say .localNone
    | some size =>
      if size ≤ 0 then say .localNone
      else do
        let version ← imageFileVersion
        say (.localImage size version)

/-- `https_image_version`. -/
def httpsImageVersion (url : CStr) : OtaProg (Except ℤ CStr) := do
  let err ← ask (OtaCall.begin url)
  if err ≠ espOk then pure (.error err)
  else do
    let desc ← ask OtaCall.imgDesc
    ask OtaCall.abort
    match desc with
    | .error err => pure (.error err)
    | .ok version => pure (.ok (version.take (otaVersionMax - 1)))

/-- `report_ota`. -/
def reportOta (repo : CStr) : OtaProg Unit := do
  if repo = [] then say .otaNoRepo
  else if !(← ask OtaCall.isConnected) then say (.otaOffline repo)
  else do
    match ← httpsImageVersion (repoUrl repo) with
    | .error err => say (.otaFailed repo err)
    | .ok version => say (.otaOffers repo version ((parseSemver version).map versionRelation))

/-- `do_status`. -/
def doStatus (repo : CStr) : OtaProg (Option OtaEnd) := do
  say .running
  reportLocal
  reportOta repo
  say .howToInstall
  pure (some ⟨espOk, false⟩)

/-- Where an update comes from, but for the card. -/
inductive NetSrc where
  | status
  | repo
  | url (url : CStr)

/-- The body of `ota_task`, with the repository of the configuration; the URL was copied to the job. -/
def otaBody (repo : CStr) (rounds : ℕ) : NetSrc → OtaProg (Option OtaEnd)
  | .status => doStatus repo
  | .repo => doRepo repo rounds
  | .url url => doUrl (url.take (otaUrlMax - 1)) rounds

/-- `ota_task`: it gives its semaphore, or the device restarts. -/
inductive OtaTaskEnd where
  | gave (result : ℤ)
  | restarted
  deriving DecidableEq

def otaTask (repo : CStr) (rounds : ℕ) (src : NetSrc) : OtaProg (Option OtaTaskEnd) := do
  match ← otaBody repo rounds src with
  | none => pure none
  | some job =>
    if job.result = espOk ∧ job.reboot = true then do
      say .rebooting
      ask OtaCall.unmountAll
      ask OtaCall.delay
      ask OtaCall.restart
      pure (some .restarted)
    else pure (some (.gave job.result))

/-! ### The handle -/

/-- Where the handle of an image is, and the restart after it. -/
inductive Flash where
  | idle | begun | failed | performed | verified
  | installed | unmounted | delayed | restarted
  deriving DecidableEq

/-- A handle that may be given back with an abort. -/
def Flash.open : Flash → Bool
  | .begun | .failed | .performed | .verified => true
  | _ => false

/-- The image was made to boot. -/
def Flash.done : Flash → Bool
  | .installed | .unmounted | .delayed | .restarted => true
  | _ => false

/-- What the task may do with the handle of the image at `url`; one that does not install loads and
    finishes none. -/
def flashing (url : CStr) (installs : Bool) : Contract OtaCall OtaCall.Answer Flash where
  may g c :=
    match c with
    | .begin u => g = .idle ∧ u = url
    | .imgDesc | .imageSize | .lenRead => g = .begun
    | .perform => g = .begun ∧ installs = true
    | .completeReceived => g = .performed
    | .abort => g.open = true
    | .finish => g = .verified ∧ installs = true
    | .unmountAll => g = .installed
    | .delay => g = .unmounted
    | .restart => g = .delayed
    | _ => g ≠ .restarted
  gives _ _ _ := True
  next g c r :=
    match c with
    | .begin _ => if r = espOk then .begun else .idle
    | .perform => if r = espErrHttpsOtaInProgress then .begun else if r = espOk then .performed else .failed
    | .completeReceived => if r = true then .verified else .failed
    | .abort => .idle
    | .finish => if r = espOk then .installed else .idle
    | .unmountAll => .unmounted
    | .delay => .delayed
    | .restart => .restarted
    | _ => g

variable {url : CStr} {installs : Bool} {g : Flash} {α β : Type}

/-- A call that leaves the handle where it is. -/
theorem quiet {c : OtaCall} {f : c.Answer → OtaProg α} {Q : Flash → α → Prop}
    (hmay : (flashing url installs).may g c) (hkeep : ∀ r, (flashing url installs).next g c r = g)
    (h : ∀ r, (flashing url installs).Obeys g (f r) Q) :
    (flashing url installs).Obeys g (ask c >>= f) Q :=
  Contract.Obeys.bind ⟨hmay, fun r _ => (hkeep r).symm ▸ h r⟩

/-- A part that leaves the handle where it is. -/
theorem quietly {p : OtaProg α} {f : α → OtaProg β} {Q : Flash → β → Prop}
    (hp : (flashing url installs).Obeys g p fun g' _ => g' = g)
    (h : ∀ a, (flashing url installs).Obeys g (f a) Q) :
    (flashing url installs).Obeys g (p >>= f) Q :=
  Contract.Obeys.bind (hp.mono fun _ a hg => hg.symm ▸ h a)

theorem say_flash (hg : g ≠ .restarted) (line : OtaLine) :
    (flashing url installs).Obeys g (say line) fun g' _ => g' = g :=
  ⟨hg, fun _ _ => rfl⟩

theorem progress_flash (hg : g ≠ .restarted) (done total mark : ℤ) :
    (flashing url installs).Obeys g (progress done total mark) fun g' _ => g' = g := by
  refine Contract.obeys_ite ?_ ?_ <;> exact Contract.obeys_ite ⟨hg, fun _ _ => rfl⟩ rfl

/-- Where the handle is when the loop has ended. -/
def Flash.afterLoop : Option ℤ → Flash
  | none => .begun
  | some err => if err = espOk then .performed else .failed

theorem performLoop_flash (total mark : ℤ) (rounds : ℕ) :
    (flashing url true).Obeys .begun (performLoop total mark rounds) fun g r => g = .afterLoop r := by
  have hbegun : Flash.begun ≠ .restarted := by decide
  induction rounds generalizing mark with
  | zero => rfl
  | succ rounds ih =>
    refine Contract.Obeys.bind ⟨⟨rfl, rfl⟩, fun err _ => Contract.obeys_ite' (fun hmore => ?_)
      (fun hend => if_neg hend)⟩
    have hnext : (flashing url true).next .begun .perform err = .begun := if_pos hmore
    rw [hnext]
    exact quiet rfl (fun _ => rfl) fun read => quietly (progress_flash hbegun read total mark) ih

/-- Where the handle is when the body has ended. -/
def Flash.afterBody (job : OtaEnd) : Flash := if job.reboot = true then .installed else .idle

/-- The handle was given back, and an image that is to boot was said to be fine. -/
def Ended (g : Flash) (job : OtaEnd) : Prop := g = .afterBody job ∧ (job.reboot = true → job.result = espOk)

theorem ended_idle (err : ℤ) : Ended .idle ⟨err, false⟩ := ⟨rfl, by rintro ⟨⟩⟩

/-- The body ends, or its rounds have been too few. -/
def Ends (g : Flash) (r : Option OtaEnd) : Prop := r.elim (g = .begun) (Ended g)

theorem refuse_flash (line : OtaLine) (err : ℤ) :
    (flashing url installs).Obeys .idle (say line >>= fun _ => pure (some ⟨err, false⟩)) Ends :=
  quietly (say_flash (by decide) line) fun _ => ended_idle err

/-- When the loop has ended the handle is given back, and an image is finished only when all of it was
    received. -/
theorem endHttps_flash (err : ℤ) :
    (flashing url true).Obeys (.afterLoop (some err)) (endHttps err) Ended := by
  refine Contract.obeys_ite' (fun hfailed => ?_) (fun hok => ?_)
  · have hat : Flash.afterLoop (some err) = .failed := if_neg hfailed
    rw [hat]
    exact quietly (say_flash (by decide) _) fun _ => ⟨rfl, fun _ _ => ended_idle err⟩
  · have hat : Flash.afterLoop (some err) = .performed := if_pos (not_not.mp hok)
    rw [hat]
    refine Contract.Obeys.bind ⟨rfl, fun complete _ => ?_⟩
    cases complete with
    | false => exact quietly (g := .failed) (say_flash (by decide) _) fun _ => ⟨rfl, fun _ _ => ended_idle _⟩
    | true =>
      refine Contract.Obeys.bind ⟨⟨rfl, rfl⟩, fun err _ =>
        Contract.obeys_ite' (fun hfailed => ?_) (fun hok => ?_)⟩
      · have hnext : (flashing url true).next .verified .finish err = .idle := if_neg hfailed
        exact hnext.symm ▸ quietly (say_flash (by decide) _) fun _ => ended_idle err
      · have hnext : (flashing url true).next .verified .finish err = .installed := if_pos (not_not.mp hok)
        exact hnext.symm ▸ quietly (say_flash (by decide) _) fun _ => ⟨rfl, fun _ => rfl⟩

theorem doHttps_flash (rounds : ℕ) : (flashing url true).Obeys .idle (doHttps url rounds) Ends := by
  have hbegun : Flash.begun ≠ .restarted := by decide
  have hidle : Flash.idle ≠ .restarted := by decide
  refine quiet hidle (fun _ => rfl) fun online => Contract.obeys_ite (refuse_flash _ _) ?_
  refine quietly (say_flash hidle _) fun _ => ?_
  refine Contract.Obeys.bind ⟨⟨rfl, rfl⟩, fun err _ =>
    Contract.obeys_ite' (fun hfailed => ?_) (fun hok => ?_)⟩
  · have hnext : (flashing url true).next .idle (.begin url) err = .idle := if_neg hfailed
    exact hnext.symm ▸ refuse_flash _ _
  · have hnext : (flashing url true).next .idle (.begin url) err = .begun := if_pos (not_not.mp hok)
    rw [hnext]
    refine quiet rfl (fun _ => rfl) fun desc => quietly ?_ fun _ => ?_
    · cases desc with
      | error err => rfl
      | ok version => exact say_flash hbegun _
    · refine quiet rfl (fun _ => rfl) fun total => quietly (say_flash hbegun _) fun _ => ?_
      refine Contract.Obeys.bind ((performLoop_flash total (-1) rounds).mono fun g r hg => ?_)
      rw [hg]
      cases r with
      | none => exact rfl
      | some err => exact Contract.Obeys.bind (endHttps_flash err)

theorem doRepo_flash (repo : CStr) (rounds : ℕ) :
    (flashing (repoUrl repo) true).Obeys .idle (doRepo repo rounds) Ends := by
  refine quiet (by rintro ⟨⟩) (fun _ => rfl) fun online => Contract.obeys_ite (refuse_flash _ _) ?_
  exact Contract.obeys_ite (refuse_flash _ _) (doHttps_flash rounds)

theorem doUrl_flash (url : CStr) (rounds : ℕ) : (flashing url true).Obeys .idle (doUrl url rounds) Ends :=
  Contract.obeys_ite (doHttps_flash rounds) (Contract.obeys_ite (refuse_flash _ _) (refuse_flash _ _))

theorem imageFileVersion_flash (hg : g ≠ .restarted) :
    (flashing url installs).Obeys g imageFileVersion fun g' _ => g' = g := by
  refine quiet hg (fun _ => rfl) fun opened => Contract.obeys_ite rfl (quietly ?_ fun found => ?_)
  · exact quiet hg (fun _ => rfl) fun sought => Contract.obeys_ite rfl ⟨hg, fun _ _ => rfl⟩
  · refine quiet hg (fun _ => rfl) fun _ => ?_
    cases found <;> rfl

theorem reportLocal_flash (hg : g ≠ .restarted) :
    (flashing url installs).Obeys g reportLocal fun g' _ => g' = g := by
  refine quiet hg (fun _ => rfl) fun mounted =>
    Contract.obeys_ite (say_flash hg _) (quiet hg (fun _ => rfl) fun size => ?_)
  cases size with
  | none => exact say_flash hg _
  | some size =>
    exact Contract.obeys_ite (say_flash hg _) (quietly (imageFileVersion_flash hg) fun _ => say_flash hg _)

/-- The version of an image is read with a handle that is given back. -/
theorem httpsImageVersion_flash :
    (flashing url installs).Obeys .idle (httpsImageVersion url) fun g _ => g = .idle := by
  refine Contract.Obeys.bind ⟨⟨rfl, rfl⟩, fun err _ =>
    Contract.obeys_ite' (fun hfailed => if_neg hfailed) (fun hok => ?_)⟩
  have hnext : (flashing url installs).next .idle (.begin url) err = .begun := if_pos (not_not.mp hok)
  rw [hnext]
  refine quiet rfl (fun _ => rfl) fun desc => Contract.Obeys.bind ⟨rfl, fun _ _ => ?_⟩
  cases desc <;> rfl

theorem reportOta_flash (repo : CStr) :
    (flashing (repoUrl repo) installs).Obeys .idle (reportOta repo) fun g _ => g = .idle := by
  have hidle : Flash.idle ≠ .restarted := by decide
  refine Contract.obeys_ite (say_flash hidle _) (quiet hidle (fun _ => rfl) fun online => ?_)
  refine Contract.obeys_ite (say_flash hidle _) (quietly httpsImageVersion_flash fun version => ?_)
  cases version <;> exact say_flash hidle _

theorem doStatus_flash (repo : CStr) :
    (flashing (repoUrl repo) installs).Obeys .idle (doStatus repo) Ends := by
  have hidle : Flash.idle ≠ .restarted := by decide
  refine quietly (say_flash hidle _) fun _ => quietly (reportLocal_flash hidle) fun _ =>
    quietly (reportOta_flash repo) fun _ => ?_
  exact quietly (say_flash hidle _) fun _ => ended_idle _

/-- The image an update is about, and whether it is to be installed. -/
def NetSrc.image (repo : CStr) : NetSrc → CStr × Bool
  | .status => (repoUrl repo, false)
  | .repo => (repoUrl repo, true)
  | .url url => (url.take (otaUrlMax - 1), true)

/-- Where the handle is when the task has ended. -/
def Flash.afterTask : Option OtaTaskEnd → Flash
  | none => .begun
  | some (.gave _) => .idle
  | some .restarted => .restarted

/-- Whatever its calls give, the task keeps to the handle's order. -/
theorem otaTask_flash (repo : CStr) (rounds : ℕ) (src : NetSrc) :
    (flashing (src.image repo).1 (src.image repo).2).Obeys .idle (otaTask repo rounds src) fun g r =>
      g = .afterTask r := by
  have hbody : (flashing (src.image repo).1 (src.image repo).2).Obeys .idle
    (otaBody repo rounds src) Ends := by
    cases src with
    | status => exact doStatus_flash repo
    | repo => exact doRepo_flash repo rounds
    | url url => exact doUrl_flash _ rounds
  refine Contract.Obeys.bind (hbody.mono fun g r hends => ?_)
  cases r with
  | none => exact hends
  | some job =>
    obtain ⟨hg, hwell⟩ := hends
    rw [hg]
    refine Contract.obeys_ite' (fun hreboot => ?_) (fun hno => ?_)
    · have hat : Flash.afterBody job = .installed := if_pos hreboot.2
      rw [hat]
      exact quietly (say_flash (by decide) _) fun _ =>
        ⟨rfl, fun _ _ => ⟨rfl, fun _ _ => ⟨rfl, fun _ _ => rfl⟩⟩⟩
    · exact if_neg fun hreboot => hno ⟨hwell hreboot, hreboot⟩

/-! ### The device -/

/-- What an open handle loads, how many bytes of it stand in the partition, and whether the loading has
    ended well. -/
structure Download where
  image : Bytes
  written : ℕ
  ended : Bool

/-- What `esp_https_ota` does, as the task relies on it: `dev` is the device, `session` what the open
    handle loads, `tgt` the next update partition, `serves` what servers have and `valid` which images
    the library takes. -/
structure HttpsOta {σ : Type} (world : σ → (c : OtaCall) → σ × c.Answer) (dev : σ → Device)
    (session : σ → Option Download) (tgt : ℕ) (serves : CStr → Option Bytes) (valid : Bytes → Bool) :
    Prop where
  /-- A handle is for what the server has at the address. -/
  begins : ∀ s url, (world s (.begin url)).2 = espOk →
    ∃ image, serves url = some image ∧ session (world s (.begin url)).1 = some ⟨image, 0, false⟩
  /-- Without ESP_OK there is no handle. -/
  begins_not : ∀ s url, (world s (.begin url)).2 ≠ espOk → session (world s (.begin url)).1 = session s
  /-- What is received next is written behind what was, the first of it into an erased partition. No
      image is without its header. -/
  performs : ∀ s l, session s = some l → (world s .perform).2 = espOk ∨
    (world s .perform).2 = espErrHttpsOtaInProgress →
    ∃ part, part <+: l.image.drop l.written ∧
      session (world s .perform).1 = some ⟨l.image, l.written + part.length, (world s .perform).2 = espOk⟩ ∧
      ((world s .perform).2 = espOk → 0 < l.written + part.length) ∧
      (l.written + part.length = 0 ∨
        (dev (world s .perform).1).slot tgt = (if l.written = 0 then [] else (dev s).slot tgt) ++ part)
  /-- Only the update partition is written, however it ends. -/
  performs_there : ∀ s, (dev (world s .perform).1).file = (dev s).file ∧
    (dev (world s .perform).1).running = (dev s).running ∧
    (dev (world s .perform).1).boot = (dev s).boot ∧ ∀ p, p ≠ tgt →
      (dev (world s .perform).1).slot p = (dev s).slot p
  /-- The bytes written are counted against what the server has. -/
  complete : ∀ s l, session s = some l → (world s .completeReceived).2 = true → l.written = l.image.length
  aborts : ∀ s, session (world s .abort).1 = none
  /-- After the loading has ended well a finish checks the image and makes the partition boot. -/
  finishes : ∀ s l, session s = some l → l.ended = true → (world s .finish).2 = espOk →
    valid ((dev s).slot tgt) = true ∧ dev (world s .finish).1 = { dev s with boot := tgt }
  finishes_not : ∀ s, (world s .finish).2 ≠ espOk → dev (world s .finish).1 = dev s
  finishes_closed : ∀ s, session (world s .finish).1 = none
  restarts : ∀ s, dev (world s .restart).1 = { dev s with running := (dev s).boot }
  /-- No other call touches the device, or the handle. -/
  still : ∀ s c, c ≠ .perform → c ≠ .finish → c ≠ .restart → dev (world s c).1 = dev s
  holds : ∀ s c, (∀ url, c ≠ .begin url) → c ≠ .perform → c ≠ .abort → c ≠ .finish →
    session (world s c).1 = session s

namespace HttpsOta

variable {σ : Type} {world : σ → (c : OtaCall) → σ × c.Answer} {dev : σ → Device}
    {session : σ → Option Download} {tgt : ℕ} {serves : CStr → Option Bytes} {valid : Bytes → Bool}
    {found : Device} {s : σ} {url : CStr} {installs : Bool} {g : Flash}

section

variable (dev session tgt serves valid)

/-- The open handle loads the image at `url`, and what was written of it stands in the partition. -/
def Loading (url : CStr) (ended : Bool) (s : σ) : Prop :=
  ∃ l, session s = some l ∧ serves url = some l.image ∧ l.ended = ended ∧ (ended = true → 0 < l.written) ∧
    l.written ≤ l.image.length ∧ (l.written = 0 ∨ (dev s).slot tgt = l.image.take l.written)

/-- The partition has the image at `url`, and the library took it. -/
def Loaded (url : CStr) (s : σ) : Prop :=
  session s = none ∧ serves url = some ((dev s).slot tgt) ∧
    valid ((dev s).slot tgt) = true ∧ (dev s).boot = tgt

/-- The device boots and runs what it did. -/
def Same (found : Device) (s : σ) : Prop := (dev s).boot = found.boot ∧ (dev s).running = found.running

/-- What there is of the image at `url` at a point of the handle. -/
def PointAt (found : Device) (url : CStr) (s : σ) : Flash → Prop
  | .idle => session s = none ∧ Same dev found s
  | .begun => Loading dev session tgt serves url false s ∧ Same dev found s
  | .performed => Loading dev session tgt serves url true s ∧ Same dev found s
  | .failed => Same dev found s
  | .verified =>
    (∃ l, session s = some l ∧ l.ended = true) ∧ serves url = some ((dev s).slot tgt) ∧ Same dev found s
  | .installed | .unmounted | .delayed =>
    Loaded dev session tgt serves valid url s ∧ (dev s).running = found.running
  | .restarted => Loaded dev session tgt serves valid url s ∧ (dev s).running = tgt

/-- What holds at every call of an update. -/
structure Keeps (found : Device) (url : CStr) (installs : Bool) (s : σ) (g : Flash) : Prop where
  file : (dev s).file = found.file
  slots : ∀ p, p ≠ tgt ∨ installs = false → (dev s).slot p = found.slot p
  meant : g.done = true → installs = true
  point : PointAt dev session tgt serves valid found url s g

end

/-- A call that touches neither the device nor the handle. -/
theorem quiet_keeps (h : HttpsOta world dev session tgt serves valid) {c : OtaCall}
    (hbegin : ∀ url, c ≠ .begin url) (hperform : c ≠ .perform) (habort : c ≠ .abort)
    (hfinish : c ≠ .finish) (hrestart : c ≠ .restart)
    (hs : Keeps dev session tgt serves valid found url installs s g) :
    Keeps dev session tgt serves valid found url installs (world s c).1 g := by
  have hdev := h.still s c hperform hfinish hrestart
  have hsession := h.holds s c hbegin hperform habort hfinish
  refine ⟨by rw [hdev]; exact hs.file, by rw [hdev]; exact hs.slots, hs.meant, ?_⟩
  have hpoint := hs.point
  cases g <;> simpa only [PointAt, Loading, Loaded, Same, hdev, hsession] using hpoint

theorem begin_keeps (h : HttpsOta world dev session tgt serves valid)
    (hs : Keeps dev session tgt serves valid found url installs s .idle) :
    Keeps dev session tgt serves valid found url installs (world s (.begin url)).1
      ((flashing url installs).next .idle (.begin url) (world s (.begin url)).2) := by
  obtain ⟨hsession, hsame⟩ := hs.point
  have hdev := h.still s (.begin url) (by rintro ⟨⟩) (by rintro ⟨⟩) (by rintro ⟨⟩)
  have hsame' : Same dev found (world s (.begin url)).1 := by rwa [Same, hdev]
  by_cases hok : (world s (.begin url)).2 = espOk
  · have hnext : (flashing url installs).next .idle (.begin url) (world s (.begin url)).2 = .begun :=
      if_pos hok
    obtain ⟨image, hserves, hopened⟩ := h.begins s url hok
    rw [hnext]
    exact ⟨by rw [hdev]; exact hs.file, by rw [hdev]; exact hs.slots, by rintro ⟨⟩,
      ⟨_, hopened, hserves, rfl, by rintro ⟨⟩, Nat.zero_le _, .inl rfl⟩, hsame'⟩
  · have hnext : (flashing url installs).next .idle (.begin url) (world s (.begin url)).2 = .idle :=
      if_neg hok
    rw [hnext]
    exact ⟨by rw [hdev]; exact hs.file, by rw [hdev]; exact hs.slots, by rintro ⟨⟩,
      (h.begins_not s url hok).trans hsession, hsame'⟩

/-- What a round has written is the image, as far as it was received. -/
theorem loading_perform (h : HttpsOta world dev session tgt serves valid)
    (hs : Loading dev session tgt serves url false s)
    (hcode : (world s .perform).2 = espOk ∨ (world s .perform).2 = espErrHttpsOtaInProgress) :
    Loading dev session tgt serves url ((world s .perform).2 = espOk) (world s .perform).1 := by
  obtain ⟨l, hsession, hserves, -, -, hle, hslot⟩ := hs
  obtain ⟨part, hpart, hsession', hsome, hwrote⟩ := h.performs s l hsession hcode
  have hlen : part.length ≤ l.image.length - l.written := by
    have hle := hpart.length_le
    rwa [List.length_drop] at hle
  refine ⟨_, hsession', hserves, rfl, fun hok => hsome (of_decide_eq_true hok), ?_,
    hwrote.imp_right fun hwrote => ?_⟩
  · show l.written + part.length ≤ l.image.length
    omega
  · have hbefore : (if l.written = 0 then [] else (dev s).slot tgt) = l.image.take l.written := by
      split
      · next hzero => rw [hzero, List.take_zero]
      · next hmore => exact hslot.resolve_left hmore
    rw [hwrote, hbefore, List.take_add, List.prefix_iff_eq_take.mp hpart, List.length_take, Nat.min_eq_left]
    exact hpart.length_le

theorem perform_keeps (h : HttpsOta world dev session tgt serves valid)
    (hs : Keeps dev session tgt serves valid found url true s .begun) :
    Keeps dev session tgt serves valid found url true (world s .perform).1
      ((flashing url true).next .begun .perform (world s .perform).2) := by
  obtain ⟨hloading, hboot, hrunning⟩ := hs.point
  obtain ⟨hfile, hrun, hboots, hslots⟩ := h.performs_there s
  have hsame : Same dev found (world s .perform).1 := ⟨hboots.trans hboot, hrun.trans hrunning⟩
  have hkept : ∀ p, p ≠ tgt ∨ true = false → (dev (world s .perform).1).slot p = found.slot p := by
    rintro p (hp | ⟨⟨⟩⟩)
    exact (hslots p hp).trans (hs.slots p (.inl hp))
  by_cases hmore : (world s .perform).2 = espErrHttpsOtaInProgress
  · have hnext : (flashing url true).next .begun .perform (world s .perform).2 = .begun := if_pos hmore
    have hnow := loading_perform h hloading (.inr hmore)
    rw [decide_eq_false (by rw [hmore]; decide)] at hnow
    rw [hnext]
    exact ⟨hfile.trans hs.file, hkept, by rintro ⟨⟩, hnow, hsame⟩
  by_cases hok : (world s .perform).2 = espOk
  · have hnext : (flashing url true).next .begun .perform (world s .perform).2 = .performed :=
      (if_neg hmore).trans (if_pos hok)
    have hnow := loading_perform h hloading (.inl hok)
    rw [decide_eq_true hok] at hnow
    rw [hnext]
    exact ⟨hfile.trans hs.file, hkept, by rintro ⟨⟩, hnow, hsame⟩
  · have hnext : (flashing url true).next .begun .perform (world s .perform).2 = .failed :=
      (if_neg hmore).trans (if_neg hok)
    rw [hnext]
    exact ⟨hfile.trans hs.file, hkept, by rintro ⟨⟩, hsame⟩

theorem complete_keeps (h : HttpsOta world dev session tgt serves valid)
    (hs : Keeps dev session tgt serves valid found url installs s .performed) :
    Keeps dev session tgt serves valid found url installs (world s .completeReceived).1
      ((flashing url installs).next .performed .completeReceived (world s .completeReceived).2) := by
  have hdev := h.still s .completeReceived (by rintro ⟨⟩) (by rintro ⟨⟩) (by rintro ⟨⟩)
  have hheld := h.holds s .completeReceived (by rintro _ ⟨⟩) (by rintro ⟨⟩) (by rintro ⟨⟩) (by rintro ⟨⟩)
  obtain ⟨⟨l, hsession, hserves, hended, hpos, -, hslot⟩, hsame⟩ := hs.point
  have hsame' : Same dev found (world s .completeReceived).1 := by rwa [Same, hdev]
  by_cases hall : (world s .completeReceived).2 = true
  · have hnext : (flashing url installs).next .performed .completeReceived
      (world s .completeReceived).2 = .verified := if_pos hall
    have hwhole : (dev s).slot tgt = l.image := by
      rw [hslot.resolve_left (Nat.pos_iff_ne_zero.mp (hpos rfl)),
        h.complete s l hsession hall, List.take_length]
    rw [hnext]
    refine ⟨by rw [hdev]; exact hs.file, by rw [hdev]; exact hs.slots, by rintro ⟨⟩,
      ⟨l, hheld.trans hsession, hended⟩, ?_, hsame'⟩
    rw [hdev, hwhole]
    exact hserves
  · have hnext : (flashing url installs).next .performed .completeReceived
      (world s .completeReceived).2 = .failed := if_neg hall
    rw [hnext]
    exact ⟨by rw [hdev]; exact hs.file, by rw [hdev]; exact hs.slots, by rintro ⟨⟩, hsame'⟩

theorem finish_keeps (h : HttpsOta world dev session tgt serves valid)
    (hs : Keeps dev session tgt serves valid found url true s .verified) :
    Keeps dev session tgt serves valid found url true (world s .finish).1
      ((flashing url true).next .verified .finish (world s .finish).2) := by
  obtain ⟨⟨l, hsession, hended⟩, hserves, hboot, hrunning⟩ := hs.point
  by_cases hok : (world s .finish).2 = espOk
  · have hnext : (flashing url true).next .verified .finish (world s .finish).2 = .installed := if_pos hok
    obtain ⟨hvalid, hdev⟩ := h.finishes s l hsession hended hok
    have hslot : (dev (world s .finish).1).slot tgt = (dev s).slot tgt := by rw [hdev]
    rw [hnext]
    exact ⟨by rw [hdev]; exact hs.file, by rw [hdev]; exact hs.slots, fun _ => rfl,
      ⟨h.finishes_closed s, by rw [hslot]; exact hserves, by rw [hslot]; exact hvalid, by rw [hdev]⟩,
        by rw [hdev]; exact hrunning⟩
  · have hnext : (flashing url true).next .verified .finish (world s .finish).2 = .idle := if_neg hok
    have hdev := h.finishes_not s hok
    rw [hnext]
    exact ⟨by rw [hdev]; exact hs.file, by rw [hdev]; exact hs.slots, by rintro ⟨⟩, h.finishes_closed s,
      by rw [hdev]; exact hboot, by rw [hdev]; exact hrunning⟩

theorem abort_keeps (h : HttpsOta world dev session tgt serves valid)
    (hs : Keeps dev session tgt serves valid found url installs s g) (hopen : g.open = true) :
    Keeps dev session tgt serves valid found url installs (world s .abort).1 .idle := by
  have hdev := h.still s .abort (by rintro ⟨⟩) (by rintro ⟨⟩) (by rintro ⟨⟩)
  have hsame : Same dev found s := by
    cases g with
    | begun | performed => exact hs.point.2
    | verified => exact hs.point.2.2
    | failed => exact hs.point
    | idle | installed | unmounted | delayed | restarted => cases hopen
  exact ⟨by rw [hdev]; exact hs.file, by rw [hdev]; exact hs.slots, by rintro ⟨⟩, h.aborts s,
    by rwa [Same, hdev]⟩

theorem restart_keeps (h : HttpsOta world dev session tgt serves valid)
    (hs : Keeps dev session tgt serves valid found url installs s .delayed) :
    Keeps dev session tgt serves valid found url installs (world s .restart).1 .restarted := by
  obtain ⟨⟨hsession, hserves, hvalid, hboot⟩, -⟩ := hs.point
  have hdev := h.restarts s
  have hheld := h.holds s .restart (by rintro _ ⟨⟩) (by rintro ⟨⟩) (by rintro ⟨⟩) (by rintro ⟨⟩)
  refine ⟨by rw [hdev]; exact hs.file, by rw [hdev]; exact hs.slots, fun _ => hs.meant rfl,
    ⟨hheld.trans hsession, ?_, ?_, ?_⟩, ?_⟩
  · rw [hdev]
    exact hserves
  · rw [hdev]
    exact hvalid
  · rw [hdev]
    exact hboot
  · rw [hdev]
    exact hboot

/-- A device with such a library keeps to the handle's order, and the image is where the order says. -/
theorem keptBy (h : HttpsOta world dev session tgt serves valid) (found : Device)
    (url : CStr) (installs : Bool) :
    (flashing url installs).KeptBy world (Keeps dev session tgt serves valid found url installs) := by
  intro s g c hs hmay
  refine ⟨trivial, ?_⟩
  cases c with
  | isConnected | sdMounted | fopen | fseek | imgDesc | imageSize | lenRead | fread | stat | say | fclose =>
    exact quiet_keeps h (by rintro _ ⟨⟩) (by rintro ⟨⟩) (by rintro ⟨⟩) (by rintro ⟨⟩) (by rintro ⟨⟩) hs
  | begin u =>
    obtain ⟨rfl, rfl⟩ := hmay
    exact begin_keeps h hs
  | perform =>
    obtain ⟨rfl, rfl⟩ := hmay
    exact perform_keeps h hs
  | completeReceived =>
    obtain rfl := hmay
    exact complete_keeps h hs
  | abort => exact abort_keeps h hs hmay
  | finish =>
    obtain ⟨rfl, rfl⟩ := hmay
    exact finish_keeps h hs
  | unmountAll =>
    obtain rfl := hmay
    have hkept := quiet_keeps h (c := .unmountAll) (by rintro _ ⟨⟩) (by rintro ⟨⟩)
      (by rintro ⟨⟩) (by rintro ⟨⟩)
      (by rintro ⟨⟩) hs
    exact ⟨hkept.file, hkept.slots, hkept.meant, hkept.point⟩
  | delay =>
    obtain rfl := hmay
    have hkept := quiet_keeps h (c := .delay) (by rintro _ ⟨⟩) (by rintro ⟨⟩) (by rintro ⟨⟩) (by rintro ⟨⟩)
      (by rintro ⟨⟩) hs
    exact ⟨hkept.file, hkept.slots, hkept.meant, hkept.point⟩
  | restart =>
    obtain rfl := hmay
    exact restart_keeps h hs

end HttpsOta

/-! ### Whole updates -/

/-- Whatever its calls give, the task uses a handle only between a begin that succeeded and the one
    abort or finish that gives it back; it finishes one only after the loop ended well and all was
    received, restarts only after a finish that succeeded, and then it makes no other call but those of
    the way there. -/
theorem handle_orderly {σ : Type} (world : σ → (c : OtaCall) → σ × c.Answer) (s : σ) (repo : CStr)
    (rounds : ℕ) (src : NetSrc) :
    (flashing (src.image repo).1 (src.image repo).2).Allows .idle ((otaTask repo rounds src).trace world s) ∧
      (flashing (src.image repo).1 (src.image repo).2).after .idle ((otaTask repo rounds src).trace world s) =
        .afterTask ((otaTask repo rounds src).run world s).2 := by
  obtain ⟨hallows, hend, -⟩ := (otaTask_flash repo rounds src).sound (I := fun _ _ => True) (s := s)
    (fun _ _ _ _ _ => ⟨trivial, trivial⟩) trivial
  exact ⟨hallows, hend⟩

/-- CORRECT: an update over the network is all or nothing. Whatever the server and the connection do,
    the device boots what it booted before, unless it has restarted into exactly the image that is
    served at the address, which the library found valid. No other partition is written, and none by a
    status. -/
theorem network_update_all_or_nothing {σ : Type} {world : σ → (c : OtaCall) → σ × c.Answer}
    {dev : σ → Device} {session : σ → Option Download} {tgt : ℕ} {serves : CStr → Option Bytes}
    {valid : Bytes → Bool} (h : HttpsOta world dev session tgt serves valid) {s : σ}
    (hidle : session s = none) (repo : CStr) (rounds : ℕ) (src : NetSrc) :
    ∃ after r, (otaTask repo rounds src).run world s = (after, r) ∧ (dev after).file = (dev s).file ∧
      (∀ p, p ≠ tgt ∨ (src.image repo).2 = false → (dev after).slot p = (dev s).slot p) ∧
      (r ≠ none → session after = none) ∧
      (r ≠ some .restarted → (dev after).boot = (dev s).boot ∧ (dev after).running = (dev s).running) ∧
      (r = some .restarted → (src.image repo).2 = true ∧
        serves (src.image repo).1 = some ((dev after).slot tgt) ∧
        valid ((dev after).slot tgt) = true ∧ (dev after).boot = tgt ∧ (dev after).running = tgt) := by
  obtain ⟨-, hend, hkeeps⟩ := (otaTask_flash repo rounds src).sound
    (h.keptBy (dev s) (src.image repo).1 (src.image repo).2) (s := s)
    ⟨rfl, fun _ _ => rfl, by rintro ⟨⟩, hidle, rfl, rfl⟩
  rw [hend] at hkeeps
  refine ⟨_, _, rfl, hkeeps.file, hkeeps.slots, ?_⟩
  have hpoint := hkeeps.point
  have hmeant := hkeeps.meant
  cases hr : ((otaTask repo rounds src).run world s).2 with
  | none =>
    rw [hr] at hpoint
    exact ⟨fun hnone => absurd rfl hnone, fun _ => hpoint.2, by rintro ⟨⟩⟩
  | some e =>
    rw [hr] at hpoint hmeant
    cases e with
    | gave err => exact ⟨fun _ => hpoint.1, fun _ => hpoint.2, by rintro ⟨⟩⟩
    | restarted =>
      obtain ⟨⟨hsession, hserves, hvalid, hboot⟩, hrunning⟩ := hpoint
      exact ⟨fun _ => hsession, fun hno => absurd rfl hno, fun _ =>
        ⟨hmeant rfl, hserves, hvalid, hboot, hrunning⟩⟩

/-- A server with one image, behind a connection that never fails. -/
def newBuild (s : Device × Option Download) : (c : OtaCall) → (Device × Option Download) × c.Answer
  | .begin _ => ((s.1, some ⟨[0xE9, 1], 0, false⟩), espOk)
  | .perform =>
    match s.2 with
    | none => (s, espFail)
    | some l =>
      if l.image.drop l.written = [] then (s, espFail)
      else
        ((s.1.put 1 ((if l.written = 0 then [] else s.1.slot 1) ++ l.image.drop l.written),
          some ⟨l.image, l.written + (l.image.drop l.written).length, true⟩), espOk)
  | .completeReceived => (s, s.2.any fun l => l.written = l.image.length)
  | .abort => ((s.1, none), ())
  | .finish =>
    if (s.1.slot 1).head? == some 0xE9 then (({ s.1 with boot := 1 }, none),
      espOk) else ((s.1, none), espFail)
  | .restart => (({ s.1 with running := s.1.boot }, s.2), ())
  | .imgDesc => (s, .ok "1.0.8".toList)
  | .fread | .stat => (s, none)
  | .isConnected | .sdMounted | .fopen | .fseek => (s, true)
  | .imageSize | .lenRead => (s, 2)
  | .say _ | .fclose | .unmountAll | .delay => (s, ())

/-- A round either fails at once or writes all that is left. -/
theorem newBuild_perform (s : Device × Option Download) :
    newBuild s .perform = (s, espFail) ∨
      ∃ l, s.2 = some l ∧ l.image.drop l.written ≠ [] ∧ newBuild s .perform =
        ((s.1.put 1 ((if l.written = 0 then [] else s.1.slot 1) ++ l.image.drop l.written),
          some ⟨l.image, l.written + (l.image.drop l.written).length, true⟩), espOk) := by
  obtain ⟨d, _ | l⟩ := s
  · exact .inl rfl
  · by_cases hnone : l.image.drop l.written = []
    · exact .inl (if_pos hnone)
    · exact .inr ⟨l, rfl, hnone, if_neg hnone⟩

theorem newBuild_library :
    HttpsOta newBuild Prod.fst Prod.snd 1 (fun _ => some [0xE9, 1]) fun image =>
      image.head? == some 0xE9 where
  begins s url _ := ⟨_, rfl, rfl⟩
  begins_not s url hfail := absurd rfl hfail
  performs s l hsession hcode := by
    rcases newBuild_perform s with hcall | ⟨l', hl', hsome, hcall⟩
    · rw [hcall] at hcode
      rcases hcode with hcode | hcode
      · exact absurd (show espFail = espOk from hcode) (by decide)
      · exact absurd (show espFail = espErrHttpsOtaInProgress from hcode) (by decide)
    · obtain rfl : l' = l := Option.some.inj (hl'.symm.trans hsession)
      rw [hcall]
      refine ⟨l'.image.drop l'.written, List.prefix_refl _, rfl, fun _ => ?_, .inr (Device.put_slot ..)⟩
      have hpos := List.length_pos_of_ne_nil hsome
      omega
  performs_there s := by
    rcases newBuild_perform s with hcall | ⟨l, -, -, hcall⟩
    · rw [hcall]
      exact ⟨rfl, rfl, rfl, fun _ _ => rfl⟩
    · rw [hcall]
      exact ⟨rfl, rfl, rfl, fun p hp => Function.update_of_ne hp ..⟩
  complete s l hsession hall := by
    obtain ⟨d, _⟩ := s
    obtain rfl := hsession
    simpa [newBuild] using hall
  aborts s := rfl
  finishes s l _ _ hok := by
    by_cases hvalid : ((s.1.slot 1).head? == some 0xE9) = true
    · have hcall : newBuild s .finish = (({ s.1 with boot := 1 }, none), espOk) := if_pos hvalid
      rw [hcall]
      exact ⟨hvalid, rfl⟩
    · have hcall : newBuild s .finish = ((s.1, none), espFail) := if_neg hvalid
      rw [hcall] at hok
      exact absurd (show espFail = espOk from hok) (by decide)
  finishes_not s hfail := by
    by_cases hvalid : ((s.1.slot 1).head? == some 0xE9) = true
    · exact absurd (congrArg Prod.snd (if_pos hvalid)) hfail
    · have hcall : newBuild s .finish = ((s.1, none), espFail) := if_neg hvalid
      rw [hcall]
  finishes_closed s := by
    by_cases hvalid : ((s.1.slot 1).head? == some 0xE9) = true
    · have hcall : newBuild s .finish = (({ s.1 with boot := 1 }, none), espOk) := if_pos hvalid
      rw [hcall]
    · have hcall : newBuild s .finish = ((s.1, none), espFail) := if_neg hvalid
      rw [hcall]
  restarts s := rfl
  still s c hperform hfinish hrestart := by cases c <;> first | rfl | contradiction
  holds s c hbegin hperform habort hfinish := by
    cases c <;> first | rfl | contradiction | exact absurd rfl (hbegin _)

/-- A device that restarts into what it was sent. -/
theorem network_update_newBuild :
    ∃ after, (otaTask [] 1 (.url "https://host/firmware.bin".toList)).run newBuild
    (⟨none, fun _ => [], 0, 0⟩, none) = (after, some .restarted) ∧ after.1.running = 1 ∧
      after.1.slot 1 = [0xE9, 1] := by
  obtain ⟨after, r, hrun, -, -, -, -, hrestarted⟩ :=
    network_update_all_or_nothing newBuild_library (s := (⟨none, fun _ => [], 0, 0⟩, none)) rfl [] 1
      (.url "https://host/firmware.bin".toList)
  have hend : ((otaTask [] 1 (.url "https://host/firmware.bin".toList)).run newBuild
    (⟨none, fun _ => [], 0, 0⟩, none)).2 =
      some .restarted := by decide +kernel
  obtain rfl : r = some .restarted := by rw [← hend, hrun]
  obtain ⟨-, hserves, -, -, hrunning⟩ := hrestarted rfl
  exact ⟨after, hrun, hrunning, (Option.some.inj hserves).symm⟩

end FdcSds.Ota
