import FdcSds.Cli.BatchFile
import FdcSds.Config.Batches
import FdcSds.Sd.Volume
import FdcSds.Net.TnfsProto

/-! Batches that start batches (`cli_dispatch`, `batch_exec_path`, `run_batch_file`).

    A line is matched against the commands; `exec`, and a word that is no command, may start a batch, whose
    lines are dispatched in turn. The console counts how deep it is and refuses a fifth batch.

        dispatch ──▶ exec, autorun ──▶ batch_exec_path ──▶ run_batch_file
           ▲                               depth + 1             │
           └─────────────────── each line ──────────────────────┘      -/

namespace FdcSds
open Schemes

/-! ### Commands -/

/-- `cli_command_t`: the name, the alias, and whether the handler is `cmd_exec`. -/
structure CliCommand where
  name : CStr
  aliasName : Option CStr
  runsBatch : Bool

/-- A command that starts no batch. -/
def plain (name : String) (aliasName : Option String) : CliCommand :=
  ⟨name.toList, aliasName.map String.toList, false⟩

/-- `k_commands`. -/
def cliCommands : List CliCommand :=
  [plain "help" "?", plain "version" none, plain "baud" none, plain "dir" "ls", plain "mount" none,
    plain "unmount" "umount",
    plain "stats" none, plain "diag" none, plain "clear" none, plain "log" none,
      plain "save" "write", plain "wipe" none,
    plain "dump" none, plain "wifi" none, plain "ssid" none, plain "pass" none, plain "hostname" none,
      plain "telnetd" none,
    plain "ftpd" none, plain "tnfsd" none, plain "fdctcp" none, plain "ftpuser" none,
      plain "ftppass" none, plain "update" none,
    plain "type" "cat", ⟨"exec".toList, "run".toList, true⟩, plain "logout" "exit",
      plain "delete" "rm", plain "mkdir" "md",
    plain "rmdir" "rd", plain "rename" "mv", plain "copy" "cp", plain "loopback" "lb",
      plain "time" "date", plain "tz" none,
    plain "reboot" none]

/-- What `cli_match` finds. -/
inductive CliMatch where
  | none
  | ambiguous
  | hit (command : CliCommand)

/-- `strcasecmp` finds no difference. -/
def sameText (a b : CStr) : Bool := foldCase a == foldCase b

/-- `strncasecmp`, up to the length of the token, finds no difference. -/
def abbreviates (tok name : CStr) : Bool := (foldCase tok).isPrefixOf (foldCase name)

/-- `cli_match`. -/
def cliMatch (tok : CStr) : CliMatch :=
  match cliCommands.find? fun t => sameText tok t.name || t.aliasName.any (sameText tok) with
  | some t => .hit t
  | Option.none =>
    match cliCommands.filter fun t => abbreviates tok t.name || t.aliasName.any (abbreviates tok) with
    | [] => .none
    | [t] => .hit t
    | _ => .ambiguous

/-! ### Execution -/

/-- What batches find on the card: which paths are plain files, and what is read from one when so many
    batches are running. -/
structure BatchFiles where
  regular : CStr → Bool
  read : ℕ → CStr → Option Bytes

/-- A line of a batch that is dispatched, and the shell it is dispatched in. -/
structure Dispatched where
  shell : Shell
  line : Bytes

namespace Shell

/-- The name of the batch that a line is to start, if it is to start one: the argument of `exec`, or a word
    that is no command. -/
def batchNamed (line : Bytes) : Option CStr :=
  match argvOf (line ++ [0]) with
  | [] => none
  | word :: args =>
    match cliMatch (cstr word) with
    | .none => some (cstr word)
    | .ambiguous => none
    | .hit t => if t.runsBatch then args.head?.map cstr else none

/-- The loop of `run_batch_file` over the lines, with what dispatches one. -/
def runLines (dispatch : Shell → Bytes → Option (Shell × List Dispatched)) :
    Shell → List Bytes → Option (Shell × List Dispatched)
  | s, [] => some (s, [])
  | s, line :: lines => do
    let (s', first) ← dispatch s line
    let (s'', others) ← runLines dispatch s' lines
    some (s'', ⟨s, line⟩ :: first ++ others)

/-- `batch_exec_path`: `saved` is a local, the depth is the console's. -/
def batchExecPath (files : BatchFiles) (t : Terminal)
    (dispatch : Shell → Bytes → Option (Shell × List Dispatched)) (s : Shell) (path : CStr) :
    Option (Shell × List Dispatched) :=
  if batchMaxDepth ≤ (s.running t).length then some (s, [])
  else do
    let lines := ((files.read (s.running t).length path).map batchLines).getD []
    let (s', lines) ← runLines dispatch (s.enter t path) lines
    some (s'.leave t ⟨path, strlcpy configFileCap s.cwd⟩ (s'.running t).tail, lines)

/-- `cli_dispatch`, and the lines of batches it dispatches in turn; `fuel` bounds how deep it goes. Commands
    other than `exec` start no batch and keep the working directory. -/
def cliDispatch (files : BatchFiles) (t : Terminal) : ℕ → Shell → Bytes → Option (Shell × List Dispatched)
  | 0, _, _ => none
  | fuel + 1, s, line =>
    match (batchNamed line).bind (s.batchPath · files.regular) with
    | none => some (s, [])
    | some path => s.batchExecPath files t (cliDispatch files t fuel) path

/-- `cli_run_autoexec`. -/
def cliRunAutoexec (files : BatchFiles) (t : Terminal) (fuel : ℕ) (s : Shell) :
    Option (Shell × List Dispatched) :=
  match s.autoexecPath files.regular with
  | none => some (s, [])
  | some path => s.batchExecPath files t (cliDispatch files t fuel) path

end Shell

namespace Dispatched

variable (t : Terminal)

/-- Every SD name resolves in the folder of the batch that runs. -/
def Homed (d : Dispatched) : Prop :=
  ∀ b ∈ (d.shell.running t).head?, ∀ name,
    d.shell.resolve name = sdPath (inFolder (Shell.folder b) name) pathCap ∧
    ∀ path, d.shell.resolve name = some path → path = sdMountPoint ++ '/' :: inFolder (Shell.folder b) name

/-- The folder of the batch that runs fits the working directory. -/
def Fits (d : Dispatched) : Prop := ∀ b ∈ (d.shell.running t).head?, (Shell.folder b).length < configFileCap

end Dispatched

/-! ### Folders -/

/-- A path in a folder is the folder, a slash and a name. -/
theorem folderOf_front {rel : CStr} (h : folderOf rel ≠ []) : ∃ file, rel = folderOf rel ++ '/' :: file := by
  have hsplit : rel.reverse.takeWhile (· ≠ '/') ++ rel.reverse.dropWhile (· ≠ '/') = rel.reverse :=
    List.takeWhile_append_dropWhile
  cases hback : rel.reverse.dropWhile (· ≠ '/') with
  | nil =>
    refine absurd ?_ h
    rw [folderOf, hback]
    rfl
  | cons c dir =>
    have hc : c = '/' := by
      have hhead := List.head?_dropWhile_not (fun c => decide (c ≠ '/')) rel.reverse
      rw [hback] at hhead
      simpa using hhead
    refine ⟨(rel.reverse.takeWhile (· ≠ '/')).reverse, ?_⟩
    have hrel := congrArg List.reverse hsplit
    rw [hback, hc, List.reverse_reverse] at hrel
    rw [folderOf, hback, List.drop_one, List.tail_cons]
    exact hrel.symm.trans (by simp)

theorem relOf_sd (qname : CStr) : relOf (sdMountPoint ++ '/' :: qname) = qname := by
  simp [relOf, sdMountPoint]

namespace Shell

variable {files : BatchFiles} {t : Terminal} {s s' : Shell} {path name : CStr}

/-! ### What is dispatched in a batch -/

/-- A path that `sd_path` makes of some name. -/
def OnCard (path : CStr) : Prop := ∃ qname, sdPath qname pathCap = some path

/-- The innermost batch is one of the card, and the working directory has been set for it. -/
structure InBatch (t : Terminal) (d : Dispatched) : Prop where
  nested : (d.shell.running t).length ≤ batchMaxDepth
  batch : ∃ b rest, d.shell.running t = b :: rest ∧
    d.shell.cwd = batchDirOf b.path configFileCap ∧ OnCard b.path
  mounted : d.shell.sdMounted = true

theorem batchPath_onCard (h : s.batchPath name files.regular = some path) :
    s.sdMounted = true ∧ OnCard path := by
  rw [batchPath] at h
  split at h
  · cases h
  · rename_i hsd
    refine ⟨by simpa using hsd, ?_⟩
    split at h
    · cases h
    · rename_i qname _
      rcases Option.or_eq_some_iff.mp h with h | ⟨-, h⟩
      · exact ⟨qname, (Option.filter_eq_some_iff.mp h).1⟩
      · split at h
        · cases h
        · exact ⟨_, (Option.filter_eq_some_iff.mp h).1⟩

theorem autoexecPath_onCard (h : s.autoexecPath files.regular = some path) :
    s.sdMounted = true ∧ OnCard path := by
  rw [autoexecPath] at h
  split at h
  · rename_i hsd
    exact ⟨hsd, _, (Option.filter_eq_some_iff.mp h).1⟩
  · cases h

/-- In a batch of the card, names resolve in its folder exactly when that fits. -/
theorem InBatch.homed_iff {d : Dispatched} (h : InBatch t d) : d.Homed t ↔ d.Fits t := by
  obtain ⟨b, rest, hrunning, hcwd, qname, hqname⟩ := h.batch
  have hhead : (d.shell.running t).head? = some b := by rw [hrunning]; rfl
  have hresolve : ∀ name, d.shell.resolve name = sdPath (inFolder d.shell.cwd name) pathCap := by
    intro name
    rw [resolve, if_pos h.mounted, qualify_sdPath]
  rw [Dispatched.Homed, Dispatched.Fits, hhead]
  simp only [Option.mem_some_iff, forall_eq']
  constructor
  · -- the name of the batch file itself tells the folder from one that is cut
    intro hhomed
    by_contra hlong
    have hpath : b.path = sdMountPoint ++ '/' :: qname := (sdPath_eq hqname).1
    have hfolder : folder b = folderOf qname := by rw [folder, hpath, relOf_sd]
    have hcut : d.shell.cwd = (folder b).take (configFileCap - 1) := hcwd
    have hcap : configFileCap = 129 := rfl
    have hne : folderOf qname ≠ [] := by
      intro hnil
      rw [hfolder, hnil] at hlong
      exact hlong (by decide)
    obtain ⟨file, hfile⟩ := folderOf_front hne
    have hfull : inFolder (folder b) file = qname := by
      rw [hfolder, inFolder, if_neg (by simpa using hne), ← hfile]
    obtain ⟨hsame, hbelow⟩ := hhomed file
    rw [hfull, hqname] at hsame
    have hshort := (sdPath_eq ((hresolve file).symm.trans hsame)).1
    rw [hpath, hcut] at hshort
    have hlen := congrArg List.length (List.cons.inj (List.append_cancel_left hshort)).2
    rw [← hfull, inFolder, inFolder, if_neg (by rw [hfolder]; simpa using hne)] at hlen
    split at hlen
    · simp at hlen
      omega
    · simp only [List.length_append, List.length_cons, List.length_take] at hlen
      omega
  · intro hfits name
    have hhome : d.shell.cwd = folder b := hcwd.trans (batchDirOf_eq hfits)
    have hname : d.shell.resolve name = sdPath (inFolder (folder b) name) pathCap := by rw [hresolve, hhome]
    exact ⟨hname, fun path hpath => (sdPath_eq (hname.symm.trans hpath)).1⟩

/-! ### Runs of batches -/

/-- When every line leaves the shell as it was, the loop does. -/
theorem runLines_same {dispatch : Shell → Bytes → Option (Shell × List Dispatched)}
    {trace : Bytes → List Dispatched} (h : ∀ line, dispatch s line = some (s, trace line))
    (lines : List Bytes) :
    runLines dispatch s lines = some (s, lines.flatMap fun line => ⟨s, line⟩ :: trace line) := by
  induction lines with
  | nil => rfl
  | cons line lines ih =>
    rw [runLines, h, Option.bind_eq_bind, Option.bind_some]
    dsimp only
    rw [ih]
    rfl

theorem enter_running (hdepth : (s.running t).length < batchMaxDepth) (path : CStr) :
    (s.enter t path).running t = ⟨path, strlcpy configFileCap s.cwd⟩ :: s.running t := by
  rw [enter, if_neg (Nat.not_le.mpr hdepth)]
  exact Function.update_self ..

theorem enter_cwd (hdepth : (s.running t).length < batchMaxDepth) (path : CStr) :
    (s.enter t path).cwd = batchDirOf path configFileCap := by
  rw [enter, if_neg (Nat.not_le.mpr hdepth)]

theorem enter_mounted (path : CStr) : (s.enter t path).sdMounted = s.sdMounted := by
  rw [enter]
  split <;> rfl

/-- The end of a batch puts everything back. -/
theorem leave_enter (hdepth : (s.running t).length < batchMaxDepth)
    (hcwd : s.cwd.length < configFileCap) (path : CStr) :
    (s.enter t path).leave t ⟨path, strlcpy configFileCap s.cwd⟩ ((s.enter t path).running t).tail = s := by
  have hsaved : strlcpy configFileCap s.cwd = s.cwd := strlcpy_of_lt hcwd
  rw [enter_running hdepth, List.tail_cons, leave, hsaved, hsaved, enter, if_neg (Nat.not_le.mpr hdepth)]
  simp

theorem length_batchDirOf (path : CStr) : (batchDirOf path configFileCap).length < configFileCap := by
  have hcap : configFileCap = 129 := rfl
  rw [batchDirOf, strlcpy, List.length_take]
  omega

/-- A batch is refused, or its lines run in its own shell, and the shell is as it was. -/
theorem batchExecPath_run {dispatch : Shell → Bytes → Option (Shell × List Dispatched)}
    {trace : Bytes → List Dispatched} (hcwd : s.cwd.length < configFileCap)
    (hdepth : (s.running t).length < batchMaxDepth)
    (h : ∀ line, dispatch (s.enter t path) line = some (s.enter t path, trace line)) :
    s.batchExecPath files t dispatch path =
      some (s, (((files.read (s.running t).length path).map batchLines).getD []).flatMap
      fun line => ⟨s.enter t path, line⟩ :: trace line) := by
  rw [batchExecPath, if_neg (Nat.not_le.mpr hdepth)]
  dsimp only
  rw [runLines_same h, Option.bind_eq_bind, Option.bind_some]
  dsimp only
  rw [leave_enter hdepth hcwd]

theorem batchExecPath_refused {dispatch : Shell → Bytes → Option (Shell × List Dispatched)}
    (hdepth : batchMaxDepth ≤ (s.running t).length) :
    s.batchExecPath files t dispatch path = some (s, []) := if_pos hdepth

/-- A line in the shell of a batch that has just been started. -/
theorem inBatch_enter (hdepth : (s.running t).length < batchMaxDepth) (hmounted : s.sdMounted = true)
    (hpath : OnCard path) (line : Bytes) :
    InBatch t ⟨s.enter t path, line⟩ := by
  have hrunning := enter_running hdepth path
  refine ⟨?_, ⟨_, _, hrunning, enter_cwd hdepth path, hpath⟩, (enter_mounted path).trans hmounted⟩
  rw [hrunning]
  exact hdepth

/-- So many batches may still be started: the lines a line brings about, whatever the fuel beyond that. -/
theorem cliDispatch_run (files : BatchFiles) (t : Terminal) (left : ℕ) (s : Shell)
    (hcwd : s.cwd.length < configFileCap) (hleft : (s.running t).length + left = batchMaxDepth) :
    ∃ trace : Bytes → List Dispatched,
      (∀ fuel, left < fuel → ∀ line, s.cliDispatch files t fuel line = some (s, trace line)) ∧
      ∀ line, ∀ d ∈ trace line, InBatch t d := by
  induction left generalizing s with
  | zero =>
    refine ⟨fun _ => [], fun fuel hfuel line => ?_, fun line d hd => by cases hd⟩
    obtain ⟨fuel, rfl⟩ := Nat.exists_eq_add_one.mpr hfuel
    rw [cliDispatch]
    split
    · rfl
    · exact batchExecPath_refused (Nat.le_of_eq hleft.symm)
  | succ left ih =>
    have hdepth : (s.running t).length < batchMaxDepth := by omega
    have hdeeper : ∀ path, ((s.enter t path).running t).length + left = batchMaxDepth := by
      intro path
      rw [enter_running hdepth, List.length_cons]
      omega
    have hfits : ∀ path, (s.enter t path).cwd.length < configFileCap := by
      intro path
      rw [enter_cwd hdepth]
      exact length_batchDirOf path
    choose trace htrace hin using fun path => ih (s.enter t path) (hfits path) (hdeeper path)
    refine ⟨fun line => match (batchNamed line).bind (s.batchPath · files.regular) with
      | none => []
      | some path => (((files.read (s.running t).length path).map batchLines).getD []).flatMap
          fun inner => ⟨s.enter t path, inner⟩ :: trace path inner, fun fuel hfuel line =>
            ?_, fun line d hd => ?_⟩
    · obtain ⟨fuel, rfl⟩ := Nat.exists_eq_add_one.mpr (Nat.lt_of_le_of_lt (Nat.zero_le _) hfuel)
      rw [cliDispatch]
      dsimp only
      cases hstarted : (batchNamed line).bind (s.batchPath · files.regular) with
      | none => rfl
      | some path => exact batchExecPath_run hcwd hdepth (htrace path fuel (Nat.lt_of_succ_lt_succ hfuel))
    · dsimp only at hd
      cases hstarted : (batchNamed line).bind (s.batchPath · files.regular) with
      | none =>
        rw [hstarted] at hd
        cases hd
      | some path =>
        rw [hstarted] at hd
        obtain ⟨name, -, hpath⟩ := Option.bind_eq_some_iff.mp hstarted
        obtain ⟨hmounted, hcard⟩ := batchPath_onCard hpath
        obtain ⟨inner, -, hd⟩ := List.mem_flatMap.mp hd
        rcases List.mem_cons.mp hd with rfl | hd
        · exact inBatch_enter hdepth hmounted hcard inner
        · exact hin path inner d hd

/-- Lines are dispatched at most four batches deep, and names resolve in the folder of the batch exactly when
    that fits the working directory. -/
def Orderly (t : Terminal) (lines : List Dispatched) : Prop :=
  ∀ d ∈ lines, (d.shell.running t).length ≤ batchMaxDepth ∧ d.shell.running t ≠ [] ∧ (d.Homed t ↔ d.Fits t)

theorem orderly_of_inBatch {lines : List Dispatched} (h : ∀ d ∈ lines, InBatch t d) : Orderly t lines := by
  intro d hd
  obtain ⟨b, rest, hrunning, -, -⟩ := (h d hd).batch
  exact ⟨(h d hd).nested, by simp [hrunning], (h d hd).homed_iff⟩

/-- What `autoexec.bat` brings about, and that the shell is as it was after it. -/
theorem cliRunAutoexec_run (files : BatchFiles) (t : Terminal) (s : Shell)
    (hcwd : s.cwd.length < configFileCap) (hdepth : (s.running t).length ≤ batchMaxDepth) :
    ∃ lines, (∀ fuel, batchMaxDepth < fuel → s.cliRunAutoexec files t fuel = some (s, lines)) ∧
      ∀ d ∈ lines, InBatch t d := by
  cases hpath : s.autoexecPath files.regular with
  | none =>
    refine ⟨[], fun fuel _ => ?_, fun d hd => by cases hd⟩
    rw [cliRunAutoexec, hpath]
  | some path =>
    obtain ⟨hmounted, hcard⟩ := autoexecPath_onCard hpath
    rcases Nat.eq_or_lt_of_le hdepth with hfull | hroom
    · refine ⟨[], fun fuel _ => ?_, fun d hd => by cases hd⟩
      rw [cliRunAutoexec, hpath]
      exact batchExecPath_refused (Nat.le_of_eq hfull.symm)
    · have hdeeper : ((s.enter t path).running t).length +
        (batchMaxDepth - 1 - (s.running t).length) = batchMaxDepth := by
        rw [enter_running hroom, List.length_cons]
        omega
      have hfits : (s.enter t path).cwd.length < configFileCap := by
        rw [enter_cwd hroom]
        exact length_batchDirOf path
      obtain ⟨trace, htrace, hin⟩ := cliDispatch_run files t _ (s.enter t path) hfits hdeeper
      refine ⟨(((files.read (s.running t).length path).map batchLines).getD []).flatMap
        fun inner => ⟨s.enter t path, inner⟩ :: trace inner, fun fuel hfuel => ?_, fun d hd => ?_⟩
      · rw [cliRunAutoexec, hpath]
        exact batchExecPath_run hcwd hroom (htrace fuel (by omega))
      · obtain ⟨inner, -, hd⟩ := List.mem_flatMap.mp hd
        rcases List.mem_cons.mp hd with rfl | hd
        · exact inBatch_enter hroom hmounted hcard inner
        · exact hin inner d hd

/-- Whatever the batch files are, a line at the prompt, in a batch, or `autoexec.bat` brings about finitely
    many lines, at most four batches deep, and leaves the working directory and the depth as they were. While
    a batch runs, names resolve in its folder exactly when that fits. -/
theorem batches_orderly (files : BatchFiles) (t : Terminal) (s : Shell) (hcwd : s.cwd.length < configFileCap)
    (hdepth : (s.running t).length ≤ batchMaxDepth) :
    (∀ line, ∃ lines, (∀ fuel, batchMaxDepth < fuel →
      s.cliDispatch files t fuel line = some (s, lines)) ∧ Orderly t lines) ∧
      ∃ lines, (∀ fuel, batchMaxDepth < fuel → s.cliRunAutoexec files t fuel = some (s, lines)) ∧
        Orderly t lines := by
  obtain ⟨trace, htrace, hin⟩ :=
    cliDispatch_run files t (batchMaxDepth - (s.running t).length) s hcwd (by omega)
  obtain ⟨lines, hauto, hin'⟩ := cliRunAutoexec_run files t s hcwd hdepth
  refine ⟨fun line => ⟨trace line, fun fuel hfuel => ?_, orderly_of_inBatch (hin line)⟩, lines, hauto,
    orderly_of_inBatch hin'⟩
  exact htrace fuel (by omega) line

/-- Every file of this card is a batch that starts `x`, which is itself. -/
def selfBatch : BatchFiles := ⟨fun _ => true, fun _ _ => some [0x65, 0x78, 0x65, 0x63, 0x20, 0x78, 0x0A]⟩

/-- `d/x` -/
def selfName : Bytes := [0x64, 0x2F, 0x78]

theorem batches_orderly_self :
    ∃ lines, (∀ fuel, batchMaxDepth < fuel → powerOn.cliDispatch selfBatch .serial fuel selfName =
      some (powerOn, lines)) ∧
      Orderly .serial lines :=
  (batches_orderly selfBatch .serial powerOn (by decide) (by decide)).1 selfName

example : ((powerOn.cliDispatch selfBatch .serial 5 selfName).map fun r => r.2.length) = some 4 := by
  decide +kernel

/-- A card whose every file is a batch of one line `n`. -/
def oneLine : BatchFiles := ⟨fun _ => true, fun _ _ => some [0x6E, 0x0A]⟩

/-- A batch in a folder of 129 bytes. -/
def longName : Bytes := List.replicate 129 0x64 ++ [0x2F, 0x78]

/-- While it runs, a name means one in another folder. -/
theorem long_folder_cut :
    ∃ lines, powerOn.cliDispatch oneLine .serial 5 longName = some (powerOn, lines) ∧ ∃ d ∈ lines,
      ¬d.Homed .serial := by
  obtain ⟨trace, htrace, hin⟩ := cliDispatch_run oneLine .serial 4 powerOn (by decide) rfl
  have hrun : powerOn.cliDispatch oneLine .serial 5 longName = some (powerOn, trace longName) :=
    htrace 5 (by decide) longName
  have hlong : ((powerOn.cliDispatch oneLine .serial 5 longName).map fun r =>
      r.2.any fun d => (d.shell.running .serial).head?.any fun b => configFileCap ≤ (folder b).length) =
        some true := by decide +kernel
  rw [hrun] at hlong
  obtain ⟨d, hd, hcut⟩ := List.any_eq_true.mp (Option.some.inj hlong)
  obtain ⟨b, hb, hlen⟩ := (Option.any_eq_true ..).mp hcut
  refine ⟨_, hrun, d, hd, fun hhomed => ?_⟩
  exact absurd ((hin longName d hd).homed_iff.mp hhomed b hb) (Nat.not_lt.mpr (of_decide_eq_true hlen))

end Shell

end FdcSds
