import FdcSds.Config.Consoles
import FdcSds.Config.Mounts
import Mathlib.Data.List.TakeWhile

/-! Batch files on both consoles (`qualify`, `resolve`, `batch_exec_path`).

    One working directory serves both consoles. A batch saves it on entry, sets it to its own folder and
    puts it back at its end. Resolving a name is a step, as are the start and the end of a batch.

        cwd ──save──▶ batch: cwd := folder │ names … │ end: cwd := saved -/

namespace FdcSds
open Schemes.Runs

/-- `BATCH_MAX_DEPTH`. -/
def batchMaxDepth : ℕ := 4

/-- The size of a path buffer. -/
def pathCap : ℕ := 16 + configFileCap

/-- A running batch: its file, and the working directory it found. -/
structure Batch where
  path : CStr
  saved : CStr
  deriving DecidableEq

/-- Both consoles' running batches, the innermost first, and `s_batch_cwd`. -/
structure Shell where
  sdMounted : Bool
  cwd : CStr
  running : Terminal → List Batch
  booting : Bool

/-- `regular` says which paths are plain files at the time. -/
inductive ShellAct where
  | autoexec (regular : CStr → Bool)
  | exec (t : Terminal) (name : CStr) (regular : CStr → Bool)
  | name (t : Terminal) (name : CStr)
  | finish (t : Terminal)

/-- What is in front of the last slash, or nothing. -/
def folderOf (rel : CStr) : CStr := ((rel.reverse.dropWhile (· ≠ '/')).drop 1).reverse

/-- What follows `/sd/`. -/
def relOf (abspath : CStr) : CStr :=
  if (sdMountPoint ++ ['/']).isPrefixOf abspath then abspath.drop 4 else abspath

/-- `batch_dir_of`. -/
def batchDirOf (abspath : CStr) (len : ℕ) : CStr := strlcpy len (folderOf (relOf abspath))

/-- A name in a folder, from the root. -/
def inFolder (folder name : CStr) : CStr := if folder.isEmpty then name else folder ++ '/' :: name

/-- The name ends in `.bat`, in any case. -/
def hasBat (qname : CStr) : Bool :=
  4 ≤ qname.length && (qname.drop (qname.length - 4)).map Char.toLower == ['.', 'b', 'a', 't']

/-- The path of a qualified name, if a plain file is there. -/
def regularAt (regular : CStr → Bool) (qname : CStr) : Option CStr := (sdPath qname pathCap).filter regular

namespace Shell

def other : Terminal → Terminal
  | .serial => .network
  | .network => .serial

/-- `resolve`. -/
def resolve (s : Shell) (name : CStr) : Option CStr :=
  if s.sdMounted then (Outside.qualify s.cwd name).bind (sdPath · pathCap) else none

/-- `batch_path`. -/
def batchPath (s : Shell) (name : CStr) (regular : CStr → Bool) : Option CStr :=
  if !s.sdMounted then none
  else match Outside.qualify s.cwd name with
    | none => none
    | some qname =>
      (regularAt regular qname).or (if hasBat qname then none else regularAt regular
        (qname ++ ['.', 'b', 'a', 't']))

/-- `batch_exec_path`, up to the first line. -/
def enter (s : Shell) (t : Terminal) (path : CStr) : Shell :=
  if batchMaxDepth ≤ (s.running t).length then s
  else { s with
    cwd := batchDirOf path configFileCap
    running := Function.update s.running t (⟨path, strlcpy configFileCap s.cwd⟩ :: s.running t) }

/-- `batch_exec_path`, after the last line. -/
def leave (s : Shell) (t : Terminal) (b : Batch) (rest : List Batch) : Shell :=
  { s with cwd := strlcpy configFileCap b.saved, running := Function.update s.running t rest }

/-- The path of `autoexec.bat`, if it is there. -/
def autoexecPath (s : Shell) (regular : CStr → Bool) : Option CStr :=
  if s.sdMounted then regularAt regular ['a', 'u', 't', 'o', 'e', 'x', 'e', 'c', '.', 'b', 'a', 't'] else none

/-- The console takes a command: the serial one has been through `autoexec.bat`, or is in it. -/
def Takes (s : Shell) : Terminal → Prop
  | .serial => s.booting = false ∨ s.running .serial ≠ []
  | .network => True

instance (s : Shell) : (t : Terminal) → Decidable (s.Takes t)
  | .serial => inferInstanceAs (Decidable (s.booting = false ∨ s.running .serial ≠ []))
  | .network => inferInstanceAs (Decidable True)

def step (s : Shell) : ShellAct → Option Shell
  | .autoexec regular =>
    when (s.booting = true) (match s.autoexecPath regular with
      | some path => { s with booting := false }.enter .serial path
      | none => { s with booting := false })
  | .exec t name regular =>
    when (s.Takes t) (match s.batchPath name regular with
      | some path => s.enter t path
      | none => s)
  | .name t _ => when (s.Takes t) s
  | .finish t => match s.running t with | b :: rest => some (s.leave t b rest) | [] => none

/-- Before the first command. -/
def Start (s : Shell) : Prop := s.cwd = [] ∧ (∀ t, s.running t = []) ∧ s.booting = true

def machine : Machine Shell ShellAct := ⟨Start, step⟩

/-- A batch file's own folder. -/
def folder (b : Batch) : CStr := folderOf (relOf b.path)

/-- The folder of the innermost of these batches, the root if there is none. -/
def homeOf : List Batch → CStr
  | [] => []
  | b :: _ => folder b

/-- Where console `t` is: its batch's folder, the root at the prompt. -/
def home (s : Shell) (t : Terminal) : CStr := homeOf (s.running t)

/-- Every batch console `t` runs lies in the SD root. -/
def AtRoot (s : Shell) (t : Terminal) : Prop := ∀ b ∈ s.running t, folder b = []

/-- The folder of this batch file, if there is one, fits the working directory's buffer. -/
def Fits (path : Option CStr) : Prop := ∀ p ∈ path, (folderOf (relOf p)).length < configFileCap

/-- A console resolves a name, and starts or ends a batch, only while the other console runs no batch
    outside the SD root; and the folders of batches fit. -/
def Alone (s : Shell) : ShellAct → Prop
  | .autoexec _ => s.AtRoot .network
  | .exec t name regular => s.AtRoot (other t) ∧ Fits (s.batchPath name regular)
  | .name t _ | .finish t => s.AtRoot (other t)

/-! ### The folder of a path -/

theorem not_slash {file : CStr} (h : '/' ∉ file) : ∀ c ∈ file.reverse, decide (c ≠ '/') = true := by
  intro c hc
  rw [List.mem_reverse] at hc
  refine decide_eq_true ?_
  rintro rfl
  exact h hc

theorem folderOf_split {dir file : CStr} (h : '/' ∉ file) : folderOf (dir ++ '/' :: file) = dir := by
  have hrev : (dir ++ '/' :: file).reverse = file.reverse ++ '/' :: dir.reverse := by simp
  rw [folderOf, hrev, List.dropWhile_append_of_pos (not_slash h)]
  simp

theorem folderOf_bare {file : CStr} (h : '/' ∉ file) : folderOf file = [] := by
  have hdrop : file.reverse.dropWhile (· ≠ '/') = [] := List.dropWhile_eq_nil_iff.mpr (not_slash h)
  rw [folderOf, hdrop]
  rfl

/-- A batch file's folder, in front of its name. -/
theorem folder_of {dir file : CStr} (h : '/' ∉ file) (saved : CStr) :
    folder ⟨sdMountPoint ++ '/' :: inFolder dir file, saved⟩ = dir := by
  have hrel : relOf (sdMountPoint ++ '/' :: inFolder dir file) = inFolder dir file := by
    simp [relOf, sdMountPoint]
  rw [folder, hrel]
  cases dir with
  | nil => exact folderOf_bare h
  | cons c dir => exact @folderOf_split (c :: dir) file h

theorem batchDirOf_eq {b : Batch} {len : ℕ} (h : (folder b).length < len) :
    batchDirOf b.path len = folder b :=
  strlcpy_of_lt h

/-! ### One working directory for two consoles -/

/-- Each batch has saved where its console was when it started. -/
def Stacked : List Batch → Prop
  | [] => True
  | b :: rest => b.saved = homeOf rest ∧ Stacked rest

structure Sound (s : Shell) : Prop where
  fits : ∀ t, ∀ b ∈ s.running t, (folder b).length < configFileCap
  stacked : ∀ t, Stacked (s.running t)
  cwd : ∀ t, s.AtRoot (other t) → s.cwd = s.home t
  one : s.AtRoot .serial ∨ s.AtRoot .network

variable {s s' : Shell} {t : Terminal}

@[simp] theorem other_other (t : Terminal) : other (other t) = t := by cases t <;> rfl

theorem other_ne (t : Terminal) : other t ≠ t := by cases t <;> rintro ⟨⟩

theorem eq_or_other (u t : Terminal) : u = t ∨ u = other t := by
  cases u <;> cases t <;> first | exact .inl rfl | exact .inr rfl

theorem AtRoot.home (h : s.AtRoot t) : s.home t = [] := by
  unfold Shell.home
  cases hr : s.running t with
  | nil => rfl
  | cons b rest => exact h b (by rw [hr]; exact List.mem_cons_self)

theorem Sound.home_fits (h : s.Sound) (t : Terminal) : (s.home t).length < configFileCap := by
  unfold Shell.home
  cases hr : s.running t with
  | nil => decide
  | cons b rest => exact h.fits t b (by rw [hr]; exact List.mem_cons_self)

theorem one_of (h : s.AtRoot (other t)) : s.AtRoot .serial ∨ s.AtRoot .network := by
  cases t with
  | serial => exact .inr h
  | network => exact .inl h

/-- Console `t` now runs these batches, and the working directory is the innermost one's folder. -/
theorem Sound.moved (h : s.Sound) (hroot : s.AtRoot (other t)) {rest : List Batch}
    (hself : s'.running t = rest) (hother : s'.running (other t) = s.running (other t))
    (hcwd : s'.cwd = homeOf rest) (hfits : ∀ b ∈ rest, (folder b).length < configFileCap)
    (hstacked : Stacked rest) : s'.Sound := by
  have hroot' : s'.AtRoot (other t) := by
    unfold AtRoot
    rwa [hother]
  refine ⟨fun u => ?_, fun u => ?_, fun u hu => ?_, one_of hroot'⟩
  · rcases eq_or_other u t with rfl | rfl
    · rwa [hself]
    · rw [hother]
      exact h.fits _
  · rcases eq_or_other u t with rfl | rfl
    · rwa [hself]
    · rw [hother]
      exact h.stacked _
  · rcases eq_or_other u t with rfl | rfl
    · rw [hcwd, home, hself]
    · -- both consoles are at the root
      rw [other_other] at hu
      have hnone : s'.home t = [] := hu.home
      rw [home, hself] at hnone
      rw [hcwd, hnone, hroot'.home]

theorem Sound.enter (h : s.Sound) (hroot : s.AtRoot (other t)) {path : CStr} (hfits : Fits (some path)) :
    (s.enter t path).Sound := by
  unfold Shell.enter
  split
  · exact h
  · have hfolder := hfits path rfl
    refine h.moved hroot (Function.update_self ..) (Function.update_of_ne (other_ne t) ..)
      (batchDirOf_eq (b := ⟨path, _⟩) hfolder) (fun b hb => ?_) ⟨?_, h.stacked t⟩
    · rcases List.mem_cons.mp hb with rfl | hb
      · exact hfolder
      · exact h.fits t b hb
    · rw [h.cwd t hroot]
      exact strlcpy_of_lt (h.home_fits t)

theorem Sound.leave (h : s.Sound) (hroot : s.AtRoot (other t)) {b : Batch} {rest : List Batch}
    (hr : s.running t = b :: rest) : (s.leave t b rest).Sound := by
  have hstacked := h.stacked t
  rw [hr] at hstacked
  obtain ⟨hsaved, hrest⟩ := hstacked
  have hfits : ∀ c ∈ rest, (folder c).length < configFileCap := fun c hc =>
    h.fits t c (by rw [hr]; exact List.mem_cons_of_mem _ hc)
  refine h.moved hroot (Function.update_self ..) (Function.update_of_ne (other_ne t) ..) ?_ hfits hrest
  have hhome : (homeOf rest).length < configFileCap := by
    cases rest with
    | nil => decide
    | cons c cs => exact hfits c List.mem_cons_self
  rw [Shell.leave, hsaved]
  exact strlcpy_of_lt hhome

/-- `autoexec.bat` is in the root. -/
theorem autoexecPath_fits {regular : CStr → Bool} : Fits (s.autoexecPath regular) := by
  intro p hp
  unfold autoexecPath regularAt at hp
  split at hp
  · obtain ⟨hp, -⟩ := Option.filter_eq_some_iff.mp hp
    have hpath : p = ['/', 's', 'd', '/', 'a', 'u', 't', 'o', 'e', 'x', 'e', 'c', '.', 'b', 'a', 't'] := by
      have hsome : sdPath ['a', 'u', 't', 'o', 'e', 'x', 'e', 'c', '.', 'b', 'a', 't'] pathCap =
        some ['/', 's', 'd', '/', 'a', 'u', 't', 'o', 'e', 'x', 'e', 'c', '.', 'b', 'a', 't'] := by decide
      exact Option.some.inj (hp.symm.trans hsome)
    subst hpath
    decide
  · cases hp

theorem step_sound {a : ShellAct} (h : s.Sound) (hok : s.Alone a) (hstep : s.step a = some s') :
    s'.Sound := by
  cases a with
  | autoexec regular =>
    obtain ⟨-, rfl⟩ := when_eq_some.mp hstep
    have hboot : { s with booting := false }.Sound := ⟨h.fits, h.stacked, h.cwd, h.one⟩
    split
    · next path hpath => exact hboot.enter (t := .serial) hok (hpath ▸ autoexecPath_fits)
    · exact hboot
  | exec t name regular =>
    obtain ⟨-, rfl⟩ := when_eq_some.mp hstep
    obtain ⟨hroot, hfits⟩ := hok
    split
    · next path hpath => exact h.enter hroot (hpath ▸ hfits)
    · exact h
  | name t name =>
    obtain ⟨-, rfl⟩ := when_eq_some.mp hstep
    exact h
  | finish t =>
    simp only [step] at hstep
    split at hstep
    · next b rest hr =>
      cases hstep
      exact h.leave hok hr
    · cases hstep

theorem Start.sound (h : s.Start) : s.Sound := by
  obtain ⟨hcwd, hidle, -⟩ := h
  have hroot : ∀ t, s.AtRoot t := fun t b hb => by
    rw [hidle t] at hb
    cases hb
  refine ⟨fun t b hb => ?_, fun t => ?_, fun t _ => ?_, .inl (hroot _)⟩
  · rw [hidle t] at hb
    cases hb
  · rw [hidle t]
    trivial
  · rw [hcwd, home, hidle t]
    rfl

/-- What `sd_path` makes of a name. -/
theorem sdPath_eq {name path : CStr} {cap : ℕ} (h : sdPath name cap = some path) :
    path = sdMountPoint ++ '/' :: name ∧ path.length < cap := by
  unfold sdPath at h
  split at h
  · cases h
  · split at h
    · cases h
    · dsimp only at h
      split at h
      · next hlen =>
        cases h
        exact ⟨by simp, hlen⟩
      · cases h

/-- A name too long for the qualified buffer is too long for the path buffer. -/
theorem qualify_sdPath (cwd name : CStr) :
    (Outside.qualify cwd name).bind (sdPath · pathCap) = sdPath (inFolder cwd name) pathCap := by
  by_cases hlen : (inFolder cwd name).length < 2 * configFileCap
  · have hq : Outside.qualify cwd name = some (inFolder cwd name) := if_pos hlen
    rw [hq, Option.bind_some]
  · have hq : Outside.qualify cwd name = none := if_neg hlen
    rw [hq, Option.bind_none]
    symm
    rw [Option.eq_none_iff_forall_ne_some]
    intro path hpath
    obtain ⟨rfl, hshort⟩ := sdPath_eq hpath
    simp only [List.length_append, List.length_cons, pathCap, configFileCap] at hshort hlen
    omega

instance (s : Shell) (t : Terminal) : Decidable (s.AtRoot t) := by unfold AtRoot; infer_instance

instance : (path : Option CStr) → Decidable (Fits path)
  | none => .isTrue (by rintro p ⟨⟩)
  | some p =>
    if h : (folderOf (relOf p)).length < configFileCap then .isTrue (by rintro _ ⟨⟩; exact h)
    else .isFalse fun hfits => h (hfits p rfl)

instance (s : Shell) : (a : ShellAct) → Decidable (s.Alone a)
  | .autoexec _ => inferInstanceAs (Decidable (s.AtRoot .network))
  | .exec t name regular => inferInstanceAs (Decidable (s.AtRoot (other t) ∧ Fits (s.batchPath name regular)))
  | .name t _ | .finish t => inferInstanceAs (Decidable (s.AtRoot (other t)))

/-- A card in its slot, and nothing run yet. -/
def powerOn : Shell := ⟨true, [], fun _ => [], true⟩

theorem powerOn_start : powerOn.Start := ⟨rfl, fun _ => rfl, rfl⟩

/-- `sub/x.bat` from a batch in `dir`, while the other console uses the prompt before and after. -/
def nestedBatch : List ShellAct :=
  [.autoexec fun _ => false, .name .network ['n'], .exec .serial ['d', 'i', 'r', '/', 'y'] fun _ => true,
    .exec .serial ['s', 'u', 'b', '/', 'x'] fun _ => true]

theorem exec_nestedBatch : (machine.exec powerOn nestedBatch).isSome = true := by decide +kernel

def nested : Shell := (machine.exec powerOn nestedBatch).get exec_nestedBatch

theorem reach_nested : machine.Reach Alone nested :=
  ⟨powerOn, powerOn_start, Machine.exec_path (fun s a => decide (s.Alone a)) (fun _ _ => of_decide_eq_true)
    (Option.some_get exec_nestedBatch).symm (by decide +kernel)⟩

/-- Two batches that overlap: the later one ends last, and puts back the other's folder. -/
def overlap : List ShellAct :=
  [.autoexec fun _ => false, .exec .serial ['a', '/', 'x'] fun _ =>
    true, .exec .network ['b', '/', 'y'] fun _ => true,
    .finish .serial, .finish .network]

theorem exec_overlap : (machine.exec powerOn overlap).isSome = true := by decide +kernel

/-- A folder of 129 bytes. -/
def longFolder : CStr := List.replicate 129 'd'

def longBatch : List ShellAct :=
  [.autoexec fun _ => false, .exec .serial (longFolder ++ ['/', 'x']) fun _ => true]

theorem exec_longBatch : (machine.exec powerOn longBatch).isSome = true := by decide +kernel

end Shell

end FdcSds
