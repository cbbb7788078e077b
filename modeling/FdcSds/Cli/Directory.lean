import FdcSds.Cli.Wildcard
import FdcSds.Config.Mounts
import FdcSds.Config.Batches
import FdcSds.Net.ListDir
import FdcSds.Sd.Volume
import Mathlib.Data.List.Lex
import Mathlib.Data.Prod.Lex
import Mathlib.Data.UInt
import Mathlib.Order.Compare

/-! `dir` on the card (`cmd_dir`, `dir_ent_cmp`): a directory as sorted lines.

    The argument is a directory, a pattern, or one and then the other. The entries that are to be seen are
    collected up to a bound, sorted and printed, and counted at the end.

        argument ─▶ directory, pattern ─▶ collect ─▶ sort ─▶ lines ─▶ count     -/

namespace FdcSds
open Schemes Schemes.Prog Tnfsd

/-! ### The order -/

/-- `struct dir_ent`. -/
structure DirEnt where
  size : UInt32
  isDir : Bool
  name : CStr
  deriving DecidableEq

/-- What `strcmp` compares. -/
def codes (s : CStr) : List ℕ := s.map Char.toNat

/-- `dir_ent_cmp`. -/
def dirEntCmp (a b : DirEnt) : Ordering :=
  if a.isDir ≠ b.isDir then if a.isDir then .lt else .gt
  else (cmp (codes (foldCase a.name)) (codes (foldCase b.name))).then (cmp (codes a.name) (codes b.name))

/-- Directories first, then by name without case, then by name. -/
def DirEnt.place (e : DirEnt) : Bool ×ₗ List ℕ ×ₗ List ℕ :=
  toLex (!e.isDir, toLex (codes (foldCase e.name), codes e.name))

def dirEntLe (a b : DirEnt) : Bool := dirEntCmp a b != .gt

theorem then_ne_gt {α β : Type} [LinearOrder α] [LinearOrder β] {dα : DecidableLT α}
    {dβ : DecidableLT β} (a a' : α) (b b' : β) :
    (@cmp α _ dα a a').then (@cmp β _ dβ b b') ≠ .gt ↔ toLex (a, b) ≤ toLex (a', b') := by
  obtain rfl : dα = LinearOrder.toDecidableLT := Subsingleton.elim _ _
  obtain rfl : dβ = LinearOrder.toDecidableLT := Subsingleton.elim _ _
  rw [Prod.Lex.toLex_le_toLex]
  rcases lt_trichotomy a a' with h | h | h
  · rw [(cmp_eq_lt_iff ..).2 h]
    exact iff_of_true (by rintro ⟨⟩) (.inl h)
  · subst h
    rw [cmp_self_eq_eq, Ordering.eq_then]
    rcases lt_trichotomy b b' with h | h | h
    · rw [(cmp_eq_lt_iff ..).2 h]
      exact iff_of_true (by rintro ⟨⟩) (.inr ⟨rfl, h.le⟩)
    · subst h
      rw [cmp_self_eq_eq]
      exact iff_of_true (by rintro ⟨⟩) (.inr ⟨rfl, le_rfl⟩)
    · rw [(cmp_eq_gt_iff ..).2 h]
      exact iff_of_false (fun hne => hne rfl)
        (by rintro (hlt | ⟨-, hle⟩) <;> [exact hlt.false; exact h.not_ge hle])
  · rw [(cmp_eq_gt_iff ..).2 h]
    exact iff_of_false (fun hne => hne rfl)
      (by rintro (hlt | ⟨heq, -⟩) <;> [exact h.asymm hlt; exact h.ne' heq])

theorem dirEntLe_iff (a b : DirEnt) : dirEntLe a b = true ↔ a.place ≤ b.place := by
  rw [dirEntLe, bne_iff_ne, DirEnt.place, DirEnt.place, Prod.Lex.toLex_le_toLex, dirEntCmp]
  by_cases h : a.isDir = b.isDir
  · rw [if_neg (not_not.2 h), then_ne_gt]
    simp [h]
  · rw [if_pos h]
    cases ha : a.isDir <;> cases hb : b.isDir <;> simp_all

/-- `qsort` with `dir_ent_cmp`. -/
def sortEnts (ents : List DirEnt) : List DirEnt := ents.mergeSort dirEntLe

theorem sorted_sortEnts (ents : List DirEnt) : (sortEnts ents).Pairwise fun a b => a.place ≤ b.place := by
  have hsorted : (sortEnts ents).Pairwise fun a b => dirEntLe a b = true := by
    refine List.pairwise_mergeSort (fun a b c hab hbc => ?_) (fun a b => ?_) ents
    · rw [dirEntLe_iff] at hab hbc ⊢
      exact hab.trans hbc
    · rw [Bool.or_eq_true, dirEntLe_iff, dirEntLe_iff]
      exact le_total _ _
  exact hsorted.imp fun h => (dirEntLe_iff _ _).1 h

theorem perm_sortEnts (ents : List DirEnt) : (sortEnts ents).Perm ents := List.mergeSort_perm ents dirEntLe

/-! ### Collecting -/

/-- `DIR_MAX_ENTS`. -/
def dirMaxEnts : ℕ := 1024

/-- Dotfiles are not seen unless the pattern begins with a dot, nor what the pattern does not match. -/
def unseen (spec : Option CStr) (name : CStr) : Bool :=
  (name.head? == some '.' && !(spec.any fun s => s.head? == some '.')) || spec.any fun s =>
    !wildcardMatchCi s name

/-- The loop over `readdir`; `room n` is whether there is memory for an entry beside `n` others. -/
def dirCollect (dir : ℕ) (dirpath : CStr) (spec : Option CStr) (room : ℕ → Bool) :
    ℕ → List DirEnt → Sys (List DirEnt × Bool)
  | 0, ents => pure (ents, false)
  | fuel + 1, ents => do
    match ← sysReaddir dir with
    | none => return (ents, false)
    | some e =>
      if unseen spec e.name then dirCollect dir dirpath spec room fuel ents
      else
        let path := dirpath ++ '/' :: e.name
        if pathCap + configFileCap ≤ path.length then dirCollect dir dirpath spec room fuel ents
        else
          match ← sysStat path with
          | .error _ => dirCollect dir dirpath spec room fuel ents
          | .ok st =>
            if dirMaxEnts ≤ ents.length ∨ room ents.length = false then return (ents, true)
            else dirCollect dir dirpath spec room fuel (ents ++ [⟨.ofNat st.size, st.isDir, e.name⟩])

/-- `cli_printf` writes what fits its buffer of 256. -/
def cliPrintf (text : CStr) : CStr := strlcpy 256 text

/-- The line of an entry. -/
def dirLine (e : DirEnt) : CStr :=
  cliPrintf <|
    if e.isDir then "<DIR>".toList.leftpad 10 ' ' ++ [' ', ' '] ++ e.name ++ "/\r\n".toList
    else (Nat.toDigits 10 e.size.toNat).leftpad 10 ' ' ++ [' ', ' '] ++ e.name ++ "\r\n".toList

/-- The last line. -/
def dirSummary (ents : List DirEnt) : CStr :=
  let files := ents.filter fun e => !e.isDir
  let dirs := ents.filter DirEnt.isDir
  let total := (files.map DirEnt.size).sum
  cliPrintf <| Nat.toDigits 10 files.length ++ " file(s), ".toList ++
    (if dirs.length ≠ 0 then Nat.toDigits 10 dirs.length ++ " dir(s), ".toList else []) ++
    Nat.toDigits 10 total.toNat ++ " bytes\r\n".toList

def dirTruncated : CStr := cliPrintf <| "(list truncated at ".toList ++ Nat.toDigits 10 dirMaxEnts ++
      " entries)\r\n".toList

/-- `cmd_dir` from `opendir` on; `strerror` is the library's. -/
def dirList (strerror : Errno → CStr) (dirpath disp shown : CStr) (spec : Option CStr) (room : ℕ → Bool) :
    Sys (List CStr × ℤ) := do
  match ← sysOpendir dirpath with
  | .error e => return ([cliPrintf (shown ++ ": ".toList ++ strerror e ++ "\r\n".toList)], 1)
  | .ok dir =>
    let (ents, truncated) ← dirCollect dir dirpath spec room fatDirEntries []
    sysClosedir dir
    let sorted := sortEnts ents
    return (cliPrintf ("Directory of /".toList ++ disp ++ "\r\n".toList) :: sorted.map dirLine ++
      (if truncated then [dirTruncated] else []) ++ [dirSummary sorted], 0)

/-! ### What the argument means -/

/-- At the last slash: the folder, and the pattern if there is one. -/
def dirSplit (arg : CStr) : Option (CStr × Option CStr) :=
  if arg.contains '/' then
    let leaf := (arg.reverse.takeWhile (· ≠ '/')).reverse
    if configFileCap ≤ (folderOf arg).length then none
    else some (folderOf arg, if leaf = [] then none else some leaf)
  else some ([], some arg)

/-- The folder below the working one, and the pattern; none when a name is too long. -/
def dirTarget (cwd : CStr) : Option CStr → Sys (Option (CStr × Option CStr))
  | none => pure (some ([], none))
  | some arg =>
    match if arg.length < configFileCap then (Outside.qualify cwd arg).bind (sdPath · pathCap) else none with
    | none => pure (dirSplit arg)
    | some probe => do
      match ← sysStat probe with
      | .error _ => return dirSplit arg
      | .ok st => return if st.isDir then some (arg, none) else dirSplit arg

/-- The directory to open. -/
def dirPath (cwd reldir : CStr) : Option CStr :=
  if reldir ≠ [] then (Outside.qualify cwd reldir).bind (sdPath · pathCap)
  else if cwd ≠ [] then some (strlcpy pathCap (sdMountPoint ++ '/' :: cwd))
  else some sdMountPoint

/-- What the header calls it. -/
def dirDisplay (cwd reldir : CStr) : CStr :=
  strlcpy (2 * configFileCap) (if cwd ≠ [] ∧ reldir ≠ [] then cwd ++ '/' :: reldir else if cwd ≠
    [] then cwd else reldir)

/-- `cmd_dir` with an argument that is no URL. -/
def cmdDir (strerror : Errno → CStr) (sdMounted : Bool) (cwd : CStr) (arg : Option CStr) (room : ℕ → Bool) :
    Sys (List CStr × ℤ) :=
  if !sdMounted then pure (["no SD card\r\n".toList], 1)
  else do
    match ← dirTarget cwd arg with
    | none => return ([cliPrintf (arg.getD [] ++ ": invalid filename\r\n".toList)], 1)
    | some (reldir, spec) =>
      match dirPath cwd reldir with
      | none => return ([cliPrintf (reldir ++ ": invalid filename\r\n".toList)], 1)
      | some dirpath => dirList strerror dirpath (dirDisplay cwd reldir) (arg.getD sdMountPoint) spec room

/-! ### What is listed -/

section

variable {σ : Type} {world : σ → (c : SysCall) → σ × c.Answer} {contents : CStr → List Dirent}
  {left whole : σ → ℕ → List Dirent} {statOf : CStr → Except Errno Stat} {room : ℕ → Bool}

/-- The entry as it is listed, if it is. -/
def entOf (statOf : CStr → Except Errno Stat) (dirpath : CStr) (spec : Option CStr)
    (e : Dirent) : Option DirEnt :=
  if unseen spec e.name then none
  else if pathCap + configFileCap ≤ (dirpath ++ '/' :: e.name).length then none
  else (statOf (dirpath ++ '/' :: e.name)).toOption.map fun st => ⟨.ofNat st.size, st.isDir, e.name⟩

/-- What was collected from a stream: some of what is to be listed of `all`, in its order, and all of it
    unless the bound was reached or memory ran out. -/
structure Collected (statOf : CStr → Except Errno Stat) (dirpath : CStr) (spec : Option CStr)
    (room : ℕ → Bool) (all : List Dirent) (ents : List DirEnt) (r : List DirEnt × Bool) : Prop where
  got : ∃ got rest, all.filterMap (entOf statOf dirpath spec) = got ++ rest ∧ r.1 = ents ++ got ∧
    (r.2 = true ↔ rest ≠ [])
  full : r.2 = true → dirMaxEnts ≤ r.1.length ∨ room r.1.length = false

theorem Collected.skip {dirpath : CStr} {spec : Option CStr} {all : List Dirent} {ents : List DirEnt}
    {r : List DirEnt × Bool} (h : Collected statOf dirpath spec room all ents r) {e : Dirent}
    (he : entOf statOf dirpath spec e = none) :
    Collected statOf dirpath spec room (e :: all) ents r := by
  refine ⟨?_, h.full⟩
  rw [List.filterMap_cons_none he]
  exact h.got

theorem Collected.keep {dirpath : CStr} {spec : Option CStr} {all : List Dirent} {ents : List DirEnt}
    {r : List DirEnt × Bool} {x : DirEnt} (h : Collected statOf dirpath spec room all (ents ++ [x]) r)
    {e : Dirent} (he : entOf statOf dirpath spec e = some x) :
    Collected statOf dirpath spec room (e :: all) ents r := by
  obtain ⟨⟨got, rest, hsplit, hgot, hrest⟩, hfull⟩ := h
  refine ⟨⟨x :: got, rest, ?_, ?_, hrest⟩, hfull⟩
  · rw [List.filterMap_cons_some he, hsplit, List.cons_append]
  · rw [hgot, List.append_assoc, List.singleton_append]

theorem collected_full {dirpath : CStr} {spec : Option CStr} {all : List Dirent} {ents : List DirEnt}
    {e : Dirent} {x : DirEnt} (he : entOf statOf dirpath spec e = some x)
    (hfull : dirMaxEnts ≤ ents.length ∨ room ents.length = false) :
    Collected statOf dirpath spec room (e :: all) ents (ents, true) := by
  refine ⟨⟨[], (e :: all).filterMap (entOf statOf dirpath spec), rfl, (List.append_nil ents).symm, ?_⟩,
    fun _ => hfull⟩
  rw [List.filterMap_cons_some he]
  exact ⟨fun _ => List.cons_ne_nil _ _, fun _ => rfl⟩

theorem collected_nil {dirpath : CStr} {spec : Option CStr} (ents : List DirEnt) :
    Collected statOf dirpath spec room [] ents (ents, false) :=
  ⟨⟨[], [], rfl, (List.append_nil ents).symm, by simp⟩, by rintro ⟨⟩⟩

theorem dirCollect_run (hst : Streams world contents left whole)
    (hstat : ∀ card path, (world card (.stat path)).2 = statOf path) (dir : ℕ) (dirpath : CStr)
    (spec : Option CStr) (fuel : ℕ) (ents : List DirEnt) (card : σ) (hfuel : (left card dir).length ≤ fuel) :
    Collected statOf dirpath spec room (left card dir) ents
      (run world card (dirCollect dir dirpath spec room fuel ents)).2 := by
  induction fuel generalizing ents card with
  | zero =>
    rw [List.length_eq_zero_iff.mp (Nat.le_zero.mp hfuel)]
    exact collected_nil ents
  | succ fuel ih =>
    obtain ⟨hanswer, htail, -⟩ := hst.readdir card dir
    simp only [dirCollect, sysReaddir, run_bind, run_ask]
    cases hl : left card dir with
    | nil =>
      rw [hl] at hanswer
      rw [hanswer]
      exact collected_nil ents
    | cons e all =>
      rw [hl] at hanswer htail hfuel
      rw [hanswer, List.head?_cons]
      have hall : left (world card (.readdir dir)).1 dir = all := htail
      have hfuel' : all.length ≤ fuel := Nat.le_of_succ_le_succ hfuel
      generalize (world card (.readdir dir)).1 = card₁ at hall
      have hskip : entOf statOf dirpath spec e = none → ∀ card₂, left card₂ dir = all →
          Collected statOf dirpath spec room (e :: all) ents
            (run world card₂ (dirCollect dir dirpath spec room fuel ents)).2 := by
        intro he card₂ hcard₂
        have hnext := ih ents card₂ (by rw [hcard₂]; exact hfuel')
        rw [hcard₂] at hnext
        exact hnext.skip he
      dsimp only
      split
      · next hunseen => exact hskip (if_pos hunseen) card₁ hall
      · next hseen =>
        split
        · next hlong =>
          exact hskip (by rw [entOf, if_neg hseen, if_pos hlong]) card₁ hall
        · next hfits =>
          simp only [sysStat, run_bind, run_ask, hstat]
          have hleft : left (world card₁ (.stat (dirpath ++ '/' :: e.name))).1 dir = all :=
            ((hst.stat card₁ _ dir).1).trans hall
          have hent : entOf statOf dirpath spec e =
              (statOf (dirpath ++ '/' :: e.name)).toOption.map fun st =>
                ⟨.ofNat st.size, st.isDir, e.name⟩ := by
            rw [entOf, if_neg hseen, if_neg hfits]
          cases hres : statOf (dirpath ++ '/' :: e.name) with
          | error err => exact hskip (by rw [hent, hres]; rfl) _ hleft
          | ok st =>
            have hsome : entOf statOf dirpath spec e = some ⟨.ofNat st.size, st.isDir, e.name⟩ := by
              rw [hent, hres]
              rfl
            dsimp only
            split
            · next hfull => exact collected_full hsome hfull
            · have hnext := ih (ents ++ [⟨.ofNat st.size, st.isDir, e.name⟩]) _ (by rw [hleft]; exact hfuel')
              rw [hleft] at hnext
              exact hnext.keep hsome

/-- CORRECT: a listing that went through, on a card that nobody changes meanwhile and whose `readdir`
    does not fail midway: in the order of `dir_ent_cmp` the entries of the directory that are to be
    seen, that `stat` finds and whose path fits its buffer, each once, with the count below; some may be
    missing only past the bound or where memory ran out, and then it says so. -/
theorem dir_exact (hst : Streams world contents left whole)
    (hstat : ∀ card path, (world card (.stat path)).2 = statOf path) {strerror : Errno → CStr}
    {sdMounted : Bool} {cwd : CStr} {arg : Option CStr} {card : σ} {said : List CStr}
    (hrun : (run world card (cmdDir strerror sdMounted cwd arg room)).2 = (said, 0)) :
    ∃ reldir spec dirpath listed rest,
      (run world card (dirTarget cwd arg)).2 = some (reldir, spec) ∧ dirPath cwd reldir = some dirpath ∧
      said = cliPrintf ("Directory of /".toList ++ dirDisplay cwd reldir ++ "\r\n".toList) ::
        listed.map dirLine ++
        (if rest = [] then [] else [dirTruncated]) ++ [dirSummary listed] ∧
      listed.Pairwise (fun a b => a.place ≤ b.place) ∧
      (listed ++ rest).Perm ((contents dirpath).filterMap (entOf statOf dirpath spec)) ∧
      (rest ≠ [] → dirMaxEnts ≤ listed.length ∨ room listed.length = false) := by
  cases sdMounted with
  | false => simp [cmdDir] at hrun
  | true =>
    simp only [cmdDir, Bool.not_true, Bool.false_eq_true, if_false, run_bind] at hrun
    cases htarget : (run world card (dirTarget cwd arg)).2 with
    | none => simp [htarget] at hrun
    | some target =>
      obtain ⟨reldir, spec⟩ := target
      simp only [htarget] at hrun
      cases hpath : dirPath cwd reldir with
      | none => simp [hpath] at hrun
      | some dirpath =>
        simp only [hpath, dirList, sysOpendir, run_bind, run_ask] at hrun
        generalize (run world card (dirTarget cwd arg)).1 = card₁ at hrun
        cases hopen : (world card₁ (.opendir dirpath)).2 with
        | error e => simp [hopen] at hrun
        | ok dir =>
          obtain ⟨hleft, hwhole⟩ := hst.opendir card₁ dirpath dir hopen
          have hfew := hst.few (world card₁ (.opendir dirpath)).1 dir
          rw [hwhole] at hfew
          have hcollected : Collected statOf dirpath spec room
            (left (world card₁ (.opendir dirpath)).1 dir) []
              (run world (world card₁ (.opendir dirpath)).1
                (dirCollect dir dirpath spec room fatDirEntries [])).2 :=
            dirCollect_run hst hstat dir dirpath spec fatDirEntries [] _ (by rw [hleft]; exact hfew)
          rw [hleft] at hcollected
          simp only [hopen, sysClosedir, run_bind, run_ask, run_pure] at hrun
          generalize run world (world card₁ (.opendir dirpath)).1
            (dirCollect dir dirpath spec room fatDirEntries []) = r
            at hrun hcollected
          obtain ⟨⟨got, rest, hsplit, hgot, hrest⟩, hfull⟩ := hcollected
          rw [List.nil_append] at hgot
          have hlength : (sortEnts got).length = got.length := (perm_sortEnts got).length_eq
          refine ⟨reldir, spec, dirpath, sortEnts got, rest, rfl, hpath, ?_,
            sorted_sortEnts got, ?_, fun hne => ?_⟩
          · rw [← (Prod.mk.inj hrun).1, hgot]
            by_cases hnil : rest = []
            · rw [if_pos hnil, if_neg fun ht => hrest.1 ht hnil]
            · rw [if_neg hnil, if_pos (hrest.2 hnil)]
          · rw [hsplit]
            exact (perm_sortEnts got).append_right rest
          · rw [hlength, ← hgot]
            exact hfull (hrest.2 hne)

end
/-! ### A small card -/

/-- A file of 70000 bytes, and a directory. -/
def shelf (path : CStr) : Except Errno Stat := .ok ⟨path.getLast? == some 'B', 0, 70000, 0⟩

def shelfCard (rest : List Dirent) : (call : SysCall) → List Dirent × call.Answer
  | .stat path => (rest, shelf path)
  | c => smallCard rest c

theorem shelfCard_streams : Streams shelfCard (fun _ => smallDir) (fun rest _ => rest) fun _ _ =>
      smallDir where
  opendir := smallCard_streams.opendir
  readdir := smallCard_streams.readdir
  rewind := smallCard_streams.rewind
  stat _ _ _ := ⟨rfl, rfl⟩
  name := smallCard_streams.name
  few := smallCard_streams.few

theorem dir_exact_shelf : ∃ listed rest : List DirEnt,
    (run shelfCard [] (cmdDir (fun _ => []) true [] none fun _ => true)).2.1 =
      "Directory of /\r\n".toList :: listed.map dirLine ++ (if rest = [] then [] else [dirTruncated]) ++
        [dirSummary listed] ∧
    listed.Pairwise (fun a b => a.place ≤ b.place) ∧
      (listed ++ rest).Perm [⟨70000, false, ['A']⟩, ⟨70000, true, ['B']⟩] := by
  have hcode : (run shelfCard [] (cmdDir (fun _ => []) true [] none fun _ => true)).2.2 = 0 := rfl
  obtain ⟨reldir, spec, dirpath, listed, rest, htarget, hpath, hsaid, hsorted, hperm, -⟩ :=
    dir_exact shelfCard_streams (fun _ _ => rfl) (Prod.ext rfl hcode)
  cases htarget
  cases hpath
  exact ⟨listed, rest, hsaid, hsorted, hperm⟩

end FdcSds
