import FdcSds.Net.Isolation
import FdcSds.Sd.Names
import Mathlib.Data.List.TakeWhile

/-! The path jail of the TNFS server.

    A name from a client is stripped of leading slashes, put behind the session's root, cut of trailing
    slashes, and only then checked by `sd_path`. What passes is `/sd/` and a clean name under the root.
    The names `stat` is asked for while listing a directory are such a path with an entry of that
    directory behind it.

        "/a/b/"  ─strip─▶ "a/b/"  ─root─▶ "cpm/a/b/"  ─trim─▶ "cpm/a/b"  ─sd_path─▶ "/sd/cpm/a/b" -/

namespace FdcSds.Tnfsd
open Schemes Schemes.Runs Prog

/-- `/sd` itself, or a clean name under `/sd/root`. -/
def Jailed (root path : CStr) : Prop :=
  (path = sdMountPoint ∧ root = []) ∨ ∃ rel, path = sdMountPoint ++ '/' :: rel ∧ CleanName rel ∧
    (root = [] ∨ rel = root ∨ ∃ rest, rel = root ++ '/' :: rest)

/-- A session root: the card, or a clean name that fits its buffer. -/
def RootOk (root : CStr) : Prop := root = [] ∨ (CleanName root ∧ root.length < tnfsdRootCap)

/-! ### Trailing slashes -/

theorem trimSlashes_end (s : CStr) : (trimSlashes s).getLast? ≠ some '/' := by
  rw [trimSlashes, List.getLast?_reverse]
  cases h : s.reverse.dropWhile (· == '/') with
  | nil => simp
  | cons c rest =>
    have hhead := List.head?_dropWhile_not (· == '/') s.reverse
    rw [h] at hhead
    simpa using hhead

theorem trimSlashes_self {s : CStr} (h : s.getLast? ≠ some '/') : trimSlashes s = s := by
  have hhead : s.reverse.head? ≠ some '/' := by rwa [List.head?_reverse]
  rw [trimSlashes]
  cases hs : s.reverse with
  | nil => simpa using (congrArg List.reverse hs).symm
  | cons c rest =>
    rw [hs] at hhead
    have hc : c ≠ '/' := by simpa using hhead
    rw [List.dropWhile_cons_of_neg (by simpa using hc), ← hs, List.reverse_reverse]

/-- A name that starts with something else than a slash is not trimmed away. -/
theorem trimSlashes_ne_nil {c : Char} {s : CStr} (hc : c ≠ '/') : trimSlashes (c :: s) ≠ [] := by
  intro h
  have hnil : (c :: s).reverse.dropWhile (· == '/') = [] := by simpa [trimSlashes] using h
  have hall := List.dropWhile_eq_nil_iff.mp hnil c (by simp)
  exact hc (by simpa using hall)

theorem trimSlashes_append {a b : CStr} (h : trimSlashes b ≠ []) :
    trimSlashes (a ++ b) = a ++ trimSlashes b := by
  have hb : b.reverse.dropWhile (· == '/') ≠ [] := by
    intro hnil
    exact h (by rw [trimSlashes, hnil]; rfl)
  rw [trimSlashes, trimSlashes, List.reverse_append, List.dropWhile_append, if_neg (by simpa using hb),
    List.reverse_append, List.reverse_reverse]

theorem trim_strlcpy_length {cap : ℕ} (hcap : 0 < cap) (s : CStr) :
    (trimSlashes (strlcpy cap s)).length < cap := by
  have htake : (strlcpy cap s).length ≤ cap - 1 := List.length_take_le ..
  have htrim : (trimSlashes (strlcpy cap s)).length ≤ (strlcpy cap s).length := by
    rw [trimSlashes, List.length_reverse, ← (strlcpy cap s).length_reverse]
    exact List.length_dropWhile_le ..
  omega

/-! ### `resolve_path` -/

/-- The root-relative name `resolve_path` builds from a name without leading slashes. -/
def rootRelative (root req : CStr) : Except UInt8 CStr :=
  if !root.isEmpty then
    if !req.isEmpty then
      let r := root ++ ['/'] ++ req
      if r.length ≥ tnfsdAbsCap then .error tnfsEnametoolong else .ok r
    else .ok (strlcpy tnfsdAbsCap root)
  else .ok (strlcpy tnfsdAbsCap req)

/-- Leading slashes removed. -/
def stripSlashes (s : CStr) : CStr := s.dropWhile (· == '/')

theorem resolvePath_ok_iff {s : Session} {req abs : CStr} : resolvePath s req = .ok abs ↔
    ∃ rel, rootRelative s.root (stripSlashes req) = .ok rel ∧
      ((trimSlashes rel = [] ∧ abs = sdMountPoint) ∨
        (trimSlashes rel ≠ [] ∧ sdPath (trimSlashes rel) tnfsdAbsCap = some abs)) := by
  unfold resolvePath
  dsimp only
  rw [← stripSlashes, ← rootRelative]
  cases rootRelative s.root (stripSlashes req) with
  | error st => simp
  | ok rel =>
    by_cases hnil : trimSlashes rel = []
    · simp only [hnil, List.isEmpty_nil, if_true]
      constructor
      · rintro ⟨⟩
        exact ⟨rel, rfl, .inl ⟨hnil, rfl⟩⟩
      · rintro ⟨_, ⟨⟩, ⟨-, rfl⟩ | ⟨hne, -⟩⟩
        · rfl
        · exact absurd hnil hne
    · simp only [List.isEmpty_iff, if_neg hnil]
      constructor
      · intro h
        split at h
        · next path hsd =>
          cases h
          exact ⟨rel, rfl, .inr ⟨hnil, hsd⟩⟩
        · cases h
      · rintro ⟨_, ⟨⟩, ⟨hempty, -⟩ | ⟨-, hsd⟩⟩
        · exact absurd hempty hnil
        · rw [hsd]

/-- A name without leading slashes starts with something else. -/
theorem stripSlashes_cases (s : CStr) :
    stripSlashes s = [] ∨ ∃ c rest, stripSlashes s = c :: rest ∧ c ≠ '/' := by
  cases h : stripSlashes s with
  | nil => exact .inl rfl
  | cons c rest =>
    have hhead := List.head?_dropWhile_not (· == '/') s
    rw [stripSlashes] at h
    rw [h] at hhead
    exact .inr ⟨c, rest, rfl, by simpa using hhead⟩

/-- With a root, the name is the root, or the root with something behind it. -/
theorem trim_under_root {root req rel : CStr} (hroot : CleanName root) (hlen : root.length < tnfsdRootCap)
    (h : rootRelative root (stripSlashes req) = .ok rel) :
    trimSlashes rel = root ∨ trimSlashes rel = root ++ '/' :: trimSlashes (stripSlashes req) := by
  have hne : root ≠ [] := hroot.ne_nil
  unfold rootRelative at h
  rw [if_pos (by simpa using hne)] at h
  split at h
  · next hreq =>
    dsimp only at h
    split at h
    · cases h
    · cases h
      right
      rcases stripSlashes_cases req with hnil | ⟨c, rest, hcons, hc⟩
      · simp [hnil] at hreq
      · rw [hcons, trimSlashes_append (trimSlashes_ne_nil hc), List.append_assoc]
        rfl
  · cases h
    left
    have hwhole : strlcpy tnfsdAbsCap root = root := by
      refine List.take_of_length_le ?_
      simp only [tnfsdRootCap, tnfsdAbsCap] at *
      omega
    rw [hwhole, trimSlashes_self hroot.not_slash_end]

/-- What `resolve_path` gives fits the buffers of the server. -/
theorem resolvePath_short {s : Session} {req abs : CStr} (h : resolvePath s req = .ok abs) :
    abs.length < tnfsdAbsCap := by
  obtain ⟨rel, -, ⟨-, rfl⟩ | ⟨-, hsd⟩⟩ := resolvePath_ok_iff.mp h
  · decide
  · exact (sdPath_some hsd (trimSlashes_end rel)).2.2

/-- What `resolve_path` gives is in the jail of its session. -/
theorem resolvePath_jailed {s : Session} {req abs : CStr} (hroot : RootOk s.root)
    (h : resolvePath s req = .ok abs) : Jailed s.root abs ∧ abs.length < tnfsdAbsCap := by
  obtain ⟨rel, hrel, ⟨hnil, rfl⟩ | ⟨-, hsd⟩⟩ := resolvePath_ok_iff.mp h
  · refine ⟨.inl ⟨rfl, ?_⟩, by decide⟩
    rcases hroot with hempty | ⟨hclean, hlen⟩
    · exact hempty
    · rcases trim_under_root hclean hlen hrel with heq | heq
      · exact absurd (heq.symm.trans hnil) hclean.ne_nil
      · rw [hnil] at heq
        exact absurd heq.symm (by simp)
  · obtain ⟨rfl, hclean, hlen⟩ := sdPath_some hsd (trimSlashes_end rel)
    refine ⟨.inr ⟨_, rfl, hclean, ?_⟩, hlen⟩
    rcases hroot with hempty | ⟨hrclean, hrlen⟩
    · exact .inl hempty
    · rcases trim_under_root hrclean hrlen hrel with heq | heq
      · exact .inr (.inl heq)
      · exact .inr (.inr ⟨_, heq⟩)

/-- An entry of a directory in the jail is in the jail. -/
theorem Jailed.entry {root path name : CStr} (h : Jailed root path) (hname : CleanName name) :
    Jailed root (path ++ '/' :: name) := by
  rcases h with ⟨rfl, hroot⟩ | ⟨rel, rfl, hclean, hunder⟩
  · exact .inr ⟨name, rfl, hname, .inl hroot⟩
  · refine .inr ⟨rel ++ '/' :: name, by simp, hclean.join hname, ?_⟩
    rcases hunder with hroot | rfl | ⟨rest, rfl⟩
    · exact .inl hroot
    · exact .inr (.inr ⟨name, rfl⟩)
    · exact .inr (.inr ⟨rest ++ '/' :: name, by simp⟩)

/-! ### The contract -/

/-- Name only paths in the jail; rely on `readdir` for names FAT allows. -/
def jail (root : CStr) : Contract SysCall SysCall.Answer Unit where
  may _ c := ∀ p ∈ c.paths, Jailed root p
  gives _ c r := match c, r with
    | .readdir _, some de => EntryName de.name
    | _, _ => True
  next _ _ _ := ()

/-- The root of a session is a clean name, and its directories are in the jail. -/
structure Session.Confined (s : Session) : Prop where
  root : RootOk s.root
  dirs : ∀ i d, s.dirs i = some d → Jailed s.root d.abspath

/-- A handler keeps the root and stays in the jail. -/
def Confines (s : Session) (_ : Unit) (r : Session × Bytes) : Prop := r.1.root = s.root ∧ r.1.Confined

variable {s : Session} {pl : Bytes}

theorem confines_self (hs : s.Confined) {body : Bytes} :
    (jail s.root).Obeys () (pure (s, body)) (Confines s) :=
  ⟨rfl, hs⟩

theorem may_noPath {root : CStr} {c : SysCall} (hc : c.paths = []) : (jail root).may () c := by
  intro p hp
  rw [hc] at hp
  cases hp

theorem may_path {root path : CStr} {c : SysCall} (hc : c.paths = [path]) (hp : Jailed root path) :
    (jail root).may () c := by
  intro p hmem
  rw [hc, List.mem_singleton] at hmem
  exact hmem ▸ hp

/-- A call that names no path. -/
theorem jail_noPath {root : CStr} {c : SysCall} {β : Type} {f : c.Answer → Sys β} {Q : Unit → β → Prop}
    (hc : c.paths = []) (hf : ∀ r, (jail root).Obeys () (f r) Q) : (jail root).Obeys () (ask c >>= f) Q :=
  ⟨may_noPath hc, fun r _ => hf r⟩

/-- A call that names one path. -/
theorem jail_path {root path : CStr} {c : SysCall} {β : Type} {f : c.Answer → Sys β} {Q : Unit → β → Prop}
    (hc : c.paths = [path]) (hp : Jailed root path) (hf : ∀ r, (jail root).Obeys () (f r) Q) :
    (jail root).Obeys () (ask c >>= f) Q := ⟨may_path hc hp, fun r _ => hf r⟩

theorem withPath_confines (hs : s.Confined) {k : CStr → Sys (Session × Bytes)}
    (hk : ∀ abs, Jailed s.root abs → abs.length < tnfsdAbsCap →
      (jail s.root).Obeys () (k abs) (Confines s)) :
    (jail s.root).Obeys () (withPath s pl k) (Confines s) := by
  unfold withPath
  repeat' split
  any_goals exact confines_self hs
  next abs hres =>
  obtain ⟨hjail, hlen⟩ := resolvePath_jailed hs.root hres
  exact hk abs hjail hlen

theorem openGuarded_jail {root path : CStr} (of : OpenFlags) (hp : Jailed root path) {β : Type}
    {f : Option (Except Errno ℕ) → Sys β} {Q : Unit → β → Prop}
    (hf : ∀ r, (jail root).Obeys () (f r) Q) : (jail root).Obeys () (openGuarded path of >>= f) Q := by
  refine Contract.Obeys.bind (Contract.Obeys.mono (Q := fun _ _ => True) ?_ fun _ r _ => hf r)
  unfold openGuarded
  refine Contract.obeys_ite (jail_path rfl hp fun drive => ?_) (jail_path rfl hp fun _ => trivial)
  exact Contract.obeys_ite trivial
    (jail_path rfl hp fun _ => jail_noPath rfl fun _ => trivial)

theorem hOpen_confines (hs : s.Confined) (pl : Bytes) : (jail s.root).Obeys () (hOpen s pl) (Confines s) := by
  unfold hOpen
  repeat' split
  any_goals exact confines_self hs
  next abs hres _ _ _ =>
  refine openGuarded_jail _ (resolvePath_jailed hs.root hres).1 fun r => ?_
  rcases r with _ | e | fd <;> exact ⟨rfl, hs.root, hs.dirs⟩

/-- The handlers that only use a descriptor. -/
theorem hRead_confines (hs : s.Confined) (pl : Bytes) : (jail s.root).Obeys () (hRead s pl) (Confines s) := by
  unfold hRead
  repeat' split
  any_goals exact confines_self hs
  refine jail_noPath rfl fun r => ?_
  repeat' split
  all_goals exact confines_self hs

theorem hWrite_confines (hs : s.Confined) (pl : Bytes) :
    (jail s.root).Obeys () (hWrite s pl) (Confines s) := by
  unfold hWrite
  repeat' split
  any_goals exact confines_self hs
  refine jail_noPath rfl fun r => ?_
  split <;> exact confines_self hs

theorem hLseek_confines (hs : s.Confined) (pl : Bytes) :
    (jail s.root).Obeys () (hLseek s pl) (Confines s) := by
  unfold hLseek
  repeat' split
  any_goals exact confines_self hs
  refine jail_noPath rfl fun r => ?_
  split <;> exact confines_self hs

theorem hClose_confines (hs : s.Confined) (pl : Bytes) :
    (jail s.root).Obeys () (hClose s pl) (Confines s) := by
  unfold hClose
  repeat' split
  any_goals exact confines_self hs
  exact jail_noPath rfl fun r => ⟨rfl, hs.root, hs.dirs⟩

theorem hStat_confines (hs : s.Confined) (pl : Bytes) : (jail s.root).Obeys () (hStat s pl) (Confines s) := by
  refine withPath_confines hs fun abs hp _ => jail_path rfl hp fun r => ?_
  split <;> exact confines_self hs

theorem hPathop_confines (hs : s.Confined) {op : CStr → Sys (Except Errno Unit)}
    (hop : ∀ {root path}, Jailed root path → (jail root).Obeys () (op path) fun _ _ => True) (pl : Bytes) :
    (jail s.root).Obeys () (hPathop op s pl) (Confines s) :=
  withPath_confines hs fun _ hp _ =>
    Contract.Obeys.bind ((hop hp).mono fun _ _ _ => confines_self hs)

theorem jail_mkdir {root path : CStr} (hp : Jailed root path) :
    (jail root).Obeys () (mkdirOp path) fun _ _ => True := ⟨may_path rfl hp, fun _ _ => trivial⟩

theorem jail_rmdir {root path : CStr} (hp : Jailed root path) :
    (jail root).Obeys () (sysRmdir path) fun _ _ => True := ⟨may_path rfl hp, fun _ _ => trivial⟩

theorem jail_unlink {root path : CStr} (hp : Jailed root path) :
    (jail root).Obeys () (unlinkOp path) fun _ _ => True :=
  jail_path rfl hp fun _ => Contract.obeys_ite trivial
    (jail_path rfl hp fun _ => jail_noPath rfl fun _ => trivial)

theorem hRename_confines (hs : s.Confined) (pl : Bytes) :
    (jail s.root).Obeys () (hRename s pl) (Confines s) := by
  unfold hRename
  repeat' split
  any_goals exact confines_self hs
  next _ hold _ _ hnew =>
  have hp := (resolvePath_jailed hs.root hold).1
  have hq := (resolvePath_jailed hs.root hnew).1
  refine Contract.Obeys.bind (Contract.Obeys.mono (Q := fun _ _ => True) ?_ fun _ _ _ => confines_self hs)
  refine jail_path rfl hp fun _ => Contract.obeys_ite trivial ?_
  refine ⟨?_, fun _ _ => jail_noPath rfl fun _ => trivial⟩
  intro p hmem
  rcases List.mem_cons.mp hmem with rfl | hmem
  · exact hp
  · exact List.mem_singleton.mp hmem ▸ hq

/-- A new directory slot. -/
theorem confines_opendir (hs : s.Confined) {i : ℕ} {d : DirSlot} {body : Bytes}
    (hd : Jailed s.root d.abspath) :
    Confines s () ({ s with dirs := Function.update s.dirs i (some d) }, body) := by
  refine ⟨rfl, hs.root, fun j d' hj => ?_⟩
  by_cases hji : j = i
  · subst hji
    simp only [Function.update_self, Option.some.injEq] at hj
    exact hj ▸ hd
  · simp only [Function.update_of_ne hji] at hj
    exact hs.dirs j d' hj

theorem hOpendir_confines (hs : s.Confined) (pl : Bytes) :
    (jail s.root).Obeys () (hOpendir s pl) (Confines s) := by
  refine withPath_confines hs fun abs hp hlen => ?_
  split
  · exact confines_self hs
  · refine jail_path rfl hp fun r => ?_
    split
    · exact confines_self hs
    · refine confines_opendir hs ?_
      rw [strlcpy_of_lt hlen]
      exact hp

theorem countLoop_jail {root : CStr} {d : DirSlot} (fuel count : ℕ) :
    (jail root).Obeys () (countLoop d fuel count) fun _ _ => True := by
  induction fuel generalizing count with
  | zero => trivial
  | succ fuel ih =>
    refine jail_noPath rfl fun r => ?_
    cases r with
    | none => trivial
    | some de => exact ih _

theorem hOpendirx_confines (hs : s.Confined) (pl : Bytes) :
    (jail s.root).Obeys () (hOpendirx s pl) (Confines s) := by
  unfold hOpendirx
  repeat' split
  any_goals exact confines_self hs
  all_goals
    next abs hres _ _ _ _ =>
    obtain ⟨hp, hlen⟩ := resolvePath_jailed hs.root hres
    refine jail_path rfl hp fun r => ?_
    split
    · exact confines_self hs
    · refine Contract.Obeys.bind ((countLoop_jail _ _).mono fun _ _ _ => jail_noPath rfl fun _ => ?_)
      refine confines_opendir hs ?_
      rw [strlcpy_of_lt hlen]
      exact hp

/-- An entry that is shown is a clean name. -/
theorem DirSlot.shown_clean {d : DirSlot} {name : CStr} (hname : EntryName name)
    (hshown : d.hides name = false) : CleanName name := by
  refine .single hname.ne_nil hname.slash hname.backslash ?_
  rintro rfl
  simp [DirSlot.hides] at hshown

theorem entryOf_jail {root : CStr} {d : DirSlot} {de : Dirent} (hd : Jailed root d.abspath)
    (hname : CleanName de.name) : (jail root).Obeys () (entryOf d de) fun _ _ => True := by
  refine Contract.obeys_ite (jail_path rfl ?_ fun r => ?_) trivial
  · have hentry := hd.entry hname
    simpa using hentry
  · cases r <;> trivial

theorem dirLoop_jail {root : CStr} {d : DirSlot} (hd : Jailed root d.abspath) (fuel : ℕ) :
    (jail root).Obeys () (dirLoop d fuel) fun _ _ => True := by
  induction fuel with
  | zero => trivial
  | succ fuel ih =>
    refine ⟨may_noPath rfl, fun r hr => ?_⟩
    cases r with
    | none => trivial
    | some de =>
      change (jail root).Obeys () (if d.hides de.name = true then dirLoop d fuel
        else entryOf d de >>= fun e => pure (some e)) _
      split
      · exact ih
      · next hshown =>
        have hclean := d.shown_clean hr (Bool.eq_false_iff.mpr hshown)
        exact Contract.Obeys.bind ((entryOf_jail hd hclean).mono fun _ _ _ => trivial)

theorem dirNext_jail {root : CStr} {d : DirSlot} (hd : Jailed root d.abspath) :
    (jail root).Obeys () (dirNext d) fun _ r => r.1.abspath = d.abspath := by
  unfold dirNext
  split
  · exact rfl
  · exact Contract.Obeys.bind ((dirLoop_jail hd _).mono fun _ _ _ => rfl)

theorem readdirxLoop_jail {root : CStr} {d : DirSlot} (hd : Jailed root d.abspath) (wanted : ℕ)
    (out : Bytes) (count : ℕ) : (jail root).Obeys () (readdirxLoop wanted d out count)
      fun _ r => r.1.abspath = d.abspath := by
  induction wanted generalizing d out count with
  | zero => exact rfl
  | succ wanted ih =>
    refine Contract.Obeys.bind ((dirNext_jail hd).mono ?_)
    rintro _ ⟨d', e⟩ hsame
    cases e with
    | none => exact hsame
    | some e =>
      refine Contract.obeys_ite hsame ((ih (hsame ▸ hd) _ _).mono fun _ r hr => hr.trans hsame)

theorem dirSlot_confined (hs : s.Confined) {h : UInt8} {d : DirSlot} (hd : s.dirSlot h = some d) :
    Jailed s.root d.abspath := by
  unfold Session.dirSlot at hd
  split at hd
  · exact hs.dirs _ d hd
  · cases hd

theorem hReaddir_confines (hs : s.Confined) (pl : Bytes) :
    (jail s.root).Obeys () (hReaddir s pl) (Confines s) := by
  unfold hReaddir
  repeat' split
  any_goals exact confines_self hs
  next d hd =>
  have hjail := dirSlot_confined hs hd
  refine Contract.Obeys.bind ((dirNext_jail hjail).mono ?_)
  rintro _ ⟨d', e⟩ hsame
  cases e <;> exact confines_opendir hs (hsame ▸ hjail)

theorem hReaddirx_confines (hs : s.Confined) (pl : Bytes) :
    (jail s.root).Obeys () (hReaddirx s pl) (Confines s) := by
  unfold hReaddirx
  repeat' split
  any_goals exact confines_self hs
  next d hd =>
  have hjail := dirSlot_confined hs hd
  refine Contract.Obeys.bind ((readdirxLoop_jail hjail ..).mono ?_)
  rintro _ ⟨d', out, count, status⟩ hsame
  exact Contract.obeys_ite (confines_opendir hs (hsame ▸ hjail)) (confines_opendir hs (hsame ▸ hjail))

theorem hClosedir_confines (hs : s.Confined) (pl : Bytes) :
    (jail s.root).Obeys () (hClosedir s pl) (Confines s) := by
  unfold hClosedir
  repeat' split
  any_goals exact confines_self hs
  refine jail_noPath rfl fun r => ⟨rfl, hs.root, fun j d' hj => ?_⟩
  simp only [Session.setDir, Function.update_apply] at hj
  split at hj
  · cases hj
  · exact hs.dirs j d' hj

/-- Every command stays in the jail of its session. -/
theorem handle_confines (hs : s.Confined) (cmd : UInt8) (pl : Bytes) :
    (jail s.root).Obeys () (handle s cmd pl) (Confines s) := by
  unfold handle
  exact Contract.obeys_ite (confines_self hs) <| Contract.obeys_ite (hOpen_confines hs pl) <|
    Contract.obeys_ite (hRead_confines hs pl) <| Contract.obeys_ite (hWrite_confines hs pl) <|
    Contract.obeys_ite (hClose_confines hs pl) <| Contract.obeys_ite (hLseek_confines hs pl) <|
    Contract.obeys_ite (hStat_confines hs pl) <| Contract.obeys_ite (hPathop_confines hs jail_mkdir pl) <|
    Contract.obeys_ite (hPathop_confines hs jail_rmdir pl) <|
    Contract.obeys_ite (hPathop_confines hs jail_unlink pl) <|
    Contract.obeys_ite (hRename_confines hs pl) <| Contract.obeys_ite (hOpendir_confines hs pl) <|
    Contract.obeys_ite (hOpendirx_confines hs pl) <| Contract.obeys_ite (hReaddir_confines hs pl) <|
    Contract.obeys_ite (hReaddirx_confines hs pl) <| Contract.obeys_ite (hClosedir_confines hs pl) <|
    Contract.obeys_ite (confines_self hs) (confines_self hs)

/-! ### Turns -/

theorem confined_zero : Session.zero.Confined where
  root := .inl rfl
  dirs := by rintro i d ⟨⟩

theorem freeSession_jail {root : CStr} (s : Session) :
    (jail root).Obeys () (freeSession s) fun _ r => r = .zero := by
  have files_jail : ∀ n, (jail root).Obeys () (closeFiles s n) fun _ _ => True := by
    intro n
    induction n with
    | zero => trivial
    | succ n ih =>
      refine Contract.Obeys.bind (ih.mono fun _ _ _ => ?_)
      cases s.files n with
      | none => trivial
      | some fd => exact ⟨may_noPath rfl, fun _ _ => trivial⟩
  have dirs_jail : ∀ n, (jail root).Obeys () (closeDirs s n) fun _ _ => True := by
    intro n
    induction n with
    | zero => trivial
    | succ n ih =>
      refine Contract.Obeys.bind (ih.mono fun _ _ _ => ?_)
      cases s.dirs n with
      | none => trivial
      | some d => exact ⟨may_noPath rfl, fun _ _ => trivial⟩
  exact Contract.Obeys.bind ((files_jail _).mono fun _ _ _ =>
    Contract.Obeys.bind ((dirs_jail _).mono fun _ _ _ => rfl))

theorem process_confines {s : Session} (hs : s.Confined) (now : ℕ) (seq cmd : UInt8) (pl : Bytes) :
    (jail s.root).Obeys () (process now s seq cmd pl) fun _ r => r.1.Confined := by
  refine Contract.Obeys.bind ((handle_confines hs cmd pl).mono ?_)
  rintro _ ⟨t, body⟩ ⟨-, ht⟩
  refine Contract.obeys_ite ?_ ⟨ht.root, ht.dirs⟩
  exact Contract.Obeys.bind ((freeSession_jail _).mono fun _ z hz => by subst hz; exact confined_zero)

/-- The root of a mounted session is checked before it is stored. -/
theorem mountRoot_ok {pl : Bytes}
    (h : ¬(!(Server.mountRoot pl).isEmpty && (sdPath (Server.mountRoot pl) tnfsdAbsCap).isNone) = true) :
    RootOk (strlcpy tnfsdRootCap (Server.mountRoot pl)) := by
  have hlen : (Server.mountRoot pl).length < tnfsdRootCap := trim_strlcpy_length (by decide) _
  rw [strlcpy_of_lt hlen]
  by_cases hempty : Server.mountRoot pl = []
  · exact .inl hempty
  · right
    cases hsd : sdPath (Server.mountRoot pl) tnfsdAbsCap with
    | none => simp [hempty, hsd] at h
    | some abs => exact ⟨(sdPath_some hsd (trimSlashes_end _)).2.1, hlen⟩

theorem mountIn_confines {root : CStr} (now : ℕ) (peer : Peer) (seq : UInt8) (pl : Bytes) (v : Server)
    (i : ℕ) : (jail root).Obeys () (v.mountIn now peer seq pl i) fun _ r => (r.1.sessions i).Confined := by
  refine Contract.Obeys.bind ((freeSession_jail _).mono fun _ _ _ => ?_)
  dsimp only
  split
  · refine Contract.Obeys.bind ((freeSession_jail _).mono fun _ z hz => ?_)
    subst hz
    simpa [Server.setSession] using confined_zero
  · next hroot =>
    have hok := mountRoot_ok hroot
    simp only [Contract.obeys_pure, Server.setSession, Function.update_self, Server.allocSession]
    exact ⟨hok, by rintro j d ⟨⟩⟩

/-- All sessions of the table are confined. -/
def Server.Confined (v : Server) : Prop := ∀ i < tnfsdMaxSessions, (v.sessions i).Confined

theorem Server.Confined.freed {v v' : Server} (h : v.Confined) (hf : v.Freed v') : v'.Confined := by
  intro i hi
  rcases hf i with hsame | hzero
  · exact hsame ▸ h i hi
  · exact hzero ▸ confined_zero

/-- A turn stays in the jail of the session it acts for. -/
theorem answer_confines {v : Server} (h : v.Confined) (now : ℕ) (peer : Peer) (rx : Bytes) :
    (jail (v.sessions (v.turn peer rx).slot).root).Obeys () (v.answer now peer rx (v.turn peer rx))
      fun _ r => (r.1.sessions (v.turn peer rx).slot).Confined := by
  have hslot := h _ (Daemon.turn_slot_lt (v := v) peer rx)
  cases ht : v.turn peer rx with
  | ignored | refused =>
    rw [ht] at hslot
    exact hslot
  | replay i =>
    rw [ht] at hslot
    simp only [Server.answer, Contract.obeys_pure, Server.resend, Server.Turn.slot, Server.setSession_self]
    exact ⟨hslot.root, hslot.dirs⟩
  | mount i => exact mountIn_confines ..
  | run i =>
    rw [ht] at hslot
    refine Contract.Obeys.bind ((process_confines hslot ..).mono ?_)
    rintro _ ⟨s, out⟩ hs
    simpa [Server.Turn.slot] using hs

/-- `readdir` gives names FAT allows. -/
def NamesEntries {σ : Type} (world : σ → (c : SysCall) → σ × c.Answer) : Prop :=
  ∀ s d de, (world s (.readdir d)).2 = some de → EntryName de.name

theorem NamesEntries.kept {σ : Type} {world : σ → (c : SysCall) → σ × c.Answer} (h : NamesEntries world)
    (root : CStr) : (jail root).KeptBy world fun _ _ => True := by
  refine fun s _ c _ _ => ⟨?_, trivial⟩
  cases c with
  | readdir d =>
    cases hr : (world s (.readdir d)).2 with
    | none => trivial
    | some de => exact h s d de hr
  | _ => trivial

namespace Daemon

variable {σ : Type} {world : σ → (c : SysCall) → σ × c.Answer} {card : σ} {v : Server}

/-- The calls of a program that stays in the jail name only paths in the jail. -/
theorem trace_jailed {α : Type} {root : CStr} {p : Sys α} {Q : Unit → α → Prop} (hnames : NamesEntries world)
    (hp : (jail root).Obeys () p Q) : (∀ op ∈ p.trace world card, ∀ x ∈ op.1.paths, Jailed root x) ∧
      Q () (p.run world card).2 := by
  obtain ⟨hallow, hend, -⟩ := hp.sound (s := card) (hnames.kept root) trivial
  exact ⟨Contract.allows_unit.mp hallow, hend⟩

theorem reapOps_jailed {now n : ℕ} (hnames : NamesEntries world) (root : CStr) {op : ℕ × SysOp}
    (h : op ∈ reapOps world now n card v) : ∀ x ∈ op.2.1.paths, Jailed root x := by
  induction n with
  | zero => cases h
  | succ n ih =>
    simp only [reapOps, List.mem_append] at h
    rcases h with h | h
    · exact ih h
    · split at h
      · obtain ⟨y, hy, rfl⟩ := List.mem_map.mp h
        exact (trace_jailed hnames (freeSession_jail _)).1 y hy
      · cases h

theorem serve_confined (hnames : NamesEntries world) (h : v.Confined) (now : ℕ) (peer : Peer) (rx : Bytes) :
    ((v.serve now peer rx).run world card).2.1.Confined := by
  have hreaped := (Server.reapIdle_reaped now tnfsdMaxSessions v).run world card
  have hfreed := Server.reaped_freed now tnfsdMaxSessions v
  have hconf := h.freed hfreed
  simp only [Server.serve, run_bind, hreaped]
  intro i hi
  by_cases hslot : i = ((v.reaped now tnfsdMaxSessions).turn peer rx).slot
  · subst hslot
    exact (trace_jailed hnames (answer_confines hconf now peer rx)).2
  · rw [(Server.answer_others now peer rx _ _).run world _ i hslot]
    exact hconf i hi

theorem reach_confined {d : Daemon σ} {ok : Daemon σ → Beat → Prop} (hnames : NamesEntries world)
    (h : (machine world).Reach ok d) : d.server.Confined := by
  refine h.invariant (I := fun d => d.server.Confined) ?_ fun d b d' hconf _ hstep => ?_
  · rintro d ⟨card, rfl⟩ i -
    exact ⟨.inl rfl, by rintro j x ⟨⟩⟩
  · cases b with
    | start =>
      obtain ⟨-, rfl⟩ := when_eq_some.mp hstep
      exact hconf.freed ((startLoop_freed tnfsdMaxSessions d.server).run world d.card)
    | datagram now peer rx =>
      obtain ⟨-, rfl⟩ := when_eq_some.mp hstep
      exact serve_confined hnames hconf now peer _
    | timeout now =>
      obtain ⟨-, rfl⟩ := when_eq_some.mp hstep
      exact serve_confined hnames hconf now _ _
    | linkDown =>
      obtain ⟨-, rfl⟩ := when_eq_some.mp hstep
      exact hconf.freed ((Server.dropSessions_freed tnfsdMaxSessions d.server).run world d.card)

/-- CORRECT: every path the server gives the card while it handles a datagram is `/sd` or a clean name
    under `/sd`, and lies under the root of the session it acts for. -/
theorem paths_jailed {d : Daemon σ} (hnames : NamesEntries world)
    (h : (machine world).Reach Machine.always d) (now : ℕ) (peer : Peer) (rx : Bytes) :
    ∀ op ∈ serveOps world now peer rx d.card d.server, ∀ p ∈ op.2.1.paths,
      Jailed (d.server.sessions op.1).root p := by
  intro op hop
  have hfreed := Server.reaped_freed now tnfsdMaxSessions d.server
  have hreaped := (Server.reapIdle_reaped now tnfsdMaxSessions d.server).run world d.card
  have hconf := (reach_confined hnames h).freed hfreed
  rcases List.mem_append.mp hop with hop | hop
  · exact reapOps_jailed hnames _ hop
  · obtain ⟨x, hx, rfl⟩ := List.mem_map.mp hop
    simp only [hreaped] at hx ⊢
    cases ht : (d.server.reaped now tnfsdMaxSessions).turn peer rx with
    | ignored | refused | replay =>
      rw [ht] at hx
      cases hx
    | mount i =>
      rw [ht] at hx
      exact (trace_jailed hnames (mountIn_confines ..)).1 x hx
    | run i =>
      have hjail := (trace_jailed hnames (answer_confines hconf now peer rx)).1 x hx
      rw [ht] at hjail
      -- the session is in use, so reaping left it alone
      obtain ⟨-, -, hlive, -⟩ := Server.turn_run ht
      rw [Server.Turn.slot, hfreed.of_inUse hlive] at hjail
      exact hjail

theorem numberedCard_names : NamesEntries numberedCard := by
  rintro n d de ⟨⟩

/-- The client of that session asks for the file `b`. -/
def statB : Bytes := [1, 0, 2, tnfsStat, 0x62, 0]

theorem paths_jailed_firstOpened :
    (serveOps numberedCard 2 ⟨1, 1⟩ statB firstOpened.card firstOpened.server).length = 1 ∧
    ∀ op ∈ serveOps numberedCard 2 ⟨1, 1⟩ statB firstOpened.card firstOpened.server, ∀ p ∈ op.2.1.paths,
      Jailed (firstOpened.server.sessions op.1).root p :=
  ⟨by decide +kernel, paths_jailed numberedCard_names reach_firstOpened 2 ⟨1, 1⟩ statB⟩

end Daemon

end FdcSds.Tnfsd
