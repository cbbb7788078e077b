import FdcSds.Disk.Guard
import FdcSds.Schemes.Runs

/-! Requests from all front ends, interleaved with mounts.

    Each front runs one request at a time, call by call, and what a call does to the card is up to the
    card. The mount lock is held from an allowed check to the end of the change, and from the open of an
    image to its entry in the mount table. Beside the table the machine knows where on the card each
    image lies, and which files are open.

        front:  start ──▶ begin ──▶ call … ──▶ finish ──▶ … ──▶ ended
        disk:   mountOpen ──▶ mountSet        unmount ──▶ dispose        -/

namespace FdcSds
open Schemes Schemes.Runs

/-- The tasks that change the card. -/
inductive Front where
  | console (t : Terminal)
  | tnfs
  | ftp
  deriving DecidableEq

inductive CardRequest where
  | delete (sh : Shell) (name : CStr)
  | mkdir (sh : Shell) (name : CStr)
  | rmdir (sh : Shell) (name : CStr)
  | rename (sh : Shell) (old new : CStr)
  | copy (sh : Shell) (dst : CStr) (chunks : List Bytes)
  | datagram (now : ℕ) (peer : Tnfsd.Peer) (rx : Bytes) (v : Tnfsd.Server)
  | stor (fullname : CStr) (append : Bool)
  | storData (fd : ℕ) (data : Bytes)
  | storEnd (fd : ℕ)
  | dele (fullname : CStr)
  | rnto (fullname fullname2 : CStr)
  | rmd (fullname : CStr)
  | mkd (fullname : CStr)

namespace CardRequest

def prog : CardRequest → Sys Unit
  | delete sh name => do let _ ← sh.cmdDelete name
  | mkdir sh name => do let _ ← sh.cmdMkdir name
  | rmdir sh name => do let _ ← sh.cmdRmdir name
  | rename sh old new => do let _ ← sh.cmdRename old new
  | copy sh dst chunks => do let _ ← sh.cmdCopy dst chunks
  | datagram now peer rx v => do let _ ← v.serve now peer rx
  | stor fullname append => do let _ ← ftpOpenFile fullname append
  | storData fd data => do let _ ← sysWrite fd data
  | storEnd fd => sysClose fd
  | dele fullname => do let _ ← ftpDele fullname
  | rnto fullname fullname2 => do let _ ← ftpRnto fullname fullname2
  | rmd fullname => do let _ ← ftpPathop sysRmdir fullname
  | mkd fullname => do let _ ← ftpPathop sysMkdir fullname

/-- The front a request comes to. -/
def comesTo : CardRequest → Front → Bool
  | delete .., .console _ | mkdir .., .console _ | rmdir .., .console _ | rename .., .console _
  | copy .., .console _ => true
  | datagram .., .tnfs => true
  | stor .., .ftp | storData .., .ftp | storEnd .., .ftp | dele .., .ftp | rnto .., .ftp | rmd .., .ftp
  | mkd .., .ftp => true
  | _, _ => false

theorem prog_released (r : CardRequest) : Released r.prog := by
  have done : ∀ {α : Type} {p : Sys α}, Released p → Released (do let _ ← p) := fun hp => hp.then fun _ => rfl
  cases r with
  | delete sh name => exact done (sh.cmdDelete_released name)
  | mkdir sh name => exact done (sh.cmdMkdir_released name)
  | rmdir sh name => exact done (sh.cmdRmdir_released name)
  | rename sh old new => exact done (sh.cmdRename_released old new)
  | copy sh dst chunks => exact done (sh.cmdCopy_released dst chunks)
  | datagram now peer rx v => exact done (v.serve_released now peer rx)
  | stor fullname append => exact done (ftpOpenFile_released fullname append)
  | storData fd data => exact done (released_ask rfl)
  | storEnd fd => exact released_ask rfl
  | dele fullname => exact done (ftpDele_released fullname)
  | rnto fullname fullname2 => exact done (ftpRnto_released fullname fullname2)
  | rmd fullname => exact done (ftpPathop_released (released_ask rfl))
  | mkd fullname => exact done (ftpPathop_released (released_ask rfl))

end CardRequest

/-- Who holds the mount lock. -/
inductive LockHolder where
  | front (f : Front)
  | mount
  deriving DecidableEq

/-- Whose an open file is: a front's, or the backing of a local image. -/
inductive Owner where
  | front (f : Front)
  | image
  deriving DecidableEq

/-- The file an open handle writes or reads. -/
structure OpenFile where
  file : ℕ
  writes : Bool
  deriving DecidableEq

/-- A `disk_mount` between the open and the table. -/
structure Opening where
  drive : ℕ
  name : CStr
  path : CStr
  loc : Loc
  backing : ℕ

structure Premises where
  card : Card
  disk : Disk
  place : ℕ → Loc
  lock : Option LockHolder
  opening : Option Opening
  rest : Front → Option (Sys Unit)
  checked : Front → Option CStr
  handles : Owner → ℕ → Option OpenFile

inductive PremisesAct where
  | start (f : Front) (r : CardRequest)
  | begin (f : Front) (mem : Bool)
  | finish (f : Front)
  | call (f : Front) (c : SysCall) (r : c.Answer) (e : Change c)
  | ended (f : Front)
  | mountOpen (drive : ℕ) (name : CStr) (b : ℕ)
  | mountSet (mem : Bool)
  | unmount (drive : ℕ)
  | configure (drive : ℕ) (url : CStr)
  | dispose (b : ℕ)

namespace Premises

/-- The size of a canonical name. -/
def canonCap : ℕ := 2 * configFileCap

def setRest (s : Premises) (f : Front) (p : Option (Sys Unit)) : Premises :=
  { s with rest := Function.update s.rest f p }

def setChecked (s : Premises) (f : Front) (p : Option CStr) : Premises :=
  { s with checked := Function.update s.checked f p }

def setHandle (s : Premises) (o : Owner) (fd : ℕ) (h : Option OpenFile) : Premises :=
  { s with handles := Function.update s.handles o (Function.update (s.handles o) fd h) }

/-- `disk_change_begin` is asked about `p`, and answers `drive`. -/
def checkedAs (s : Premises) (f : Front) (p : CStr) : Option ℕ → Premises
  | none => { s.setChecked f (some p) with lock := some (.front f) }
  | some _ => s

/-- The answer is one the card gives: a descriptor is new, and of a file that is there. -/
def gives (s : Premises) (f : Front) : (c : SysCall) → c.Answer → Change c → Bool
  | .changeBegin _, _, _ | .changeEnd, _, _ => false
  | .open p _, .ok fd, e => (s.handles (.front f) fd).isNone && ((e.after s.card).find p).isSome
  | _, _, _ => true

/-- The handles after a call; the card is the one after it. -/
def touch (s : Premises) (f : Front) : (c : SysCall) → c.Answer → Premises
  | .open p of, .ok fd => s.setHandle (.front f) fd ((s.card.find p).map fun l => ⟨s.card.file l, of.writes⟩)
  | .close fd, _ => s.setHandle (.front f) fd none
  | _, _ => s

/-- What a call does. -/
def called (s : Premises) (f : Front) (c : SysCall) (r : c.Answer) (e : Change c) (p : Sys Unit) : Premises :=
  ({ s with card := e.after s.card }.touch f c r).setRest f (some p)

/-- The drive holds this image. -/
def Backed (s : Premises) (b : ℕ) : Prop :=
  (∃ d < diskMaxDrive, (s.disk.drv d).backing = some b) ∨ ∃ o ∈ s.opening, o.backing = b

instance (s : Premises) (b : ℕ) : Decidable (s.Backed b) := by unfold Backed; infer_instance

def step (s : Premises) : PremisesAct → Option Premises
  | .start f r => when ((s.rest f).isNone = true ∧ r.comesTo f = true) (s.setRest f (some r.prog))
  | .begin f mem =>
    match s.rest f with
    | some (.call (.changeBegin p) k) =>
      let drive := s.disk.changeBegin (s.card.sdCanonical mem p canonCap)
      when (s.lock = none) ((s.checkedAs f p drive).setRest f (some (k drive)))
    | _ => none
  | .finish f =>
    match s.rest f with
    | some (.call .changeEnd k) => some ({ s.setChecked f none with lock := none }.setRest f (some (k ())))
    | _ => none
  | .call f c r e =>
    match s.rest f with
    | some (.call c' k) =>
      if h : c = c' then when (s.gives f c r e = true) (s.called f c r e (k (h ▸ r))) else none
    | _ => none
  | .ended f => match s.rest f with | some (.ret _) => some (s.setRest f none) | _ => none
  | .mountOpen drive name b =>
    match sdPath name pathCap with
    | none => none
    | some path =>
      match s.card.find path with
      | none => none
      | some l =>
        -- the root is no file
        when (s.lock = none ∧ drive < diskMaxDrive ∧ l ≠ [] ∧
          (s.handles .image b).isNone = true ∧ ¬ s.Backed b)
          { s.setHandle .image b (some ⟨s.card.file l, true⟩) with
            lock := some .mount, opening := some ⟨drive, name, path, l, b⟩ }
  | .mountSet mem =>
    match s.opening with
    | none => none
    | some o =>
      let canon := (s.card.sdCanonical mem o.path canonCap).getD (strlcpy canonCap o.name)
      some { s with
        disk := s.disk.mountLocal o.drive o.name canon o.backing
        place := Function.update s.place o.drive o.loc
        lock := none, opening := none }
  | .unmount drive => when (s.lock = none) { s with disk := s.disk.unmount drive }
  | .configure drive url => when (s.lock = none) { s with disk := s.disk.configure drive url }
  | .dispose b => when (¬ s.Backed b) (s.setHandle .image b none)

/-- Nothing runs, nothing is mounted and no file is open. -/
def Start (s : Premises) : Prop :=
  (∀ d, s.disk.drv d = .empty) ∧ s.lock = none ∧ s.opening = none ∧ (∀ f, s.rest f = none) ∧
    (∀ f, s.checked f = none) ∧
    ∀ o fd, s.handles o fd = none

def machine : Machine Premises PremisesAct := ⟨Start, step⟩

variable {s s' : Premises} {f : Front}

/-- The drive has a local image. -/
def Local (s : Premises) (d : ℕ) : Prop :=
  d < diskMaxDrive ∧ (s.disk.drv d).mounted = true ∧ (s.disk.drv d).remote = false

/-- The call a front makes next. -/
def next (s : Premises) (f : Front) : Option SysCall :=
  match s.rest f with | some (.call c _) => some c | _ => none

/-- The guard can tell what a path names: no backslash, and `sd_canonical` finds what is there. -/
def Legible (s : Premises) (mem : Bool) (p : CStr) : Prop :=
  '\\' ∉ p ∧ ((s.card.find p).isSome = true → (s.card.sdCanonical mem p canonCap).isSome = true)

/-- No `rmdir` names an image that is mounted or being mounted. -/
def Careful (s : Premises) : SysCall → Prop
  | .rmdir p => ∀ l ∈ s.card.find p, (∀ d, s.Local d → l ≠ s.place d) ∧ ∀ o ∈ s.opening, l ≠ o.loc
  | _ => True

/-- Every path the guard is asked about, and that of every image as it is mounted, is one it can tell
    the meaning of; and no `rmdir` names an image. -/
def Prudent (s : Premises) : PremisesAct → Prop
  | .begin f mem => ∀ p, s.next f = some (.changeBegin p) → s.Legible mem p
  | .call _ c _ _ => s.Careful c
  | .mountSet mem => ∀ o ∈ s.opening, s.Legible mem o.path
  | _ => True

/-- The call takes no mounted image away: it deletes or renames neither one nor a folder that holds
    one, and opens none for writing. -/
def Spares (s : Premises) : SysCall → Prop
  | .unlink p | .rename p _ => ∀ l ∈ s.card.find p, ∀ d, s.Local d → ¬ l <+: s.place d
  | .open p of => of.writes = true → ∀ l ∈ s.card.find p, ∀ d, s.Local d → l ≠ s.place d
  | .rmdir p => ∀ l ∈ s.card.find p, ∀ d, s.Local d → l ≠ s.place d
  | _ => True

/-- What is left of a request keeps to the guard. -/
def Obedient : Option (Sys Unit) → Option CStr → Prop
  | none, g => g = none
  | some p, g => guarded.Obeys g p fun g _ => g = none

structure Kept (s : Premises) : Prop where
  obeys : ∀ f, Obedient (s.rest f) (s.checked f)
  front : ∀ f, (s.checked f).isSome = true ↔ s.lock = some (.front f)
  mount : s.opening.isSome = true ↔ s.lock = some .mount
  named : ∀ d, s.Local d → (s.disk.drv d).canon = joinSlash (s.place d) ∧ joinSlash (s.place d) ≠ [] ∧
    s.card.Has (s.place d)
  clear : ∀ f, ∀ p ∈ s.checked f, ∀ l ∈ s.card.find p, ∀ d, s.Local d → ¬ l <+: s.place d
  opened : ∀ o ∈ s.opening, sdPath o.name pathCap = some o.path ∧ s.card.find o.path = some o.loc ∧ o.loc ≠ []

/-- Only the front that has the lock has anything checked. -/
theorem Kept.unchecked (h : s.Kept) (hlock : s.lock ≠ some (.front f)) : s.checked f = none := by
  cases hc : s.checked f with
  | none => rfl
  | some p => exact absurd ((h.front f).mp (by rw [hc]; rfl)) hlock

theorem Kept.unopened (h : s.Kept) (hlock : s.lock ≠ some .mount) : s.opening = none := by
  cases ho : s.opening with
  | none => rfl
  | some o => exact absurd (h.mount.mp (by rw [ho]; rfl)) hlock

/-- A front moves on; card and table are as they were. -/
theorem Kept.moved (h : s.Kept) (hcard : s'.card = s.card) (hdisk : s'.disk = s.disk)
    (hplace : s'.place = s.place) (hopening : s'.opening = s.opening)
    (hrest : ∀ g ≠ f, s'.rest g = s.rest g) (hchecked : ∀ g ≠ f, s'.checked g = s.checked g)
    (hob : Obedient (s'.rest f) (s'.checked f))
    (hfront : ∀ g, (s'.checked g).isSome = true ↔ s'.lock = some (.front g))
    (hmount : s'.opening.isSome = true ↔ s'.lock = some .mount)
    (hclear : ∀ p ∈ s'.checked f, ∀ l ∈ s.card.find p, ∀ d, s.Local d → ¬ l <+: s.place d) : s'.Kept := by
  have hlocal : ∀ d, s'.Local d ↔ s.Local d := fun d => by rw [Local, Local, hdisk]
  refine ⟨fun g => ?_, hfront, hmount, fun d hd => ?_, fun g p hp l hl d hd => ?_, fun o ho => ?_⟩
  · by_cases hg : g = f
    · rw [hg]
      exact hob
    · rw [hrest g hg, hchecked g hg]
      exact h.obeys g
  · rw [hdisk, hplace, hcard]
    exact h.named d ((hlocal d).mp hd)
  · rw [hcard] at hl
    rw [hplace]
    rw [hlocal] at hd
    by_cases hg : g = f
    · subst hg
      exact hclear p hp l hl d hd
    · rw [hchecked g hg] at hp
      exact h.clear g p hp l hl d hd
  · rw [hopening] at ho
    rw [hcard]
    exact h.opened o ho

/-- The rest of a request after a call that has nothing to do with the guard. -/
theorem Kept.rest (h : s.Kept) {p : Option (Sys Unit)} (hob : Obedient p (s.checked f)) :
    (s.setRest f p).Kept := by
  have hself : (s.setRest f p).rest f = p := Function.update_self ..
  refine h.moved (f := f) rfl rfl rfl rfl (fun g hg => Function.update_of_ne hg ..)
    (fun _ _ => rfl) ?_ h.front h.mount
    (h.clear f)
  rw [hself]
  exact hob

theorem Kept.handle (h : s.Kept) (o : Owner) (fd : ℕ) (x : Option OpenFile) : (s.setHandle o fd x).Kept :=
  ⟨h.obeys, h.front, h.mount, h.named, h.clear, h.opened⟩

theorem Kept.touch (h : s.Kept) (f : Front) (c : SysCall) (r : c.Answer) : (s.touch f c r).Kept := by
  unfold Premises.touch
  split
  · exact h.handle ..
  · exact h.handle ..
  · exact h

/-- What a front is about to do, it may. -/
theorem Kept.may (h : s.Kept) {c : SysCall} (hnext : s.next f = some c) : guarded.may (s.checked f) c := by
  have hob := h.obeys f
  unfold next at hnext
  split at hnext
  · next c' k hrest =>
    cases hnext
    rw [hrest] at hob
    exact hob.1
  · cases hnext

/-- The guard has cleared what a front is about to change. -/
theorem Kept.cleared (h : s.Kept) {c : SysCall} (hnext : s.next f = some c) {p : CStr}
    (hp : c.target = some p) {l : Loc} (hl : s.card.find p = some l) {d : ℕ}
    (hd : s.Local d) : ¬ l <+: s.place d :=
  h.clear f p ((h.may hnext).1 p hp) l hl d hd

/-- A call that changes the card takes nothing away that leads to an image. -/
theorem Kept.unremoved (h : s.Kept) {c : SysCall} (hnext : s.next f = some c) (hcareful : s.Careful c) {d : ℕ}
    (hd : s.Local d) {l : Loc} (hl : l <+: s.place d) : ¬ s.card.Removed c l := by
  have hhas := (h.named d hd).2.2
  intro hremoved
  cases c with
  | unlink p => exact h.cleared hnext rfl hremoved.1 hd hl
  | rmdir p =>
    have hsame := hremoved.2 _ hhas hl
    exact (hcareful l hremoved.1).1 d hd hsame.symm
  | rename old new =>
    obtain ⟨l₀, hl₀, hunder⟩ := hremoved
    exact h.cleared hnext rfl hl₀ hd (hunder.trans hl)
  | _ => exact hremoved

/-- While an image is being mounted, no front is in a change. -/
theorem Kept.no_target (h : s.Kept) {c : SysCall} (hnext : s.next f = some c) {o : Opening}
    (ho : o ∈ s.opening) :
    c.target = none := by
  have hlock : s.lock = some .mount := h.mount.mp (by rw [ho]; rfl)
  have hnone : s.checked f = none := h.unchecked (by rw [hlock]; rintro ⟨⟩)
  have hmay := (h.may hnext).1
  rw [hnone] at hmay
  cases ht : c.target with
  | none => rfl
  | some p => cases hmay p ht

theorem Kept.unremoved_opening (h : s.Kept) {c : SysCall} (hnext : s.next f = some c) (hcareful : s.Careful c)
    {o : Opening} (ho : o ∈ s.opening) : ¬ s.card.Removed c o.loc := by
  have htarget := h.no_target hnext ho
  intro hremoved
  cases c with
  | unlink p | rename old new => cases htarget
  | rmdir p => exact (hcareful _ hremoved.1).2 o ho rfl
  | _ => exact hremoved

theorem find_after {c : SysCall} {e : Change c} {card : Card} {p : CStr} {l : Loc}
    (h : (e.after card).find p = some l) :
    card.find p = some l ∨ ¬ card.Has l ∨ card.Removed c l := by
  unfold Card.find at h ⊢
  cases hsub : underSd p with
  | none =>
    rw [hsub] at h
    cases h
  | some rest =>
    rw [hsub] at h
    exact e.fresh card _ l h

theorem find_stays {c : SysCall} {e : Change c} {card : Card} {p : CStr} {l : Loc} (h : card.find p = some l)
    (hkept : ¬ card.Removed c l) : (e.after card).find p = some l ∧ (e.after card).file l = card.file l := by
  unfold Card.find at h ⊢
  cases hsub : underSd p with
  | none =>
    rw [hsub] at h
    cases h
  | some rest =>
    rw [hsub] at h
    exact (e.stay card _ l h).resolve_right hkept

/-- The card changes as the call of a front may change it. -/
theorem Kept.card (h : s.Kept) {c : SysCall} (hnext : s.next f = some c)
    (hcareful : s.Careful c) (e : Change c) :
    { s with card := e.after s.card }.Kept := by
  refine ⟨h.obeys, h.front, h.mount, fun d hd => ?_, fun g p hp l hl d hd hunder => ?_, fun o ho => ?_⟩
  · obtain ⟨hcanon, hne, xs, hxs⟩ := h.named d hd
    have hstay := (e.stay s.card xs _ hxs).resolve_right (h.unremoved hnext hcareful hd (List.prefix_refl _))
    exact ⟨hcanon, hne, xs, hstay.1⟩
  · rcases find_after hl with hold | hnew | hremoved
    · exact h.clear g p hp l hold d hd hunder
    · exact hnew ((h.named d hd).2.2.above hunder)
    · exact h.unremoved hnext hcareful hd hunder hremoved
  · obtain ⟨hpath, hfind, hne⟩ := h.opened o ho
    exact ⟨hpath, (find_stays hfind (h.unremoved_opening hnext hcareful ho)).1, hne⟩

theorem sdPath_noBackslash {name path : CStr} {cap : ℕ} (h : sdPath name cap = some path) : '\\' ∉ path := by
  obtain ⟨rfl, -⟩ := Shell.sdPath_eq h
  unfold sdPath at h
  split at h
  · cases h
  · next hname =>
    simp only [Bool.or_eq_true, not_or, List.contains_iff_mem] at hname
    simp only [List.mem_append, List.mem_cons, not_or]
    exact ⟨by decide, by decide, hname.1.2⟩

/-- What the guard reads off a path it can tell the meaning of. -/
theorem Legible.canon {mem : Bool} {p : CStr} (h : s.Legible mem p) {l : Loc} (hl : s.card.find p = some l) :
    s.card.sdCanonical mem p canonCap = some (joinSlash l) ∧ (joinSlash l).length < canonCap := by
  obtain ⟨hback, hsome⟩ := h
  obtain ⟨canon, hcanon⟩ := Option.isSome_iff_exists.mp (hsome (by rw [hl]; rfl))
  obtain ⟨rfl, hlen⟩ := Card.sdCanonical_eq (by decide) hback hcanon hl
  exact ⟨hcanon, hlen⟩

/-- The guard has been asked. -/
theorem begin_kept (h : s.Kept) {mem : Bool} {p : CStr} {k : Option ℕ → Sys Unit} (hlegible : s.Legible mem p)
    (hrest : s.rest f = some (.call (.changeBegin p) k)) (hlock : s.lock = none) {drive : Option ℕ}
    (hdrive : s.disk.changeBegin (s.card.sdCanonical mem p canonCap) = drive) :
    ((s.checkedAs f p drive).setRest f (some (k drive))).Kept := by
  have hnone : ∀ g, s.checked g = none := fun g => h.unchecked (by rw [hlock]; rintro ⟨⟩)
  have hob := h.obeys f
  rw [hrest, hnone f] at hob
  obtain ⟨-, hob⟩ := hob
  cases drive with
  | some d =>
    refine h.rest ?_
    rw [hnone f]
    exact hob (some d) trivial
  | none =>
    have hself : (s.checkedAs f p none).checked f = some p := Function.update_self ..
    have hother : ∀ g ≠ f, (s.checkedAs f p none).checked g = s.checked g :=
      fun g hg => Function.update_of_ne hg ..
    refine h.moved (f := f) rfl rfl rfl rfl (fun g hg => Function.update_of_ne hg ..)
      hother ?_ (fun g => ?_) ?_ ?_
    · change Obedient (Function.update s.rest f (some (k none)) f) ((s.checkedAs f p none).checked f)
      rw [Function.update_self, hself]
      exact hob none trivial
    · change ((s.checkedAs f p none).checked g).isSome = true ↔ some (LockHolder.front f) = some (.front g)
      by_cases hg : g = f
      · rw [hg, hself]
        simp
      · rw [hother g hg, hnone g]
        simp [Ne.symm hg]
    · change s.opening.isSome = true ↔ some (LockHolder.front f) = some .mount
      rw [h.unopened (by rw [hlock]; rintro ⟨⟩)]
      simp
    · intro q hq l hl d hd
      change q ∈ (s.checkedAs f p none).checked f at hq
      rw [hself] at hq
      cases hq
      -- the guard found no drive in the way
      obtain ⟨hcanon, -⟩ := hlegible.canon hl
      rw [hcanon] at hdrive
      obtain ⟨hname, hne, -⟩ := h.named d hd
      exact Disk.clear_of_inTheWay hdrive hd.1 hd.2.1 hd.2.2 hname hne

theorem finish_kept (h : s.Kept) {k : Unit → Sys Unit} (hrest : s.rest f = some (.call .changeEnd k)) :
    ({ s.setChecked f none with lock := none }.setRest f (some (k ()))).Kept := by
  have hob := h.obeys f
  rw [hrest] at hob
  obtain ⟨⟨-, hsome⟩, hob⟩ := hob
  have hlock : s.lock = some (.front f) := (h.front f).mp hsome
  have hopening := h.unopened (by rw [hlock]; rintro ⟨⟩)
  have hself : Function.update s.checked f none f = none := Function.update_self ..
  have hother : ∀ g ≠ f, Function.update s.checked f none g = s.checked g :=
    fun g hg => Function.update_of_ne hg ..
  refine h.moved (f := f) rfl rfl rfl rfl (fun g hg => Function.update_of_ne hg ..)
    hother ?_ (fun g => ?_) ?_ ?_
  · change Obedient (Function.update s.rest f (some (k ())) f) (Function.update s.checked f none f)
    rw [Function.update_self, hself]
    exact hob () trivial
  · change (Function.update s.checked f none g).isSome = true ↔ none = some (LockHolder.front g)
    by_cases hg : g = f
    · rw [hg, hself]
      simp
    · have hnone : s.checked g = none := h.unchecked (by rw [hlock]; simpa using Ne.symm hg)
      rw [hother g hg, hnone]
      simp
  · change s.opening.isSome = true ↔ none = some LockHolder.mount
    rw [hopening]
    simp
  · intro q hq
    change q ∈ Function.update s.checked f none f at hq
    rw [hself] at hq
    cases hq

/-- A call other than the guard's. -/
theorem call_kept (h : s.Kept) {c : SysCall} {r : c.Answer} {e : Change c} {k : c.Answer → Sys Unit}
    (hcareful : s.Careful c) (hrest : s.rest f = some (.call c k)) (hgives : s.gives f c r e = true) :
    (s.called f c r e (k r)).Kept := by
  have hnext : s.next f = some c := by rw [next, hrest]
  have hob := h.obeys f
  rw [hrest] at hob
  have hsame : guarded.next (s.checked f) c r = s.checked f := by
    cases c <;> first | rfl | cases hgives
  have hkept := (h.card hnext hcareful e).touch f c r
  refine hkept.rest ?_
  have hchecked : ({ s with card := e.after s.card }.touch f c r).checked f = s.checked f := by
    unfold Premises.touch
    split <;> rfl
  rw [hchecked]
  have hobeys := hob.2 r trivial
  rwa [hsame] at hobeys

/-- Drives that have no local image, or the one they had. -/
theorem Kept.dropped (h : s.Kept) (hlock : s.lock = none) {disk : Disk} {e : ℕ}
    (hother : ∀ d ≠ e, disk.drv d = s.disk.drv d)
    (hgone : (disk.drv e).mounted = false ∨ (disk.drv e).remote = true) :
    { s with disk := disk }.Kept := by
  have hnone : ∀ g, s.checked g = none := fun g => h.unchecked (by rw [hlock]; rintro ⟨⟩)
  refine ⟨h.obeys, h.front, h.mount, fun d hd => ?_, fun g p hp => ?_, h.opened⟩
  · obtain ⟨hlt, hmounted, hremote⟩ := hd
    have hde : d ≠ e := by
      rintro rfl
      rcases hgone with hg | hg
      · rw [hmounted] at hg
        cases hg
      · rw [hremote] at hg
        cases hg
    rw [hother d hde] at hmounted hremote ⊢
    exact h.named d ⟨hlt, hmounted, hremote⟩
  · change p ∈ s.checked g at hp
    rw [hnone g] at hp
    cases hp

theorem mountOpen_kept (h : s.Kept) (hlock : s.lock = none) {o : Opening}
    (hpath : sdPath o.name pathCap = some o.path) (hfind : s.card.find o.path = some o.loc)
    (hne : o.loc ≠ []) (x : Option OpenFile) :
    { s.setHandle .image o.backing x with lock := some .mount, opening := some o }.Kept := by
  have hnone : ∀ g, s.checked g = none := fun g => h.unchecked (by rw [hlock]; rintro ⟨⟩)
  refine ⟨h.obeys, fun g => ?_, by simp, h.named, fun g p hp => ?_, fun o' ho' => ?_⟩
  · change (s.checked g).isSome = true ↔ some LockHolder.mount = some (.front g)
    rw [hnone g]
    simp
  · change p ∈ s.checked g at hp
    rw [hnone g] at hp
    cases hp
  · cases ho'
    exact ⟨hpath, hfind, hne⟩

/-- The image has its entry in the mount table. -/
theorem mountSet_kept (h : s.Kept) {mem : Bool} {o : Opening} (ho : s.opening = some o)
    (hlegible : s.Legible mem o.path) :
    { s with
      disk := s.disk.mountLocal o.drive o.name
        ((s.card.sdCanonical mem o.path canonCap).getD (strlcpy canonCap o.name)) o.backing
      place := Function.update s.place o.drive o.loc
      lock := none, opening := none }.Kept := by
  obtain ⟨-, hfind, hloc⟩ := h.opened o (by rw [ho]; rfl)
  have hlock : s.lock = some .mount := h.mount.mp (by rw [ho]; rfl)
  have hnone : ∀ g, s.checked g = none := fun g => h.unchecked (by rw [hlock]; rintro ⟨⟩)
  obtain ⟨hcanon, hlen⟩ := hlegible.canon hfind
  rw [hcanon, Option.getD_some]
  refine ⟨h.obeys, fun g => ?_, by simp, fun d hd => ?_, fun g p hp => ?_, by rintro o' ⟨⟩⟩
  · change (s.checked g).isSome = true ↔ none = some (LockHolder.front g)
    rw [hnone g]
    simp
  · by_cases hdrive : d = o.drive
    · subst hdrive
      have hhas : s.card.Has o.loc := by
        unfold Card.find at hfind
        obtain ⟨rest, -, hwalk⟩ := Option.bind_eq_some_iff.mp hfind
        exact ⟨_, hwalk⟩
      obtain ⟨xs, hxs⟩ := hhas
      obtain ⟨m, hm, -, hplain⟩ := Card.walk_extends hxs
      have hname : joinSlash o.loc ≠ [] := Card.joinSlash_ne_nil hloc (by rw [hm]; exact hplain)
      simp only [Disk.mountLocal, Disk.setDrive_drv, Function.update_self]
      exact ⟨strlcpy_of_lt hlen, hname, xs, hxs⟩
    · obtain ⟨hlt, hmounted, hremote⟩ := hd
      simp only [Disk.mountLocal, Disk.setDrive_drv, Function.update_of_ne hdrive] at hmounted hremote ⊢
      exact h.named d ⟨hlt, hmounted, hremote⟩
  · change p ∈ s.checked g at hp
    rw [hnone g] at hp
    cases hp

theorem step_kept {a : PremisesAct} (h : s.Kept) (hok : s.Prudent a) (hstep : s.step a = some s') :
    s'.Kept := by
  cases a with
  | start f r =>
    obtain ⟨⟨hrest, -⟩, rfl⟩ := when_eq_some.mp hstep
    have hob := h.obeys f
    rw [Option.isNone_iff_eq_none.mp hrest] at hob
    refine h.rest ?_
    rw [show s.checked f = none from hob]
    exact r.prog_released
  | begin f mem =>
    simp only [step] at hstep
    split at hstep
    · next p k hrest =>
      obtain ⟨hlock, rfl⟩ := when_eq_some.mp hstep
      exact begin_kept h (hok p (by rw [next, hrest])) hrest hlock rfl
    · cases hstep
  | finish f =>
    simp only [step] at hstep
    split at hstep
    · next k hrest =>
      cases hstep
      exact finish_kept h hrest
    · cases hstep
  | call f c r e =>
    simp only [step] at hstep
    split at hstep
    · next c' k hrest =>
      split at hstep
      · next heq =>
        subst heq
        obtain ⟨hgives, rfl⟩ := when_eq_some.mp hstep
        exact call_kept h hok hrest hgives
      · cases hstep
    · cases hstep
  | ended f =>
    simp only [step] at hstep
    split at hstep
    · next hrest =>
      cases hstep
      have hob := h.obeys f
      rw [hrest] at hob
      exact h.rest hob
    · cases hstep
  | mountOpen drive name b =>
    simp only [step] at hstep
    split at hstep
    · cases hstep
    · next path hpath =>
      split at hstep
      · cases hstep
      · next l hl =>
        obtain ⟨⟨hlock, -, hne, -⟩, rfl⟩ := when_eq_some.mp hstep
        exact mountOpen_kept h hlock (o := ⟨drive, name, path, l, b⟩) hpath hl hne _
  | mountSet mem =>
    simp only [step] at hstep
    split at hstep
    · cases hstep
    · next o ho =>
      cases hstep
      exact mountSet_kept h ho (hok o (by rw [ho]; rfl))
  | unmount drive =>
    obtain ⟨hlock, rfl⟩ := when_eq_some.mp hstep
    refine h.dropped (e := drive) hlock (fun d hd => ?_) (.inl ?_)
    · simp only [Disk.unmount, Disk.setDrive_drv, Function.update_of_ne hd]
    · simp only [Disk.unmount, Disk.setDrive_drv, Function.update_self]
      rfl
  | configure drive url =>
    obtain ⟨hlock, rfl⟩ := when_eq_some.mp hstep
    refine h.dropped (e := drive) hlock (fun d hd => ?_) (.inl ?_)
    · simp only [Disk.configure, Disk.setDrive_drv, Function.update_of_ne hd]
    · simp only [Disk.configure, Disk.setDrive_drv, Function.update_self]
  | dispose b =>
    obtain ⟨-, rfl⟩ := when_eq_some.mp hstep
    exact h.handle ..

theorem Start.kept (h : s.Start) : s.Kept := by
  obtain ⟨hdrv, hlock, hopening, hrest, hchecked, -⟩ := h
  refine ⟨fun f => ?_, fun f => ?_, ?_, fun d hd => ?_, fun f p hp => ?_, fun o ho => ?_⟩
  · rw [hrest f, hchecked f]
    rfl
  · rw [hchecked f, hlock]
    simp
  · rw [hopening, hlock]
    simp
  · have hmounted := hd.2.1
    rw [hdrv d] at hmounted
    cases hmounted
  · rw [hchecked f] at hp
    cases hp
  · rw [hopening] at ho
    cases ho

theorem reach_kept (h : machine.Reach Prudent s) : s.Kept :=
  h.invariant (fun _ hs => Start.kept hs) fun _ _ _ hs hok => step_kept hs hok

/-- CORRECT: in every run of prudent steps, the next call of a front, if it is careful, spares every
    mounted image. A front has the mount lock when it is to give it back, has it not when it is to ask
    for it, and has it not between requests. -/
theorem changes_spare_images (h : machine.Reach Prudent s) (f : Front) :
    (∀ c, s.next f = some c → s.Careful c → s.Spares c) ∧
    (s.next f = some .changeEnd → s.lock = some (.front f)) ∧
    (∀ p, s.next f = some (.changeBegin p) → s.lock ≠ some (.front f)) ∧
    (s.rest f = none → s.lock ≠ some (.front f)) := by
  have hkept := reach_kept h
  refine ⟨fun c hnext hcareful => ?_, fun hnext => ?_, fun p hnext hlock => ?_, fun hrest hlock => ?_⟩
  · cases c with
    | unlink p => exact fun l hl d hd => hkept.cleared hnext rfl hl hd
    | rename old new => exact fun l hl d hd => hkept.cleared hnext rfl hl hd
    | «open» p of =>
      intro hwrites l hl d hd heq
      have htarget : SysCall.target (.open p of) = some p := if_pos hwrites
      exact hkept.cleared hnext htarget hl hd (heq ▸ List.prefix_refl _)
    | rmdir p => exact fun l hl d hd => (hcareful l hl).1 d hd
    | _ => trivial
  · exact (hkept.front f).mp (hkept.may hnext).2
  · have hsome := (hkept.front f).mpr hlock
    rw [(hkept.may hnext).2] at hsome
    cases hsome
  · have hsome := (hkept.front f).mpr hlock
    have hob := hkept.obeys f
    rw [hrest] at hob
    rw [show s.checked f = none from hob] at hsome
    cases hsome

/-- A check that a step is prudent. -/
def prudent (s : Premises) : PremisesAct → Bool
  | .begin f mem =>
    match s.next f with
    | some (.changeBegin p) =>
      !p.contains '\\' && ((s.card.find p).isNone || (s.card.sdCanonical mem p canonCap).isSome)
    | _ => true
  | .call _ (.rmdir _) _ _ => false
  | .mountSet mem =>
    match s.opening with
    | some o => !o.path.contains '\\' && (s.card.sdCanonical mem o.path canonCap).isSome
    | none => true
  | _ => true

theorem prudent_sound (s : Premises) (a : PremisesAct) (h : s.prudent a = true) : s.Prudent a := by
  cases a with
  | begin f mem =>
    intro p hnext
    simp only [prudent, hnext, Bool.and_eq_true, Bool.or_eq_true,
      Option.isNone_iff_eq_none, Bool.not_eq_true',
      List.contains_eq_mem, decide_eq_false_iff_not] at h
    refine ⟨h.1, fun hsome => h.2.resolve_left fun hnone => ?_⟩
    rw [hnone] at hsome
    cases hsome
  | call f c r e =>
    cases c with
    | rmdir p => cases h
    | _ => trivial
  | mountSet mem =>
    intro o ho
    have hopening : s.opening = some o := ho
    simp only [prudent, hopening, Bool.and_eq_true, Bool.not_eq_true', List.contains_eq_mem,
      decide_eq_false_iff_not] at h
    exact ⟨h.1, fun _ => h.2⟩
  | _ => trivial

/-- A card with `A`, `C` and `B/A`. -/
def sample : Listing := ⟨[[['A']], [['C']], [['B']], [['B'], ['A']]], by decide⟩

/-- A prompt. -/
def prompt : Shell := ⟨true, [], fun _ => [], false⟩

/-- A card in its slot, nothing mounted and nothing running. -/
def fresh : Premises :=
  ⟨sample.card, ⟨fun _ => .empty, [], ⟨false, 0, 0, 0⟩, fun _ => ⟨.sd 0, 0⟩, fun _ => []⟩,
    fun _ => [], none, none,
    fun _ => none, fun _ => none, fun _ _ => none⟩

theorem fresh_start : fresh.Start := ⟨fun _ => rfl, rfl, rfl, fun _ => rfl, fun _ => rfl, fun _ _ => rfl⟩

/-- `A` is mounted, and `C` is being deleted. -/
def deleteOther : List PremisesAct :=
  [.mountOpen 0 ['A'] 0, .mountSet true, .start (.console .serial) (.delete prompt ['C']),
    .begin (.console .serial) true]

theorem exec_deleteOther : (machine.exec fresh deleteOther).isSome = true := by decide +kernel

def deletesOther : Premises := (machine.exec fresh deleteOther).get exec_deleteOther

theorem reach_deletesOther : machine.Reach Prudent deletesOther :=
  ⟨fresh, fresh_start, Machine.exec_path prudent prudent_sound
    (Option.some_get exec_deleteOther).symm (by decide +kernel)⟩

theorem changes_spare_images_deletesOther : deletesOther.Spares (.unlink ['/', 's', 'd', '/', 'C']) ∧
    deletesOther.card.find ['/', 's', 'd', '/', 'C'] = some [['C']] ∧ deletesOther.Local 0 :=
  ⟨(changes_spare_images reach_deletesOther (.console .serial)).1 _ (by decide +kernel) trivial,
    by decide +kernel,
    by unfold Local; decide +kernel⟩

/-- A session of the TNFS server, at the root. -/
def session : Tnfsd.Server := ⟨fun _ => { Tnfsd.Session.zero with inUse := true, sid := 1 }, 2⟩

/-- RMDIR `A`, in that session. -/
def rmdirA : Bytes := [1, 0, 0, tnfsRmdir, 65, 0]

/-- The state after these steps. -/
def after (as : List PremisesAct) : Option Premises := machine.exec fresh as

theorem reach_after {l : List PremisesAct} (h : (after l).isSome = true) :
    machine.Reach Machine.always ((after l).get h) :=
  ⟨fresh, fresh_start, Machine.exec_always (Option.some_get h).symm⟩

/-- `rmdir` from the command line and from a TNFS client, and an FTP DELE with a backslash in its path,
    each reach a call that takes the mounted image away. -/
theorem rmdir_takes_image :
    (∃ s, machine.Reach Machine.always s ∧
      s.next (.console .serial) = some (.rmdir ['/', 's', 'd', '/', 'A']) ∧
      s.Local 0 ∧ s.card.find ['/', 's', 'd', '/', 'A'] = some (s.place 0)) ∧
    (∃ s, machine.Reach Machine.always s ∧ s.next .tnfs = some (.rmdir ['/', 's', 'd', '/', 'A']) ∧
      s.Local 0 ∧ s.card.find ['/', 's', 'd', '/', 'A'] = some (s.place 0)) ∧
    ∃ s, machine.Reach Machine.always s ∧ s.next .ftp = some (.unlink ['/', 's', 'd', '/', 'B', '\\', 'A']) ∧
      s.Local 0 ∧ s.card.find ['/', 's', 'd', '/', 'B', '\\', 'A'] = some (s.place 0) := by
  refine ⟨⟨_, reach_after (l := [.mountOpen 0 ['A'] 0, .mountSet true,
      .start (.console .serial) (.rmdir prompt ['A'])]) (by decide +kernel), ?_⟩,
    ⟨_, reach_after (l := [.mountOpen 0 ['A'] 0, .mountSet true,
      .start .tnfs (.datagram 0 ⟨0, 0⟩ rmdirA session)]) (by decide +kernel), ?_⟩,
    ⟨_, reach_after (l := [.mountOpen 0 ['B', '/', 'A'] 0, .mountSet true,
      .start .ftp (.dele ['/', 's', 'd', '/', 'B', '\\', 'A']), .begin .ftp true]) (by decide +kernel), ?_⟩⟩
  all_goals exact ⟨by decide +kernel, by unfold Local; decide +kernel, by decide +kernel⟩

end Premises

end FdcSds
