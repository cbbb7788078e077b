import FdcSds.Config.Mounts

/-! A mount that fails leaves its drive empty (`cmd_mount`, `disk_mount`).

    `cmd_mount` turns to the table once `qualify` is through, and `disk_mount` lets go of the old disk once
    it has a name.

        qualify ─▶ name? ─▶ card? ─▶ open ─▶ the new disk
           │         │        └───────┴────▶ drive empty
        nothing   nothing                                     -/

namespace FdcSds

/-- `cmd_mount` returns 1. -/
def Report.failed : Report → Bool
  | .invalid | .empty => true
  | .mounted _ | .unmounted | .quiet => false

/-- Nothing is in the drive: no image, no name, no cached track, and its bit of the STAT word is down. -/
structure Disk.Bare (w : Disk) (d : ℕ) : Prop where
  backing : (w.drv d).backing = none
  name : (w.drv d).name = []
  cache : ¬(w.cache.valid = true ∧ w.cache.drive = d)
  stat : w.diskStatusBitmap.toNat.testBit d = false

/-- Nothing of the other drives changed. -/
structure Elsewhere (d : Fin configMaxDrive) (s s' : Station) : Prop where
  drv : ∀ e : ℕ, e ≠ d → s'.disk.drv e = s.disk.drv e
  heap : s'.disk.heap = s.disk.heap
  img : s'.disk.img = s.disk.img
  cache : s.disk.cache.valid = true → s.disk.cache.drive ≠ d → s'.disk.cache = s.disk.cache
  config : ∀ e, e ≠ d → s'.live.cfg.drive e = s.live.cfg.drive e

namespace Disk

variable {w : Disk} {d : ℕ}

theorem testBit_diskStatusBitmap (w : Disk) (d : ℕ) :
    w.diskStatusBitmap.toNat.testBit d = w.diskIsMounted d :=
  testBit_statusBitmap (fun i => (w.drv i).mounted) d

theorem bare_unmount (w : Disk) (d : ℕ) : (w.unmount d).Bare d := by
  have hdrv : (w.unmount d).drv d = .empty := by rw [unmount, setDrive_drv, Function.update_self]
  refine ⟨by rw [hdrv]; rfl, by rw [hdrv]; rfl, ?_, ?_⟩
  · rintro ⟨hvalid, hdrive⟩
    obtain ⟨heq, hne⟩ := cacheDropDrive_valid hvalid
    rw [unmount, setDrive, heq] at hdrive
    exact hne hdrive
  · rw [testBit_diskStatusBitmap, diskIsMounted, hdrv]
    exact Bool.and_false _

theorem setDrive_cache {new : Drive} (h : w.cache.drive ≠ d) : (w.setDrive d new).cache = w.cache := by
  rw [setDrive, cacheDropDrive, if_neg]
  simp [h]

end Disk

theorem LiveConfig.configSetDrive_ne (live : LiveConfig) (v : Option CStr)
    {d e : Fin configMaxDrive} (h : e ≠ d) :
    (live.configSetDrive d.1 v).cfg.drive e = live.cfg.drive e := by
  unfold configSetDrive
  split
  · next hbound =>
    have hd : (⟨(d.1 : ℤ).toNat, hbound.2⟩ : Fin configMaxDrive) = d := by simp
    simp only [hd, assignText, assign]
    split
    · exact Function.update_of_ne h ..
    · rfl
  · rfl

namespace Outside

variable {o : Outside} {s : Station} {w w' : Disk} {d : Fin configMaxDrive} {cwd name q : CStr} {b : ℕ}
  {fate : Option EspErr}

/-- A name on the card, and no empty one: `disk_mount` puts the file in the drive, or leaves it empty. -/
theorem diskMount_named (hne : q ≠ []) (hurl : tnfsIsUrl q = false) {e : EspErr}
    (h : o.diskMount w d q b fate = (w', .error e)) : w' = w.unmount d := by
  have hempty : q.isEmpty = false := by simpa using hne
  have hok : driveOk d = true := driveOk_fin d
  simp only [diskMount, hok, hempty, hurl, Bool.not_true, Bool.or_self, Bool.false_eq_true, if_false] at h
  split at h
  · cases h
    rfl
  · split at h <;> cases h <;> rfl

theorem configSetDrive_none (live : LiveConfig) (d : Fin configMaxDrive) :
    ((live.configSetDrive d.1 none).cfg.drive d).1 = [] := by
  rw [configSetDrive_drive (by decide), if_pos rfl]
  rfl

/-- The table and the configuration let go of the drive. -/
theorem elsewhere_unmount (s : Station) (d : Fin configMaxDrive) : Elsewhere d s
    { s with disk := s.disk.unmount d, live := s.live.configSetDrive d.1 none } where
  drv e he := by rw [Disk.unmount, Disk.setDrive_drv, Function.update_of_ne he]
  heap := Disk.setDrive_heap
  img := Disk.setDrive_img
  cache _ hdrive := Disk.setDrive_cache hdrive
  config e he := LiveConfig.configSetDrive_ne _ _ he

/-- The drive holds nothing and is configured for nothing; nothing of the others changed. -/
structure Emptied (d : Fin configMaxDrive) (s s' : Station) : Prop where
  bare : s'.disk.Bare d
  config : (s'.live.cfg.drive d).1 = []
  others : Elsewhere d s s'

/-- The qualified name fits its buffer and is not empty; a drive that was empty may also be given an empty
    name or, with no configured name, one too long. -/
def Named (s : Station) (d : Fin configMaxDrive) (cwd name : CStr) : Prop :=
  match qualify cwd name with
  | some q => q ≠ [] ∨ s.disk.Bare d
  | none => s.disk.Bare d ∧ (s.live.cfg.drive d).1 = []

theorem elsewhere_refl (d : Fin configMaxDrive) (s : Station) : Elsewhere d s s :=
  ⟨fun _ _ => rfl, rfl, rfl, fun _ _ => rfl, fun _ _ => rfl⟩

theorem emptied_of_named (hcolon : ':' ∉ cwd) (hurl : tnfsIsUrl name = false) (h : Named s d cwd name)
    (hfailed : (o.cmdMount s d cwd name b fate).2.failed = true) :
    Emptied d s (o.cmdMount s d cwd name b fate).1 := by
  have hno : ¬tnfsIsUrl name = true := by simp [hurl]
  rw [cmdMount, if_neg hno] at hfailed ⊢
  cases hq : qualify cwd name with
  | none =>
    rw [Named, hq] at h
    exact ⟨h.1, h.2, elsewhere_refl d s⟩
  | some q =>
    rw [Named, hq] at h
    rw [hq] at hfailed
    obtain ⟨hlocal, hasked⟩ := qualify_asked hurl hcolon
    have hqa : q = asked cwd name := by
      rw [hq] at hasked
      exact Option.some.inj (hasked.resolve_left (by simp))
    rw [← hqa] at hlocal
    cases hmount : o.diskMount s.disk d q b fate with
    | mk w r =>
      simp only [hmount] at hfailed ⊢
      cases r with
      | ok u => cases hfailed
      | error e =>
        by_cases hne : q = []
        · -- `disk_mount` refuses the empty name and touches nothing
          have hbare := h.resolve_left (not_not_intro hne)
          have hw : w = s.disk := by
            simp only [diskMount, hne, List.isEmpty_nil, Bool.or_true, if_true] at hmount
            exact (congrArg Prod.fst hmount).symm
          subst hw
          exact ⟨hbare, configSetDrive_none .., fun _ _ => rfl, rfl, rfl, fun _ _ => rfl,
            fun e he => LiveConfig.configSetDrive_ne _ _ he⟩
        · rw [diskMount_named hne hlocal hmount]
          exact ⟨Disk.bare_unmount .., configSetDrive_none .., elsewhere_unmount s d⟩

theorem named_of_emptied (hurl : tnfsIsUrl name = false)
    (h : (o.cmdMount s d cwd name b fate).2.failed = true → Emptied d s (o.cmdMount s d cwd name b fate).1) :
    Named s d cwd name := by
  have hno : ¬tnfsIsUrl name = true := by simp [hurl]
  rw [cmdMount, if_neg hno] at h
  rw [Named]
  cases hq : qualify cwd name with
  | none =>
    rw [hq] at h
    have hemptied := h rfl
    exact ⟨hemptied.bare, hemptied.config⟩
  | some q =>
    rw [hq] at h
    by_cases hne : q = []
    · have hmount : o.diskMount s.disk d q b fate = (s.disk, .error .invalidArg) := by simp [diskMount, hne]
      simp only [hmount] at h
      exact .inr (h rfl).bare
    · exact .inl hne

/-- CORRECT: a mount of a file that fails leaves the drive empty and the others alone exactly when its name
    was passed on and was not empty, or when the drive was empty before. -/
theorem failed_mount_empties (o : Outside) (s : Station) (d : Fin configMaxDrive) {cwd name : CStr} (b : ℕ)
    (fate : Option EspErr) (hcolon : ':' ∉ cwd) (hurl : tnfsIsUrl name = false) :
    ((o.cmdMount s d cwd name b fate).2.failed = true → Emptied d s (o.cmdMount s d cwd name b fate).1) ↔
      Named s d cwd name :=
  ⟨named_of_emptied hurl, fun h hfailed => emptied_of_named hcolon hurl h hfailed⟩

/-- `A` is in drive 0. -/
def mountedA : Station := (shelf.cmdMount blank 0 [] ['A'] 0 none).1

/-- No file `B`: the drive is empty after it. -/
theorem failed_mount_empties_missing : Emptied 0 mountedA (shelf.cmdMount mountedA 0 [] ['B'] 1 none).1 :=
  (failed_mount_empties shelf mountedA 0 1 none (by decide) (by decide)).mpr
    (.inl (by decide)) (by decide +kernel)

/-- A folder of 128 bytes. -/
def longFolder : CStr := List.replicate 128 'D'

/-- After `mount 0 A`, neither `mount 0 ""` nor a name that is too long in the batch's folder takes `A` out,
    though both commands fail. -/
theorem emptyName_keeps_disk :
    ((shelf.cmdMount mountedA 0 [] [] 1 none).2.failed = true ∧
      (shelf.cmdMount mountedA 0 [] [] 1 none).1.disk.served 0 = some (.sd 1) ∧
      ¬Emptied 0 mountedA (shelf.cmdMount mountedA 0 [] [] 1 none).1) ∧
    ((shelf.cmdMount mountedA 0 longFolder longName 1 none).2.failed = true ∧
      ¬Emptied 0 mountedA (shelf.cmdMount mountedA 0 longFolder longName 1 none).1) := by
  have hserved : mountedA.disk.served 0 = some (.sd 1) := by decide +kernel
  have hmounted : (mountedA.disk.drv 0).backing = some 0 := by decide +kernel
  have hempty : (shelf.cmdMount mountedA 0 [] [] 1 none).1.disk = mountedA.disk := rfl
  have hlong : (shelf.cmdMount mountedA 0 longFolder longName 1 none).1 = mountedA := by
    have hq : qualify longFolder longName = none := by decide +kernel
    have hurl : ¬tnfsIsUrl longName = true := by decide +kernel
    rw [cmdMount, if_neg hurl, hq]
  refine ⟨⟨by decide +kernel, by rw [hempty, hserved], fun h => ?_⟩, by decide +kernel, fun h => ?_⟩
  · have hnone := h.bare.backing
    rw [hempty] at hnone
    exact absurd (hmounted.symm.trans hnone) (by simp)
  · have hnone := h.bare.backing
    rw [hlong] at hnone
    exact absurd (hmounted.symm.trans hnone) (by simp)

end Outside

end FdcSds
