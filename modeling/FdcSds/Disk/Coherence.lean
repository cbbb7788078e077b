import FdcSds.Disk.Table

/-! Coherence of the one-entry cache.

    The shared buffer, when the cache calls it valid, holds the track the cache names, as the image
    behind that drive has it. What an image "has" is a parameter `content`: the sequential engine
    takes the images themselves, the concurrent machine the images as left by the completed writes.

        cache = ⟨true, d, t, len⟩  ⟹  buf[0 .. len) = content (image on d) [t·len .. t·len + len) -/

namespace FdcSds
open Schemes

namespace Disk

/-- The bytes of a track as `content` has them. -/
def trackOf (w : Disk) (content : ImageId → Bytes) (b : ℕ) (track : UInt32) (len : ℕ) : Bytes :=
  slice (content (w.heap b).image) (track.toNat * len) len

/-- `check_track` passes for this drive, track and length, on this backing. -/
structure Serves (w : Disk) (drive : ℕ) (track : UInt32) (len b : ℕ) : Prop where
  drive_lt : drive < diskMaxDrive
  len_pos : 0 < len
  len_le : len ≤ diskTrackBufSize
  mounted : (w.drv drive).mounted = true
  backing : (w.drv drive).backing = some b
  inside : (track.toNat + 1) * len ≤ (w.heap b).size.toNat

/-- The cache tells the truth about `content`. -/
def Coherent (w : Disk) (content : ImageId → Bytes) : Prop :=
  w.cache.valid = true → ∃ b, w.Serves w.cache.drive w.cache.track w.cache.len b ∧
    w.buf.take w.cache.len = w.trackOf content b w.cache.track w.cache.len

variable {w : Disk} {content : ImageId → Bytes} {drive len b : ℕ} {track : UInt32} {data : Bytes}

/-! ### check_track -/

theorem toNat_len (h : len ≤ diskTrackBufSize) : (UInt32.ofNat len).toNat = len := by
  rw [UInt32.toNat_ofNat']
  exact Nat.mod_eq_of_lt (Nat.lt_of_le_of_lt h (by decide))

theorem inBounds_len (h : len ≤ diskTrackBufSize) (size : UInt32) :
    diskTrackInBounds track (.ofNat len) size = true ↔
      0 < len ∧ (track.toNat + 1) * len ≤ size.toNat := by
  rw [inBounds_iff, toNat_len h]

theorem checkTrack_ok : (w.checkTrack drive track len).2 = .ok b ↔ w.Serves drive track len b := by
  unfold checkTrack driveOk
  constructor
  · intro h
    split at h
    · cases h
    split at h
    · cases h
    rename_i hd hl
    simp only [Bool.not_eq_true', decide_eq_false_iff_not, Classical.not_not] at hd
    simp only [Bool.or_eq_true, beq_iff_eq, decide_eq_true_eq, not_or] at hl
    split at h
    · rename_i b' hm hb
      dsimp only at h
      split at h
      · rename_i hin
        obtain rfl : b' = b := by simpa using h
        exact ⟨hd, by omega, by omega, hm, hb, ((inBounds_len (by omega) _).mp hin).2⟩
      · cases h
    · cases h
  · rintro ⟨hd, hpos, hle, hm, hb, hin⟩
    have hl : (len == 0 || decide (diskTrackBufSize < len)) = false := by
      simp only [Bool.or_eq_false_iff, beq_eq_false_iff_ne, decide_eq_false_iff_not]; omega
    simp only [hd, decide_true, Bool.not_true, Bool.false_eq_true, if_false, hl, hm, hb,
      (inBounds_len hle _).mpr ⟨hpos, hin⟩, if_true]

theorem Serves.offset (h : w.Serves drive track len b) :
    (diskTrackOffset track (.ofNat len)).toNat = track.toNat * len := by
  rw [toNat_trackOffset ((inBounds_len h.len_le _).mpr ⟨h.len_pos, h.inside⟩), toNat_len h.len_le]

/-- A served track of an image at least as long as the recorded size has all its bytes. -/
theorem Serves.length_trackOf (h : w.Serves drive track len b)
    (hs : (w.heap b).size.toNat ≤ (content (w.heap b).image).length) :
    (w.trackOf content b track len).length = len := by
  have hin := h.inside
  rw [Nat.add_mul, Nat.one_mul] at hin
  exact length_slice (by omega)

theorem Serves.unique {b' : ℕ} (h : w.Serves drive track len b) (h' : w.Serves drive track len b') :
    b = b' := by
  simpa [h.backing] using h'.backing

theorem Serves.readAt (h : w.Serves drive track len b) :
    w.readAt b (diskTrackOffset track (.ofNat len)) len = w.trackOf w.img b track len := by
  rw [Disk.readAt, h.offset, trackOf]

theorem Serves.writeAt_img (h : w.Serves drive track len b) :
    (w.writeAt b (diskTrackOffset track (.ofNat len)) data).img =
      Function.update w.img (w.heap b).image
        (patch (w.img (w.heap b).image) (track.toNat * len) data) := by
  rw [Disk.writeAt, h.offset]

/-- Being served only depends on the slot and the recorded size. -/
theorem Serves.congr {w' : Disk} (h : w.Serves drive track len b)
    (hd : w'.drv drive = w.drv drive) (hh : w'.heap b = w.heap b) : w'.Serves drive track len b :=
  ⟨h.drive_lt, h.len_pos, h.len_le, hd ▸ h.mounted, hd ▸ h.backing, hh ▸ h.inside⟩

/-! ### cache_copy_out -/

theorem cacheCopyOut_some (h : w.cacheCopyOut drive track len = some data) :
    w.cache = ⟨true, drive, track, len⟩ ∧ data = w.buf.take len := by
  unfold cacheCopyOut at h
  split at h
  · rename_i hk
    simp only [Bool.and_eq_true, beq_iff_eq] at hk
    obtain ⟨⟨⟨hv, hd⟩, ht⟩, hl⟩ := hk
    refine ⟨?_, by simpa using h.symm⟩
    rw [← hv, ← hd, ← ht, ← hl]
  · cases h

/-- CORRECT: what a coherent cache hands out is the track it was asked for. -/
theorem Coherent.copyOut (hc : w.Coherent content) (h : w.cacheCopyOut drive track len = some data) :
    ∃ b, w.Serves drive track len b ∧ data = w.trackOf content b track len := by
  obtain ⟨hk, rfl⟩ := cacheCopyOut_some h
  obtain ⟨b, hs, hb⟩ := hc (by rw [hk])
  rw [hk] at hs hb
  exact ⟨b, hs, hb⟩

/-! ### What each update leaves alone -/

@[simp] theorem fill_drv : (w.fill drive track len data).drv = w.drv := rfl
@[simp] theorem fill_heap : (w.fill drive track len data).heap = w.heap := rfl
@[simp] theorem fill_img : (w.fill drive track len data).img = w.img := rfl
@[simp] theorem fill_cache : (w.fill drive track len data).cache = ⟨true, drive, track, len⟩ := rfl
@[simp] theorem writeAt_drv {off : UInt32} : (w.writeAt b off data).drv = w.drv := rfl
@[simp] theorem writeAt_heap {off : UInt32} : (w.writeAt b off data).heap = w.heap := rfl
@[simp] theorem writeAt_buf {off : UInt32} : (w.writeAt b off data).buf = w.buf := rfl
@[simp] theorem writeAt_cache {off : UInt32} : (w.writeAt b off data).cache = w.cache := rfl
@[simp] theorem cacheDrop_valid : w.cacheDrop.cache.valid = false := rfl
@[simp] theorem cacheDrop_drv : w.cacheDrop.drv = w.drv := rfl
@[simp] theorem cacheDrop_heap : w.cacheDrop.heap = w.heap := rfl
@[simp] theorem cacheDrop_img : w.cacheDrop.img = w.img := rfl

@[simp] theorem cacheDropDrive_drv : (w.cacheDropDrive drive).drv = w.drv := by
  unfold cacheDropDrive; split <;> rfl
@[simp] theorem cacheDropDrive_heap : (w.cacheDropDrive drive).heap = w.heap := by
  unfold cacheDropDrive; split <;> rfl
@[simp] theorem cacheDropDrive_img : (w.cacheDropDrive drive).img = w.img := by
  unfold cacheDropDrive; split <;> rfl
@[simp] theorem cacheDropDrive_buf : (w.cacheDropDrive drive).buf = w.buf := by
  unfold cacheDropDrive; split <;> rfl

/-! ### The regions of a track call, case by case -/

theorem checkTrack_of_serves (h : w.Serves drive track len b) :
    w.checkTrack drive track len = ([(.size, b)], .ok b) := by
  refine Prod.ext ?_ (checkTrack_ok.mpr h)
  have hl : (len == 0 || decide (diskTrackBufSize < len)) = false := by
    have := h.len_pos
    have := h.len_le
    simp only [Bool.or_eq_false_iff, beq_eq_false_iff_ne, decide_eq_false_iff_not]; omega
  simp only [checkTrack, driveOk, h.drive_lt, decide_true, Bool.not_true, Bool.false_eq_true, if_false,
    hl, h.mounted, h.backing]

/-- The only backing `check_track` may ask is the slot's own, and only for its size. -/
theorem checkTrack_calls {m : Method} {x : ℕ} (h : (m, x) ∈ (w.checkTrack drive track len).1) :
    m = .size ∧ (w.drv drive).backing = some x := by
  unfold checkTrack at h
  split at h
  · cases h
  split at h
  · cases h
  split at h
  · rename_i hb
    simp only [List.mem_singleton, Prod.mk.injEq] at h
    exact ⟨h.1, h.2 ▸ hb⟩
  · cases h

theorem readEnter_cases (w : Disk) (drive : ℕ) (track : UInt32) (len : ℕ) (io : ReadIo) :
    (∃ e, w.readEnter drive track len io
        = ⟨w, (w.checkTrack drive track len).1, .done (.error e)⟩ ∧
      ∀ b, ¬w.Serves drive track len b) ∨
    ∃ b, w.Serves drive track len b ∧
      ((∃ data, w.cacheCopyOut drive track len = some data ∧
          w.readEnter drive track len io = ⟨w, [(.size, b)], .done (.ok data)⟩) ∨
        (w.cacheCopyOut drive track len = none ∧ (w.drv drive).remote = true ∧
          w.readEnter drive track len io = ⟨w, [(.size, b)], .handOff⟩) ∨
        (w.cacheCopyOut drive track len = none ∧ (w.drv drive).remote = false ∧ io = .ok ∧
          w.readEnter drive track len io =
            ⟨w.fill drive track len (w.trackOf w.img b track len), [(.size, b), (.read, b)],
              .done (.ok (w.trackOf w.img b track len))⟩) ∨
        (w.cacheCopyOut drive track len = none ∧ (w.drv drive).remote = false ∧
          ∃ junk, io = .failed junk ∧
          w.readEnter drive track len io =
            ⟨{ w with buf := memcpy w.buf (junk.take len) }.cacheDrop, [(.size, b), (.read, b)],
              .done (.error .fail)⟩)) := by
  rcases hchk : w.checkTrack drive track len with ⟨asked, e | b⟩
  · refine .inl ⟨e, by simp [readEnter, hchk], fun b hs => ?_⟩
    rw [checkTrack_of_serves hs] at hchk
    cases hchk
  have hs : w.Serves drive track len b := checkTrack_ok.mp (by rw [hchk])
  obtain rfl : asked = [(.size, b)] := by
    rw [checkTrack_of_serves hs] at hchk
    exact (Prod.mk.inj hchk).1.symm
  refine .inr ⟨b, hs, ?_⟩
  rcases hcopy : w.cacheCopyOut drive track len with _ | data
  · cases hrem : (w.drv drive).remote with
    | true => exact .inr (.inl ⟨rfl, rfl, by simp [readEnter, hchk, hcopy, hrem]⟩)
    | false =>
      cases io with
      | ok => exact .inr (.inr (.inl ⟨rfl, rfl, rfl, by simp [readEnter, hchk, hcopy, hrem, hs.readAt]⟩))
      | failed junk =>
        exact .inr (.inr (.inr ⟨rfl, rfl, junk, rfl, by simp [readEnter, hchk, hcopy, hrem]⟩))
  · exact .inl ⟨data, rfl, by simp [readEnter, hchk, hcopy]⟩

theorem writeEnter_cases (w : Disk) (drive : ℕ) (track : UInt32) (len : ℕ) (data : Bytes)
    (io : WriteIo) :
    (∃ e, w.writeEnter drive track len data io
        = ⟨w, (w.checkTrack drive track len).1, .done (.error e)⟩ ∧
      ∀ b, ¬w.Serves drive track len b) ∨
    ∃ b, w.Serves drive track len b ∧
      (((w.drv drive).readonly = true ∧
          w.writeEnter drive track len data io = ⟨w, [(.size, b)], .done (.error .notSupported)⟩) ∨
        ((w.drv drive).readonly = false ∧ (w.drv drive).remote = true ∧
          w.writeEnter drive track len data io = ⟨w, [(.size, b)], .handOff⟩) ∨
        ((w.drv drive).readonly = false ∧ (w.drv drive).remote = false ∧ io = .ok ∧
          w.writeEnter drive track len data io =
            ⟨(w.writeAt b (diskTrackOffset track (.ofNat len)) data).fill drive track len data,
              [(.size, b), (.write, b)], .done (.ok ())⟩) ∨
        ((w.drv drive).readonly = false ∧ (w.drv drive).remote = false ∧
          ∃ junk, io = .failed junk ∧
          w.writeEnter drive track len data io =
            ⟨(w.writeAt b (diskTrackOffset track (.ofNat len)) (junk.take len)).cacheDropDrive drive,
              [(.size, b), (.write, b)], .done (.error .fail)⟩)) := by
  rcases hchk : w.checkTrack drive track len with ⟨asked, e | b⟩
  · refine .inl ⟨e, by simp [writeEnter, hchk], fun b hs => ?_⟩
    rw [checkTrack_of_serves hs] at hchk
    cases hchk
  have hs : w.Serves drive track len b := checkTrack_ok.mp (by rw [hchk])
  obtain rfl : asked = [(.size, b)] := by
    rw [checkTrack_of_serves hs] at hchk
    exact (Prod.mk.inj hchk).1.symm
  refine .inr ⟨b, hs, ?_⟩
  cases hro : (w.drv drive).readonly with
  | true => exact .inl ⟨rfl, by simp [writeEnter, hchk, hro]⟩
  | false =>
    cases hrem : (w.drv drive).remote with
    | true => exact .inr (.inl ⟨rfl, rfl, by simp [writeEnter, hchk, hro, hrem]⟩)
    | false =>
      cases io with
      | ok => exact .inr (.inr (.inl ⟨rfl, rfl, rfl, by simp [writeEnter, hchk, hro, hrem]⟩))
      | failed junk =>
        exact .inr (.inr (.inr ⟨rfl, rfl, junk, rfl, by simp [writeEnter, hchk, hro, hrem]⟩))

/-- What a track call's first region may touch: the buffer, the cache and (a write) the images. -/
theorem readEnter_keeps (w : Disk) (drive : ℕ) (track : UInt32) (len : ℕ) (io : ReadIo) :
    let r := w.readEnter drive track len io
    r.disk.drv = w.drv ∧ r.disk.heap = w.heap ∧ r.disk.img = w.img ∧
      ∀ m ∈ r.calls, m.1 ≠ .close ∧ (w.drv drive).backing = some m.2 ∧
        (m.1 = .size ∨ (w.drv drive).remote = false) := by
  rcases readEnter_cases w drive track len io with ⟨e, hr, -⟩ | ⟨b, hs, hcase⟩
  · rw [hr]
    refine ⟨rfl, rfl, rfl, fun m hm => ?_⟩
    obtain ⟨hsize, hb⟩ := checkTrack_calls hm
    exact ⟨by rw [hsize]; decide, hb, .inl hsize⟩
  · rcases hcase with ⟨_, -, hr⟩ | ⟨-, -, hr⟩ | ⟨-, hloc, -, hr⟩ | ⟨-, hloc, _, -, hr⟩ <;> rw [hr] <;>
      simp [hs.backing, *]

theorem writeEnter_keeps (w : Disk) (drive : ℕ) (track : UInt32) (len : ℕ) (data : Bytes)
    (io : WriteIo) :
    let r := w.writeEnter drive track len data io
    r.disk.drv = w.drv ∧ r.disk.heap = w.heap ∧
      ∀ m ∈ r.calls, m.1 ≠ .close ∧ (w.drv drive).backing = some m.2 ∧
        (m.1 = .size ∨ (w.drv drive).remote = false) := by
  rcases writeEnter_cases w drive track len data io with ⟨e, hr, -⟩ | ⟨b, hs, hcase⟩
  · rw [hr]
    refine ⟨rfl, rfl, fun m hm => ?_⟩
    obtain ⟨hsize, hb⟩ := checkTrack_calls hm
    exact ⟨by rw [hsize]; decide, hb, .inl hsize⟩
  · rcases hcase with ⟨-, hr⟩ | ⟨-, -, hr⟩ | ⟨-, hloc, -, hr⟩ | ⟨-, hloc, _, -, hr⟩ <;> rw [hr] <;>
      simp [hs.backing, *]

/-- The worker's lookup asks at most the size of the drive's backing, and gives only that backing, of
    a mounted remote drive. -/
theorem workerLookup_keeps (w : Disk) (drive : ℕ) (track : UInt32) (len : ℕ) (write : Bool) :
    (∀ m ∈ (w.workerLookup drive track len write).1, m.1 = .size ∧ (w.drv drive).backing = some m.2) ∧
      ∀ b, (w.workerLookup drive track len write).2 = some b →
        (w.drv drive).backing = some b ∧ (w.drv drive).remote = true := by
  unfold workerLookup
  dsimp only
  split
  · rename_i hk
    simp only [Bool.and_eq_true] at hk
    rcases hb : (w.drv drive).backing with _ | x
    · exact ⟨by simp, by simp⟩
    · refine ⟨fun m hm => ?_, fun b h => ?_⟩
      · obtain rfl := List.mem_singleton.mp hm
        exact ⟨rfl, rfl⟩
      · dsimp only at h
        split at h
        · exact ⟨h, hk.1.2⟩
        · cases h
  · exact ⟨by simp, by simp⟩

/-! ### Steps that keep the cache coherent -/

/-- After the drop, a valid cache is the old one and speaks of another drive. -/
theorem cacheDropDrive_valid (h : (w.cacheDropDrive drive).cache.valid = true) :
    w.cacheDropDrive drive = w ∧ w.cache.drive ≠ drive := by
  unfold cacheDropDrive at h ⊢
  split at h
  · cases h
  · rename_i hk
    rw [if_neg hk]
    refine ⟨rfl, fun hd => hk ?_⟩
    simp only [h, hd, beq_self_eq_true, Bool.and_self]

@[simp] theorem setDrive_heap {new : Drive} : (w.setDrive drive new).heap = w.heap := by
  simp [setDrive]
@[simp] theorem setDrive_img {new : Drive} : (w.setDrive drive new).img = w.img := by
  simp [setDrive]
@[simp] theorem setDrive_buf {new : Drive} : (w.setDrive drive new).buf = w.buf := by
  simp [setDrive]
@[simp] theorem setDrive_drv {new : Drive} :
    (w.setDrive drive new).drv = Function.update w.drv drive new := by
  simp [setDrive]

theorem Coherent.cacheDrop : w.cacheDrop.Coherent content := by
  intro h; cases h

/-- Filling the buffer with the track itself. -/
theorem Coherent.fill (hs : w.Serves drive track len b) (hlen : data.length = len)
    (hd : data = w.trackOf content b track len) : (w.fill drive track len data).Coherent content := by
  intro _
  refine ⟨b, hs.congr rfl rfl, ?_⟩
  exact (take_memcpy hlen).trans hd

/-- A slot changes hands: the cache of that drive is gone, any other is untouched. -/
theorem Coherent.setDrive {new : Drive} (hc : w.Coherent content) :
    (w.setDrive drive new).Coherent content := by
  intro hv
  obtain ⟨heq, hne⟩ := cacheDropDrive_valid hv
  have hw : w.setDrive drive new = { w with drv := Function.update w.drv drive new } := heq
  rw [hw] at hv ⊢
  obtain ⟨b, hs, hb⟩ := hc hv
  exact ⟨b, hs.congr (Function.update_of_ne hne ..) rfl, hb⟩

/-- The images change, but not the one behind the cached drive. -/
theorem Coherent.of_content {content' : ImageId → Bytes} (hc : w.Coherent content)
    (h : ∀ b, (w.drv w.cache.drive).backing = some b →
      content' (w.heap b).image = content (w.heap b).image) : w.Coherent content' := by
  intro hv
  obtain ⟨b, hs, hb⟩ := hc hv
  refine ⟨b, hs, hb.trans ?_⟩
  rw [trackOf, trackOf, h b hs.backing]

/-- Only the slots, the buffer, the cache and the recorded sizes matter. -/
theorem Coherent.congr {w' : Disk} (hc : w.Coherent content) (hd : w'.drv = w.drv)
    (hb : w'.buf = w.buf) (hk : w'.cache = w.cache)
    (hh : ∀ d b, (w.drv d).backing = some b → w'.heap b = w.heap b) : w'.Coherent content := by
  intro hv
  rw [hk] at hv ⊢
  obtain ⟨b, hs, hbuf⟩ := hc hv
  refine ⟨b, hs.congr (by rw [hd]) (hh _ _ hs.backing), ?_⟩
  rw [hb, hbuf, trackOf, trackOf, hh _ _ hs.backing]

end Disk

end FdcSds
