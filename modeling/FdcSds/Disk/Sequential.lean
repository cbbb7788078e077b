import FdcSds.Disk.Coherence

/-! `disk_read_track` and `disk_write_track` as one caller sees them.

    The regions composed without interference: the mount table stands still, WiFi is up, backing I/O
    inside an image succeeds and the worker answers before the caller gives up. The specifications say
    which calls succeed and what they transfer; a call keeps the table and the coherence of the cache. -/

namespace FdcSds
open Schemes

namespace Disk

/-- `disk_read_track`: entry region, worker round trip for a remote drive, copy-out. -/
def diskReadTrack (w : Disk) (drive : ℕ) (track : UInt32) (len : ℕ) : Disk × Except EspErr Bytes :=
  match w.readEnter drive track len .ok with
  | ⟨w, _, .done r⟩ => (w, r)
  | ⟨w, _, .handOff⟩ =>
    match w.workerLookup drive track len false with
    | (_, none) => (w, .error .invalidState)
    | (_, some b) =>
      if w.stillMounted drive b then
        let data := w.readAt b (diskTrackOffset track (.ofNat len)) len
        let w := w.workerPublish drive track len b data
        (w, w.readCopy drive track len)
      else (w, .error .invalidState)

/-- `disk_write_track`: entry region, worker round trip for a remote drive. -/
def diskWriteTrack (w : Disk) (drive : ℕ) (track : UInt32) (len : ℕ) (data : Bytes) :
    Disk × Except EspErr Unit :=
  match w.writeEnter drive track len data .ok with
  | ⟨w, _, .done r⟩ => (w, r)
  | ⟨w, _, .handOff⟩ =>
    match w.workerLookup drive track len true with
    | (_, none) => (w, .error .invalidState)
    | (_, some b) =>
      let w := w.writeAt b (diskTrackOffset track (.ofNat len)) data
      (w.workerPublish drive track len b data, .ok ())

/-- Every slot's recorded size is the length of the image behind it. -/
def Sized (w : Disk) (content : ImageId → Bytes) : Prop :=
  ∀ d b, (w.drv d).backing = some b → (w.heap b).size.toNat = (content (w.heap b).image).length

variable {w : Disk} {content : ImageId → Bytes} {drive len b : ℕ} {track : UInt32} {data : Bytes}

theorem Serves.trackOf_length (h : w.Serves drive track len b) (hz : w.Sized content) :
    (w.trackOf content b track len).length = len := h.length_trackOf (hz _ _ h.backing).le

/-- A track that was just written reads back as the data written. -/
theorem Serves.trackOf_writeAt (h : w.Serves drive track len b) (hz : w.Sized w.img)
    (hlen : data.length = len) :
    w.trackOf (w.writeAt b (diskTrackOffset track (.ofNat len)) data).img b track len = data := by
  have hin := h.inside
  rw [Nat.add_mul, Nat.one_mul] at hin
  have hsize := hz _ _ h.backing
  rw [trackOf, h.writeAt_img, Function.update_self, ← hlen]
  exact slice_patch (by rw [hlen]; omega)

/-! ### The worker's lookup -/

theorem workerLookup_some {write : Bool} (hlen : len ≤ diskTrackBufSize) :
    (w.workerLookup drive track len write).2 = some b ↔
      w.Serves drive track len b ∧ (w.drv drive).remote = true ∧
        ¬(write = true ∧ (w.drv drive).readonly = true) := by
  unfold workerLookup driveOk
  constructor
  · intro h
    dsimp only at h
    split at h
    · rename_i hk
      simp only [Bool.and_eq_true, decide_eq_true_eq, Bool.not_eq_true', Bool.and_eq_false_iff] at hk
      obtain ⟨⟨⟨hd, hm⟩, hr⟩, hw⟩ := hk
      split at h
      · rename_i b' hb
        dsimp only at h
        split at h
        · rename_i hin
          obtain ⟨hpos, hin⟩ := (inBounds_len hlen _).mp hin
          obtain rfl : b' = b := by simpa using h
          refine ⟨⟨hd, hpos, hlen, hm, hb, hin⟩, hr, ?_⟩
          rintro ⟨h₁, h₂⟩
          rcases hw with hw | hw <;> simp_all
        · cases h
      · cases h
    · cases h
  · rintro ⟨⟨hd, hpos, hle, hm, hb, hin⟩, hr, hw⟩
    have hk : (decide (drive < diskMaxDrive) && (w.drv drive).mounted && (w.drv drive).remote &&
        !(write && (w.drv drive).readonly)) = true := by
      simp only [hd, hm, hr, decide_true, Bool.and_true, Bool.true_and, Bool.not_eq_true']
      cases write <;> simp_all
    simp only [hk, if_true, hb, (inBounds_len hle _).mpr ⟨hpos, hin⟩]

theorem Serves.stillMounted (h : w.Serves drive track len b) : w.stillMounted drive b = true := by
  simp [Disk.stillMounted, h.mounted, h.backing]

/-! ### Reading -/

/-- A read hands out exactly the served tracks, as the images have them; the table, the images and
    the coherence of the cache stay. -/
theorem diskReadTrack_spec (hc : w.Coherent w.img) (hz : w.Sized w.img) (drive : ℕ) (track : UInt32)
    (len : ℕ) :
    ∃ w', ∃ r, w.diskReadTrack drive track len = (w', r) ∧ w'.Coherent w.img ∧ w'.drv = w.drv ∧
      w'.heap = w.heap ∧ w'.img = w.img ∧
      ((∃ e, r = .error e ∧ ∀ b, ¬w.Serves drive track len b) ∨
        ∃ b, w.Serves drive track len b ∧ r = .ok (w.trackOf w.img b track len)) := by
  unfold diskReadTrack
  rcases readEnter_cases w drive track len .ok with ⟨e, hr, hno⟩ | ⟨b, hs, hcase⟩
  · rw [hr]
    exact ⟨w, _, rfl, hc, rfl, rfl, rfl, .inl ⟨e, rfl, hno⟩⟩
  rcases hcase with ⟨data, hhit, hr⟩ | ⟨hmiss, hrem, hr⟩ | ⟨hmiss, hloc, -, hr⟩ | ⟨_, _, _, hio, _⟩
  · obtain ⟨b', hs', rfl⟩ := hc.copyOut hhit
    obtain rfl := hs.unique hs'
    rw [hr]
    exact ⟨w, _, rfl, hc, rfl, rfl, rfl, .inr ⟨b, hs, rfl⟩⟩
  · -- the worker's round trip: it finds the same backing, and nothing moves before the copy-out
    have hlook : w.workerLookup drive track len false = ((w.workerLookup drive track len false).1, some b) :=
      Prod.ext rfl ((workerLookup_some hs.len_le).mpr ⟨hs, hrem, by simp⟩)
    have hlen := hs.trackOf_length hz
    have hcopy : (w.fill drive track len (w.trackOf w.img b track len)).readCopy drive track len
        = .ok (w.trackOf w.img b track len) := by
      have : (w.fill drive track len (w.trackOf w.img b track len)).buf.take len
          = w.trackOf w.img b track len := take_memcpy hlen
      simp [readCopy, cacheCopyOut, this]
    rw [hr]
    dsimp only
    rw [hlook]
    simp only [hs.stillMounted, if_true, workerPublish, hs.readAt, hcopy]
    exact ⟨_, _, rfl, .fill hs hlen rfl, rfl, rfl, rfl, .inr ⟨b, hs, rfl⟩⟩
  · rw [hr]
    exact ⟨_, _, rfl, .fill hs (hs.trackOf_length hz) rfl, rfl, rfl, rfl, .inr ⟨b, hs, rfl⟩⟩
  · cases hio

/-! ### Writing -/

/-- A write succeeds exactly on a served, writable track, and then changes only those bytes. -/
theorem diskWriteTrack_spec (hc : w.Coherent w.img) (hz : w.Sized w.img) (drive : ℕ) (track : UInt32)
    (hlen : data.length = len) :
    ∃ w', ∃ r, w.diskWriteTrack drive track len data = (w', r) ∧ w'.Coherent w'.img ∧
      w'.drv = w.drv ∧ w'.heap = w.heap ∧
      ((∃ e, r = .error e ∧ w'.img = w.img ∧
          ∀ b, w.Serves drive track len b → (w.drv drive).readonly = true) ∨
        ∃ b, w.Serves drive track len b ∧ (w.drv drive).readonly = false ∧ r = .ok () ∧
          w'.img = Function.update w.img (w.heap b).image
            (patch (w.img (w.heap b).image) (track.toNat * len) data)) := by
  unfold diskWriteTrack
  rcases writeEnter_cases w drive track len data .ok with ⟨e, hr, hno⟩ | ⟨b, hs, hcase⟩
  · rw [hr]
    exact ⟨w, _, rfl, hc, rfl, rfl, .inl ⟨e, rfl, rfl, fun b h => absurd h (hno b)⟩⟩
  have hfill : ((w.writeAt b (diskTrackOffset track (.ofNat len)) data).fill drive track len
      data).Coherent (w.writeAt b (diskTrackOffset track (.ofNat len)) data).img := by
    refine .fill (b := b) (hs.congr rfl rfl) hlen ?_
    exact (hs.trackOf_writeAt hz hlen).symm
  rcases hcase with ⟨hro, hr⟩ | ⟨hro, hrem, hr⟩ | ⟨hro, hloc, -, hr⟩ | ⟨_, _, _, hio, _⟩
  · rw [hr]
    exact ⟨w, _, rfl, hc, rfl, rfl, .inl ⟨_, rfl, rfl, fun _ _ => hro⟩⟩
  · have hlook : w.workerLookup drive track len true = ((w.workerLookup drive track len true).1, some b) :=
      Prod.ext rfl ((workerLookup_some hs.len_le).mpr ⟨hs, hrem, by simp [hro]⟩)
    have hstill : (w.writeAt b (diskTrackOffset track (.ofNat len)) data).stillMounted drive b = true :=
      hs.stillMounted
    rw [hr]
    dsimp only
    rw [hlook]
    simp only [workerPublish, hstill, if_true]
    exact ⟨_, _, rfl, hfill, rfl, rfl, .inr ⟨b, hs, hro, rfl, hs.writeAt_img⟩⟩
  · rw [hr]
    exact ⟨_, _, rfl, hfill, rfl, rfl, .inr ⟨b, hs, hro, rfl, hs.writeAt_img⟩⟩
  · cases hio

end Disk

end FdcSds
