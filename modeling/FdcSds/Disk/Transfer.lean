import FdcSds.Disk.Requests

/-! The worker's transfers, outside the lock.

    `settled` is what the completed writes left in each image. It agrees with the images themselves,
    except that a write in progress on the worker may have torn the bytes it covers. The cache is
    coherent with `settled`. What carries this across the worker's unlocked I/O is that no other slot can
    come to hold the image it works on: only the worker installs remote images, and it is busy.

        settled ──(completed writes)── replay base writes
           ║ coherent                    ║ equal, or torn by the write in progress
         cache, buf                    images                                    -/

namespace FdcSds
open Schemes Runs

/-! ### What the worker does outside the lock -/

/-- The job the worker transfers for, and the backing it uses. -/
def WorkerPc.borrowing : WorkerPc → Option (Job × ℕ)
  | .found j b | .io j b | .fetched j b _ | .written j b _ _ => some (j, b)
  | _ => none

/-- The write the worker has begun, with the bytes it left once the transfer is over. -/
def WorkerPc.writing : WorkerPc → Option (ℕ × UInt32 × ℕ × Option Bytes)
  | .io j b => match j.kind with
    | .request (.write _ track len _ _) => some (b, track, len, none)
    | _ => none
  | .written j b _ left => match j.kind with
    | .request (.write _ track len _ _) => some (b, track, len, some left)
    | _ => none
  | _ => none

/-- What the worker may rely on about the backing it uses: no other slot holds its image. -/
structure Uses (w : Disk) (next drive : ℕ) (track : UInt32) (len b : ℕ) : Prop where
  drive_lt : drive < diskMaxDrive
  lt : b < next
  remote : (w.heap b).image.remote = true
  len_pos : 0 < len
  len_le : len ≤ diskTrackBufSize
  inside : (track.toNat + 1) * len ≤ (w.heap b).size.toNat
  only : ∀ e < diskMaxDrive, ∀ b', (w.drv e).backing = some b' →
    (w.heap b').image = (w.heap b).image → e = drive ∧ b' = b

/-- The images are what the completed writes left, but for the bytes a write in progress covers. -/
def Agrees (w : Disk) (settled : ImageId → Bytes) : Option (ℕ × UInt32 × ℕ × Option Bytes) → Prop
  | none => w.img = settled
  | some (b, track, len, left) => ∃ bytes : Bytes, bytes.length = len ∧ (∀ x ∈ left, bytes = x) ∧
      w.img = Function.update settled (w.heap b).image
        (patch (settled (w.heap b).image) (track.toNat * len) bytes)

/-- The invariant behind fresh reads. -/
structure Fresh (w : Disk) (next : ℕ) (worker : WorkerPc) (settled : ImageId → Bytes) : Prop where
  coherent : w.Coherent settled
  sized : ∀ b < next, (w.heap b).size.toNat = (settled (w.heap b).image).length
  agrees : Agrees w settled worker.writing
  uses : ∀ j b drive track len write, worker.borrowing = some (j, b) →
    j.kind.transfer = some (drive, track, len, write) → Uses w next drive track len b
  fetched : ∀ j b data drive track len write, worker = .fetched j b data →
    j.kind.transfer = some (drive, track, len, write) → data = w.trackOf settled b track len

variable {w w' : Disk} {next next' drive len b : ℕ} {track : UInt32} {worker worker' : WorkerPc}
  {settled : ImageId → Bytes}

/-- The worker's reliance survives any change that puts at most local images into slots. -/
theorem Uses.table (h : Uses w next drive track len b) (hn : next ≤ next')
    (hh : ∀ b < next, w'.heap b = w.heap b)
    (hd : ∀ e b, (w'.drv e).backing = some b →
      ((w.drv e).backing = some b ∧ b < next) ∨ (w'.heap b).image.remote = false) :
    Uses w' next' drive track len b := by
  have hb := hh b h.lt
  refine ⟨h.drive_lt, Nat.lt_of_lt_of_le h.lt hn, by rw [hb]; exact h.remote, h.len_pos, h.len_le,
    by rw [hb]; exact h.inside, fun e he b' hslot heq => ?_⟩
  rcases hd e b' hslot with ⟨hold, hlt⟩ | hloc
  · rw [hh b' hlt, hb] at heq
    exact h.only e he b' hold heq
  · rw [heq, hb, h.remote] at hloc
    cases hloc

theorem Uses.congr (h : Uses w next drive track len b) (hd : w'.drv = w.drv) (hh : w'.heap = w.heap) :
    Uses w' next drive track len b :=
  ⟨h.drive_lt, h.lt, hh ▸ h.remote, h.len_pos, h.len_le, hh ▸ h.inside, by rw [hd, hh]; exact h.only⟩

theorem Uses.inBounds (h : Uses w next drive track len b) :
    diskTrackInBounds track (.ofNat len) (w.heap b).size = true :=
  (Disk.inBounds_len h.len_le _).mpr ⟨h.len_pos, h.inside⟩

theorem Uses.offset (h : Uses w next drive track len b) :
    (diskTrackOffset track (.ofNat len)).toNat = track.toNat * len := by
  rw [toNat_trackOffset h.inBounds, Disk.toNat_len h.len_le]

/-- While the slot still holds the backing, its track is served. -/
theorem Uses.serves (h : Uses w next drive track len b) (hs : w.stillMounted drive b = true) :
    w.Serves drive track len b := by
  simp only [Disk.stillMounted, Bool.and_eq_true, beq_iff_eq] at hs
  exact ⟨h.drive_lt, h.len_pos, h.len_le, hs.1, hs.2, h.inside⟩

/-! ### Keeping the invariant -/

theorem Fresh.inside (h : Fresh w next worker settled) (hu : Uses w next drive track len b) :
    track.toNat * len + len ≤ (settled (w.heap b).image).length := by
  have hin := hu.inside
  rw [h.sized b hu.lt, Nat.add_mul, Nat.one_mul] at hin
  exact hin

/-- Only the image of the write in progress may differ from what the completed writes left. -/
theorem Agrees.img {wr : Option (ℕ × UInt32 × ℕ × Option Bytes)} (h : Agrees w settled wr)
    {i : ImageId} (hi : ∀ x ∈ wr, (w.heap x.1).image ≠ i) : w.img i = settled i := by
  match wr, h with
  | none, h => rw [show w.img = settled from h]
  | some (b, track, len, left), ⟨bytes, _, _, himg⟩ =>
    rw [himg, Function.update_of_ne (hi _ rfl).symm]

theorem WorkerPc.borrowing_of_writing {left : Option Bytes}
    (h : worker.writing = some (b, track, len, left)) :
    ∃ j drive, worker.borrowing = some (j, b) ∧ j.kind.transfer = some (drive, track, len, true) := by
  cases worker <;> simp only [writing, reduceCtorEq] at h
  all_goals
    split at h
    · rename_i hk
      simp only [Option.some.injEq, Prod.mk.injEq] at h
      obtain ⟨rfl, rfl, rfl, -⟩ := h
      exact ⟨_, _, rfl, by rw [hk]; rfl⟩
    · cases h

theorem WorkerPc.writing_of_borrowing (h : worker.borrowing = none) : worker.writing = none := by
  rcases hw : worker.writing with _ | ⟨b, track, len, left⟩
  · rfl
  · obtain ⟨j, drive, hbor, -⟩ := WorkerPc.borrowing_of_writing hw
    rw [h] at hbor; cases hbor

/-- A write in progress is on a backing the worker relies on. -/
theorem Fresh.writes (h : Fresh w next worker settled) {left : Option Bytes}
    (hw : worker.writing = some (b, track, len, left)) : ∃ drive, Uses w next drive track len b := by
  obtain ⟨j, drive, hbor, hk⟩ := WorkerPc.borrowing_of_writing hw
  exact ⟨drive, h.uses j b drive track len true hbor hk⟩

/-- No write in progress touches a local image. -/
theorem Fresh.local_img (h : Fresh w next worker settled) {i : ImageId} (hi : i.remote = false) :
    w.img i = settled i := by
  refine h.agrees.img fun ⟨b, track, len, left⟩ hw heq => ?_
  obtain ⟨drive, hu⟩ := h.writes hw
  have hrem := hu.remote
  rw [heq, hi] at hrem
  cases hrem

theorem Fresh.length_img (h : Fresh w next worker settled) (i : ImageId) :
    (w.img i).length = (settled i).length := by
  have hagrees := h.agrees
  rcases hw : worker.writing with _ | ⟨b, track, len, left⟩
  · rw [hw] at hagrees
    rw [show w.img = settled from hagrees]
  · rw [hw] at hagrees
    obtain ⟨bytes, rfl, -, himg⟩ := hagrees
    obtain ⟨drive, hu⟩ := h.writes hw
    rw [himg]
    rcases eq_or_ne i (w.heap b).image with rfl | hne
    · rw [Function.update_self, length_patch (h.inside hu)]
    · rw [Function.update_of_ne hne]

/-- The table, the buffer or the heap changes; the images and the completed writes stay. -/
theorem Fresh.table (h : Fresh w next worker settled) (hn : next ≤ next')
    (hh : ∀ b < next, w'.heap b = w.heap b) (hi : w'.img = w.img) (hc : w'.Coherent settled)
    (hd : ∀ e b, (w'.drv e).backing = some b →
      ((w.drv e).backing = some b ∧ b < next) ∨ (w'.heap b).image.remote = false)
    (hz : ∀ b < next', next ≤ b → (w'.heap b).size.toNat = (settled (w'.heap b).image).length) :
    Fresh w' next' worker settled := by
  refine ⟨hc, fun b hb => ?_, ?_, fun j b drive track len write hbor hk =>
    (h.uses j b drive track len write hbor hk).table hn hh hd,
    fun j b data drive track len write hf hk => ?_⟩
  · rcases Nat.lt_or_ge b next with hlt | hge
    · rw [hh b hlt]; exact h.sized b hlt
    · exact hz b hb hge
  · have hagrees := h.agrees
    rcases hw : worker.writing with _ | ⟨b, track, len, left⟩ <;> rw [hw] at hagrees
    · exact hi.trans hagrees
    · obtain ⟨bytes, hlen, hleft, himg⟩ := hagrees
      obtain ⟨drive, hu⟩ := h.writes hw
      exact ⟨bytes, hlen, hleft, by rw [hi, hh b hu.lt]; exact himg⟩
  · have hu := h.uses j b drive track len write (by rw [hf]; rfl) hk
    rw [h.fetched j b data drive track len write hf hk, Disk.trackOf, Disk.trackOf, hh b hu.lt]

/-- Only the buffer and the cache change. -/
theorem Fresh.cache (h : Fresh w next worker settled) (hd : w'.drv = w.drv) (hh : w'.heap = w.heap)
    (hi : w'.img = w.img) (hlt : ∀ e b, (w.drv e).backing = some b → b < next)
    (hc : w'.Coherent settled) : Fresh w' next worker settled :=
  h.table le_rfl (fun _ _ => by rw [hh]) hi hc (fun e b hb => .inl (by rw [hd] at hb; exact ⟨hb, hlt e b hb⟩))
    fun b hb hge => absurd hb (Nat.not_lt.mpr hge)

/-- A slot gets a new record whose backing, if any, is local. -/
theorem Fresh.setDrive (h : Fresh w next worker settled) {d : ℕ} {new : Drive}
    (hlt : ∀ e b, (w.drv e).backing = some b → b < next)
    (hnew : ∀ b, new.backing = some b → (w.heap b).image.remote = false) :
    Fresh (w.setDrive d new) next worker settled := by
  refine h.table le_rfl (fun _ _ => by rw [Disk.setDrive_heap]) (by rw [Disk.setDrive_img])
    h.coherent.setDrive (fun e b hb => ?_) fun b hb hge => absurd hb (Nat.not_lt.mpr hge)
  rw [Disk.setDrive_drv] at hb
  rcases eq_or_ne e d with rfl | hne
  · rw [Function.update_self] at hb
    exact .inr (by rw [Disk.setDrive_heap]; exact hnew b hb)
  · rw [Function.update_of_ne hne] at hb
    exact .inl ⟨hb, hlt e b hb⟩

/-- The worker moves to a point where it uses no backing, with no write in progress. -/
theorem Fresh.idle (h : Fresh w next worker settled) (hw : worker.writing = none)
    (hb : worker'.borrowing = none) : Fresh w next worker' settled := by
  have hw' := WorkerPc.writing_of_borrowing hb
  have hagrees := h.agrees
  rw [hw] at hagrees
  refine ⟨h.coherent, h.sized, by rw [hw']; exact hagrees, fun j b d t l x hbor => ?_,
    fun j b data d t l x hf => ?_⟩
  · rw [hb] at hbor; cases hbor
  · rw [hf] at hb; cases hb

/-- A local write: the image and the completed writes change alike. -/
theorem Fresh.localWrite {data : Bytes} (h : Fresh w next worker settled)
    (hs : w.Serves drive track len b) (hlt : ∀ e b, (w.drv e).backing = some b → b < next)
    (hloc : (w.heap b).image.remote = false) (hlen : data.length = len) (hd : w'.drv = w.drv)
    (hh : w'.heap = w.heap)
    (hi : w'.img = (w.writeAt b (diskTrackOffset track (.ofNat len)) data).img)
    (hc : w'.Coherent (Function.update settled (w.heap b).image
      (patch (settled (w.heap b).image) (track.toNat * len) data))) :
    Fresh w' next worker (Function.update settled (w.heap b).image
      (patch (settled (w.heap b).image) (track.toNat * len) data)) := by
  have hb : b < next := hlt drive b hs.backing
  have hother : ∀ b', (w.heap b').image.remote = true → (w.heap b').image ≠ (w.heap b).image :=
    fun b' hr heq => by rw [heq, hloc] at hr; cases hr
  have hin : track.toNat * len + data.length ≤ (settled (w.heap b).image).length := by
    have := hs.inside
    rw [h.sized b hb, Nat.add_mul, Nat.one_mul] at this
    rwa [hlen]
  have huses : ∀ j b' drive track len write, worker.borrowing = some (j, b') →
      j.kind.transfer = some (drive, track, len, write) → Uses w' next drive track len b' :=
    fun j b' drive track len write hbor hk => (h.uses j b' drive track len write hbor hk).congr hd hh
  rw [hs.writeAt_img] at hi
  refine ⟨hc, fun b' hb' => ?_, ?_, huses, fun j b' x d t l wr hf hk => ?_⟩
  · rw [hh, h.sized b' hb']
    rcases eq_or_ne (w.heap b').image (w.heap b).image with heq | hne
    · rw [heq, Function.update_self, length_patch hin]
    · rw [Function.update_of_ne hne]
  · have hagrees := h.agrees
    rcases hw : worker.writing with _ | ⟨b', t, l, left⟩ <;> rw [hw] at hagrees
    · rw [show w.img = settled from hagrees] at hi
      exact hi
    · obtain ⟨bytes, hbytes, hleft, himg⟩ := hagrees
      obtain ⟨d, hu⟩ := h.writes hw
      have hne := hother b' hu.remote
      refine ⟨bytes, hbytes, hleft, ?_⟩
      rw [hi, hh, himg, Function.update_of_ne hne.symm, Function.update_of_ne hne,
        Function.update_comm hne]
  · have hu := h.uses j b' d t l wr (by rw [hf]; rfl) hk
    rw [h.fetched j b' x d t l wr hf hk, Disk.trackOf, Disk.trackOf, hh,
      Function.update_of_ne (hother b' hu.remote)]

/-! ### The regions of a track call -/

theorem Fresh.readEnter (track : UInt32) (len : ℕ) (io : ReadIo) (h : Fresh w next worker settled)
    (hlt : ∀ e b, (w.drv e).backing = some b → b < next)
    (hkind : ∀ b, (w.drv drive).backing = some b → (w.drv drive).remote = (w.heap b).image.remote) :
    Fresh (w.readEnter drive track len io).disk next worker settled ∧
      ∀ dst, (w.readEnter drive track len io).ret = .done (.ok dst) →
        ∃ b, w.Serves drive track len b ∧ dst = w.trackOf settled b track len := by
  rcases w.readEnter_cases drive track len io with ⟨e, hr, -⟩ | ⟨b, hs, hcase⟩
  · rw [hr]
    exact ⟨h, fun dst hdst => by cases hdst⟩
  rcases hcase with ⟨data, hhit, hr⟩ | ⟨-, -, hr⟩ | ⟨-, hloc, -, hr⟩ | ⟨-, -, junk, -, hr⟩ <;> rw [hr]
  · refine ⟨h, fun dst hdst => ?_⟩
    cases hdst
    exact h.coherent.copyOut hhit
  · exact ⟨h, fun dst hdst => by cases hdst⟩
  · -- a local read: no write in progress can be on this image
    have himg := h.local_img (i := (w.heap b).image) (by rw [← hkind b hs.backing, hloc])
    have htrack : w.trackOf w.img b track len = w.trackOf settled b track len := by
      rw [Disk.trackOf, himg]; rfl
    have hlen : (w.trackOf w.img b track len).length = len :=
      hs.length_trackOf (by rw [himg, h.sized b (hlt drive b hs.backing)])
    refine ⟨h.cache rfl rfl rfl hlt (.fill hs hlen htrack), fun dst hdst => ⟨b, hs, ?_⟩⟩
    cases hdst
    exact htrack
  · exact ⟨h.cache rfl rfl rfl hlt .cacheDrop, fun dst hdst => by cases hdst⟩

theorem Region.wrote_none {α : Type} {r : Region α} (h : ∀ m ∈ r.calls, m.1 = .size) :
    r.wrote = none := by
  unfold Region.wrote
  rw [List.find?_eq_none.mpr fun m hm => by rw [h m hm]; decide]
  rfl

theorem Fresh.writeEnter (track : UInt32) {data : Bytes} {io : WriteIo} (h : Fresh w next worker settled)
    (hlt : ∀ e b, (w.drv e).backing = some b → b < next)
    (hkind : ∀ b, (w.drv drive).backing = some b → (w.drv drive).remote = (w.heap b).image.remote)
    (hdist : ∀ e < diskMaxDrive, ∀ b b', (w.drv e).backing = some b' → w.Serves drive track len b →
      (w.heap b').image = (w.heap b).image → e = drive)
    (hdata : data.length = len) (hio : (io.left data).length = len) :
    let r := w.writeEnter drive track len data io
    (r.wrote = none ∧ Fresh r.disk next worker settled) ∨
      ∃ b, r.wrote = some b ∧ (w.drv drive).backing = some b ∧ (w.drv drive).remote = false ∧
        r.disk.heap = w.heap ∧
        Fresh r.disk next worker (Function.update settled (w.heap b).image
          (patch (settled (w.heap b).image) (track.toNat * len) (io.left data))) := by
  rcases w.writeEnter_cases drive track len data io with ⟨e, hr, -⟩ | ⟨b, hs, hcase⟩
  · rw [hr]
    exact .inl ⟨Region.wrote_none fun m hm => (Disk.checkTrack_calls hm).1, h⟩
  rcases hcase with ⟨-, hr⟩ | ⟨-, -, hr⟩ | ⟨-, hloc, rfl, hr⟩ | ⟨-, hloc, junk, rfl, hr⟩ <;> rw [hr]
  · exact .inl ⟨rfl, h⟩
  · exact .inl ⟨rfl, h⟩
  · have himg := hkind b hs.backing
    rw [hloc] at himg
    refine .inr ⟨b, rfl, hs.backing, hloc, rfl, h.localWrite hs hlt himg.symm hdata rfl rfl rfl ?_⟩
    refine .fill (b := b) (hs.congr rfl rfl) hdata ?_
    have hin := hs.inside
    rw [h.sized b (hlt drive b hs.backing), Nat.add_mul, Nat.one_mul] at hin
    show data = slice (Function.update settled _ _ (w.heap b).image) _ _
    rw [Function.update_self, ← hdata]
    exact (slice_patch (by rw [hdata]; exact hin)).symm
  · have himg := hkind b hs.backing
    rw [hloc] at himg
    have hjunk : junk.take len = junk := List.take_of_length_le (Nat.le_of_eq hio)
    rw [hjunk]
    refine .inr ⟨b, rfl, hs.backing, hloc, by simp, ?_⟩
    refine h.localWrite hs hlt himg.symm hio (by simp) (by simp) (by simp [WriteIo.left]) ?_
    -- whatever the failed write left, the cache no longer speaks of this drive
    intro hv
    obtain ⟨heq, hne⟩ := Disk.cacheDropDrive_valid hv
    rw [heq] at hv ⊢
    have hc : (w.writeAt b (diskTrackOffset track (.ofNat len)) junk).Coherent settled :=
      h.coherent.congr rfl rfl rfl fun _ _ _ => rfl
    refine hc.of_content (fun b' hb' => ?_) hv
    obtain ⟨b₁, hs₁, -⟩ := hc hv
    exact Function.update_of_ne (fun heq => hne (hdist _ hs₁.drive_lt b b' hb' hs heq)) ..

/-! ### The worker's transfer, step by step -/

theorem Job.Fits.len_le {j : Job} {write : Bool} (h : j.Fits)
    (hk : j.kind.transfer = some (drive, track, len, write)) : len ≤ diskTrackBufSize := by
  obtain ⟨id, sync, kind⟩ := j
  cases kind with
  | close b => cases hk
  | request k => cases k <;> cases hk
                 · exact h _ rfl
                 · exact (h _ rfl).1

variable {j : Job}

/-- The worker picks the backing of a slot. -/
theorem Fresh.found (h : Fresh w next worker settled) (hw : worker.writing = none)
    (hu : ∀ drive track len write, j.kind.transfer = some (drive, track, len, write) →
      Uses w next drive track len b) : Fresh w next (.found j b) settled := by
  have hagrees := h.agrees
  rw [hw] at hagrees
  refine ⟨h.coherent, h.sized, hagrees, fun j' b' d t l wr hbor hk => ?_, fun _ _ _ _ _ _ _ => nofun⟩
  cases hbor
  exact hu d t l wr hk

/-- The transfer starts: nothing is torn yet. -/
theorem Fresh.startIo (h : Fresh w next (.found j b) settled) : Fresh w next (.io j b) settled := by
  refine ⟨h.coherent, h.sized, ?_, fun j' b' d t l wr hbor hk => ?_, fun _ _ _ _ _ _ _ => nofun⟩
  · have himg : w.img = settled := h.agrees
    simp only [WorkerPc.writing]
    split
    · rename_i drive track len data ack hk
      have hu := h.uses j b drive track len true rfl (by rw [hk]; rfl)
      refine ⟨slice (settled (w.heap b).image) (track.toNat * len) len, length_slice (h.inside hu), nofun, ?_⟩
      rw [patch_slice (h.inside hu), Function.update_eq_self]
      exact himg
    · exact himg
  · cases hbor
    exact h.uses j b d t l wr rfl hk

/-- A write covers its own range, however often it is torn before. -/
theorem Fresh.writeAt {data : Bytes} (h : Fresh w next worker settled) {left : Option Bytes}
    (hw : worker.writing = some (b, track, len, left)) (hlen : data.length = len) :
    (w.writeAt b (diskTrackOffset track (.ofNat len)) data).img = Function.update settled
      (w.heap b).image (patch (settled (w.heap b).image) (track.toNat * len) data) := by
  obtain ⟨drive, hu⟩ := h.writes hw
  have hagrees := h.agrees
  rw [hw] at hagrees
  obtain ⟨bytes, hbytes, -, himg⟩ := hagrees
  have hin := h.inside hu
  show Function.update w.img _ (patch (w.img (w.heap b).image) _ data) = _
  rw [himg, hu.offset, Function.update_self, Function.update_idem,
    patch_patch (by rw [hbytes, hlen]) (by rw [hbytes]; exact hin)]

theorem Fresh.tear {drive : ℕ} {data junk : Bytes} {ack : Option ImageId}
    (h : Fresh w next (.io j b) settled) (hk : j.kind = .request (.write drive track len data ack))
    (hjunk : junk.length = len) :
    Fresh (w.writeAt b (diskTrackOffset track (.ofNat len)) junk) next (.io j b) settled := by
  have hw : (WorkerPc.io j b).writing = some (b, track, len, none) := by simp only [WorkerPc.writing, hk]
  refine ⟨h.coherent.congr rfl rfl rfl fun _ _ _ => rfl, h.sized, ?_, fun j' b' d t l wr hbor hk =>
    (h.uses j' b' d t l wr hbor hk).congr rfl rfl, fun _ _ _ _ _ _ _ => nofun⟩
  rw [hw]
  exact ⟨junk, hjunk, nofun, h.writeAt hw hjunk⟩

/-- The transfer of a write is over; the image has what it left. -/
theorem Fresh.written {drive : ℕ} {data left : Bytes} {ack : Option ImageId} {r : Except EspErr Unit}
    (h : Fresh w next (.io j b) settled) (hk : j.kind = .request (.write drive track len data ack))
    (hleft : left.length = len) :
    Fresh (w.writeAt b (diskTrackOffset track (.ofNat len)) left) next (.written j b r left) settled := by
  have hw : (WorkerPc.io j b).writing = some (b, track, len, none) := by simp only [WorkerPc.writing, hk]
  have hw' : (WorkerPc.written j b r left).writing = some (b, track, len, some left) := by
    simp only [WorkerPc.writing, hk]
  refine ⟨h.coherent.congr rfl rfl rfl fun _ _ _ => rfl, h.sized, ?_, fun j' b' d t l wr hbor hk => ?_,
    fun _ _ _ _ _ _ _ => nofun⟩
  · rw [hw']
    exact ⟨left, hleft, fun x hx => Option.some.inj hx, h.writeAt hw hleft⟩
  · cases hbor
    exact (h.uses j b d t l wr rfl hk).congr rfl rfl

/-- The transfer of a read is over; the worker has the track in its staging buffer. -/
theorem Fresh.staged {drive : ℕ} (h : Fresh w next (.io j b) settled)
    (hk : j.kind = .request (.read drive track len)) :
    Fresh w next (.fetched j b (w.readAt b (diskTrackOffset track (.ofNat len)) len)) settled := by
  have himg : w.img = settled := by
    have := h.agrees
    simp only [WorkerPc.writing, hk] at this
    exact this
  have hu := h.uses j b drive track len false rfl (by rw [hk]; rfl)
  refine ⟨h.coherent, h.sized, himg, fun j' b' d t l wr hbor hk => ?_, fun j' b' x d t l wr hf hk' => ?_⟩
  · cases hbor
    exact h.uses j b d t l wr rfl hk
  · cases hf
    rw [hk] at hk'
    cases hk'
    rw [Disk.readAt, hu.offset, himg]; rfl

/-- A fetched track goes into the cache while the slot still holds the backing. -/
theorem Fresh.publishRead {drive : ℕ} {data : Bytes} {r : Except EspErr Unit}
    (h : Fresh w next (.fetched j b data) settled) (hk : j.kind = .request (.read drive track len))
    (hlt : ∀ e b, (w.drv e).backing = some b → b < next) (hs : w.stillMounted drive b = true) :
    Fresh (w.workerPublish drive track len b data) next (.finish j r) settled := by
  have htr : j.kind.transfer = some (drive, track, len, false) := by rw [hk]; rfl
  have hu := h.uses j b drive track len false rfl htr
  have hdata := h.fetched j b data drive track len false rfl htr
  have hlen : data.length = len := by rw [hdata]; exact length_slice (h.inside hu)
  have hc : (w.fill drive track len data).Coherent settled := .fill (hu.serves hs) hlen hdata
  rw [Disk.workerPublish, if_pos hs]
  exact (h.idle rfl rfl).cache rfl rfl rfl hlt hc

/-- The worker publishes a write: the completed writes catch up with the image, and the cache either
    holds the data, or speaks of another image, or is dropped. -/
theorem Fresh.publishWrite {drive : ℕ} {data left : Bytes} {ack : Option ImageId}
    {r r' : Except EspErr Unit} (h : Fresh w next (.written j b r left) settled)
    (hk : j.kind = .request (.write drive track len data ack)) (hleft : j.Leaves r left)
    (hh : w'.heap = w.heap) (hi : w'.img = w.img)
    (hc : (r = .ok () ∧ w' = w.workerPublish drive track len b data) ∨ w' = w.cacheDropDrive drive) :
    Fresh w' next (.finish j r') (Function.update settled (w.heap b).image
      (patch (settled (w.heap b).image) (track.toNat * len) left)) := by
  have hu := h.uses j b drive track len true rfl (by rw [hk]; rfl)
  have hin := h.inside hu
  obtain ⟨hlen, hok⟩ := hleft drive track len data ack hk
  have himg : w.img = Function.update settled (w.heap b).image
      (patch (settled (w.heap b).image) (track.toNat * len) left) := by
    have := h.agrees
    simp only [WorkerPc.writing, hk] at this
    obtain ⟨bytes, -, hbytes, himg⟩ := this
    rw [← hbytes left rfl]; exact himg
  -- a cached track of another drive is of another image
  have hother : ∀ b', w.cache.valid = true → (w.drv w.cache.drive).backing = some b' →
      ¬(w.cache.drive = drive ∧ b' = b) → Function.update settled (w.heap b).image
        (patch (settled (w.heap b).image) (track.toNat * len) left) (w.heap b').image
          = settled (w.heap b').image := by
    intro b' hv hb' hne
    obtain ⟨b₁, hs₁, -⟩ := h.coherent hv
    exact Function.update_of_ne (fun heq => hne (hu.only _ hs₁.drive_lt b' hb' heq)) ..
  refine ⟨?_, fun b' hb' => ?_, hi.trans himg, fun _ _ _ _ _ _ => nofun, fun _ _ _ _ _ _ _ => nofun⟩
  · rcases hc with ⟨rfl, rfl⟩ | rfl
    · obtain rfl := hok rfl
      by_cases hs : w.stillMounted drive b = true
      · rw [Disk.workerPublish, if_pos hs]
        refine .fill (hu.serves hs) hlen ?_
        rw [Disk.trackOf, Function.update_self, ← hlen]
        exact (slice_patch (by rw [hlen]; exact hin)).symm
      · rw [Disk.workerPublish, if_neg hs]
        intro hv
        refine h.coherent.of_content (fun b' hb' => hother b' hv hb' ?_) hv
        rintro ⟨hdrive, rfl⟩
        obtain ⟨b₁, hs₁, -⟩ := h.coherent hv
        rw [← hdrive] at hs
        refine hs ?_
        rw [hs₁.backing] at hb'
        cases hb'
        exact hs₁.stillMounted
    · intro hv
      obtain ⟨heq, hne⟩ := Disk.cacheDropDrive_valid hv
      rw [heq] at hv ⊢
      exact h.coherent.of_content (fun b' hb' => hother b' hv hb' fun hx => hne hx.1) hv
  · rw [hh, h.sized b' hb']
    rcases eq_or_ne (w.heap b').image (w.heap b).image with heq | hne
    · rw [heq, Function.update_self, length_patch (by rw [hlen]; exact hin)]
    · rw [Function.update_of_ne hne]

/-- The worker installs a session while it uses no backing. -/
theorem Fresh.install {d : ℕ} {new : Drive} (h : Fresh w next worker settled)
    (hb : worker.writing = none) (hb' : worker'.borrowing = none) :
    Fresh (w.setDrive d new) next worker' settled := by
  have h' := h.idle hb hb'
  have hw : worker'.writing = none := WorkerPc.writing_of_borrowing hb'
  have hagrees := h'.agrees
  rw [hw] at hagrees
  refine ⟨h'.coherent.setDrive, by rw [Disk.setDrive_heap]; exact h'.sized, ?_,
    fun j b d t l x hbor => ?_, fun j b data d t l x hf => ?_⟩
  · rw [hw]
    exact Disk.setDrive_img.trans hagrees
  · rw [hb'] at hbor; cases hbor
  · rw [hf] at hb'; cases hb'

/-- The sweep only takes backings out of slots. -/
theorem Fresh.sweep (ds : List ℕ) (bs : List ℕ) (h : Fresh w next worker settled)
    (hlt : ∀ e b, (w.drv e).backing = some b → b < next) :
    let r := ds.foldl (fun (acc : Disk × List ℕ) i =>
      let q := acc.1.sweepOne i; (q.1, acc.2 ++ q.2)) (w, bs)
    Fresh r.1 next worker settled := by
  induction ds generalizing w bs with
  | nil => exact h
  | cons i ds ih =>
    simp only [List.foldl_cons]
    unfold Disk.sweepOne
    dsimp only
    split
    · refine ih _ (h.setDrive hlt nofun) fun e b hb => ?_
      rw [Disk.setDrive_drv] at hb
      rcases eq_or_ne e i with rfl | hne
      · rw [Function.update_self] at hb; cases hb
      · rw [Function.update_of_ne hne] at hb; exact hlt e b hb
    · exact ih _ h hlt

end FdcSds
