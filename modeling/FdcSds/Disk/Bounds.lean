import FdcSds.Disk.Transfer
import FdcSds.Disk.Installs

/-! Where in an image a transfer goes.

    A caller checks its track against the drive's backing and transfers at once; a job is checked again
    when the worker looks the drive up, against the backing it then holds on to. Either way the track
    lies inside the size recorded for the very backing that is asked, so the 32-bit product is exact and
    no image changes its length.

        caller:  check_track(b) ──▶ b.read_at            job:  check ─▶ queue ─▶ lookup, check(b) ─▶ b.read_at
                        track · len + len ≤ size(b)                            -/

namespace FdcSds
open Schemes Runs

/-- A `read_at` or `write_at` asked of a backing. -/
structure Transfer where
  b : ℕ
  track : UInt32
  off : UInt32
  len : ℕ
  deriving DecidableEq

/-- A transfer of a track. -/
def Transfer.ofTrack (b : ℕ) (track : UInt32) (len : ℕ) : Transfer :=
  ⟨b, track, diskTrackOffset track (.ofNat len), len⟩

/-- The transfers of a region, at the track it was called for. -/
def Region.transfers {α : Type} (r : Region α) (track : UInt32) (len : ℕ) : List Transfer :=
  (r.calls.filter fun m => m.1 == .read || m.1 == .write).map fun m => .ofTrack m.2 track len

/-- The transfer lies inside the image, in exact integers. -/
structure Transfer.Inside (w : Disk) (x : Transfer) : Prop where
  len_pos : 1 ≤ x.len
  len_le : x.len ≤ 8192
  off : x.off.toNat = x.track.toNat * x.len
  inside : x.off.toNat + x.len ≤ (w.heap x.b).size.toNat

namespace State

/-- The transfers a step asks for: `disk_read_track` and `disk_write_track` of a local image, and the
    worker's I/O. -/
def issues (s : State) : Act → List Transfer
  | .task _ (.read drive track len io) => (s.w.readEnter drive track len io).transfers track len
  | .task _ (.write drive track len data _ io) => (s.w.writeEnter drive track len data io).transfers track len
  | .worker (.readEnd j b _) | .worker (.tear j b _) | .worker (.writeEnd j b _) =>
    match j.kind.transfer with
    | some (_, track, len, _) => [.ofTrack b track len]
    | none => []
  | _ => []

variable {s s' : State} {d len b : ℕ} {track : UInt32}

theorem inside_ofTrack {w : Disk} (hpos : 0 < len) (hle : len ≤ diskTrackBufSize)
    (hin : (track.toNat + 1) * len ≤ (w.heap b).size.toNat) : (Transfer.ofTrack b track len).Inside w := by
  have hbounds : diskTrackInBounds track (.ofNat len) (w.heap b).size = true :=
    (Disk.inBounds_len hle _).mpr ⟨hpos, hin⟩
  have hoff : (diskTrackOffset track (.ofNat len)).toNat = track.toNat * len := by
    rw [toNat_trackOffset hbounds, Disk.toNat_len hle]
  refine ⟨hpos, hle, hoff, ?_⟩
  rw [Nat.add_mul, Nat.one_mul] at hin
  exact hoff.symm ▸ hin

theorem inside_of_serves {w : Disk} (h : w.Serves d track len b) : (Transfer.ofTrack b track len).Inside w :=
  inside_ofTrack h.len_pos h.len_le h.inside

theorem readEnter_inside {w : Disk} {io : ReadIo} :
    ∀ x ∈ (w.readEnter d track len io).transfers track len, x.Inside w ∧ (w.drv d).backing = some x.b := by
  intro x hx
  obtain ⟨m, hm, rfl⟩ := List.mem_map.mp hx
  obtain ⟨hm, hkind⟩ := List.mem_filter.mp hm
  rcases w.readEnter_cases d track len io with ⟨e, hr, -⟩ | ⟨b, hserves, hcase⟩
  · rw [hr] at hm
    rw [(Disk.checkTrack_calls hm).1] at hkind
    cases hkind
  · have hb : m.2 = b := by
      have := (w.readEnter_keeps d track len io).2.2.2 m hm
      simpa [hserves.backing] using this.2.1.symm
    rw [hb]
    exact ⟨inside_of_serves hserves, hserves.backing⟩

theorem writeEnter_inside {w : Disk} {data : Bytes} {io : WriteIo} :
    ∀ x ∈ (w.writeEnter d track len data io).transfers track len, x.Inside w ∧
      (w.drv d).backing = some x.b := by
  intro x hx
  obtain ⟨m, hm, rfl⟩ := List.mem_map.mp hx
  obtain ⟨hm, hkind⟩ := List.mem_filter.mp hm
  rcases w.writeEnter_cases d track len data io with ⟨e, hr, -⟩ | ⟨b, hserves, hcase⟩
  · rw [hr] at hm
    rw [(Disk.checkTrack_calls hm).1] at hkind
    cases hkind
  · have hb : m.2 = b := by
      have := (w.writeEnter_keeps d track len data io).2.2 m hm
      simpa [hserves.backing] using this.2.1.symm
    rw [hb]
    exact ⟨inside_of_serves hserves, hserves.backing⟩

/-! ### The backing the worker holds -/

/-- The worker binds a job to the backing on its drive at the lookup, where it checks the track. -/
theorem step_bound {a : Act} {write : Bool} (hs : s.step a = some s') {j : Job}
    (hb : s'.worker.borrowing = some (j, b)) (hk : j.kind.transfer = some (d, track, len, write)) :
    s.worker.borrowing = some (j, b) ∨
      (s.worker = .lookup j ∧ (s.w.workerLookup d track len write).2 = some b) := by
  cases a with
  | task t a => exact .inl ((taskStep_frame hs).1 ▸ hb)
  | evt a => exact .inl ((evtStep_frame hs).2.1 ▸ hb)
  | worker a =>
    cases a <;> simp only [step, workerStep, when_eq_some] at hs <;> obtain ⟨hg, rfl⟩ := hs
    case take j' rest =>
      have hnone : j'.begin.borrowing = none := by unfold Job.begin; split <;> rfl
      exact absurd (hnone.symm.trans hb) (by rintro ⟨⟩)
    case lookup j' =>
      revert hb
      split
      · rename_i drive track' len' write' htr
        split
        · rename_i b' hfound
          intro hb
          cases hb
          cases htr.symm.trans hk
          exact .inr ⟨hg, hfound⟩
        · intro hb; cases hb
      · exact .inl
    all_goals
      revert hb
      repeat' split
    all_goals
      intro hb
      first
        | exact .inl hb
        | (cases hb; done)
        | (cases hb; exact .inl (by rw [hg]; rfl))

theorem borrowing_lt (ho : s.ledger.Owned) {j : Job} (hb : s.worker.borrowing = some (j, b)) :
    b < s.next := by
  refine (ho.borrowed b (show s.worker.hand = _ from ?_)).1
  cases hw : s.worker <;> rw [hw] at hb <;> cases hb <;> rfl

/-- What the worker is about to transfer lies inside the image, and every backing has recorded the
    length of the image behind it. -/
structure Bounded (s : State) : Prop where
  polite : s.Polite
  worker : ∀ j b d track len write, s.worker.borrowing = some (j, b) →
    j.kind.transfer = some (d, track, len, write) → (Transfer.ofTrack b track len).Inside s.w
  sized : ∀ b < s.next, (s.w.heap b).size.toNat = (s.w.img (s.w.heap b).image).length

/-- The worker's I/O is done for the job and the backing it holds. -/
theorem Bounded.io (h : s.Bounded) (ho : s.ledger.Owned) {j : Job} (hw : s.worker = .io j b) :
    ∀ x ∈ (match j.kind.transfer with
      | some (_, track, len, _) => [Transfer.ofTrack b track len]
      | none => []), x.Inside s.w ∧ x.b < s.next := by
  have hborrow : s.worker.borrowing = some (j, b) := by rw [hw]; rfl
  intro x hx
  split at hx
  · next drive track len write hk =>
    obtain rfl := List.mem_singleton.mp hx
    exact ⟨h.worker j b drive track len write hborrow hk, borrowing_lt ho hborrow⟩
  · cases hx

theorem Bounded.issues (h : s.Bounded) (ho : s.ledger.Owned) {a : Act} (hs : s.step a = some s') :
    ∀ x ∈ s.issues a, x.Inside s.w ∧ x.b < s.next := by
  cases a with
  | evt a => exact fun x hx => absurd hx List.not_mem_nil
  | task t a =>
    cases a with
    | read drive track len io =>
      exact fun x hx => ⟨(readEnter_inside x hx).1, backing_lt ho drive x.b (readEnter_inside x hx).2⟩
    | write drive track len data ack io =>
      exact fun x hx => ⟨(writeEnter_inside x hx).1, backing_lt ho drive x.b (writeEnter_inside x hx).2⟩
    | _ => exact fun x hx => absurd hx List.not_mem_nil
  | worker a =>
    cases a with
    | readEnd j b err | tear j b junk | writeEnd j b err => exact h.io ho (when_eq_some.mp hs).1
    | _ => exact fun x hx => absurd hx List.not_mem_nil

/-! ### What a step does to the images -/

/-- An image is patched where a transfer goes, or nothing is. -/
def Patched (w : Disk) (xs : List Transfer) (img : ImageId → Bytes) : Prop :=
  img = w.img ∨ ∃ x ∈ xs, ∃ bytes : Bytes, bytes.length = x.len ∧ img = Function.update w.img
    (w.heap x.b).image (patch (w.img (w.heap x.b).image) x.off.toNat bytes)

theorem patched_writeAt {w : Disk} {xs : List Transfer} {data : Bytes} (hx : .ofTrack b track len ∈ xs)
    (hlen : data.length = len) :
    Patched w xs (w.writeAt b (diskTrackOffset track (.ofNat len)) data).img :=
  .inr ⟨_, hx, data, hlen, rfl⟩

theorem writeEnter_patched {w : Disk} {data : Bytes} {io : WriteIo} (hio : (io.left data).length = len) :
    Patched w ((w.writeEnter d track len data io).transfers track len)
      (w.writeEnter d track len data io).disk.img := by
  rcases w.writeEnter_cases d track len data io with ⟨e, hr, -⟩ | ⟨b, -, hcase⟩
  · rw [hr]
    exact .inl rfl
  rcases hcase with ⟨-, hr⟩ | ⟨-, -, hr⟩ | ⟨-, -, rfl, hr⟩ | ⟨-, -, junk, rfl, hr⟩ <;> rw [hr]
  · exact .inl rfl
  · exact .inl rfl
  · exact patched_writeAt (List.mem_singleton_self _) hio
  · have hjunk : junk.take len = junk := List.take_of_length_le (Nat.le_of_eq hio)
    rw [Disk.cacheDropDrive_img, hjunk]
    exact patched_writeAt (List.mem_singleton_self _) hio

/-- A step leaves the images as they are, or patches one of them where it asked for a transfer. -/
theorem step_patched {a : Act} (hp : s.Polite) (hs : s.step a = some s') :
    Patched s.w (s.issues a) s'.w.img := by
  have same : ∀ {xs : List Transfer} {img : ImageId → Bytes}, img = s.w.img → Patched s.w xs img :=
    fun h => .inl h
  cases a with
  | evt a =>
    cases a <;> simp only [step, evtStep, when_eq_some] at hs <;> obtain ⟨-, rfl⟩ := hs
    case sweep => exact same (sweep_keeps _ s.w []).2
    all_goals exact same rfl
  | task t a =>
    cases a <;> simp only [step, taskStep, when_eq_some] at hs <;> obtain ⟨hg, rfl⟩ := hs
    case write drive track len data ack io =>
      have hw : Patched s.w ((s.w.writeEnter drive track len data io).transfers track len)
          (s.w.writeEnter drive track len data io).disk.img := writeEnter_patched hg.2
      split <;> split <;> exact hw
    case read drive track len io =>
      obtain ⟨-, -, himg, -⟩ := s.w.readEnter_keeps drive track len io
      split <;> exact same himg
    case mountOpen =>
      split
      · exact same rfl
      · exact same Disk.setDrive_img
    case unmount | config | mountSwap => exact same Disk.setDrive_img
    all_goals
      repeat' split
    all_goals exact same rfl
  | worker a =>
    have hfits := hp.worker
    cases a <;> simp only [step, workerStep, when_eq_some] at hs <;> obtain ⟨hg, rfl⟩ := hs
    case tear j b junk =>
      split
      · next drive track len data ack hk =>
        split
        · next hjunk =>
          exact patched_writeAt (by simp only [issues, hk]; exact List.mem_singleton_self _) hjunk
        · exact same rfl
      · exact same rfl
    case writeEnd j b err =>
      rw [hg] at hfits
      split
      · next drive track len data ack hk =>
        have hmem : Transfer.ofTrack b track len ∈ s.issues (.worker (.writeEnd j b err)) := by
          simp only [issues, hk]
          exact List.mem_singleton_self _
        split
        · exact patched_writeAt hmem (hfits _ hk).2
        · split
          · next hjunk => exact patched_writeAt hmem hjunk
          · exact same rfl
      · exact same rfl
    case install j drive url readonly b =>
      split
      · next w hins =>
        unfold Disk.workerInstall at hins
        dsimp only at hins
        split at hins
        · obtain rfl := Option.some.inj hins
          exact same Disk.setDrive_img
        · cases hins
      · exact same rfl
    case publishRead =>
      split
      · split
        · exact same (by unfold Disk.workerPublish; split <;> rfl)
        · exact same rfl
      · exact same rfl
    case publishWrite =>
      split
      · split
        · exact same (by unfold Disk.workerPublish; split <;> rfl)
        · exact same Disk.cacheDropDrive_img
      · exact same rfl
    case finish =>
      unfold complete
      split <;> exact same rfl
    all_goals
      repeat' split
    all_goals exact same rfl

/-- The length of the image behind a backing is the one it recorded. -/
theorem inside_fits {w : Disk} {x : Transfer} (h : x.Inside w)
    (hsize : (w.heap x.b).size.toNat = (w.img (w.heap x.b).image).length) {bytes : Bytes}
    (hlen : bytes.length = x.len) : x.off.toNat + bytes.length ≤ (w.img (w.heap x.b).image).length := by
  rw [hlen, ← hsize]
  exact h.inside

/-- Every image keeps its length, and every byte that no transfer covers. -/
theorem patched_keeps {w : Disk} {xs : List Transfer} {img : ImageId → Bytes} (h : Patched w xs img)
    (hin : ∀ x ∈ xs, x.Inside w ∧ (w.heap x.b).size.toNat = (w.img (w.heap x.b).image).length) (i : ImageId) :
    (img i).length = (w.img i).length ∧ ∀ k, (∀ x ∈ xs, (w.heap x.b).image = i →
      k < x.off.toNat ∨ x.off.toNat + x.len ≤ k) → (img i)[k]? = (w.img i)[k]? := by
  rcases h with rfl | ⟨x, hx, bytes, hlen, rfl⟩
  · exact ⟨rfl, fun _ _ => rfl⟩
  obtain ⟨hinside, hsize⟩ := hin x hx
  have hfit := inside_fits hinside hsize hlen
  by_cases hi : i = (w.heap x.b).image
  · subst hi
    rw [Function.update_self]
    refine ⟨length_patch hfit, fun k hk => getElem?_patch_of_outside hfit ?_⟩
    rw [hlen]
    exact hk x hx rfl
  · rw [Function.update_of_ne hi]
    exact ⟨rfl, fun _ _ => rfl⟩

/-! ### Every run -/

/-- A backing that a step opens has recorded the length of its image. -/
theorem step_opened {a : Act} (hs : s.step a = some s') (hb : b < s'.next) :
    b < s.next ∨ (s'.w.heap b).size.toNat = (s'.w.img (s'.w.heap b).image).length := by
  have opened : ∀ {i : ImageId} {k : ℕ}, (s.w.img i).length < 2 ^ 32 → b < (s.alloc i k).next → b < s.next ∨
      ((s.alloc i k).w.heap b).size.toNat = ((s.alloc i k).w.img ((s.alloc i k).w.heap b).image).length := by
    intro i k hlen hb
    rcases Nat.lt_succ_iff_lt_or_eq.mp hb with hlt | rfl
    · exact .inl hlt
    · refine .inr ?_
      simp only [alloc, Function.update_self]
      rw [UInt32.toNat_ofNat']
      exact Nat.mod_eq_of_lt hlen
  cases a with
  | evt a =>
    refine .inl ?_
    cases a <;> simp only [step, evtStep, when_eq_some] at hs <;> obtain ⟨-, rfl⟩ := hs <;> exact hb
  | task t a =>
    cases a <;> simp only [step, taskStep, when_eq_some] at hs <;> obtain ⟨hg, rfl⟩ := hs
    case mountOpen drive name image =>
      cases image with
      | none => exact .inl hb
      | some n => exact opened (k := s.reconnects) (hg.2 n rfl) hb
    all_goals
      refine .inl ?_
      revert hb
      repeat' split
    all_goals exact id
  | worker a =>
    cases a <;> simp only [step, workerStep, when_eq_some] at hs <;> obtain ⟨hg, rfl⟩ := hs
    case newBacking j drive url readonly image stamp ok =>
      cases ok with
      | false => exact .inl hb
      | true => exact opened (k := stamp) hg.2 hb
    case finish =>
      refine .inl ?_
      unfold complete at hb
      split at hb <;> exact hb
    all_goals
      refine .inl ?_
      revert hb
      repeat' split
    all_goals exact id

theorem Bounded.step {a : Act} (h : s.Bounded) (ho : s.ledger.Owned) (hs : s.step a = some s') :
    s'.Bounded := by
  obtain ⟨hnext, hheap⟩ := step_heap hs
  have hissues : ∀ x ∈ s.issues a, x.Inside s.w ∧
      (s.w.heap x.b).size.toNat = (s.w.img (s.w.heap x.b).image).length :=
    fun x hx => ⟨(h.issues ho hs x hx).1, h.sized x.b (h.issues ho hs x hx).2⟩
  have hlength := patched_keeps (step_patched h.polite hs) hissues
  have keeps : ∀ {b : ℕ}, b < s.next → ∀ {track : UInt32} {len : ℕ},
      (Transfer.ofTrack b track len).Inside s.w → (Transfer.ofTrack b track len).Inside s'.w := by
    intro b hb track len hin
    refine ⟨hin.len_pos, hin.len_le, hin.off, ?_⟩
    change _ ≤ (s'.w.heap b).size.toNat
    rw [(hheap b hb).1]
    exact hin.inside
  refine ⟨step_polite h.polite hs, fun j b d track len write hb hk => ?_, fun b hb => ?_⟩
  · rcases step_bound hs hb hk with hold | ⟨hw, hfound⟩
    · exact keeps (borrowing_lt ho hold) (h.worker j b d track len write hold hk)
    · have hfits := h.polite.worker
      rw [hw] at hfits
      obtain ⟨hserves, -⟩ := (Disk.workerLookup_some (hfits.len_le hk)).mp hfound
      exact keeps (backing_lt ho d b hserves.backing) (inside_of_serves hserves)
  · rcases step_opened hs hb with hold | hnew
    · rw [(hheap b hold).1, (hlength _).1]
      exact h.sized b hold
    · exact hnew

theorem Start.bounded (h : s.Start) : s.Bounded := by
  refine ⟨h.polite, fun j b d track len write hb => ?_, fun b hb => ?_⟩
  · rw [h.idle.2.1] at hb
    cases hb
  · rw [h.counters.1] at hb
    cases hb

theorem reach_bounded {ok : State → Act → Prop} (h : diskMachine.Reach ok s) : s.ledger.Owned ∧ s.Bounded :=
  h.invariant (I := fun s => s.ledger.Owned ∧ s.Bounded) (fun _ hs => ⟨Start.owned hs, Start.bounded hs⟩)
    fun _ _ _ ⟨ho, hb⟩ _ hstep => ⟨ho.path (step_moves ho hstep), hb.step ho hstep⟩

/-- CORRECT: in every run, whoever mounts and unmounts meanwhile, a `read_at` or `write_at` asked of a
    backing is 1 to 8192 bytes long, starts at the exact product of track and length and ends inside the
    size recorded for that backing; no step changes an image's length or a byte outside the transfers it
    asks for; and a track of that length inside the image of a mounted drive passes the check. -/
theorem track_io_inside (h : diskMachine.Reach Machine.always s) {a : Act} (hs : s.step a = some s') :
    (∀ x ∈ s.issues a, 1 ≤ x.len ∧ x.len ≤ 8192 ∧ x.off.toNat = x.track.toNat * x.len ∧
      x.off.toNat + x.len ≤ (s.w.heap x.b).size.toNat) ∧
    (∀ i, (s'.w.img i).length = (s.w.img i).length ∧ ∀ k, (∀ x ∈ s.issues a, (s.w.heap x.b).image = i →
      k < x.off.toNat ∨ x.off.toNat + x.len ≤ k) → (s'.w.img i)[k]? = (s.w.img i)[k]?) ∧
    ∀ drive track len b, driveOk drive = true → (s.w.drv drive).mounted = true →
      (s.w.drv drive).backing = some b → 1 ≤ len → len ≤ 8192 →
      (track.toNat + 1) * len ≤ (s.w.heap b).size.toNat → (s.w.checkTrack drive track len).2 = .ok b := by
  obtain ⟨ho, hb⟩ := reach_bounded h
  refine ⟨fun x hx => ?_, fun i => ?_, fun drive track len b hd hm hbacking hpos hle hin => ?_⟩
  · obtain ⟨hpos, hle, hoff, hin⟩ := (hb.issues ho hs x hx).1
    exact ⟨hpos, hle, hoff, hin⟩
  · exact patched_keeps (step_patched hb.polite hs)
      (fun x hx => ⟨(hb.issues ho hs x hx).1, hb.sized x.b (hb.issues ho hs x hx).2⟩) i
  · exact Disk.checkTrack_ok.mpr ⟨of_decide_eq_true hd, hpos, hle, hm, hbacking, hin⟩

theorem exec_readFirst : (firstMounted.step (.task 0 (.read 0 1 2 .ok))).isSome = true := by decide

/-- The second two-byte track of a four-byte image. -/
theorem track_io_inside_firstMounted :
    ∃ x ∈ firstMounted.issues (.task 0 (.read 0 1 2 .ok)), x.off.toNat = 2 ∧ x.len = 2 ∧
      x.off.toNat + x.len ≤ (firstMounted.w.heap x.b).size.toNat := by
  have hreach : diskMachine.Reach Machine.always firstMounted :=
    ⟨boot, boot_start, Machine.exec_always (Option.some_get exec_mountFirst).symm⟩
  obtain ⟨hinside, -⟩ := track_io_inside hreach (Option.some_get exec_readFirst).symm
  exact ⟨.ofTrack 0 1 2, by decide, by decide, rfl, (hinside _ (by decide)).2.2.2⟩

end State

end FdcSds
