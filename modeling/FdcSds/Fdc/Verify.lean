import FdcSds.Fdc.Exchanges

/-! Whole sessions of the simulator, and `fdcsim verify`.

    A session gives what the track server gives, so what is true of the server's images is true of what a
    host reads. `cmd_verify` reads every track of an image, and with `--write` writes back what it read.

        image │ t₀ │ t₁ │ … │      ──doRead t──▶ = tₜ ?  ──doWrit t──▶ 0 ?  ──doRead t──▶ = tₜ ?      -/

namespace FdcSds.Fdcsim
open Schemes Prog Engine

variable {line : Line} {w : Wire} {s : Server} {longest : ℕ}

/-! ### Sessions -/

/-- An operation of the host. -/
inductive HostOp where
  | stat (drive : ℕ) (head : Bool) (track : ℕ)
  | read (drive track length : ℕ)
  | writ (drive track : ℕ) (data : Bytes)

/-- What it gives. -/
inductive Outcome where
  | bitmap (r : Option ℕ)
  | payload (r : Except ReadError Bytes)
  | code (r : Option ℕ × Option WritError)

def HostOp.prog : HostOp → Host Outcome
  | .stat drive head track => do
    let r ← doStat drive head track
    pure (.bitmap r)
  | .read drive track length => do
    let r ← doRead drive track length
    pure (.payload r)
  | .writ drive track data => do
    let r ← doWrit drive track data
    pure (.code r)

def session : List HostOp → Host (List Outcome)
  | [] => pure []
  | op :: ops => do
    let r ← op.prog
    let rs ← session ops
    pure (r :: rs)

/-- The length of a track to write fits its word, and no track is longer than `longest`. -/
def HostOp.fits (longest : ℕ) : HostOp → Prop
  | .writ _ _ data => data.length < 65536 ∧ data.length ≤ longest
  | .read _ _ length => length ≤ longest
  | .stat _ _ _ => True

/-- What the server gives for an operation, and the server after it. -/
def Server.host (s : Server) : HostOp → Outcome × Server
  | .stat _ _ _ => (.bitmap (some s.statWord), s)
  | .read drive track length => (.payload (Server.hostRead s drive track length), s)
  | .writ drive track data =>
    (.code (Server.hostWrit s drive track data).1, (Server.hostWrit s drive track data).2)

def Server.hostRun : Server → List HostOp → List Outcome × Server
  | s, [] => ([], s)
  | s, op :: ops =>
    ((Server.host s op).1 :: (hostRun (Server.host s op).2 ops).1, (hostRun (Server.host s op).2 ops).2)

theorem prog_run (hline : line.Carries longest) (h : w.Serves s) {op : HostOp} (hfit : op.fits longest) :
    ∃ w', op.prog.run (wire line) w = (w', (Server.host s op).1) ∧ w'.Serves (Server.host s op).2 := by
  cases op with
  | stat drive head track =>
    obtain ⟨w', hrun, hserves⟩ := doStat_run hline h drive head track
    exact ⟨w', by rw [HostOp.prog, run_bind, hrun]; rfl, hserves⟩
  | read drive track length =>
    obtain ⟨w', hrun, hserves⟩ := doRead_run hline h drive track hfit
    exact ⟨w', by rw [HostOp.prog, run_bind, hrun]; rfl, hserves⟩
  | writ drive track data =>
    obtain ⟨w', hrun, hserves⟩ := doWrit_run hline h drive track hfit.1 hfit.2
    exact ⟨w', by rw [HostOp.prog, run_bind, hrun]; rfl, hserves⟩

theorem session_run (hline : line.Carries longest) (h : w.Serves s) {ops : List HostOp}
    (hfits : ∀ op ∈ ops, op.fits longest) :
    ∃ w', (session ops).run (wire line) w = (w', (Server.hostRun s ops).1) ∧
      w'.Serves (Server.hostRun s ops).2 := by
  induction ops generalizing w s with
  | nil => exact ⟨w, rfl, h⟩
  | cons op ops ih =>
    obtain ⟨w₁, hrun₁, hserves₁⟩ := prog_run hline h (hfits op List.mem_cons_self)
    obtain ⟨w₂, hrun₂, hserves₂⟩ := ih hserves₁ fun op' hop => hfits op' (List.mem_cons_of_mem _ hop)
    exact ⟨w₂, by rw [session, run_bind, hrun₁, run_bind, hrun₂]; rfl, hserves₂⟩

/-- Before the first operation. -/
theorem serves_start {e : Engine} (h : e.Refines s) (taken : ℕ) : (Wire.start e taken).Serves s :=
  ⟨⟨s, [], ⟨h, trivial, rfl⟩, rfl⟩, rfl⟩

/-- 9600 baud, ten bits a byte, and an engine that answers at once. -/
def slowLine : Line := ⟨fun _ seconds => 960 * seconds, fun _ bytes => bytes.map .byte⟩

/-- Seven seconds are enough for 6718 bytes and the checksum. -/
theorem slowLine_carries_iff {n : ℕ} : slowLine.Carries n ↔ n ≤ 6718 := by
  have htrack : n + 2 ≤ slowLine.comes 0 7 ↔ n ≤ 6718 := by
    change n + 2 ≤ 6720 ↔ _
    omega
  exact ⟨fun h => htrack.mp (h.track 0), fun h =>
    ⟨fun _ => (by decide : 10 ≤ 960 * 1), fun _ => (by decide : 10 ≤ 960 * 7), fun _ =>
      htrack.mpr h, fun _ _ _ => rfl⟩⟩

/-- The longest tracks do not come in time. -/
example : ¬ slowLine.Carries 8192 := fun h => absurd (slowLine_carries_iff.mp h) (by decide)

/-- STAT, a WRIT of the second track, and a READ of it. -/
def sampleOps : List HostOp := [.stat 0 true 0, .writ 0 1 [9, 8], .read 0 1 2]

theorem sample_stands : sample.Refines sample.disk.server := ⟨sample_sound, rfl, rfl, rfl⟩

theorem hostRun_append (s : Server) (ops ops' : List HostOp) : Server.hostRun s (ops ++ ops') =
    ((Server.hostRun s ops).1 ++ (Server.hostRun (Server.hostRun s ops).2 ops').1,
      (Server.hostRun (Server.hostRun s ops).2 ops').2) := by
  induction ops generalizing s with
  | nil => rfl
  | cons op ops ih => simp only [List.cons_append, Server.hostRun, ih]

theorem length_hostRun (s : Server) (ops : List HostOp) : (Server.hostRun s ops).1.length = ops.length := by
  induction ops generalizing s with
  | nil => rfl
  | cons op ops ih => simp only [Server.hostRun, List.length_cons, ih]

/-- An accepted WRIT of a track inside the image, or no change. -/
theorem hostWrit_cases (s : Server) (drive track : ℕ) (data : Bytes) :
    (∃ i, s.inside (drive % 16) (track % 4096) data.length = some i ∧
      Server.hostWrit s drive track data = ((some 0, none),
        { s with img := Function.update s.img i (patch (s.img i) (track % 4096 * data.length) data) })) ∨
      (Server.hostWrit s drive track data).1 ≠ (some 0, none) ∧
        (Server.hostWrit s drive track data).2 = s := by
  unfold Server.hostWrit
  split
  · cases hin : s.inside (drive % 16) (track % 4096) data.length with
    | none => exact .inr ⟨by simp, rfl⟩
    | some i => exact .inl ⟨i, rfl, rfl⟩
  · exact .inr ⟨by simp, rfl⟩

theorem host_drive (s : Server) (op : HostOp) : (Server.host s op).2.drive = s.drive := by
  cases op with
  | stat | read => rfl
  | writ drive track data =>
    rcases hostWrit_cases s drive track data with ⟨i, -, hw⟩ | ⟨-, hw⟩
    · simp only [Server.host, hw]
    · simp only [Server.host, hw]

theorem hostRun_drive (s : Server) (ops : List HostOp) : (Server.hostRun s ops).2.drive = s.drive := by
  induction ops generalizing s with
  | nil => rfl
  | cons op ops ih => exact (ih _).trans (host_drive s op)

/-- The operation does not write to these bytes of the image. -/
def Server.Spares (s : Server) (i : ImageId) (off len : ℕ) : HostOp → Prop
  | .writ drive track data =>
    (∀ m ∈ s.drive (drive % 16), m.image ≠ i) ∨ track % 4096 * data.length + data.length ≤ off ∨
      off + len ≤ track % 4096 * data.length
  | .stat _ _ _ | .read _ _ _ => True

theorem inside_drive {drive track length : ℕ} {i : ImageId} (h : s.inside drive track length = some i) :
    ∃ m, s.drive drive = some m ∧ m.image = i := by
  unfold Server.inside at h
  split at h
  · cases h
  · next m hm =>
    split at h
    · exact ⟨m, hm, Option.some.inj h⟩
    · cases h

theorem host_spares {i : ImageId} {off len : ℕ} {op : HostOp} (h : Server.Spares s i off len op) :
    slice ((Server.host s op).2.img i) off len = slice (s.img i) off len ∧
      ((Server.host s op).2.img i).length = (s.img i).length := by
  cases op with
  | stat | read => exact ⟨rfl, rfl⟩
  | writ drive track data =>
    rcases hostWrit_cases s drive track data with ⟨j, hin, hw⟩ | ⟨-, hw⟩
    · have hfits := (inside_fits hin).2.2
      simp only [Server.host, hw]
      rcases eq_or_ne i j with rfl | hne
      · rw [Function.update_self, length_patch hfits]
        refine ⟨slice_patch_apart hfits ?_, rfl⟩
        obtain ⟨m, hm, hi⟩ := inside_drive hin
        rcases h with hother | hbelow | habove
        · exact absurd hi (hother m hm)
        · exact .inr hbelow
        · exact .inl habove
      · rw [Function.update_of_ne hne]
        exact ⟨rfl, rfl⟩
    · simp only [Server.host, hw, and_self]

/-- What no operation writes to stays. -/
theorem hostRun_spares {i : ImageId} {off len : ℕ} {ops : List HostOp}
    (h : ∀ op ∈ ops, Server.Spares s i off len op) :
    slice ((Server.hostRun s ops).2.img i) off len = slice (s.img i) off len ∧
      ((Server.hostRun s ops).2.img i).length = (s.img i).length := by
  induction ops generalizing s with
  | nil => exact ⟨rfl, rfl⟩
  | cons op ops ih =>
    obtain ⟨hslice, hlen⟩ := host_spares (h op List.mem_cons_self)
    have hrest : ∀ op' ∈ ops, Server.Spares (Server.host s op).2 i off len op' := by
      intro op' hop
      have hspares := h op' (List.mem_cons_of_mem _ hop)
      cases op' with
      | stat | read => trivial
      | writ drive track data => rwa [Server.Spares, host_drive]
    obtain ⟨hslice', hlen'⟩ := ih hrest
    exact ⟨hslice'.trans hslice, hlen'.trans hlen⟩

/-- The track is served, with the bytes of the image, and taken back where `--write` writes it back. -/
def Server.Matches (s : Server) (image : Bytes) (drive tlen : ℕ) (write : Bool) (t : ℕ) : Prop :=
  (∃ i, s.inside (drive % 16) (t % 4096) tlen = some i ∧
    slice (s.img i) (t % 4096 * tlen) tlen = slice image (t * tlen) tlen) ∧
    (write = true → s.accepts (drive % 16) tlen = true)

variable {image : Bytes} {drive tlen t : ℕ} {write : Bool}

/-- Writing back what was read changes nothing. -/
theorem hostWrit_same {i : ImageId} (hin : s.inside (drive % 16) (t % 4096) tlen = some i)
    (hacc : s.accepts (drive % 16) tlen = true) :
    Server.hostWrit s drive t (slice (s.img i) (t % 4096 * tlen) tlen) = ((some 0, none), s) := by
  have hfits := (inside_fits hin).2.2
  have hlen := length_slice hfits
  simp only [Server.hostWrit, hlen, hacc, if_true, hin, patch_slice hfits, Function.update_eq_self]

theorem verifyTracks_run (hline : line.Carries tlen) (h : w.Serves s) (image : Bytes) (drive : ℕ)
    (write : Bool) (ts : List ℕ) :
    ∃ w' code, (verifyTracks image drive tlen write ts).run (wire line) w = (w', code) ∧ w'.Serves s ∧
      (code = 0 ↔ ∀ t ∈ ts, Server.Matches s image drive tlen write t) := by
  induction ts generalizing w with
  | nil => exact ⟨w, 0, rfl, h, by simp⟩
  | cons t ts ih =>
    have hfail : ∀ {w' : Wire}, w'.Serves s → ¬ Server.Matches s image drive tlen write t →
        ∃ w'' code, ((w', 1) : Wire × ℕ) = (w'', code) ∧ w''.Serves s ∧
          (code = 0 ↔ ∀ t' ∈ t :: ts, Server.Matches s image drive tlen write t') := fun {w'} hserves hno =>
      ⟨w', 1, rfl, hserves, by rintro ⟨⟩, fun hall => absurd (hall t List.mem_cons_self) hno⟩
    have hgo : ∀ {w' : Wire}, w'.Serves s → Server.Matches s image drive tlen write t →
        ∃ w'' code, (verifyTracks image drive tlen write ts).run (wire line) w' = (w'', code) ∧ w''.Serves s ∧
          (code = 0 ↔ ∀ t' ∈ t :: ts, Server.Matches s image drive tlen write t') := by
      intro w' hserves hyes
      obtain ⟨w'', code, hrun, hserves', hcode⟩ := ih hserves
      exact ⟨w'', code, hrun, hserves', by rw [hcode, List.forall_mem_cons, and_iff_right hyes]⟩
    obtain ⟨w₁, hrun₁, hserves₁⟩ := doRead_run hline h drive t le_rfl
    rw [verifyTracks, run_bind, hrun₁]
    cases hin : s.inside (drive % 16) (t % 4096) tlen with
    | none =>
      simp only [Server.hostRead, hin]
      refine hfail hserves₁ ?_
      rintro ⟨⟨i, hi, -⟩, -⟩
      cases hin.symm.trans hi
    | some i =>
      simp only [Server.hostRead, hin]
      by_cases hdata : slice (s.img i) (t % 4096 * tlen) tlen = slice image (t * tlen) tlen
      · cases hwrite : write with
        | false =>
          subst hwrite
          simp only [hdata, ne_eq, not_true_eq_false, if_false, Bool.false_eq_true]
          exact hgo hserves₁ ⟨⟨i, hin, hdata⟩, by rintro ⟨⟩⟩
        | true =>
          subst hwrite
          have hfits := inside_fits hin
          have hlen : (slice image (t * tlen) tlen).length = tlen := by rw [← hdata, length_slice hfits.2.2]
          obtain ⟨w₂, hrun₂, hserves₂⟩ := doWrit_run hline hserves₁ drive t (by omega) hlen.le
          simp only [hdata, ne_eq, not_true_eq_false, if_false, if_true, run_bind, hrun₂]
          cases hacc : s.accepts (drive % 16) tlen with
          | false =>
            have hno : Server.hostWrit s drive t (slice image (t * tlen) tlen) =
              ((some 1, some (.notReady 1)), s) := by
              rw [← hdata]
              simp only [Server.hostWrit, length_slice (inside_fits hin).2.2, hacc,
                Bool.false_eq_true, if_false]
            rw [hno] at hserves₂ ⊢
            refine hfail hserves₂ ?_
            rintro ⟨-, haccept⟩
            exact absurd (hacc.symm.trans (haccept rfl)) (by decide)
          | true =>
            have hsame := hostWrit_same hin hacc
            rw [hdata] at hsame
            rw [hsame] at hserves₂ ⊢
            obtain ⟨w₃, hrun₃, hserves₃⟩ := doRead_run hline hserves₂ drive t le_rfl
            simp only [not_true_eq_false, if_false, run_bind, hrun₃, Server.hostRead, hin, hdata]
            exact hgo hserves₃ ⟨⟨i, hin, hdata⟩, fun _ => hacc⟩
      · simp only [ne_eq, hdata, not_false_eq_true, if_true]
        refine hfail hserves₁ ?_
        rintro ⟨⟨j, hj, hslice⟩, -⟩
        cases hin.symm.trans hj
        exact hdata hslice

theorem cmdVerify_run (hline : line.Carries tlen) (h : w.Serves s) (image : Bytes)
    (drive : ℕ) (write : Bool) :
    ∃ w' code, (cmdVerify image drive tlen write).run (wire line) w = (w', code) ∧ w'.Serves s ∧
      (code = 0 ↔ tlen ∣ image.length ∧ ∀ t < image.length / tlen,
        Server.Matches s image drive tlen write t) := by
  unfold cmdVerify
  by_cases hdvd : image.length % tlen = 0
  · rw [if_neg (not_not_intro hdvd)]
    obtain ⟨w', code, hrun, hserves, hcode⟩ :=
      verifyTracks_run hline h image drive write (List.range (image.length / tlen))
    refine ⟨w', code, hrun, hserves, ?_⟩
    simp only [hcode, List.mem_range, Nat.dvd_of_mod_eq_zero hdvd, true_and]
  · rw [if_pos hdvd]
    exact ⟨w, 1, rfl, h, by rintro ⟨⟩, fun hall => absurd (Nat.mod_eq_zero_of_dvd hall.1) hdvd⟩

/-- An image of whole tracks, as many as a track number can name, matches iff it is the beginning of
    what is served. -/
theorem matches_iff (himage : image ≠ []) (hdvd : tlen ∣ image.length)
    (htracks : image.length / tlen ≤ 4096) :
    (∀ t < image.length / tlen, Server.Matches s image drive tlen write t) ↔
      tlen ≤ 8192 ∧ ∃ m, s.drive (drive % 16) = some m ∧ image <+: s.img m.image ∧
        (write = true → m.writable = true) := by
  obtain ⟨n, hn⟩ := hdvd
  have hpos : 0 < image.length := List.length_pos_of_ne_nil himage
  have htlen : 0 < tlen := Nat.pos_of_ne_zero (by rintro rfl; omega)
  have hcount : image.length / tlen = n := by rw [hn, Nat.mul_div_cancel_left _ htlen]
  have hlen : image.length = n * tlen := by rw [hn, Nat.mul_comm]
  have hn0 : 0 < n := Nat.pos_of_ne_zero (by rintro rfl; omega)
  rw [hcount] at htracks ⊢
  have hmod : ∀ t < n, t % 4096 = t := fun t ht => Nat.mod_eq_of_lt (by omega)
  constructor
  · intro hall
    obtain ⟨⟨i, hin, -⟩, hacc⟩ := hall 0 hn0
    obtain ⟨m, hm, rfl⟩ := inside_drive hin
    refine ⟨(inside_fits hin).2.1, m, hm, prefix_of_slices hlen fun t ht => ?_, fun hw => ?_⟩
    · obtain ⟨⟨j, hj, hslice⟩, -⟩ := hall t ht
      obtain ⟨m', hm', rfl⟩ := inside_drive hj
      cases hm.symm.trans hm'
      rwa [hmod t ht] at hslice
    · have haccept := hacc hw
      unfold Server.accepts at haccept
      rw [hm] at haccept
      exact (Bool.and_eq_true_iff.mp haccept).1
  · rintro ⟨hle, m, hm, hprefix, hw⟩ t ht
    have hinside : t * tlen + tlen ≤ image.length := by
      have hnext : (t + 1) * tlen ≤ n * tlen := Nat.mul_le_mul_right _ ht
      rw [Nat.add_mul, Nat.one_mul] at hnext
      omega
    have hfits : 1 ≤ tlen ∧ tlen ≤ 8192 ∧ t * tlen + tlen ≤ (s.img m.image).length :=
      ⟨htlen, hle, hinside.trans hprefix.length_le⟩
    refine ⟨⟨m.image, ?_, ?_⟩, fun hwrite => ?_⟩
    · simp only [Server.inside, hm, hmod t ht, if_pos hfits]
    · obtain ⟨rest, hrest⟩ := hprefix
      rw [hmod t ht, ← hrest, slice, slice, List.drop_append_of_le_length (by omega),
        List.take_append_of_le_length]
      rw [List.length_drop]
      omega
    · simp only [Server.accepts, hm, hw hwrite, Bool.true_and, decide_eq_true_eq]
      exact ⟨htlen, hle⟩

end FdcSds.Fdcsim
