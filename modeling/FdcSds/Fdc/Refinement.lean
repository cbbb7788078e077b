import FdcSds.Fdc.TrackServer

/-! The engine refines the track server.

    `Sound` is what a fixed mount table keeps: a coherent cache, recorded sizes that are the images'
    lengths, and a backing in exactly the mounted slots. One lemma per handler says what it sends and
    which server it leaves; one round of the task serves one transaction; a run follows by induction. -/

namespace FdcSds
open Schemes

/-- The state of the disk module between the engine's calls. -/
structure Disk.Sound (w : Disk) : Prop where
  coherent : w.Coherent w.img
  sized : w.Sized w.img
  seated : ∀ d, (w.drv d).mounted = (w.drv d).backing.isSome

/-- The engine stands for the server `s`; `s_cmd` and `s_resp` are ten bytes. -/
structure Engine.Refines (e : Engine) (s : Server) : Prop where
  sound : e.disk.Sound
  server : e.disk.server = s
  cmd_len : e.cmd.length = 10
  resp_len : e.resp.length = 10

/-! ### Receiving -/

theorem linkRecv_bytes (bytes : Bytes) (s : List Arrival) :
    linkRecv bytes.length (bytes.map .byte ++ s) = ⟨bytes, 0, s⟩ := by
  induction bytes with
  | nil => rfl
  | cons b bytes ih => simp only [List.length_cons, List.map_cons, List.cons_append, linkRecv, ih]

theorem linkRecv_short {need : ℕ} (head : Bytes) (h : head.length < need) (late : ℕ)
    (s : List Arrival) :
    linkRecv need (head.map .byte ++ .expire late :: s) = ⟨head, late, s⟩ := by
  induction head generalizing need with
  | nil =>
    obtain ⟨n, rfl⟩ : ∃ n, need = n + 1 := ⟨need - 1, by simp only [List.length_nil] at h; omega⟩
    rfl
  | cons b head ih =>
    obtain ⟨n, rfl⟩ : ∃ n, need = n + 1 := ⟨need - 1, by omega⟩
    simp only [List.length_cons, Nat.add_lt_add_iff_right] at h
    simp only [List.map_cons, List.cons_append, linkRecv, ih h]

theorem linkFlushInput_bytes (late : Bytes) (s : List Arrival) :
    linkFlushInput late.length (late.map .byte ++ s) = s := by
  induction late with
  | nil => cases s <;> rfl
  | cons b late ih => simpa only [List.length_cons, List.map_cons, List.cons_append, linkFlushInput] using ih

/-! ### Responding -/

namespace Engine

variable {e : Engine} {s : Server} {cmd : Bytes}

theorem buildResp_resp (hr : e.resp.length = 10) (hc : cmd.length = 4) (word1 word2 : UInt16) :
    (e.buildResp cmd word1 word2).resp = respBlock cmd word1.toNat word2.toNat := by
  obtain ⟨r₁, r₂, r₃, r₄, hsplit, h₁, h₂, h₃, h₄⟩ : ∃ r₁ r₂ r₃ r₄ : Bytes,
      e.resp = r₁ ++ r₂ ++ r₃ ++ r₄ ∧ r₁.length = 4 ∧ r₂.length = 2 ∧ r₃.length = 2 ∧ r₄.length = 2 := by
    refine ⟨e.resp.take 4, (e.resp.drop 4).take 2, (e.resp.drop 6).take 2, e.resp.drop 8, ?_,
      by simp [hr], by simp [hr], by simp [hr], by simp [hr]⟩
    rw [List.append_assoc, List.append_assoc, show e.resp.drop 6 = (e.resp.drop 4).drop 2 by simp,
      show e.resp.drop 8 = ((e.resp.drop 4).drop 2).drop 2 by simp, List.take_append_drop,
      List.take_append_drop, List.take_append_drop]
  have hcmd : patch e.resp 0 cmd = cmd ++ r₂ ++ r₃ ++ r₄ := by
    have := patch_middle [] r₁ (r₂ ++ r₃ ++ r₄) cmd 0 rfl (h₁.trans hc.symm)
    rw [hsplit]; simpa only [List.nil_append, List.append_assoc] using this
  have hw₁ : patch (cmd ++ r₂ ++ r₃ ++ r₄) fdcOffWord1 (le16 word1.toNat)
      = cmd ++ le16 word1.toNat ++ r₃ ++ r₄ := by
    have := patch_middle cmd r₂ (r₃ ++ r₄) (le16 word1.toNat) fdcOffWord1 hc h₂
    simpa only [List.append_assoc] using this
  have hw₂ : patch (cmd ++ le16 word1.toNat ++ r₃ ++ r₄) fdcOffWord2 (le16 word2.toNat)
      = cmd ++ le16 word1.toNat ++ le16 word2.toNat ++ r₄ :=
    patch_middle _ _ _ _ _ (by simp only [List.length_append, hc, length_le16]; rfl) h₃
  have hbody : (cmd ++ le16 word1.toNat ++ le16 word2.toNat).length = 8 := by
    simp only [List.length_append, hc, length_le16]
  simp only [buildResp, writeLe16_eq, hcmd, hw₁, hw₂, fdcBlockFinalize, toNat_checksum16]
  have htake : (cmd ++ le16 word1.toNat ++ le16 word2.toNat ++ r₄).take fdcOffCksum
      = cmd ++ le16 word1.toNat ++ le16 word2.toNat := by
    rw [show fdcOffCksum = (cmd ++ le16 word1.toNat ++ le16 word2.toNat).length from hbody.symm,
      List.take_left]
  rw [htake]
  have := patch_middle (cmd ++ le16 word1.toNat ++ le16 word2.toNat) r₄ []
    (le16 (byteSum (cmd ++ le16 word1.toNat ++ le16 word2.toNat) % 65536)) fdcOffCksum hbody h₄
  simpa only [List.append_nil, respBlock] using this

theorem length_respBlock {cmd : Bytes} (hc : cmd.length = 4) (word1 word2 : ℕ) :
    (respBlock cmd word1 word2).length = 10 := by
  simp only [respBlock, List.length_append, hc, length_le16]

/-- Building and sending a response block: only `s_resp` and the link change. -/
theorem sendResp_eq (hr : e.resp.length = 10) (hc : cmd.length = 4) (word1 word2 : UInt16) :
    (e.buildResp cmd word1 word2).sendResp =
      { e with resp := respBlock cmd word1.toNat word2.toNat,
               sent := e.sent ++ respBlock cmd word1.toNat word2.toNat } := by
  have hresp := buildResp_resp hr hc word1 word2
  have htake : (e.buildResp cmd word1 word2).resp.take fdcBlockLen
      = respBlock cmd word1.toNat word2.toNat := by
    rw [hresp]
    exact List.take_of_length_le (by rw [length_respBlock hc]; decide)
  simp only [sendResp, linkSend, htake]
  simp only [buildResp] at hresp ⊢
  rw [hresp]

end Engine

/-! ### The disk behind the server -/

namespace Disk.Sound

variable {w : Disk} {drive len : ℕ} {track : UInt32} {i : ImageId}

/-- A drive of the server: empty, or the backing of a mounted slot. -/
theorem drive_cases (h : w.Sound) (d : ℕ) :
    (w.server.drive d = none ∧ w.diskIsMounted d = false) ∨
    ∃ b, d < diskMaxDrive ∧ (w.drv d).mounted = true ∧ (w.drv d).backing = some b ∧
      w.server.drive d = some ⟨(w.heap b).image, !(w.drv d).readonly⟩ := by
  rcases hm : w.diskIsMounted d with _ | _
  · exact .inl ⟨by simp [Disk.server, hm], rfl⟩
  · have hm' := hm
    simp only [diskIsMounted, driveOk, Bool.and_eq_true, decide_eq_true_eq] at hm'
    obtain ⟨b, hb⟩ := Option.isSome_iff_exists.mp ((h.seated d).symm.trans hm'.2)
    exact .inr ⟨b, hm'.1, hm'.2, hb, by simp [Disk.server, hm, hb]⟩

/-- `check_track` passes exactly on the tracks the server has inside an image. -/
theorem inside_iff (h : w.Sound) : w.server.inside drive track.toNat len = some i ↔
    ∃ b, w.Serves drive track len b ∧ (w.heap b).image = i := by
  rcases h.drive_cases drive with ⟨hd, hm⟩ | ⟨b, hlt, hm, hb, hd⟩
  · simp only [Server.inside, hd, reduceCtorEq, false_iff, not_exists, not_and]
    intro b hs
    simp [diskIsMounted, driveOk, hs.drive_lt, hs.mounted] at hm
  simp only [Server.inside, hd, Option.ite_none_right_eq_some, Option.some.injEq]
  have hsize : (w.server.img (w.heap b).image).length = (w.heap b).size.toNat := (h.sized _ _ hb).symm
  rw [hsize]
  constructor
  · rintro ⟨⟨hpos, hle, hin⟩, rfl⟩
    exact ⟨b, ⟨hlt, hpos, hle, hm, hb, by rw [Nat.add_mul, Nat.one_mul]; exact hin⟩, rfl⟩
  · rintro ⟨b', hs, rfl⟩
    obtain rfl : b' = b := by simpa [hb] using hs.backing.symm
    have hin := hs.inside
    rw [Nat.add_mul, Nat.one_mul] at hin
    exact ⟨⟨hs.len_pos, hs.len_le, hin⟩, rfl⟩

theorem inside_none (h : w.Sound) (hno : ∀ b, ¬w.Serves drive track len b) :
    w.server.inside drive track.toNat len = none := by
  rw [Option.eq_none_iff_forall_not_mem]
  intro i hi
  obtain ⟨b, hs, _⟩ := h.inside_iff.mp hi
  exact hno b hs

theorem writReady_eq (h : w.Sound) (drive len : ℕ) :
    Engine.writReady w drive len = w.server.accepts drive len := by
  have hbuf : diskTrackBufSize = 8192 := rfl
  rcases h.drive_cases drive with ⟨hd, hm⟩ | ⟨b, hlt, hm, hb, hd⟩
  · simp [Engine.writReady, Server.accepts, hd, hm]
  · simp only [Engine.writReady, Server.accepts, hd, diskIsMounted, diskIsReadonly, driveOk, hlt, hm,
      decide_true, Bool.true_and, Bool.and_true, hbuf, Bool.decide_and, Nat.succ_le_iff]
    exact Bool.and_comm ..

theorem statusBitmap_eq (h : w.Sound) : w.diskStatusBitmap.toNat = w.server.statWord := by
  have hmax : diskMaxDrive = 4 := rfl
  refine Nat.eq_of_testBit_eq fun n => ?_
  rw [diskStatusBitmap, hmax, testBit_statusBitmap, Server.statWord]
  have hdrive : (w.server.drive n).isSome = (decide (n < 4) && (w.drv n).mounted) := by
    rcases h.drive_cases n with ⟨hd, hm⟩ | ⟨b, hlt, hm, -, hd⟩
    · rw [hd]; exact hm.symm
    · rw [hd, hm, decide_eq_true (hmax ▸ hlt)]; rfl
  rcases Nat.lt_or_ge n 16 with hn | hn
  · rw [Nat.testBit_ofBits_lt _ _ hn]; exact hdrive.symm
  · rw [Nat.testBit_ofBits_ge _ _ hn, decide_eq_false (by omega), Bool.false_and]

/-- A call that leaves the table, the recorded sizes and the images' lengths keeps a sound disk. -/
theorem keep {w' : Disk} (h : w.Sound) (hc : w'.Coherent w'.img) (hd : w'.drv = w.drv)
    (hh : w'.heap = w.heap) (hi : ∀ i, (w'.img i).length = (w.img i).length) : w'.Sound := by
  refine ⟨hc, fun d b hb => ?_, fun d => by rw [hd]; exact h.seated d⟩
  rw [hd] at hb
  rw [hh, hi]
  exact h.sized d b hb

end Disk.Sound

theorem Disk.server_congr {w w' : Disk} (hd : w'.drv = w.drv) (hh : w'.heap = w.heap) :
    w'.server = { w.server with img := w'.img } := by
  simp only [Disk.server, Disk.diskIsMounted, hd, hh]; rfl

/-! ### The handlers -/

namespace Engine

/-- From `e` to `e'` the engine sent `r.1`, and it now stands for `r.2`. -/
def Served (e e' : Engine) (r : Bytes × Server) : Prop := e'.Refines r.2 ∧ e'.sent = e.sent ++ r.1

variable {e : Engine} {s : Server}

/-- Sending a response block serves it and leaves the server alone. -/
theorem Refines.respond (h : e.Refines s) (cmd : Bytes) (hc : cmd.length = 4) (word1 word2 : UInt16) :
    e.Served (e.buildResp cmd word1 word2).sendResp (respBlock cmd word1.toNat word2.toNat, s) := by
  rw [sendResp_eq h.resp_len hc]
  exact ⟨⟨h.sound, h.server, h.cmd_len, length_respBlock hc ..⟩, rfl⟩

theorem handleStat_served (h : e.Refines s) :
    e.Served e.handleStat (respBlock fdcStat 0 s.statWord, s) := by
  have := h.respond fdcStat rfl fdcRespOk e.disk.diskStatusBitmap
  rwa [h.sound.statusBitmap_eq, h.server] at this

theorem handleRead_served (h : e.Refines s) : e.Served e.handleRead
    (s.read (word e.cmd 4 / 4096) (word e.cmd 4 % 4096) (word e.cmd 6), s) := by
  set word1 := fdcReadLe16 e.cmd fdcOffWord1 with hword1
  have hdrive : word e.cmd 4 / 4096 = (fdcWord1Drive word1).toNat := by
    rw [toNat_word1Drive, hword1, toNat_readLe16]; rfl
  have htrack : word e.cmd 4 % 4096 = (fdcWord1Track word1).toUInt32.toNat := by
    rw [UInt16.toNat_toUInt32, toNat_word1Track, hword1, toNat_readLe16]; rfl
  have hlen : word e.cmd 6 = (fdcReadLe16 e.cmd fdcOffWord2).toNat := by rw [toNat_readLe16]; rfl
  obtain ⟨w', r, hcall, hcoh, hdrv, hheap, himg, hcase⟩ :=
    Disk.diskReadTrack_spec h.sound.coherent h.sound.sized (fdcWord1Drive word1).toNat
      (fdcWord1Track word1).toUInt32 (fdcReadLe16 e.cmd fdcOffWord2).toNat
  have hsound : w'.Sound := h.sound.keep (by rwa [himg]) hdrv hheap fun i => by rw [himg]
  have hserver : w'.server = s := by
    rw [Disk.server_congr hdrv hheap, himg, ← h.server]; rfl
  rw [hdrive, htrack, hlen]
  simp only [handleRead, ← hword1, hcall]
  rcases hcase with ⟨err, rfl, hno⟩ | ⟨b, hs, rfl⟩
  · have hnone := h.sound.inside_none hno
    rw [h.server] at hnone
    simp only [Server.read, hnone]
    exact ⟨⟨hsound, hserver, h.cmd_len, h.resp_len⟩, (List.append_nil _).symm⟩
  · have hin := h.sound.inside_iff.mpr ⟨b, hs, rfl⟩
    have himgs : s.img = e.disk.img := by rw [← h.server]; rfl
    rw [h.server] at hin
    have htake : (memcpy e.data _).take _ = _ := take_memcpy (hs.trackOf_length h.sound.sized)
    rw [Disk.trackOf] at htake
    refine ⟨⟨hsound, hserver, h.cmd_len, h.resp_len⟩, ?_⟩
    simp only [Server.read, hin, linkSend, htake, writeLe16_eq, toNat_checksum16, himgs,
      List.append_assoc, Disk.trackOf]

/-- The transfer at the end of a WRIT: the WSTA the server sends, on the image the server writes. -/
theorem finishWrit_served (h : e.Refines s) {drive len : ℕ} (track : UInt32) {payload : Bytes}
    (ck : Bytes) (hdata : e.data.take len = payload) (hlen : payload.length = len)
    (hacc : s.accepts drive len = true) :
    ∃ code, (s.write drive track.toNat len (.complete payload ck)).1 = some code ∧
      e.Served (e.finishWrit drive track len ck)
        (respBlock fdcWsta code 0, (s.write drive track.toNat len (.complete payload ck)).2) := by
  have hck : fdcReadLe16 ck 0 ≠ fdcChecksum16 payload ↔ word ck 0 ≠ byteSum payload % 65536 := by
    rw [← toNat_readLe16, ← toNat_checksum16, ne_eq, ne_eq, UInt16.toNat_inj]
  simp only [finishWrit, hdata, Server.write, hck]
  by_cases hbad : word ck 0 ≠ byteSum payload % 65536
  · simp only [if_pos hbad]
    exact ⟨2, rfl, h.respond fdcWsta rfl fdcRespCsumErr 0⟩
  simp only [if_neg hbad]
  obtain ⟨w', r, hcall, hcoh, hdrv, hheap, hcase⟩ :=
    Disk.diskWriteTrack_spec h.sound.coherent h.sound.sized drive track hlen
  rw [hcall]
  rcases hcase with ⟨err, rfl, himg, hno⟩ | ⟨b, hs, -, rfl, himg⟩
  · have hnone : s.inside drive track.toNat len = none := by
      rw [← h.server]
      refine h.sound.inside_none fun b hs => ?_
      have hready := h.sound.writReady_eq drive len
      rw [h.server, hacc] at hready
      simp [writReady, Disk.diskIsReadonly, driveOk, hs.drive_lt, hno b hs] at hready
    have href : ({ e with disk := w' } : Engine).Refines s :=
      ⟨h.sound.keep hcoh hdrv hheap fun i => by rw [himg],
        by rw [Disk.server_congr hdrv hheap, himg, ← h.server]; rfl, h.cmd_len, h.resp_len⟩
    simp only [hnone]
    exact ⟨3, rfl, href.respond fdcWsta rfl fdcRespWriteErr 0⟩
  · have hin := h.sound.inside_iff.mpr ⟨b, hs, rfl⟩
    rw [h.server] at hin
    have himgs : s.img = e.disk.img := by rw [← h.server]; rfl
    have hlens : ∀ i, (w'.img i).length = (e.disk.img i).length := by
      intro i
      rw [himg]
      rcases eq_or_ne i (e.disk.heap b).image with rfl | hne
      · have hinside := hs.inside
        rw [h.sound.sized _ _ hs.backing, Nat.add_mul, Nat.one_mul] at hinside
        rw [Function.update_self, length_patch (by omega)]
      · rw [Function.update_of_ne hne]
    have href : ({ e with disk := w' } : Engine).Refines { s with img := w'.img } :=
      ⟨h.sound.keep hcoh hdrv hheap hlens, by rw [Disk.server_congr hdrv hheap, ← h.server],
        h.cmd_len, h.resp_len⟩
    simp only [hin, himgs]
    refine ⟨0, rfl, ?_⟩
    rw [← himg]
    exact href.respond fdcWsta rfl fdcRespOk 0

theorem Served.trans {e₁ e₂ : Engine} {r₁ r₂ : Bytes × Server} (h₁ : e.Served e₁ r₁)
    (h₂ : e₁.Served e₂ r₂) : e.Served e₂ (r₁.1 ++ r₂.1, r₂.2) :=
  ⟨h₂.1, by rw [h₂.2, h₁.2, List.append_assoc]⟩

/-- Changes to `s_data` are nobody's business but the current transfer's. -/
theorem Refines.data (h : e.Refines s) (data : Bytes) : ({ e with data } : Engine).Refines s :=
  ⟨h.sound, h.server, h.cmd_len, h.resp_len⟩

/-- The exchange after the WRIT OK: payload, checksum, WSTA, or a window that closes early. -/
theorem receive_served (h : e.Refines s) {drive len : ℕ} (track : UInt32)
    (hacc : s.accepts drive len = true) (body : Body) (hfit : Server.bodyFits len body)
    (rest : List Arrival) :
    ∃ e', e.receiveWrit drive track len (Server.bodyWire body ++ rest) = (e', rest) ∧
      e.Served e' (((s.write drive track.toNat len body).1.elim [] fun c => respBlock fdcWsta c 0),
        (s.write drive track.toNat len body).2) := by
  unfold receiveWrit
  cases body with
  | complete payload ck =>
    obtain ⟨hlen, hck⟩ := hfit
    have hrecv := linkRecv_bytes payload (ck.map .byte ++ rest)
    have hrecv' := linkRecv_bytes ck rest
    rw [hlen] at hrecv
    rw [hck] at hrecv'
    simp only [Server.bodyWire, List.map_append, List.append_assoc, hrecv, hlen, ne_eq,
      not_true_eq_false, if_false, show fdcChecksumLen = 2 from rfl, hrecv', hck]
    obtain ⟨code, hcode, hserved⟩ := finishWrit_served (h.data (memcpy e.data payload)) track ck
      (take_memcpy hlen) hlen hacc
    rw [hcode]
    exact ⟨_, rfl, hserved⟩
  | cut head late =>
    have hstop : ∀ data, e.Served { e with data } ([], s) := fun data =>
      ⟨h.data data, (List.append_nil _).symm⟩
    rcases Nat.lt_or_ge head.length len with hshort | hpay
    · have hrecv := linkRecv_short head hshort late.length (late.map .byte ++ rest)
      simp only [Server.bodyWire, List.append_assoc, List.cons_append, hrecv, ne_eq,
        Nat.ne_of_lt hshort, not_false_eq_true, if_true, linkFlushInput_bytes]
      exact ⟨_, rfl, hstop _⟩
    · -- the payload is all there, the checksum is not
      obtain ⟨payload, ck, rfl, hlen⟩ : ∃ payload ck : Bytes, head = payload ++ ck ∧ payload.length = len :=
        ⟨head.take len, head.drop len, (List.take_append_drop ..).symm, by
          rw [List.length_take]; omega⟩
      have hck : ck.length < fdcChecksumLen := by
        simp only [Server.bodyFits, List.length_append] at hfit
        simp only [fdcChecksumLen]; omega
      have hrecv := linkRecv_bytes payload (ck.map .byte ++ .expire late.length :: (late.map .byte ++ rest))
      have hrecv' := linkRecv_short ck hck late.length (late.map .byte ++ rest)
      rw [hlen] at hrecv
      simp only [Server.bodyWire, List.map_append, List.append_assoc, List.cons_append, hrecv, hlen, ne_eq,
        not_true_eq_false, if_false, hrecv', Nat.ne_of_lt hck, not_false_eq_true, if_true,
        linkFlushInput_bytes]
      exact ⟨_, rfl, hstop _⟩

theorem handleWrit_served (h : e.Refines s) (body : Body) (rest : List Arrival)
    (hfit : s.accepts (word e.cmd 4 / 4096) (word e.cmd 6) = true →
      Server.bodyFits (word e.cmd 6) body) :
    ∃ e', e.handleWrit (s.writWire (word e.cmd 4 / 4096) (word e.cmd 6) body ++ rest) = (e', rest) ∧
      e.Served e' (s.writ (word e.cmd 4 / 4096) (word e.cmd 4 % 4096) (word e.cmd 6) body) := by
  set word1 := fdcReadLe16 e.cmd fdcOffWord1 with hword1
  have hdrive : word e.cmd 4 / 4096 = (fdcWord1Drive word1).toNat := by
    rw [toNat_word1Drive, hword1, toNat_readLe16]; rfl
  have htrack : word e.cmd 4 % 4096 = (fdcWord1Track word1).toUInt32.toNat := by
    rw [UInt16.toNat_toUInt32, toNat_word1Track, hword1, toNat_readLe16]; rfl
  have hlen : word e.cmd 6 = (fdcReadLe16 e.cmd fdcOffWord2).toNat := by rw [toNat_readLe16]; rfl
  rw [hdrive, hlen] at hfit
  have hready := h.sound.writReady_eq (fdcWord1Drive word1).toNat (fdcReadLe16 e.cmd fdcOffWord2).toNat
  rw [h.server] at hready
  rw [hdrive, htrack, hlen]
  simp only [handleWrit, ← hword1, hready, Server.writWire, Server.writ]
  cases hacc : s.accepts (fdcWord1Drive word1).toNat (fdcReadLe16 e.cmd fdcOffWord2).toNat with
  | false => exact ⟨_, rfl, h.respond fdcWrit rfl fdcRespNotReady 0⟩
  | true =>
    have hok := h.respond fdcWrit rfl fdcRespOk 0
    obtain ⟨e', hrun, hserved⟩ := receive_served hok.1 (fdcWord1Track word1).toUInt32
      hacc body (hfit hacc) rest
    exact ⟨e', hrun, hok.trans hserved⟩

/-! ### One transaction, and a run -/

/-- Dispatching a valid block runs the command it decodes to. -/
theorem dispatch_served (h : e.Refines s) (hv : fdcBlockValid e.cmd = true) (body : Body)
    (hfit : s.fits (.block e.cmd body)) (rest : List Arrival) :
    ∃ e', (∀ front, s.wire (.block e.cmd body) = e.cmd.map .byte ++ front →
        e.dispatch (front ++ rest) = (e', rest)) ∧ e.Served e' (s.step (.block e.cmd body)) := by
  have hck : ¬word e.cmd 8 ≠ byteSum (e.cmd.take 8) % 65536 :=
    not_not_intro ((blockValid_iff e.cmd).mp hv)
  have hmnem : ∀ m, (e.cmd.take fdcCmdLen = m) = (e.cmd.take 4 = m) := fun _ => rfl
  obtain ⟨-, hfit⟩ := hfit
  simp only [Server.wire, Server.step, dispatch, decode, hmnem, if_neg hck] at hfit ⊢
  by_cases hstat : e.cmd.take 4 = fdcStat
  · simp only [if_pos hstat]
    exact ⟨_, fun front hf => by rw [← List.append_cancel_left hf]; rfl, handleStat_served h⟩
  simp only [if_neg hstat] at hfit ⊢
  by_cases hread : e.cmd.take 4 = fdcRead
  · simp only [if_pos hread]
    exact ⟨_, fun front hf => by rw [← List.append_cancel_left hf]; rfl, handleRead_served h⟩
  simp only [if_neg hread] at hfit ⊢
  by_cases hwrit : e.cmd.take 4 = fdcWrit
  · simp only [if_pos hwrit] at hfit ⊢
    obtain ⟨e', hrun, hserved⟩ := handleWrit_served h body rest hfit
    exact ⟨e', fun front hf => by rw [← List.append_cancel_left hf]; exact hrun, hserved⟩
  · simp only [if_neg hwrit]
    exact ⟨e, fun front hf => by rw [← List.append_cancel_left hf]; rfl, h, (List.append_nil _).symm⟩

theorem length_memcpy_cmd (h : e.cmd.length = 10) (b : UInt8) : (memcpy e.cmd [b]).length = 10 := by
  simp only [memcpy, List.length_append, List.length_drop, List.length_cons, List.length_nil, h]

/-- The command buffer after a complete block is that block. -/
theorem cmd_of_block (h : e.cmd.length = 10) (b : UInt8) (tl : Bytes) (htl : tl.length = 9) :
    patch (memcpy e.cmd [b]) 1 tl = b :: tl := by
  have hdrop : (e.cmd.drop 1).length = tl.length := by rw [List.length_drop, h, htl]
  simpa [memcpy] using patch_middle [b] (e.cmd.drop 1) [] tl 1 rfl hdrop

/-- CORRECT (one round): a round of the task serves exactly one transaction. -/
theorem fdcRound_served (h : e.Refines s) (t : Txn) (hfit : s.fits t) (rest : List Arrival) :
    ∃ e', e.fdcRound (s.wire t ++ rest) = (e', rest) ∧ e.Served e' (s.step t) := by
  have hkeep : ∀ cmd : Bytes, cmd.length = 10 → e.Served { e with cmd } ([], s) := fun cmd hcmd =>
    ⟨⟨h.sound, h.server, hcmd, h.resp_len⟩, (List.append_nil _).symm⟩
  have hfirst : ∀ b (tl : List Arrival), linkRecv 1 (.byte b :: tl) = ⟨[b], 0, tl⟩ := fun b tl =>
    linkRecv_bytes [b] tl
  cases t with
  | idle late => exact ⟨{ e with cmd := memcpy e.cmd [] }, rfl, hkeep _ h.cmd_len⟩
  | truncated head late =>
    obtain ⟨hpos, hlt⟩ := hfit
    obtain ⟨b, tl, rfl⟩ := List.exists_cons_of_length_pos hpos
    have htl : tl.length < fdcBlockLen - 1 := by
      simp only [List.length_cons, fdcBlockLen] at hlt ⊢; omega
    have hrecv := linkRecv_short tl htl late.length (late.map .byte ++ rest)
    simp only [fdcRound, Server.wire, List.map_cons, List.cons_append, List.append_assoc, hfirst,
      List.length_singleton, ne_eq, not_true_eq_false, if_false, hrecv, Nat.ne_of_lt htl,
      not_false_eq_true, if_true, linkFlushInput_bytes]
    refine ⟨_, rfl, hkeep _ ?_⟩
    rw [length_patch, length_memcpy_cmd h.cmd_len]
    rw [length_memcpy_cmd h.cmd_len]
    simp only [fdcBlockLen] at htl; omega
  | block cmd body =>
    obtain ⟨b, tl, rfl⟩ := List.exists_cons_of_length_pos (l := cmd) (by rw [hfit.1]; decide)
    have htl : tl.length = fdcBlockLen - 1 := by
      have := hfit.1
      simp only [List.length_cons, fdcBlockLen] at this ⊢; omega
    obtain ⟨front, hfront⟩ : ∃ front, s.wire (.block (b :: tl) body) = (b :: tl).map .byte ++ front :=
      ⟨_, rfl⟩
    have hrecv := linkRecv_bytes tl (front ++ rest)
    rw [htl] at hrecv
    have hcmd := cmd_of_block h.cmd_len b tl htl
    have h' : ({ e with cmd := b :: tl } : Engine).Refines s := ⟨h.sound, h.server, hfit.1, h.resp_len⟩
    simp only [fdcRound, hfront, List.map_cons, List.cons_append, List.append_assoc, hfirst,
      List.length_singleton, ne_eq, not_true_eq_false, if_false, hrecv, htl, hcmd]
    cases hv : fdcBlockValid (b :: tl) with
    | false =>
      have hign : decode (b :: tl) = .ignored :=
        if_pos ((blockValid_iff (b :: tl)).not.mp (by rw [hv]; decide))
      have hnil : front = [] := by
        simpa only [Server.wire, hign, List.append_nil, List.self_eq_append_right] using hfront
      simp only [hnil, Bool.not_false, if_true, List.nil_append, Server.step, hign]
      exact ⟨_, rfl, hkeep _ hfit.1⟩
    | true =>
      obtain ⟨e', hrun, hserved⟩ := dispatch_served h' hv body hfit rest
      exact ⟨e', hrun front hfront, hserved⟩

theorem fdcTask_append (m n : ℕ) (e : Engine) (a : List Arrival) :
    e.fdcTask (m + n) a = (e.fdcTask m a).1.fdcTask n (e.fdcTask m a).2 := by
  induction m generalizing e a with
  | zero => rw [Nat.zero_add]; rfl
  | succ m ih => rw [Nat.succ_add]; exact ih ..

/-- With nothing on the link the task only polls. -/
theorem fdcTask_idle (n : ℕ) (e : Engine) : e.fdcTask n [] = (e, []) := by
  induction n with
  | zero => rfl
  | succ n ih => exact ih

/-- CORRECT (a run): as many rounds as transactions serve the run, whatever follows on the link. -/
theorem fdcTask_served (h : e.Refines s) (ts : List Txn) (hfit : s.runFits ts) (rest : List Arrival) :
    ∃ e', e.fdcTask ts.length (s.runWire ts ++ rest) = (e', rest) ∧ e.Served e' (s.run ts) := by
  induction ts generalizing e s with
  | nil => exact ⟨e, rfl, h, (List.append_nil _).symm⟩
  | cons t ts ih =>
    obtain ⟨e₁, hround, hserved⟩ := fdcRound_served h t hfit.1 ((s.step t).2.runWire ts ++ rest)
    obtain ⟨e₂, hrun, hserved'⟩ := ih hserved.1 hfit.2
    refine ⟨e₂, ?_, hserved.trans hserved'⟩
    simp only [Server.runWire, List.append_assoc, List.length_cons, fdcTask, hround, hrun]

/-- CORRECT: on every run of transactions the engine sends what the track server sends, leaves the
    images the track server leaves, consumes exactly the bytes of the run, and then only polls. -/
theorem fdcTask_refines_trackServer (e : Engine) (hsound : e.disk.Sound) (hcmd : e.cmd.length = 10)
    (hresp : e.resp.length = 10) (ts : List Txn) (hfit : e.disk.server.runFits ts) :
    (∀ rest, ∃ e', e.fdcTask ts.length (e.disk.server.runWire ts ++ rest) = (e', rest) ∧
      e'.sent = e.sent ++ (e.disk.server.run ts).1 ∧
      e'.disk.img = (e.disk.server.run ts).2.img ∧ e'.disk.server = (e.disk.server.run ts).2) ∧
    ∀ k, e.fdcTask (ts.length + k) (e.disk.server.runWire ts)
      = e.fdcTask ts.length (e.disk.server.runWire ts) := by
  have href : e.Refines e.disk.server := ⟨hsound, rfl, hcmd, hresp⟩
  refine ⟨fun rest => ?_, fun k => ?_⟩
  · obtain ⟨e', hrun, hserved⟩ := fdcTask_served href ts hfit rest
    have himg : e'.disk.img = e'.disk.server.img := rfl
    exact ⟨e', hrun, hserved.2, by rw [himg, hserved.1.server], hserved.1.server⟩
  · obtain ⟨e', hrun, -⟩ := fdcTask_served href ts hfit []
    rw [List.append_nil] at hrun
    rw [fdcTask_append, hrun, fdcTask_idle]

/-- One writable four-byte image in drive 0, nothing else mounted. -/
def sample : Engine where
  disk := {
    drv := fun d => if d = 0 then ⟨true, false, false, ['A'], ['A'], some 0⟩ else .empty
    buf := []
    cache := ⟨false, 0, 0, 0⟩
    heap := fun _ => ⟨.sd 0, 4⟩
    img := fun _ => [1, 2, 3, 4] }
  cmd := List.replicate 10 0
  data := []
  resp := List.replicate 10 0
  sent := []

/-- STAT; WRIT of track 1, two bytes long; READ of the same track; half a block. -/
def sampleRun : List Txn :=
  [.block [0x53, 0x54, 0x41, 0x54, 0, 0, 0, 0, 0x3C, 0x01] (.cut [] []),
    .block [0x57, 0x52, 0x49, 0x54, 1, 0, 2, 0, 0x49, 0x01] (.complete [9, 8] [17, 0]),
    .block [0x52, 0x45, 0x41, 0x44, 1, 0, 2, 0, 0x1F, 0x01] (.cut [] []),
    .truncated [0x53, 0x54] [7]]

theorem sample_sound : sample.disk.Sound := by
  refine ⟨fun h => (by cases h), fun d b hb => rfl, fun d => ?_⟩
  show (if d = 0 then _ else _ : Drive).mounted = (if d = 0 then _ else _ : Drive).backing.isSome
  split <;> rfl

theorem sample_refines :
    (∀ rest, ∃ e', sample.fdcTask 4 (sample.disk.server.runWire sampleRun ++ rest) = (e', rest) ∧
      e'.sent = sample.sent ++ (sample.disk.server.run sampleRun).1 ∧
      e'.disk.img = (sample.disk.server.run sampleRun).2.img ∧
      e'.disk.server = (sample.disk.server.run sampleRun).2) ∧
    ∀ k, sample.fdcTask (4 + k) (sample.disk.server.runWire sampleRun)
      = sample.fdcTask 4 (sample.disk.server.runWire sampleRun) :=
  fdcTask_refines_trackServer sample sample_sound rfl rfl sampleRun
    ⟨⟨rfl, trivial⟩, ⟨rfl, fun _ => ⟨rfl, rfl⟩⟩, ⟨rfl, trivial⟩, ⟨by decide, by decide⟩, trivial⟩

end Engine

end FdcSds
