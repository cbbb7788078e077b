import FdcSds.Fdc.Resync
import FdcSds.Schemes.Checksums

/-! One corrupted byte.

    Every block and every track on the link is closed by its sum. The FDC sends the payload of a WRIT only
    when the WRIT OK is there, so a corrupted command block stays a block of its own.

        WRIT block ──▶ OK ──▶ payload │ Σ ──▶ WSTA
           ✗ ignored          ✗ code 2              -/

namespace FdcSds
open Schemes

/-- A valid WRIT of a legal length. -/
structure WritBlock (block : Bytes) : Prop where
  length : block.length = fdcBlockLen
  valid : fdcBlockValid block = true
  mnemonic : block.take fdcCmdLen = fdcWrit
  len_pos : 0 < word block fdcOffWord2
  len_le : word block fdcOffWord2 ≤ diskTrackBufSize

theorem valid_iff_summed (block : Bytes) : fdcBlockValid block = true ↔ Summed fdcOffCksum block :=
  blockValid_iff block

/-- One byte of a valid block that is replaced makes it invalid. -/
theorem invalid_of_set {block : Bytes} (hlen : block.length = fdcBlockLen)
    (hvalid : fdcBlockValid block = true) {i : ℕ} {b : UInt8} (hi : i < fdcBlockLen)
    (hb : b ≠ block.getD i 0) : fdcBlockValid (block.set i b) = false := by
  have hsummed : Summed fdcOffCksum block := (valid_iff_summed block).mp hvalid
  have hset : ¬Summed fdcOffCksum (block.set i b) := hsummed.set_ne hlen (by rwa [hlen]) hb
  rwa [← valid_iff_summed, Bool.not_eq_true] at hset

theorem respBlock_withSum (cmd : Bytes) (word1 word2 : ℕ) :
    respBlock cmd word1 word2 = withSum (cmd ++ le16 word1 ++ le16 word2) := rfl

theorem respBlock_valid {cmd : Bytes} (hc : cmd.length = fdcCmdLen) (word1 word2 : ℕ) :
    fdcBlockValid (respBlock cmd word1 word2) = true := by
  have hsummed := withSum_summed (cmd ++ le16 word1 ++ le16 word2)
  have hlen : (cmd ++ le16 word1 ++ le16 word2).length = fdcOffCksum := by
    rw [List.length_append, List.length_append, hc, length_le16, length_le16]
    rfl
  rwa [hlen, ← respBlock_withSum, ← valid_iff_summed] at hsummed

namespace Engine

/-- The sizes of `s_cmd`, `s_resp` and `s_data`. -/
structure Buffers (e : Engine) : Prop where
  cmd_len : e.cmd.length = fdcBlockLen
  resp_len : e.resp.length = fdcBlockLen
  data_len : e.data.length = diskTrackBufSize

/-- What the FDC puts on the link for a write: the block, and what is to follow once the WRIT OK is there. -/
def writStream (e : Engine) (block body : Bytes) : List Arrival :=
  block.map .byte ++ if (e.fdcRound (block.map .byte)).1.sent = e.sent ++
    respBlock fdcWrit 0 0 then body.map .byte else []

/-- The drive of a WRIT block is ready for it. -/
def readyFor (e : Engine) (block : Bytes) : Bool :=
  writReady e.disk (word block fdcOffWord1 / 4096) (word block fdcOffWord2)

variable {e : Engine} {block body payload ck : Bytes} {rest : List Arrival} {i len drive : ℕ}
    {track : UInt32} {b : UInt8}

/-! ### One round -/

/-- Ten bytes are a block. -/
theorem received_block (hcmd : e.cmd.length = fdcBlockLen) (hlen : block.length = fdcBlockLen)
    (rest : List Arrival) :
    e.received (block.map .byte ++ rest) = some (block, rest) := by
  obtain ⟨b, others, rfl⟩ := List.exists_cons_of_length_pos (l := block) (by rw [hlen]; decide)
  have hothers : others.length = fdcBlockLen - 1 := Nat.succ.inj hlen
  have hrecv := linkRecv_bytes others rest
  rw [hothers] at hrecv
  have hfirst : linkRecv 1 (.byte b :: (others.map .byte ++ rest)) = ⟨[b], 0, others.map .byte ++ rest⟩ := rfl
  rw [received, List.map_cons, List.cons_append, hfirst, hrecv, if_pos ⟨rfl, hothers⟩,
    cmd_of_block hcmd b others hothers]

theorem fdcRound_block (hcmd : e.cmd.length = fdcBlockLen) (hlen : block.length = fdcBlockLen)
    (rest : List Arrival) :
    e.fdcRound (block.map .byte ++ rest) =
      if fdcBlockValid block then ({ e with cmd := block } : Engine).dispatch
        rest else ({ e with cmd := block }, rest) :=
  fdcRound_received (received_block hcmd hlen rest)

/-- After a WRIT block: OK and the transfer, or not ready. -/
theorem fdcRound_writ (hbuf : e.Buffers) (h : WritBlock block) (rest : List Arrival) :
    e.fdcRound (block.map .byte ++ rest) =
      if e.readyFor block then
        ({ e with
            cmd := block
            resp := respBlock fdcWrit 0 0
            sent := e.sent ++ respBlock fdcWrit 0 0 } : Engine).receiveWrit
          (word block fdcOffWord1 / 4096) (fdcWord1Track (fdcReadLe16 block fdcOffWord1)).toUInt32
            (word block fdcOffWord2) rest
      else
        ({ e with
            cmd := block
            resp := respBlock fdcWrit 1 0
            sent := e.sent ++ respBlock fdcWrit 1 0 }, rest) := by
  have hdrive : (fdcWord1Drive (fdcReadLe16 block fdcOffWord1)).toNat = word block fdcOffWord1 / 4096 := by
    rw [toNat_word1Drive, toNat_readLe16]
  have hlen : (fdcReadLe16 block fdcOffWord2).toNat = word block fdcOffWord2 := toNat_readLe16 ..
  have hstat : fdcWrit ≠ fdcStat := by decide
  have hread : fdcWrit ≠ fdcRead := by decide
  rw [fdcRound_block hbuf.cmd_len h.length, if_pos h.valid, dispatch]
  simp only [h.mnemonic, if_neg hstat, if_neg hread, if_true, handleWrit, hdrive, hlen]
  by_cases hready : e.readyFor block = true
  · have hdisk : writReady e.disk (word block fdcOffWord1 / 4096) (word block fdcOffWord2) = true := hready
    rw [if_pos hready, hdisk, sendResp_eq (e := { e with cmd := block }) hbuf.resp_len (by rfl)]
    rfl
  · have hdisk : writReady e.disk (word block fdcOffWord1 / 4096) (word block fdcOffWord2) = false := by
      rwa [readyFor, Bool.not_eq_true] at hready
    rw [if_neg hready, hdisk, sendResp_eq (e := { e with cmd := block }) hbuf.resp_len (by rfl)]
    rfl

/-- Nothing behind the WRIT OK: the transfer is given up. -/
theorem receiveWrit_nil (hlen : 0 < len) :
    ∃ data, e.receiveWrit drive track len [] = ({ e with data }, []) := by
  obtain ⟨n, rfl⟩ := Nat.exists_eq_add_one.mpr hlen
  exact ⟨memcpy e.data [], rfl⟩

/-- Payload and checksum behind the WRIT OK: the transfer is finished. -/
theorem receiveWrit_body (hpay : payload.length = len) (hck : ck.length = fdcChecksumLen)
    (rest : List Arrival) :
    e.receiveWrit drive track len ((payload ++ ck).map .byte ++ rest) =
      (({ e with data := memcpy e.data payload } : Engine).finishWrit drive track len ck, rest) := by
  have hrecv := linkRecv_bytes payload (ck.map .byte ++ rest)
  have hrecv' := linkRecv_bytes ck rest
  rw [hpay] at hrecv
  rw [hck] at hrecv'
  rw [receiveWrit, List.map_append, List.append_assoc]
  simp only [hrecv, hpay, hrecv', hck, ne_eq, not_true_eq_false, if_false]

/-- A payload that does not match its checksum is answered with code 2. -/
theorem finishWrit_bad (hresp : e.resp.length = fdcBlockLen) (hdata : e.data.take len = payload)
    (hbad : word ck 0 ≠ byteSum payload % 65536) :
    e.finishWrit drive track len ck =
      { e with resp := respBlock fdcWsta 2 0, sent := e.sent ++ respBlock fdcWsta 2 0 } := by
  have hck : fdcReadLe16 ck 0 ≠ fdcChecksum16 payload := by
    intro h
    have hsame := congrArg UInt16.toNat h
    rw [toNat_readLe16, toNat_checksum16] at hsame
    exact hbad hsame
  rw [finishWrit, hdata]
  simp only [if_pos hck]
  exact sendResp_eq hresp rfl fdcRespCsumErr 0

/-! ### What is replaced is noticed -/

/-- A command block with one byte replaced is ignored, and no payload follows it. -/
theorem corrupted_block (hbuf : e.Buffers) (h : WritBlock block) (hi : i < fdcBlockLen)
    (hb : b ≠ block.getD i 0) (body : Bytes) (rest : List Arrival) :
    e.fdcRound (e.writStream (block.set i b) body ++ rest) = ({ e with cmd := block.set i b }, rest) := by
  have hlen : (block.set i b).length = fdcBlockLen := by rw [List.length_set, h.length]
  have hinvalid : fdcBlockValid (block.set i b) = false := invalid_of_set h.length h.valid hi hb
  have hround : ∀ rest, e.fdcRound ((block.set i b).map .byte ++ rest) =
    ({ e with cmd := block.set i b }, rest) := by
    intro rest
    rw [fdcRound_block hbuf.cmd_len hlen, hinvalid]
    rfl
  have halone := hround []
  rw [List.append_nil] at halone
  have hsilent : e.sent ≠ e.sent ++ respBlock fdcWrit 0 0 := by
    rw [ne_eq, List.self_eq_append_right]
    decide
  rw [writStream, halone, if_neg hsilent, List.append_nil, hround]

/-- The FDC sends what is to follow exactly when the drive is ready. -/
theorem writStream_eq (hbuf : e.Buffers) (h : WritBlock block) (body : Bytes) :
    e.writStream block body = block.map .byte ++ if e.readyFor block then body.map .byte else [] := by
  have halone := fdcRound_writ hbuf h []
  rw [List.append_nil] at halone
  rw [writStream, halone]
  by_cases hready : e.readyFor block = true
  · rw [if_pos hready, if_pos hready]
    obtain ⟨data, hnil⟩ := @receiveWrit_nil
      { e with cmd := block, resp := respBlock fdcWrit 0 0, sent := e.sent ++ respBlock fdcWrit 0 0 } _
      (word block fdcOffWord1 / 4096) (fdcWord1Track (fdcReadLe16 block fdcOffWord1)).toUInt32 h.len_pos
    rw [hnil, if_pos rfl]
  · rw [if_neg hready, if_neg hready]
    have hrefused : e.sent ++ respBlock fdcWrit 1 0 ≠ e.sent ++ respBlock fdcWrit 0 0 := by
      rw [ne_eq, List.append_right_inj]
      decide
    rw [if_neg hrefused]

theorem word_drop (c : Bytes) (n : ℕ) : word (c.drop n) 0 = word c n := by
  simp [word, List.getD_eq_getElem?_getD]

/-- A payload or a payload checksum with one byte replaced is answered with code 2, and written nowhere. -/
theorem corrupted_body (hbuf : e.Buffers) (h : WritBlock block)
    (hpay : payload.length = word block fdcOffWord2) (hi : i < (withSum payload).length)
    (hb : b ≠ (withSum payload).getD i 0) (rest : List Arrival) :
    ∃ e', e.fdcRound (e.writStream block ((withSum payload).set i b) ++ rest) = (e', rest) ∧
      e'.disk = e.disk ∧
      e'.sent = e.sent ++ if e.readyFor block then respBlock fdcWrit 0 0 ++
        respBlock fdcWsta 2 0 else respBlock fdcWrit 1 0 := by
  rw [writStream_eq hbuf h, List.append_assoc, fdcRound_writ hbuf h]
  by_cases hready : e.readyFor block = true
  · rw [if_pos hready, if_pos hready, if_pos hready]
    have hlen : ((withSum payload).set i b).length = payload.length + 2 := by
      rw [List.length_set, length_withSum]
    have hnot : ¬Summed payload.length ((withSum payload).set i b) :=
      (withSum_summed payload).set_ne (length_withSum payload) hi hb
    generalize (withSum payload).set i b = body at hlen hnot
    have hfront : (body.take payload.length).length = word block fdcOffWord2 := by
      rw [List.length_take, hlen, ← hpay]
      omega
    have hback : (body.drop payload.length).length = fdcChecksumLen := by
      rw [List.length_drop, hlen, Nat.add_sub_cancel_left]
      rfl
    have hbad : word (body.drop payload.length) 0 ≠ byteSum (body.take payload.length) % 65536 := by
      rwa [word_drop]
    have hsplit : body = body.take payload.length ++ body.drop payload.length :=
      (List.take_append_drop ..).symm
    rw [hsplit, receiveWrit_body hfront hback]
    rw [finishWrit_bad _ (take_memcpy hfront) hbad]
    · exact ⟨_, rfl, rfl, List.append_assoc ..⟩
    · rfl
  · rw [if_neg hready, if_neg hready, if_neg hready]
    exact ⟨_, rfl, rfl, rfl⟩

/-- A response block with one byte replaced is invalid. -/
theorem corrupted_resp (hbuf : e.Buffers) {cmd : Bytes} (hc : cmd.length = fdcCmdLen)
    (word1 word2 : UInt16) (hi : i < fdcBlockLen)
    (hb : b ≠ (e.buildResp cmd word1 word2).resp.getD i 0) :
    fdcBlockValid ((e.buildResp cmd word1 word2).resp.set i b) = false := by
  have hresp : (e.buildResp cmd word1 word2).resp = respBlock cmd word1.toNat word2.toNat :=
    buildResp_resp hbuf.resp_len hc word1 word2
  rw [hresp] at hb ⊢
  exact invalid_of_set (length_respBlock hc ..) (respBlock_valid hc ..) hi hb

/-- A read that succeeds is of a legal length. -/
theorem length_of_read {w w' : Disk} {data : Bytes}
    (h : w.diskReadTrack drive track len = (w', .ok data)) : len ≤ diskTrackBufSize := by
  by_contra hlong
  have hbad : (len == 0 || decide (diskTrackBufSize < len)) = true := by
    rw [Bool.or_eq_true, decide_eq_true_eq]
    exact .inr (Nat.lt_of_not_le hlong)
  have hcheck : ∃ asked err, w.checkTrack drive track len = (asked, .error err) := by
    rw [Disk.checkTrack, if_pos hbad]
    split
    · exact ⟨_, _, rfl⟩
    · exact ⟨_, _, rfl⟩
  obtain ⟨asked, err, hcheck⟩ := hcheck
  rw [Disk.diskReadTrack, Disk.readEnter, hcheck] at h
  cases h

/-- A READ is answered with the track and its sum, or not at all. -/
theorem handleRead_reply (hbuf : e.Buffers) :
    e.handleRead.sent = e.sent ∨ ∃ data : Bytes, data.length = word e.cmd fdcOffWord2 ∧
      e.handleRead.sent = e.sent ++ withSum data := by
  have hlen : (fdcReadLe16 e.cmd fdcOffWord2).toNat = word e.cmd fdcOffWord2 := toNat_readLe16 ..
  rw [handleRead]
  dsimp only
  split
  · exact .inl rfl
  · rename_i disk dst hread
    have hle := length_of_read hread
    rw [hlen] at hle ⊢
    refine .inr ⟨(memcpy e.data dst).take (word e.cmd fdcOffWord2), ?_, ?_⟩
    · rw [List.length_take, memcpy, List.length_append, List.length_drop, hbuf.data_len]
      omega
    · simp only [linkSend, writeLe16_eq, toNat_checksum16, List.append_assoc, withSum]

/-- A READ block, and the answer with one byte replaced. -/
theorem corrupted_reply (hbuf : e.Buffers) (hlen : block.length = fdcBlockLen)
    (hvalid : fdcBlockValid block = true) (hread : block.take fdcCmdLen = fdcRead) (rest : List Arrival) :
    ∃ e' reply, e.fdcRound (block.map .byte ++ rest) = (e', rest) ∧ e'.sent = e.sent ++ reply ∧
      (reply = [] ∨ reply.length = word block fdcOffWord2 + 2 ∧ Summed (word block fdcOffWord2) reply ∧
        ∀ i b, i < reply.length → b ≠ reply.getD i 0 → ¬Summed (word block fdcOffWord2) (reply.set i b)) := by
  have hstat : fdcRead ≠ fdcStat := by decide
  have hdispatch : ({ e with cmd := block } : Engine).dispatch rest =
    (({ e with cmd := block } : Engine).handleRead, rest) := by
    rw [dispatch]
    simp only [hread, if_neg hstat, if_true]
  rw [fdcRound_block hbuf.cmd_len hlen, if_pos hvalid, hdispatch]
  rcases handleRead_reply (e := { e with cmd := block })
    ⟨hlen, hbuf.resp_len, hbuf.data_len⟩ with hnone | ⟨data, hdata, hsent⟩
  · exact ⟨_, [], rfl, hnone.trans (List.append_nil _).symm, .inl rfl⟩
  · have hdata' : data.length = word block fdcOffWord2 := hdata
    refine ⟨_, withSum data, rfl, hsent, .inr ?_⟩
    rw [← hdata']
    exact ⟨length_withSum data, withSum_summed data, fun i b hi hb =>
      (withSum_summed data).set_ne (length_withSum data) hi hb⟩

/-- One byte that is replaced is noticed wherever it stands: in the block, the payload or the checksum of a
    WRIT, in a response block, and in the answer to a READ. -/
theorem single_byte_caught (e : Engine) (hbuf : e.Buffers) :
    (∀ block payload, WritBlock block → payload.length = word block fdcOffWord2 →
      (∀ i b, i < fdcBlockLen → b ≠ block.getD i 0 → ∀ rest,
        e.fdcRound (e.writStream (block.set i b) (withSum payload) ++ rest) =
          ({ e with cmd := block.set i b }, rest)) ∧
      (∀ i b, i < (withSum payload).length → b ≠ (withSum payload).getD i 0 → ∀ rest,
        ∃ e', e.fdcRound (e.writStream block ((withSum payload).set i b) ++ rest) = (e', rest) ∧
          e'.disk = e.disk ∧
          e'.sent = e.sent ++ if e.readyFor block then respBlock fdcWrit 0 0 ++
            respBlock fdcWsta 2 0 else respBlock fdcWrit 1 0)) ∧
    (∀ cmd word1 word2 i b, cmd.length = fdcCmdLen → i < fdcBlockLen →
      b ≠ (e.buildResp cmd word1 word2).resp.getD i 0 →
      fdcBlockValid ((e.buildResp cmd word1 word2).resp.set i b) = false) ∧
    (∀ block, block.length = fdcBlockLen → fdcBlockValid block = true →
      block.take fdcCmdLen = fdcRead → ∀ rest,
      ∃ e' reply, e.fdcRound (block.map .byte ++ rest) = (e', rest) ∧ e'.sent = e.sent ++ reply ∧
        (reply = [] ∨ reply.length = word block fdcOffWord2 + 2 ∧ Summed (word block fdcOffWord2) reply ∧
          ∀ i b, i < reply.length → b ≠ reply.getD i 0 →
            ¬Summed (word block fdcOffWord2) (reply.set i b))) := by
  refine ⟨fun block payload h hpay => ⟨?_, ?_⟩, ?_, ?_⟩
  · intro i b hi hb rest
    exact corrupted_block hbuf h hi hb _ rest
  · intro i b hi hb rest
    exact corrupted_body hbuf h hpay hi hb rest
  · intro cmd word1 word2 i b hc hi hb
    exact corrupted_resp hbuf hc word1 word2 hi hb
  · intro block hlen hvalid hread rest
    exact corrupted_reply hbuf hlen hvalid hread rest

/-- The sample with a data buffer of its size. -/
def wideSample : Engine := { sample with data := List.replicate diskTrackBufSize 0 }

/-- WRIT of drive 0, track 1, two bytes. -/
def writBlock : Bytes := [0x57, 0x52, 0x49, 0x54, 1, 0, 2, 0, 0x49, 0x01]

theorem writBlock_writ : WritBlock writBlock := ⟨rfl, by decide, rfl, by decide, by decide⟩

theorem single_byte_caught_sample :
    wideSample.fdcRound (wideSample.writStream (writBlock.set 6 3) (withSum [9, 8]) ++ []) =
        ({ wideSample with cmd := writBlock.set 6 3 }, []) ∧
      ∃ e', wideSample.fdcRound (wideSample.writStream writBlock ((withSum [9, 8]).set 0 7) ++ []) =
        (e', []) ∧
        e'.disk = wideSample.disk ∧ e'.sent = wideSample.sent ++
          if wideSample.readyFor writBlock then respBlock fdcWrit 0 0 ++
            respBlock fdcWsta 2 0 else respBlock fdcWrit 1 0 := by
  have h := (single_byte_caught wideSample ⟨rfl, rfl, List.length_replicate⟩).1 writBlock
    [9, 8] writBlock_writ rfl
  exact ⟨h.1 6 3 (by decide) (by decide) [], h.2 0 7 (by decide) (by decide) []⟩

example : wideSample.readyFor writBlock = true := by decide

end Engine

end FdcSds
