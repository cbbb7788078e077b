import FdcSds.Fdc.Refinement

/-! Framing after stray bytes.

    A command block is the ten bytes from wherever the task starts to read. Behind stray bytes the same
    block again and again is cut in the same wrong place, since only a window that runs out flushes.

        stray │ S T A T · · · · · · │ S T A T · · · · · · │ …
        └──── ten bytes ───┴──── ten bytes ────┴────                -/

namespace FdcSds
open Schemes

/-! ### The stream -/

/-- The bytes of a stream. -/
def bytesOf (s : List Arrival) : Bytes := s.filterMap fun
  | .byte b => some b
  | .expire _ => none

/-- A window runs out only where the task idles; so many bytes of the block are missing. -/
def Steady : ℕ → List Arrival → Prop
  | _, [] => True
  | 0, .expire _ :: s => Steady 0 s
  | _ + 1, .expire _ :: _ => False
  | 0, .byte _ :: s => Steady 9 s
  | missing + 1, .byte _ :: s => Steady missing s

/-- A stream that lies across the blocks: stray bytes, and then a block again and again. -/
def Strayed (block : Bytes) (s : List Arrival) : Prop :=
  Steady 0 s ∧ (bytesOf s = [] ∨ ∃ stray times, 1 ≤ stray.length ∧ stray.length ≤ 9 ∧
    bytesOf s = stray ++ (List.replicate times block).flatten)

/-- A block the FDC may retry: a valid STAT or READ. -/
structure Retried (block : Bytes) : Prop where
  length : block.length = fdcBlockLen
  valid : fdcBlockValid block = true
  mnemonic : block.take fdcCmdLen = fdcStat ∨ block.take fdcCmdLen = fdcRead

/-- What is read in place of the block behind stray bytes. -/
def window (stray block : Bytes) : Bytes := stray ++ block.take (fdcBlockLen - stray.length)

/-! ### Windows -/

section

variable {s : List Arrival} {block stray : Bytes}

/-- A byte as a number. -/
abbrev byteAt (block : Bytes) (i : ℕ) : ℕ := (block.getD i 0).toNat

theorem byteSum_front (h : block.length = fdcBlockLen) :
    byteSum (block.take fdcOffCksum) = byteAt block 0 + byteAt block 1 + byteAt block 2 +
      byteAt block 3 + byteAt block 4 +
      byteAt block 5 + byteAt block 6 + byteAt block 7 := by
  match block, h with
  | [b0, b1, b2, b3, b4, b5, b6, b7, b8, b9], _ =>
    simp [fdcOffCksum, byteAt]
    omega

/-- The checksum of a valid block is the sum itself: eight bytes do not wrap. -/
theorem valid_sum (h : block.length = fdcBlockLen) (hvalid : fdcBlockValid block = true) :
    byteAt block 8 + 256 * byteAt block 9 = byteAt block 0 + byteAt block 1 + byteAt block 2 +
      byteAt block 3 + byteAt block 4 +
      byteAt block 5 + byteAt block 6 + byteAt block 7 := by
  have hbound : ∀ i, byteAt block i < 256 := fun i => UInt8.toNat_lt _
  have h0 := hbound 0
  have h1 := hbound 1
  have h2 := hbound 2
  have h3 := hbound 3
  have h4 := hbound 4
  have h5 := hbound 5
  have h6 := hbound 6
  have h7 := hbound 7
  have hword : byteAt block 8 + 256 * byteAt block 9 = byteSum (block.take fdcOffCksum) % 65536 :=
    (blockValid_iff block).mp hvalid
  rw [byteSum_front h] at hword
  omega

theorem mnemonic_bytes {mnem : Bytes} (h : block.take fdcCmdLen = mnem) {i : ℕ} (hi : i < fdcCmdLen) :
    byteAt block i = (mnem.getD i 0).toNat := by
  rw [byteAt, ← h, List.getD_eq_getElem?_getD, List.getD_eq_getElem?_getD, List.getElem?_take_of_lt hi]

theorem Retried.letters (h : Retried block) :
    byteAt block 0 = 83 ∧ byteAt block 1 = 84 ∧ byteAt block 2 = 65 ∧ byteAt block 3 = 84 ∨
      byteAt block 0 = 82 ∧ byteAt block 1 = 69 ∧ byteAt block 2 = 65 ∧ byteAt block 3 = 68 := by
  rcases h.mnemonic with hm | hm
  · refine .inl ⟨?_, ?_, ?_, ?_⟩ <;> exact mnemonic_bytes hm (by decide)
  · refine .inr ⟨?_, ?_, ?_, ?_⟩ <;> exact mnemonic_bytes hm (by decide)

theorem length_window (hblock : block.length = fdcBlockLen) (hstray : stray.length ≤ 9) :
    (window stray block).length = fdcBlockLen := by
  rw [window, List.length_append, List.length_take, hblock]
  have hlen : fdcBlockLen = 10 := rfl
  omega

/-- Behind the stray bytes a window has the front of the block. -/
theorem window_shift {i : ℕ} (hi : i + stray.length < fdcBlockLen) :
    byteAt (window stray block) (i + stray.length) = byteAt block i := by
  rw [byteAt, byteAt, window, List.getD_eq_getElem?_getD, List.getD_eq_getElem?_getD,
    List.getElem?_append_right (Nat.le_add_left _ _), Nat.add_sub_cancel,
      List.getElem?_take_of_lt (Nat.lt_sub_of_add_lt hi)]

/-- A block does not look like itself when it is cut in the wrong place. -/
theorem window_ne (h : Retried block) (hpos : 1 ≤ stray.length) (hstray : stray.length ≤ 9) :
    window stray block ≠ block := by
  intro hsame
  have hperiod : ∀ i, i + stray.length < 10 → byteAt block (i + stray.length) = byteAt block i := by
    intro i hi
    have hshift : byteAt (window stray block) (i + stray.length) = byteAt block i := window_shift hi
    rwa [hsame] at hshift
  have hsum := valid_sum h.length h.valid
  have hbound : ∀ i, byteAt block i < 256 := fun i => UInt8.toNat_lt _
  have h4 := hbound 4
  have h5 := hbound 5
  have h6 := hbound 6
  have h7 := hbound 7
  have hletters := h.letters
  generalize stray.length = k at hpos hstray hperiod
  interval_cases k
  · have hp0 : byteAt block 1 = byteAt block 0 := hperiod 0 (by decide)
    omega
  · have hp0 : byteAt block 2 = byteAt block 0 := hperiod 0 (by decide)
    omega
  · have hp0 : byteAt block 3 = byteAt block 0 := hperiod 0 (by decide)
    omega
  · -- the last byte is a letter, and too much for a checksum
    have hp1 : byteAt block 5 = byteAt block 1 := hperiod 1 (by decide)
    have hp5 : byteAt block 9 = byteAt block 5 := hperiod 5 (by decide)
    omega
  · -- two equal halves: the sum fits neither mnemonic
    have hp0 : byteAt block 5 = byteAt block 0 := hperiod 0 (by decide)
    have hp1 : byteAt block 6 = byteAt block 1 := hperiod 1 (by decide)
    have hp2 : byteAt block 7 = byteAt block 2 := hperiod 2 (by decide)
    have hp3 : byteAt block 8 = byteAt block 3 := hperiod 3 (by decide)
    have hp4 : byteAt block 9 = byteAt block 4 := hperiod 4 (by decide)
    omega
  · have hp3 : byteAt block 9 = byteAt block 3 := hperiod 3 (by decide)
    omega
  · have hp2 : byteAt block 9 = byteAt block 2 := hperiod 2 (by decide)
    omega
  · have hp1 : byteAt block 9 = byteAt block 1 := hperiod 1 (by decide)
    omega
  · have hp0 : byteAt block 9 = byteAt block 0 := hperiod 0 (by decide)
    omega

/-- A window that reads as a WRIT asks for more than the track buffer holds. -/
theorem window_writ (h : Retried block) (hpos : 1 ≤ stray.length) (hstray : stray.length ≤ 9)
    (hvalid : fdcBlockValid (window stray block) = true)
    (hwrit : (window stray block).take fdcCmdLen = fdcWrit) :
    diskTrackBufSize < word (window stray block) fdcOffWord2 := by
  have hshift : ∀ i, i + stray.length < 10 →
    byteAt (window stray block) (i + stray.length) = byteAt block i :=
    fun i hi => window_shift hi
  have hsum := valid_sum (length_window h.length hstray) hvalid
  have hword : word (window stray block) fdcOffWord2 = byteAt (window stray block) 6 + 256 *
    byteAt (window stray block) 7 := rfl
  have hbuf : diskTrackBufSize = 8192 := rfl
  have hbound : ∀ i, byteAt (window stray block) i < 256 := fun i => UInt8.toNat_lt _
  have h0 : byteAt (window stray block) 0 = 87 := mnemonic_bytes hwrit (by decide)
  have h1 : byteAt (window stray block) 1 = 82 := mnemonic_bytes hwrit (by decide)
  have h2 : byteAt (window stray block) 2 = 73 := mnemonic_bytes hwrit (by decide)
  have h3 : byteAt (window stray block) 3 = 84 := mnemonic_bytes hwrit (by decide)
  have h4 := hbound 4
  have h5 := hbound 5
  have h6 := hbound 6
  have h7 := hbound 7
  have hletters := h.letters
  rw [hword, hbuf]
  generalize stray.length = k at hpos hstray hshift
  interval_cases k
  · have hb : byteAt (window stray block) 2 = byteAt block 1 := hshift 1 (by decide)
    omega
  · have hb : byteAt (window stray block) 2 = byteAt block 0 := hshift 0 (by decide)
    omega
  · have hb : byteAt (window stray block) 3 = byteAt block 0 := hshift 0 (by decide)
    omega
  · have hb : byteAt (window stray block) 7 = byteAt block 3 := hshift 3 (by decide)
    omega
  · have hb : byteAt (window stray block) 7 = byteAt block 2 := hshift 2 (by decide)
    omega
  · have hb : byteAt (window stray block) 7 = byteAt block 1 := hshift 1 (by decide)
    omega
  · have hb : byteAt (window stray block) 7 = byteAt block 0 := hshift 0 (by decide)
    omega
  · have hb : byteAt (window stray block) 9 = byteAt block 1 := hshift 1 (by decide)
    omega
  · have hb : byteAt (window stray block) 9 = byteAt block 0 := hshift 0 (by decide)
    omega

/-! ### Receiving -/

/-- Within a block, the bytes that are missing come without an expiry. -/
theorem linkRecv_steady {missing : ℕ} (h : Steady missing s) :
    ∃ rest, linkRecv missing s = ⟨(bytesOf s).take missing, 0, rest⟩ ∧
      bytesOf rest = (bytesOf s).drop missing ∧ Steady 0 rest := by
  induction missing generalizing s with
  | zero => exact ⟨s, rfl, rfl, h⟩
  | succ missing ih =>
    match s, h with
    | [], _ => exact ⟨[], rfl, rfl, trivial⟩
    | .byte b :: s, h =>
      obtain ⟨rest, hrecv, hbytes, hsteady⟩ := ih (s := s) h
      exact ⟨rest, by rw [linkRecv, hrecv]; rfl, hbytes, hsteady⟩

end

namespace Engine

/-! ### What the task recognises -/

/-- The command block of a round, once it is complete, and what is left behind it. -/
def received (e : Engine) (s : List Arrival) : Option (Bytes × List Arrival) :=
  let first := linkRecv 1 s
  let others := linkRecv (fdcBlockLen - 1) first.rest
  if first.got.length = 1 ∧ others.got.length = fdcBlockLen - 1 then
    some (patch (memcpy e.cmd first.got) 1 others.got, others.rest)
  else none

/-- The command blocks that are dispatched in so many rounds. -/
def recognised : ℕ → Engine → List Arrival → List Bytes
  | 0, _, _ => []
  | n + 1, e, s =>
    (((e.received s).map Prod.fst).filter fdcBlockValid).toList ++
      recognised n (e.fdcRound s).1 (e.fdcRound s).2

variable {e : Engine} {s rest : List Arrival} {block stray : Bytes}

/-- A round dispatches the block that is complete and valid. -/
theorem fdcRound_received (h : e.received s = some (block, rest)) :
    e.fdcRound s = if fdcBlockValid block then ({ e with cmd := block } : Engine).dispatch
      rest else ({ e with cmd := block }, rest) := by
  rw [received, Option.ite_none_right_eq_some] at h
  obtain ⟨⟨hfirst, hothers⟩, hsame⟩ := h
  obtain ⟨rfl, rfl⟩ := Prod.mk.inj (Option.some.inj hsame)
  rw [fdcRound]
  dsimp only
  rw [if_neg (fun h => h hfirst), if_neg (fun h => h hothers)]
  split
  · simp_all
  · simp_all

/-- A round gets no complete block, or the next ten bytes. -/
theorem received_cases (hcmd : e.cmd.length = fdcBlockLen) (h : Steady 0 s) :
    (e.received s = none ∧ ∃ cmd rest, e.fdcRound s = ({ e with cmd }, rest) ∧
      cmd.length = fdcBlockLen ∧ Steady 0 rest ∧
        (bytesOf rest = bytesOf s ∨ bytesOf rest = [])) ∨
      ∃ rest, e.received s = some ((bytesOf s).take fdcBlockLen, rest) ∧
        fdcBlockLen ≤ (bytesOf s).length ∧ Steady 0 rest ∧
        bytesOf rest = (bytesOf s).drop fdcBlockLen := by
  match s, h with
  | [], _ => exact .inl ⟨rfl, e.cmd, [], rfl, hcmd, trivial, .inl rfl⟩
  | .expire late :: s, h => exact .inl ⟨rfl, e.cmd, s, rfl, hcmd, h, .inl rfl⟩
  | .byte b :: s, h =>
    obtain ⟨rest, hrecv, hbytes, hsteady⟩ := linkRecv_steady (show Steady 9 s from h)
    have hothers : linkRecv (fdcBlockLen - 1) s = ⟨(bytesOf s).take 9, 0, rest⟩ := hrecv
    have hfirst : linkRecv 1 (.byte b :: s) = ⟨[b], 0, s⟩ := rfl
    by_cases hlen : 9 ≤ (bytesOf s).length
    · refine .inr ⟨rest, ?_, Nat.succ_le_succ hlen, hsteady, hbytes⟩
      have hgot : ((bytesOf s).take 9).length = 9 := by
        rw [List.length_take]
        omega
      rw [received, hfirst, hothers, if_pos ⟨rfl, hgot⟩, cmd_of_block hcmd b _ hgot]
      rfl
    · have hgot : ((bytesOf s).take 9).length ≠ fdcBlockLen - 1 := by
        rw [List.length_take]
        have hblock : fdcBlockLen = 10 := rfl
        omega
      refine .inl ⟨?_, patch (memcpy e.cmd [b]) 1 ((bytesOf s).take 9), rest, ?_, ?_, hsteady, .inr ?_⟩
      · rw [received, hfirst, hothers, if_neg (fun h => hgot h.2)]
      · rw [fdcRound, hfirst]
        dsimp only
        rw [hothers, if_neg (by simp), if_pos hgot]
        rfl
      · have hlen' : (memcpy e.cmd [b]).length = 10 := length_memcpy_cmd hcmd b
        rw [length_patch, hlen']
        · rfl
        · rw [hlen', List.length_take]
          omega
      · rw [hbytes, List.drop_of_length_le (by omega)]

/-- A command that is not a WRIT the drive is ready for takes nothing from the link. -/
theorem dispatch_rest (hwrit : e.cmd.take fdcCmdLen = fdcWrit →
      diskTrackBufSize < word e.cmd fdcOffWord2) (s : List Arrival) :
    (e.dispatch s).2 = s ∧ (e.dispatch s).1.cmd = e.cmd := by
  rw [dispatch]
  split
  · exact ⟨rfl, rfl⟩
  split
  · refine ⟨rfl, ?_⟩
    rw [handleRead]
    dsimp only
    split <;> rfl
  split
  · rename_i h
    have hlen : (fdcReadLe16 e.cmd fdcOffWord2).toNat = word e.cmd fdcOffWord2 := toNat_readLe16 ..
    have hready : ∀ drive, writReady e.disk drive (fdcReadLe16 e.cmd fdcOffWord2).toNat = false := by
      intro drive
      have hlong := hwrit h
      simp [writReady, hlen, Nat.not_le.mpr hlong]
    rw [handleWrit]
    simp only [hready]
    exact ⟨rfl, rfl⟩
  · exact ⟨rfl, rfl⟩

/-- One round across the blocks: the block is not recognised, and the stream still lies across. -/
theorem round_strayed (hblock : Retried block) (hcmd : e.cmd.length = fdcBlockLen) (h : Strayed block s) :
    (e.received s).map Prod.fst ≠ some block ∧ (e.fdcRound s).1.cmd.length = fdcBlockLen ∧
      Strayed block (e.fdcRound s).2 := by
  obtain ⟨hsteady, hbytes⟩ := h
  rcases received_cases hcmd hsteady with ⟨hnone, cmd, rest, hround, hlen, hrest, hleft⟩ | ⟨rest,
    hgot, hlen, hrest, hleft⟩
  · rw [hnone, hround]
    refine ⟨by simp, hlen, hrest, ?_⟩
    rcases hleft with hleft | hleft
    · rwa [hleft]
    · exact .inl hleft
  · rcases hbytes with hnil | ⟨stray, times, hpos, hstray, hbytes⟩
    · rw [hnil] at hlen
      cases hlen
    · cases times with
      | zero =>
        rw [hbytes, List.replicate_zero, List.flatten_nil, List.append_nil] at hlen
        exact absurd (Nat.le_trans hlen hstray) (by decide)
      | succ times =>
        have hblen : block.length = fdcBlockLen := hblock.length
        have hten : fdcBlockLen = 10 := rfl
        have hsplit : bytesOf s =
            window stray block ++ (block.drop (fdcBlockLen - stray.length) ++
              (List.replicate times block).flatten) := by
          rw [hbytes, List.replicate_succ, List.flatten_cons, window, List.append_assoc,
            ← List.append_assoc (block.take _),
            List.take_append_drop]
        have hwin : (window stray block).length = fdcBlockLen := length_window hblen hstray
        have hfront : (bytesOf s).take fdcBlockLen = window stray block := by
          rw [hsplit, ← hwin, List.take_left]
        have hback : bytesOf rest = block.drop (fdcBlockLen - stray.length) ++
          (List.replicate times block).flatten := by
          rw [hleft, hsplit, ← hwin, List.drop_left]
        have hacross : Strayed block rest := by
          refine ⟨hrest, .inr ⟨_, times, ?_, ?_, hback⟩⟩ <;> rw [List.length_drop, hblen] <;> omega
        rw [hfront] at hgot
        rw [hgot, fdcRound_received hgot]
        refine ⟨fun hsome => window_ne hblock hpos hstray (Option.some.inj hsome), ?_⟩
        split
        · rename_i hvalid
          obtain ⟨hstay, hkeep⟩ := dispatch_rest (e := { e with cmd := window stray block })
            (window_writ hblock hpos hstray hvalid) rest
          rw [hstay, hkeep]
          exact ⟨hwin, hacross⟩
        · exact ⟨hwin, hacross⟩

/-- No repetition is recognised as long as no window runs out. -/
theorem recognised_strayed (hblock : Retried block) (hcmd : e.cmd.length = fdcBlockLen)
    (h : Strayed block s) (rounds : ℕ) :
    block ∉ recognised rounds e s := by
  induction rounds generalizing e s with
  | zero => simp [recognised]
  | succ rounds ih =>
    obtain ⟨hnot, hlen, hacross⟩ := round_strayed hblock hcmd h
    rw [recognised, List.mem_append, not_or]
    refine ⟨fun hmem => hnot ?_, ih hlen hacross⟩
    exact (Option.filter_eq_some_iff.mp (Option.mem_toList.mp hmem)).1

/-- Behind one to nine stray bytes a valid STAT or READ that is repeated back to back is never recognised,
    however often it is repeated. -/
theorem retries_unrecognised (e : Engine) (hcmd : e.cmd.length = fdcBlockLen) (stray block : Bytes)
    (hpos : 1 ≤ stray.length) (hstray : stray.length ≤ 9) (hblock : Retried block) (times rounds : ℕ)
    (s : List Arrival) (hsteady : Steady 0 s)
    (hbytes : bytesOf s = stray ++ (List.replicate times block).flatten) : block ∉ recognised rounds e s :=
  recognised_strayed hblock hcmd ⟨hsteady, .inr ⟨stray, times, hpos, hstray, hbytes⟩⟩ rounds

/-- STAT of drive 0, head unloaded. -/
def statBlock : Bytes := [0x53, 0x54, 0x41, 0x54, 0, 0, 0, 0, 0x3C, 0x01]

theorem statBlock_retried : Retried statBlock := ⟨rfl, by decide, .inl rfl⟩

/-- One stray byte, and the block so many times. -/
def strayStream (times : ℕ) : List Arrival :=
  ((0x00 : UInt8) :: (List.replicate times statBlock).flatten).map .byte

example : recognised 1 sample (statBlock.map .byte) = [statBlock] := by decide

theorem retries_unrecognised_stat : statBlock ∉ recognised 4 sample (strayStream 3) :=
  retries_unrecognised sample rfl [0x00] statBlock (by decide)
    (by decide) statBlock_retried 3 4 (strayStream 3)
    (by simp [strayStream, statBlock, Steady]) (by decide)

/-- Eleven repetitions behind one stray byte: none is recognised, in any number of rounds. -/
theorem eleven_retries_lost : ¬∃ rounds, statBlock ∈ recognised rounds sample (strayStream 11) := by
  rintro ⟨rounds, hmem⟩
  have hsteady : Steady 0 (strayStream 11) := by simp [strayStream, statBlock, Steady]
  exact recognised_strayed statBlock_retried rfl
    ⟨hsteady, .inr ⟨[0x00], 11, by decide, by decide, by decide⟩⟩ rounds hmem

end Engine

end FdcSds
