import FdcSds.Fdc.Corruption
import FdcSds.Fdc.Host

/-! The simulator against the engine.

    Between two of its operations what the engine has seen is the wire of a run of transactions, so the engine
    stands for the track server after that run, and all that it sent has come. One lemma per operation says
    what the host gets over a line that carries its tracks, and which transaction it added; a session follows
    by induction.

        w.Serves s ──doRead──▶ w'.Serves s         got = s.hostRead … -/

namespace FdcSds

namespace Server

variable (s : Server) (ts us : List Txn)

theorem run_append : s.run (ts ++ us) =
      ((s.run ts).1 ++ ((s.run ts).2.run us).1, ((s.run ts).2.run us).2) := by
  induction ts generalizing s with
  | nil => rfl
  | cons t ts ih => simp only [List.cons_append, run, ih, List.append_assoc]

theorem runWire_append : s.runWire (ts ++ us) = s.runWire ts ++ (s.run ts).2.runWire us := by
  induction ts generalizing s with
  | nil => rfl
  | cons t ts ih => simp only [List.cons_append, runWire, run, ih, List.append_assoc]

theorem runFits_append : s.runFits (ts ++ us) ↔ s.runFits ts ∧ (s.run ts).2.runFits us := by
  induction ts generalizing s with
  | nil => simp [runFits, run]
  | cons t ts ih => simp only [List.cons_append, runFits, run, ih, and_assoc]

variable {s ts}

/-- A transaction is something on the wire. -/
theorem fits.wire_pos {t : Txn} (h : s.fits t) : 0 < (s.wire t).length := by
  cases t with
  | idle late => exact Nat.one_pos
  | truncated head late => simp [wire]
  | block cmd body =>
    have hcmd : cmd.length = 10 := h.1
    simp only [wire, List.length_append, List.length_map]
    omega

theorem length_le_runWire (h : s.runFits ts) : ts.length ≤ (s.runWire ts).length := by
  induction ts generalizing s with
  | nil => exact Nat.zero_le _
  | cons t ts ih =>
    have hpos := fits.wire_pos h.1
    have hrest := ih h.2
    simp only [runWire, List.length_append, List.length_cons]
    omega

end Server

namespace Fdcsim
open Schemes Prog Engine

/-! ### Blocks -/

theorem checksum16_eq (data : Bytes) : checksum16 data = byteSum data % 65536 :=
  Nat.and_two_pow_sub_one_eq_mod _ 16

theorem readEncode_eq (drive track : ℕ) : readEncode drive track = drive % 16 * 4096 + track % 4096 := by
  have hdrive : drive &&& 0xF = drive % 16 := Nat.and_two_pow_sub_one_eq_mod _ 4
  have htrack : track &&& 0x0FFF = track % 4096 := Nat.and_two_pow_sub_one_eq_mod _ 12
  rw [readEncode, hdrive, htrack, ← Nat.shiftLeft_add_eq_or_of_lt (by omega), Nat.shiftLeft_eq]

variable {mnem : Bytes} {word1 word2 : ℕ}

theorem buildBlock_eq (hm : mnem.length = 4) (word1 word2 : ℕ) :
    buildBlock mnem word1 word2 = respBlock mnem word1 word2 := by
  have htake : (mnem.take 4).rightpad 4 0 = mnem := by
    rw [List.take_of_length_le (by omega), List.rightpad, hm]
    exact List.append_nil _
  simp only [buildBlock, respBlock, htake, checksum16_eq, List.append_assoc]

/-- What stands in a block. -/
theorem respBlock_fields (hm : mnem.length = 4) (word1 word2 : ℕ) :
    (respBlock mnem word1 word2).take 4 = mnem ∧
    word (respBlock mnem word1 word2) 4 = word1 % 65536 ∧
      word (respBlock mnem word1 word2) 6 = word2 % 65536 ∧
      word (respBlock mnem word1 word2) 8 = byteSum ((respBlock mnem word1 word2).take 8) % 65536 := by
  set sum := le16 (byteSum (mnem ++ le16 word1 ++ le16 word2) % 65536) with hsum
  have hblock : respBlock mnem word1 word2 = mnem ++ le16 word1 ++ le16 word2 ++ sum := rfl
  have hword1 := word_le16 mnem (le16 word2 ++ sum) (word1 % 65536) (Nat.mod_lt _ (by decide))
  have hword2 := word_le16 (mnem ++ le16 word1) sum (word2 % 65536) (Nat.mod_lt _ (by decide))
  rw [le16_mod, hm] at hword1
  rw [le16_mod, List.length_append, hm, length_le16] at hword2
  refine ⟨?_, ?_, ?_, ?_⟩
  · rw [hblock, List.append_assoc, List.append_assoc, ← hm, List.take_left]
  · rw [hblock, ← hword1]
    simp only [List.append_assoc]
  · rw [hblock, ← hword2]
  · exact (blockValid_iff _).mp (respBlock_valid hm word1 word2)

/-- A block of the simulator is the command it stands for. -/
theorem decode_block (hm : mnem.length = 4) (word1 word2 : ℕ) : decode (respBlock mnem word1 word2) =
    if mnem = fdcStat then .stat
    else if mnem = fdcRead then .read (word1 % 65536 / 4096) (word1 % 65536 % 4096) (word2 % 65536)
    else if mnem = fdcWrit then .writ (word1 % 65536 / 4096) (word1 % 65536 % 4096) (word2 % 65536)
    else .ignored := by
  obtain ⟨hmnem, hword1, hword2, hsum⟩ := respBlock_fields hm word1 word2
  simp only [decode, hmnem, hword1, hword2, if_neg (not_not_intro hsum)]

theorem readEncode_drive (drive track : ℕ) : readEncode drive track % 65536 / 4096 = drive % 16 := by
  rw [readEncode_eq]
  omega

theorem readEncode_track (drive track : ℕ) : readEncode drive track % 65536 % 4096 = track % 4096 := by
  rw [readEncode_eq]
  omega

/-! ### The wire -/

variable {line : Line} {w : Wire} {s₀ s : Server} {ts : List Txn} {t : Txn} {bytes : Bytes} {longest : ℕ}

/-- What the engine has seen so far is the run `ts`. -/
structure Wire.Stands (w : Wire) (s₀ : Server) (ts : List Txn) : Prop where
  refines : w.engine.Refines s₀
  fits : s₀.runFits ts
  arrived : w.arrived = s₀.runWire ts

theorem Wire.Stands.served (h : w.Stands s₀ ts) : w.engine.Served w.now (s₀.run ts) := by
  obtain ⟨e', hrun, hserved⟩ := fdcTask_served h.refines ts h.fits []
  have hle := Server.length_le_runWire h.fits
  obtain ⟨k, hk⟩ := Nat.exists_eq_add_of_le hle
  have hlen : w.arrived.length = ts.length + k := by rw [← hk, h.arrived]
  have hnow : w.now = e' := by
    rw [Wire.now, hlen, h.arrived, fdcTask_append, ← List.append_nil (s₀.runWire ts), hrun, fdcTask_idle]
  rwa [hnow]

/-- One more transaction. -/
theorem Wire.Stands.send (h : w.Stands s₀ ts) (hfit : (s₀.run ts).2.fits t)
    (hwire : (s₀.run ts).2.wire t = bytes.map .byte) (come taken calls : ℕ) :
    Wire.Stands ⟨w.engine, w.arrived ++ bytes.map .byte, come, taken, calls⟩ s₀ (ts ++ [t]) := by
  refine ⟨h.refines, (s₀.runFits_append ts [t]).mpr ⟨h.fits, hfit, trivial⟩, ?_⟩
  rw [s₀.runWire_append, h.arrived, ← hwire]
  exact congrArg _ (List.append_nil _).symm

/-- What the engine sends for it. -/
theorem Wire.Stands.reply (h : w.Stands s₀ ts) {w' : Wire} (h' : w'.Stands s₀ (ts ++ [t]))
    (hsame : w'.engine = w.engine) :
    w'.now.sent = w.now.sent ++ ((s₀.run ts).2.step t).1 := by
  rw [h'.served.2, h.served.2, s₀.run_append, hsame, List.append_assoc]
  exact congrArg (fun bs => w.engine.sent ++ ((s₀.run ts).1 ++ bs)) (List.append_nil _)

/-- The engine stands for the server `s`. -/
def Wire.Follows (w : Wire) (s : Server) : Prop := ∃ s₀ ts, w.Stands s₀ ts ∧ (s₀.run ts).2 = s

theorem Wire.Follows.refines (h : w.Follows s) : w.now.Refines s := by
  obtain ⟨s₀, ts, hstands, rfl⟩ := h
  exact hstands.served.1

/-- The bytes of a transaction have reached the engine. -/
theorem Wire.Follows.send (h : w.Follows s) (t : Txn) (hfit : s.fits t)
    (hwire : s.wire t = bytes.map .byte) (come taken calls : ℕ) :
    Wire.Follows ⟨w.engine, w.arrived ++ bytes.map .byte, come, taken, calls⟩ (s.step t).2 ∧
      (Wire.now ⟨w.engine, w.arrived ++ bytes.map .byte, come, taken, calls⟩).sent =
        w.now.sent ++ (s.step t).1 := by
  obtain ⟨s₀, ts, hstands, rfl⟩ := h
  have hsend := hstands.send hfit hwire come taken calls
  refine ⟨⟨s₀, ts ++ [t], hsend, ?_⟩, hstands.reply hsend rfl⟩
  rw [s₀.run_append]
  rfl

/-- Between two operations of the host the engine stands for `s`, and all that it sent has come. -/
structure Wire.Serves (w : Wire) (s : Server) : Prop where
  follows : w.Follows s
  come : w.come = w.now.sent.length

/-- The wire after a flush and these bytes, when all has come and all of these reach the engine. -/
def Wire.asked (w : Wire) (bytes : Bytes) : Wire :=
  ⟨w.engine, w.arrived ++ bytes.map .byte, w.now.sent.length, w.now.sent.length, w.calls + 2⟩

theorem run_asked (h : w.Serves s) (hwhole : line.reaches (w.calls + 1) bytes = bytes.map .byte)
    {α : Type} (p : Host α) :
    Prog.run (wire line) w (do
      let _ ← ask LinkCall.flushInput
      let _ ← ask (LinkCall.send bytes)
      p) = p.run (wire line) (w.asked bytes) := by
  have hcome : min w.now.sent.length (w.come + line.comes w.calls 0) = w.now.sent.length := by
    rw [h.come]
    exact Nat.min_eq_left (Nat.le_add_right ..)
  rw [run_bind, run_ask, run_bind, run_ask]
  simp only [wire, hcome, hwhole, Wire.asked]

/-- A transaction, flushed and sent: the reply is due. -/
theorem Wire.Serves.ask (h : w.Serves s) (t : Txn) (hfit : s.fits t) (hwire : s.wire t = bytes.map .byte) :
    (w.asked bytes).Follows (s.step t).2 ∧ (w.asked bytes).due = (s.step t).1 := by
  obtain ⟨hfollows, hsent⟩ := h.follows.send t hfit hwire w.now.sent.length w.now.sent.length (w.calls + 2)
  refine ⟨hfollows, ?_⟩
  rw [Wire.due, Wire.asked, hsent]
  exact List.drop_left

/-- The wire after the host took all that was due. -/
def Wire.took (w : Wire) : Wire :=
  ⟨w.engine, w.arrived, w.taken + w.due.length, w.taken + w.due.length, w.calls + 1⟩

/-- What is due within the deadline is taken whole. -/
theorem recv_whole {need timeout : ℕ} (hcome : w.come = w.taken) (hneed : w.due.length ≤ need)
    (hline : need ≤ line.comes w.calls timeout) : wire line w (.recv need timeout) = (w.took, w.due) := by
  have hgot : w.due.take (min need (w.come - w.taken + line.comes w.calls timeout)) = w.due :=
    List.take_of_length_le (by omega)
  have hmax : max w.come (w.taken + w.due.length) = w.taken + w.due.length := Nat.max_eq_right (by omega)
  simp only [wire, hgot, hmax, Wire.took]

/-- The operation is over. -/
theorem Wire.Follows.took (h : w.Follows s) (htaken : w.taken ≤ w.now.sent.length) : w.took.Serves s := by
  obtain ⟨s₀, ts, hstands, hs⟩ := h
  refine ⟨⟨s₀, ts, ⟨hstands.refines, hstands.fits, hstands.arrived⟩, hs⟩, ?_⟩
  change w.taken + w.due.length = w.now.sent.length
  rw [Wire.due, List.length_drop]
  omega

/-- The operation with these bytes is over. -/
theorem Wire.Serves.took_asked (h : w.Serves s) {t : Txn} (hfit : s.fits t)
    (hwire : s.wire t = bytes.map .byte) :
    (w.asked bytes).took.Serves (s.step t).2 := by
  obtain ⟨hfollows, hsent⟩ := h.follows.send t hfit hwire w.now.sent.length w.now.sent.length (w.calls + 2)
  refine hfollows.took ?_
  change w.now.sent.length ≤ _
  rw [hsent, List.length_append]
  exact Nat.le_add_right ..

/-- A response block that is due is read whole. -/
theorem recvBlock_run {timeout : ℕ} (hline : 10 ≤ line.comes w.calls timeout) (hm : mnem.length = 4)
    (h₁ : word1 < 65536) (h₂ : word2 < 65536) (hcome : w.come = w.taken)
    (hdue : w.due = respBlock mnem word1 word2) :
    (recvBlock timeout).run (wire line) w = (w.took, some ⟨mnem, word1, word2⟩) := by
  obtain ⟨hmnem, hword1, hword2, hsum⟩ := respBlock_fields hm word1 word2
  rw [Nat.mod_eq_of_lt h₁] at hword1
  rw [Nat.mod_eq_of_lt h₂] at hword2
  have hlen : (respBlock mnem word1 word2).length = 10 := length_respBlock hm ..
  have hgot : wire line w (.recv 10 timeout) = (w.took, respBlock mnem word1 word2) := by
    rw [← hdue]
    exact recv_whole hcome (by rw [hdue, hlen]) hline
  have hok : checksum16 ((respBlock mnem word1 word2).take 8) = word (respBlock mnem word1 word2) 8 := by
    rw [checksum16_eq, hsum]
  simp only [recvBlock, run_bind, run_ask, hgot, hlen, ne_eq, not_true_eq_false, if_false, hok, hmnem,
    rd16, hword1, hword2]
  rfl

/-! ### STAT -/

theorem statWord_lt (s : Server) : s.statWord < 65536 := Nat.ofBits_lt_two_pow _

/-- A block that is no WRIT is a transaction of its own. -/
theorem Wire.Serves.askBlock (h : w.Serves s) {cmd : Bytes} (hlen : cmd.length = 10)
    (hcmd : ∀ d t n, decode cmd ≠ .writ d t n) :
    (w.asked cmd).due = (s.step (.block cmd (.cut [] []))).1 ∧
      (w.asked cmd).took.Serves (s.step (.block cmd (.cut [] []))).2 := by
  have hfit : s.fits (.block cmd (.cut [] [])) := by
    refine ⟨hlen, ?_⟩
    cases hdecode : decode cmd with
    | writ d t n => exact absurd hdecode (hcmd d t n)
    | ignored | stat | read => trivial
  have hwire : s.wire (.block cmd (.cut [] [])) = cmd.map .byte := by
    cases hdecode : decode cmd with
    | writ d t n => exact absurd hdecode (hcmd d t n)
    | ignored | stat | read => simp only [Server.wire, hdecode, List.append_nil]
  exact ⟨(h.ask _ hfit hwire).2, h.took_asked hfit hwire⟩

/-- STAT gives the bitmap of the server. -/
theorem doStat_run (hline : line.Carries longest) (h : w.Serves s) (drive : ℕ) (head : Bool) (track : ℕ) :
    ∃ w', (doStat drive head track).run (wire line) w = (w', some s.statWord) ∧ w'.Serves s := by
  set word1 := drive &&& 0xFF ||| (if head then 1 else 0) <<< 8 with hword1
  have hdecode : decode (respBlock fdcStat word1 track) = .stat := by rw [decode_block rfl, if_pos rfl]
  have hstep : s.step (.block (respBlock fdcStat word1 track) (.cut [] [])) =
    (respBlock fdcStat 0 s.statWord, s) := by
    rw [Server.step, hdecode]
  have hten : (respBlock fdcStat word1 track).length = 10 := length_respBlock rfl ..
  obtain ⟨hdue, hserves⟩ := h.askBlock hten (by rw [hdecode]; rintro _ _ _ ⟨⟩)
  rw [hstep] at hserves hdue
  have hrecv := recvBlock_run (hline.block (w.asked (respBlock fdcStat word1 track)).calls) rfl
    (by decide) (statWord_lt s) rfl hdue
  refine ⟨_, ?_, hserves⟩
  rw [doStat, ← hword1, buildBlock_eq (by rfl), run_asked h (hline.whole _ _ (.inl hten.le)), run_bind, hrecv]
  rfl

/-- `fdcsim stat` lists the mounted drives. -/
theorem cmdStat_run (hline : line.Carries longest) (h : w.Serves s) (drive : ℕ) :
    ∃ w', (cmdStat drive).run (wire line) w = (w', 0, (List.range 16).filter fun d =>
      (s.drive d).isSome) ∧ w'.Serves s := by
  obtain ⟨w', hrun, hserves⟩ := doStat_run hline h drive true 0
  refine ⟨w', ?_, hserves⟩
  have hbits : (List.range 16).filter (fun d => s.statWord.testBit d) = (List.range 16).filter fun d =>
    (s.drive d).isSome := by
    refine List.filter_congr fun d hd => ?_
    rw [Server.statWord, Nat.testBit_ofBits_lt _ _ (List.mem_range.mp hd)]
  rw [cmdStat, run_bind, hrun, ← hbits]
  rfl

/-! ### READ -/

theorem inside_fits {i : ImageId} {drive track length : ℕ} (h : s.inside drive track length = some i) :
    1 ≤ length ∧ length ≤ 8192 ∧ track * length + length ≤ (s.img i).length := by
  unfold Server.inside at h
  split at h
  · cases h
  · split at h
    · next hfits =>
      cases h
      exact hfits
    · cases h

theorem length_read_some {i : ImageId} {drive track length : ℕ} (h : s.inside drive track length = some i) :
    (s.read drive track length).length = length + 2 := by
  simp only [Server.read, h, List.length_append, length_le16, length_slice (inside_fits h).2.2]

theorem read_none {drive track length : ℕ} (h : s.inside drive track length = none) :
    s.read drive track length = [] := by
  simp only [Server.read, h]

/-- What a READ gives. -/
def Server.hostRead (s : Server) (drive track length : ℕ) : Except ReadError Bytes :=
  match s.inside (drive % 16) (track % 4096) length with
  | none => .error (.short (s.read (drive % 16) (track % 4096) (length % 65536)).length (length + 2))
  | some i => .ok (slice (s.img i) (track % 4096 * length) length)

/-- The block of a READ. -/
theorem decode_read (drive track length : ℕ) :
    decode (respBlock fdcRead (readEncode drive track) length) = .read (drive % 16) (track % 4096)
      (length % 65536) := by
  rw [decode_block rfl, if_neg (by decide), if_pos rfl, readEncode_drive, readEncode_track]

/-- The reply to a READ is not longer than what the host waits for. -/
theorem length_read_le (s : Server) (drive track length : ℕ) :
    (s.read drive track (length % 65536)).length ≤ length + 2 := by
  cases hin : s.inside drive track (length % 65536) with
  | none =>
    rw [read_none hin]
    exact Nat.zero_le _
  | some i =>
    rw [length_read_some hin]
    exact Nat.add_le_add_right (Nat.mod_le ..) 2

/-- READ gives the track of the image, and comes short when there is none. -/
theorem doRead_run (hline : line.Carries longest) (h : w.Serves s) (drive track : ℕ) {length : ℕ}
    (hle : length ≤ longest) :
    ∃ w', (doRead drive track length).run (wire line) w = (w', Server.hostRead s drive track length) ∧
      w'.Serves s := by
  set block := respBlock fdcRead (readEncode drive track) length with hblock
  have hdecode := decode_read drive track length
  have hstep : s.step (.block block (.cut [] [])) =
    (s.read (drive % 16) (track % 4096) (length % 65536), s) := by
    rw [Server.step, hblock, hdecode]
  have hten : block.length = 10 := length_respBlock rfl ..
  obtain ⟨hdue, hserves⟩ := h.askBlock hten (by rw [hblock, hdecode]; rintro _ _ _ ⟨⟩)
  rw [hstep] at hserves hdue
  dsimp only at hserves hdue
  have hcomes : length + 2 ≤ line.comes (w.asked block).calls 7 :=
    (Nat.add_le_add_right hle 2).trans (hline.track _)
  have hrecv : wire line (w.asked block) (.recv (length + 2) 7) =
      ((w.asked block).took, s.read (drive % 16) (track % 4096) (length % 65536)) := by
    rw [← hdue]
    exact recv_whole rfl (by rw [hdue]; exact length_read_le ..) hcomes
  refine ⟨_, ?_, hserves⟩
  rw [doRead, buildBlock_eq (by rfl), ← hblock, run_asked h (hline.whole _ _ (.inl hten.le)), run_bind,
    run_ask]
  simp only [hrecv]
  cases hin : s.inside (drive % 16) (track % 4096) length with
  | some i =>
    have hfits := inside_fits hin
    have hmod : length % 65536 = length := Nat.mod_eq_of_lt (by omega)
    have hlen := length_slice hfits.2.2
    have hreply : s.read (drive % 16) (track % 4096) length =
        slice (s.img i) (track % 4096 * length) length ++
          le16 (byteSum (slice (s.img i) (track % 4096 * length) length) % 65536) := by
      simp only [Server.read, hin]
    have hdata : (s.read (drive % 16) (track % 4096) length).take length =
      slice (s.img i) (track % 4096 * length) length := by
      rw [hreply, List.take_left' hlen]
    have hsum : word (s.read (drive % 16) (track % 4096) length) length =
        byteSum (slice (s.img i) (track % 4096 * length) length) % 65536 := by
      have hword := word_le16 (slice (s.img i) (track % 4096 * length) length) []
        (byteSum (slice (s.img i) (track % 4096 * length) length) % 65536) (Nat.mod_lt _ (by decide))
      rwa [hlen, List.append_nil, ← hreply] at hword
    simp only [hmod, length_read_some hin, hdata, rd16, hsum, checksum16_eq, Server.hostRead, hin,
      ne_eq, not_true_eq_false,
      if_false]
    rfl
  | none =>
    have hshort : (s.read (drive % 16) (track % 4096) (length % 65536)).length < length + 2 := by
      cases hin' : s.inside (drive % 16) (track % 4096) (length % 65536) with
      | none =>
        rw [read_none hin']
        exact Nat.succ_pos _
      | some i =>
        have hne : length % 65536 ≠ length := by
          intro heq
          rw [heq, hin] at hin'
          cases hin'
        have hmod := Nat.mod_le length 65536
        rw [length_read_some hin']
        omega
    simp only [ne_eq, hshort.ne, not_false_eq_true, if_true, Server.hostRead, hin]
    rfl

/-! ### WRIT -/

/-- What a WRIT gives, and the server after. -/
def Server.hostWrit (s : Server) (drive track : ℕ) (data : Bytes) : (Option ℕ × Option WritError) × Server :=
  if s.accepts (drive % 16) data.length then
    match s.inside (drive % 16) (track % 4096) data.length with
    | none => ((some 3, none), s)
    | some i =>
      ((some 0, none),
        { s with img := Function.update s.img i (patch (s.img i) (track % 4096 * data.length) data) })
  else ((some 1, some (.notReady 1)), s)

/-- The block of a WRIT. -/
theorem decode_writ (drive track : ℕ) {length : ℕ} (hlen : length < 65536) :
    decode (respBlock fdcWrit (readEncode drive track) length) = .writ (drive % 16)
      (track % 4096) length := by
  rw [decode_block rfl, if_neg (by decide), if_neg (by decide), if_pos rfl, readEncode_drive,
    readEncode_track, Nat.mod_eq_of_lt hlen]

/-- The block of an accepted WRIT, without the track yet, is answered with OK. -/
theorem dispatch_pending {e : Engine} (h : e.Refines s) {drive track length : ℕ}
    (hcmd : e.cmd = respBlock fdcWrit (readEncode drive track) length) (hlen : length < 65536)
    (hacc : s.accepts (drive % 16) length = true) :
    ∃ e', e.dispatch [] = (e', []) ∧ e'.sent = e.sent ++ respBlock fdcWrit 0 0 := by
  have hfour : fdcWrit.length = 4 := rfl
  obtain ⟨hmnem, hword1, hword2, -⟩ := respBlock_fields hfour (readEncode drive track) length
  have hdrive : (fdcWord1Drive (fdcReadLe16 e.cmd fdcOffWord1)).toNat = drive % 16 := by
    rw [toNat_word1Drive, toNat_readLe16, hcmd, fdcOffWord1, hword1, readEncode_drive]
  have hlength : (fdcReadLe16 e.cmd fdcOffWord2).toNat = length := by
    rw [toNat_readLe16, hcmd, fdcOffWord2, hword2, Nat.mod_eq_of_lt hlen]
  have hready := h.sound.writReady_eq (drive % 16) length
  rw [h.server, hacc] at hready
  have hpos : 0 < length := by
    have hfits := hready
    simp only [writReady, Bool.and_eq_true, decide_eq_true_eq] at hfits
    exact hfits.1.1.1
  have hwrit : e.cmd.take fdcCmdLen = fdcWrit := by rw [hcmd]; exact hmnem
  have hok := h.respond fdcWrit rfl fdcRespOk 0
  simp only [dispatch, hwrit, if_neg (show fdcWrit ≠ fdcStat by decide),
    if_neg (show fdcWrit ≠ fdcRead by decide), if_true, handleWrit,
    hdrive, hlength, hready, Bool.not_true, Bool.false_eq_true, if_false]
  obtain ⟨data, hnil⟩ := @receiveWrit_nil (e.buildResp fdcWrit fdcRespOk 0).sendResp _ (drive % 16)
    (fdcWord1Track (fdcReadLe16 e.cmd fdcOffWord1)).toUInt32 hpos
  exact ⟨_, hnil, hok.2⟩

/-- The host has sent the block of an accepted WRIT and waits for the OK. -/
theorem Wire.Follows.pending (h : w.Follows s) {drive track length : ℕ} (hlen : length < 65536)
    (hacc : s.accepts (drive % 16) length = true) (come taken calls : ℕ) :
    (Wire.now ⟨w.engine, w.arrived ++ (respBlock fdcWrit (readEncode drive track) length).map .byte,
      come, taken, calls⟩).sent =
      w.now.sent ++ respBlock fdcWrit 0 0 := by
  obtain ⟨s₀, ts, hstands, rfl⟩ := h
  set cmd := respBlock fdcWrit (readEncode drive track) length with hcmd
  have hten : cmd.length = 10 := length_respBlock rfl ..
  obtain ⟨e₁, hrun, href, hsent₁⟩ := fdcTask_served hstands.refines ts hstands.fits (cmd.map .byte)
  obtain ⟨k, hk⟩ := Nat.exists_eq_add_of_le (Server.length_le_runWire hstands.fits)
  have hrounds : (w.arrived ++ cmd.map Arrival.byte).length = ts.length + (1 + (k + 9)) := by
    have harrived : w.arrived.length = ts.length + k := by rw [← hk, hstands.arrived]
    rw [List.length_append, harrived, List.length_map, hten]
    omega
  have href' : ({ e₁ with cmd } : Engine).Refines (s₀.run ts).2 :=
    ⟨href.sound, href.server, hten, href.resp_len⟩
  obtain ⟨e₂, hdispatch, hsent₂⟩ := dispatch_pending href' rfl hlen hacc
  have hround : e₁.fdcRound (cmd.map .byte) = (e₂, []) := by
    have hblock := fdcRound_block href.cmd_len hten []
    rwa [List.append_nil, if_pos (respBlock_valid rfl ..), hdispatch] at hblock
  have hnow : Wire.now ⟨w.engine, w.arrived ++ cmd.map .byte, come, taken, calls⟩ = e₂ := by
    rw [Wire.now]
    dsimp only
    have hone : e₁.fdcTask 1 (cmd.map .byte) = (e₂, []) := hround
    rw [hrounds, hstands.arrived, fdcTask_append, hrun, fdcTask_append, hone, fdcTask_idle]
  rw [hnow, hsent₂, hstands.served.2, ← hsent₁]

/-- The whole WRIT that the server accepts. -/
theorem step_accepted {drive track : ℕ} {cmd data : Bytes}
    (hdecode : decode cmd = .writ (drive % 16) (track % 4096) data.length)
    (hacc : s.accepts (drive % 16) data.length = true) :
    ∃ code < 65536, (Server.hostWrit s drive track data).1 = (some code, none) ∧
      s.step (.block cmd (.complete data (le16 (byteSum data % 65536)))) =
        (respBlock fdcWrit 0 0 ++ respBlock fdcWsta code 0, (Server.hostWrit s drive track data).2) := by
  have hsum : word (le16 (byteSum data % 65536)) 0 = byteSum data % 65536 := by
    have hword := word_le16 [] [] (byteSum data % 65536) (Nat.mod_lt _ (by decide))
    rwa [List.nil_append, List.append_nil] at hword
  cases hin : s.inside (drive % 16) (track % 4096) data.length with
  | none =>
    refine ⟨3, by decide, by simp only [Server.hostWrit, hacc, if_true, hin], ?_⟩
    simp only [Server.step, hdecode, Server.writ, hacc, if_true, Server.write, hsum, ne_eq,
      not_true_eq_false, if_false, hin,
      Server.hostWrit]
    rfl
  | some i =>
    refine ⟨0, by decide, by simp only [Server.hostWrit, hacc, if_true, hin], ?_⟩
    simp only [Server.step, hdecode, Server.writ, hacc, if_true, Server.write, hsum, ne_eq,
      not_true_eq_false, if_false, hin,
      Server.hostWrit]
    rfl

/-- The OK to the block of an accepted WRIT. -/
theorem Wire.Serves.asked_writ (h : w.Serves s) {drive track length : ℕ} (hlen : length < 65536)
    (hacc : s.accepts (drive % 16) length = true) :
    (w.asked (respBlock fdcWrit (readEncode drive track) length)).due = respBlock fdcWrit 0 0 := by
  have hpending := @Wire.Follows.pending w s h.follows drive track length hlen hacc w.now.sent.length
    w.now.sent.length (w.calls + 2)
  rw [Wire.due, Wire.asked, hpending]
  exact List.drop_left

/-- The track goes out behind the OK, and the status is due. -/
theorem Wire.Serves.send_track (h : w.Serves s) (drive track : ℕ) {data : Bytes}
    (hlen : data.length < 65536) (hacc : s.accepts (drive % 16) data.length = true)
    (hwhole : line.reaches (w.calls + 3) (data ++ le16 (checksum16 data)) =
      (data ++ le16 (checksum16 data)).map .byte) :
    ∃ w' code, wire line (w.asked (respBlock fdcWrit (readEncode drive track) data.length)).took
        (.send (data ++ le16 (checksum16 data))) = (w', ()) ∧
      w'.come = w'.taken ∧ w'.due = respBlock fdcWsta code 0 ∧ code < 65536 ∧
        (Server.hostWrit s drive track data).1 = (some code, none) ∧
          w'.took.Serves (Server.hostWrit s drive track data).2 := by
  rw [checksum16_eq] at hwhole ⊢
  set cmd := respBlock fdcWrit (readEncode drive track) data.length with hcmd
  set body := data ++ le16 (byteSum data % 65536) with hbody
  have hten : cmd.length = 10 := length_respBlock rfl ..
  have hdecode : decode cmd = .writ (drive % 16) (track % 4096) data.length := decode_writ drive track hlen
  have hwire : s.wire (.block cmd (.complete data (le16 (byteSum data % 65536)))) =
    (cmd ++ body).map .byte := by
    simp only [Server.wire, hdecode, Server.writWire, hacc, if_true, Server.bodyWire, hbody, List.map_append]
  have hfit : s.fits (.block cmd (.complete data (le16 (byteSum data % 65536)))) := by
    refine ⟨hten, ?_⟩
    simp only [hdecode]
    exact fun _ => ⟨rfl, length_le16 _⟩
  obtain ⟨code, hcode, hresult, hstep⟩ := step_accepted hdecode hacc
  obtain ⟨hfollows, hsent⟩ := h.follows.send _ hfit hwire (w.now.sent.length + 10)
    (w.now.sent.length + 10) (w.calls + 4)
  rw [hstep] at hfollows hsent
  have hok : (w.now.sent ++ respBlock fdcWrit 0 0).length = w.now.sent.length + 10 := by
    rw [List.length_append, length_respBlock rfl]
  have hall : w.now.sent ++ (respBlock fdcWrit 0 0 ++ respBlock fdcWsta code 0) =
      w.now.sent ++ respBlock fdcWrit 0 0 ++ respBlock fdcWsta code 0 := (List.append_assoc ..).symm
  have htook : (w.asked cmd).took =
      ⟨w.engine, w.arrived ++ cmd.map .byte, w.now.sent.length + 10,
        w.now.sent.length + 10, w.calls + 3⟩ := by
    rw [Wire.took, h.asked_writ hlen hacc]
    rfl
  refine ⟨_, code, ?_, rfl, ?_, hcode, hresult, hfollows.took ?_⟩
  · rw [htook]
    simp only [wire, hwhole, List.map_append, List.append_assoc]
  · rw [Wire.due, hsent, hall, ← hok]
    exact List.drop_left
  · rw [hsent, hall, ← hok]
    exact (Nat.le_add_right ..).trans_eq (List.length_append ..).symm

/-- WRIT writes the track and gives the code the server sends. -/
theorem doWrit_run (hline : line.Carries longest) (h : w.Serves s) (drive track : ℕ) {data : Bytes}
    (hlen : data.length < 65536) (hle : data.length ≤ longest) :
    ∃ w', (doWrit drive track data).run (wire line) w = (w', (Server.hostWrit s drive track data).1) ∧
      w'.Serves (Server.hostWrit s drive track data).2 := by
  set cmd := respBlock fdcWrit (readEncode drive track) data.length with hcmd
  have hten : cmd.length = 10 := length_respBlock rfl ..
  rw [doWrit, buildBlock_eq (by rfl), ← hcmd, run_asked h (hline.whole _ _ (.inl hten.le)), run_bind]
  cases hacc : s.accepts (drive % 16) data.length with
  | false =>
    have hdecode : decode cmd = .writ (drive % 16) (track % 4096) data.length := decode_writ drive track hlen
    have hwire : s.wire (.block cmd (.cut [] [])) = cmd.map .byte := by
      simp only [Server.wire, hdecode, Server.writWire, hacc, Bool.false_eq_true, if_false, List.append_nil]
    have hfit : s.fits (.block cmd (.cut [] [])) := by
      refine ⟨hten, ?_⟩
      simp only [hdecode, hacc]
      rintro ⟨⟩
    have hstep : s.step (.block cmd (.cut [] [])) = (respBlock fdcWrit 1 0, s) := by
      simp only [Server.step, hdecode, Server.writ, hacc, Bool.false_eq_true, if_false]
    have hresult : Server.hostWrit s drive track data = ((some 1, some (.notReady 1)), s) := by
      simp only [Server.hostWrit, hacc, Bool.false_eq_true, if_false]
    have hserves := h.took_asked hfit hwire
    have hdue := (h.ask _ hfit hwire).2
    rw [hstep] at hserves hdue
    rw [recvBlock_run (hline.block (w.asked cmd).calls) rfl (by decide) (by decide) rfl hdue, hresult]
    exact ⟨_, rfl, hserves⟩
  | true =>
    have hbodylen : (data ++ le16 (checksum16 data)).length = data.length + 2 := by
      rw [List.length_append, length_le16]
    obtain ⟨w', code, hsend, hcome, hdue, hcode, hresult, hserves⟩ :=
      h.send_track drive track hlen hacc (hline.whole _ _ (.inr (by omega)))
    rw [← hcmd] at hsend
    have hstatus := recvBlock_run (hline.status w'.calls) rfl hcode (by decide) hcome hdue
    rw [recvBlock_run (hline.block (w.asked cmd).calls) rfl (by decide) (by decide) rfl
      (h.asked_writ hlen hacc), hresult]
    refine ⟨_, ?_, hserves⟩
    simp only [ne_eq, not_true_eq_false, if_false, run_bind, run_ask, hsend, hstatus]
    rfl

end Fdcsim

end FdcSds
