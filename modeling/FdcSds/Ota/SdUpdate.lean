import FdcSds.Disk.Table
import FdcSds.Schemes.Runs

/-! Flashing `/sd/firmware.bin` (`do_sd` in `src/net/ota.c`).

    One step is one call that leaves the function, with any outcome it can have; what is said on the
    console is left out. The loop ends on an empty read, be it the end of the file or an error, and only
    the error flag of the stream tells the two apart.

        stat ─▶ version ─▶ open ─▶ slot ─▶ begin ─▶ read ⇄ write ─▶ end ─▶ set boot ─▶ unlink
           └─────────────────┴───────┴────────┴───────┴──────┴────────┴───────┴─▶ file and boot as found -/

namespace FdcSds
open Schemes Schemes.Runs

/-- The errors an update returns: one of its own, or what a call returned. -/
inductive OtaErr where
  | esp (e : EspErr)
  | call (code : ℤ)
  deriving DecidableEq

/-- `OTA_SD_CHUNK`. -/
def otaSdChunk : ℕ := 4096

/-- The firmware file, what was written to each partition since it was erased, and which one runs and
    boots. -/
structure Device where
  file : Option Bytes
  slot : ℕ → Bytes
  running : ℕ
  boot : ℕ

/-- Where `do_sd` is: the call it is about to make. -/
inductive SdPc where
  | mounted | stat
  | verOpen | verSeek | verRead | verClose
  | opening | partition | malloc | begin
  | read
  | write (data : Bytes)
  | closing (failed : Option ℤ)
  | dropping (e : OtaErr)
  | abort (e : OtaErr)
  | finish | setBoot | unlink
  | done (r : Except OtaErr Unit)
  deriving DecidableEq

/-- A call of `do_sd`. `readErr` is the error flag of its stream; `accepted` and `bootSet` note what
    `esp_ota_end` and `esp_ota_set_boot_partition` returned, and the last two what the call found. -/
structure SdRun where
  pc : SdPc
  total : ℤ
  tgt : ℕ
  pos : ℕ
  readErr : Bool
  reboot : Bool
  accepted : Bool
  bootSet : Bool
  fileFound : Option Bytes
  bootFound : ℕ

/-- The calls and their outcomes. -/
inductive SdAct where
  | sdMounted (yes : Bool)
  | stat (size : Option ℤ)
  | verOpen (ok : Bool)
  | verSeek (ok : Bool)
  | verRead
  | verClose
  | fopen (ok : Bool)
  | nextPartition (tgt : Option ℕ)
  | malloc (ok : Bool)
  | otaBegin (err : Option ℤ) (left : Bytes)
  | fread (data : Bytes) (err : Bool)
  | otaWrite (err : Option ℤ) (left : Bytes)
  | fclose
  | otaAbort
  | otaEnd (err : Option ℤ)
  | setBoot (err : Option ℤ)
  | unlink (ok : Bool)

/-- A partition now holds this. -/
def Device.put (d : Device) (p : ℕ) (data : Bytes) : Device :=
  { d with slot := Function.update d.slot p data }

section

variable (d : Device) (p : ℕ) (data : Bytes)

@[simp] theorem Device.put_slot : (d.put p data).slot p = data := Function.update_self ..
@[simp] theorem Device.put_file : (d.put p data).file = d.file := rfl
@[simp] theorem Device.put_running : (d.put p data).running = d.running := rfl
@[simp] theorem Device.put_boot : (d.put p data).boot = d.boot := rfl

end

namespace SdRun

/-- `do_sd` is called. -/
def enter (d : Device) : SdRun := ⟨.mounted, 0, 0, 0, false, false, false, false, d.file, d.boot⟩

/-- Go on there. -/
def goto (r : SdRun) (pc : SdPc) : SdRun := { r with pc }

/-- What a read may give: up to a chunk, and as long as the stream is without error the next bytes of the
    file, none only at its end. -/
def MayRead (d : Device) (r : SdRun) (data : Bytes) (err : Bool) : Prop :=
  data.length ≤ otaSdChunk ∧ ((r.readErr || err) = false →
    data <+: (d.file.getD []).drop r.pos ∧ (data = [] → (d.file.getD []).length ≤ r.pos))

instance (d : Device) (r : SdRun) (data : Bytes) (err : Bool) : Decidable (MayRead d r data err) :=
  inferInstanceAs (Decidable (_ ∧ (_ → _ ∧ (_ → _))))

/-- A file opens for reading only when it is there, the next update partition is never the running one,
    and a call that fails may leave anything in the partition. -/
def step (d : Device) (r : SdRun) : SdAct → Option (Device × SdRun)
  | .sdMounted yes =>
    when (r.pc = .mounted) (d, r.goto (if yes then .stat else .done (.error (.esp .invalidState))))
  | .stat size => when (r.pc = .stat) <|
    match size with
    | none => (d, r.goto (.done (.error (.esp .notFound))))
    | some n =>
      (d, { r with total := n }.goto (if n ≤ 0 then .done (.error (.esp .invalidSize)) else .verOpen))
  | .verOpen ok => when (r.pc = .verOpen) (d, r.goto (if ok then .verSeek else .opening))
  | .verSeek ok => when (r.pc = .verSeek) (d, r.goto (if ok then .verRead else .verClose))
  | .verRead => when (r.pc = .verRead) (d, r.goto .verClose)
  | .verClose => when (r.pc = .verClose) (d, r.goto .opening)
  | .fopen ok => when (r.pc = .opening ∧ (ok = true → d.file.isSome = true))
    (d, { r with pos := 0, readErr := false }.goto (if ok then .partition else .done (.error (.esp .fail))))
  | .nextPartition tgt => when (r.pc = .partition ∧ tgt ≠ some d.running) <|
    match tgt with
    | none => (d, r.goto (.dropping (.esp .fail)))
    | some p => (d, { r with tgt := p }.goto .malloc)
  | .malloc ok => when (r.pc = .malloc) (d, r.goto (if ok then .begin else .dropping (.esp .noMem)))
  | .otaBegin err left => when (r.pc = .begin) <|
    match err with
    | none => (d.put r.tgt [], r.goto .read)
    | some code => (d.put r.tgt left, r.goto (.dropping (.call code)))
  | .fread data err => when (r.pc = .read ∧ MayRead d r data err)
    (d, { r with pos := r.pos + data.length, readErr := r.readErr || err }.goto
      (if data = [] then .closing none else .write data))
  | .otaWrite err left =>
    match r.pc with
    | .write data => some <|
      match err with
      | none => (d.put r.tgt (d.slot r.tgt ++ data), r.goto .read)
      | some code => (d.put r.tgt left, r.goto (.closing (some code)))
    | _ => none
  | .fclose =>
    match r.pc with
    | .closing (some code) => some (d, r.goto (.abort (.call code)))
    | .closing none => some (d, r.goto (if r.readErr then .abort (.esp .fail) else .finish))
    | .dropping e => some (d, r.goto (.done (.error e)))
    | _ => none
  | .otaAbort =>
    match r.pc with
    | .abort e => some (d, r.goto (.done (.error e)))
    | _ => none
  | .otaEnd err => when (r.pc = .finish) <|
    match err with
    | none => (d, { r with accepted := true }.goto .setBoot)
    | some code => (d, r.goto (.done (.error (.call code))))
  | .setBoot err => when (r.pc = .setBoot) <|
    match err with
    | none => ({ d with boot := r.tgt }, { r with bootSet := true }.goto .unlink)
    | some code => (d, r.goto (.done (.error (.call code))))
  | .unlink ok => when (r.pc = .unlink)
    (if ok then { d with file := none } else d, { r with reboot := true }.goto (.done (.ok ())))

/-! ### What holds at each call -/

/-- The file and the boot partition are as they were found. -/
def Untouched (d : Device) (r : SdRun) : Prop := d.file = r.fileFound ∧ d.boot = r.bootFound

/-- The partition is not the running one and has every byte of the file, in order. -/
def Whole (d : Device) (r : SdRun) : Prop := r.tgt ≠ d.running ∧ r.fileFound = some (d.slot r.tgt)

/-- As long as the stream is without error, what was written and is still to write is what was read. -/
def Copying (d : Device) (r : SdRun) (rest : Bytes) : Prop :=
  r.tgt ≠ d.running ∧ ∃ content, r.fileFound = some content ∧
    (r.readErr = false → d.slot r.tgt ++ rest = content.take r.pos ∧ r.pos ≤ content.length)

def HoldsAt (d : Device) (r : SdRun) : SdPc → Prop
  | .partition => Untouched d r ∧ d.file.isSome = true ∧ r.pos = 0
  | .malloc | .begin => (Untouched d r ∧ d.file.isSome = true ∧ r.pos = 0) ∧ r.tgt ≠ d.running
  | .read => Untouched d r ∧ Copying d r []
  | .write data => Untouched d r ∧ Copying d r data
  | .closing none => Untouched d r ∧ (r.readErr = false → Whole d r)
  | .finish => Untouched d r ∧ Whole d r
  | .setBoot => (Untouched d r ∧ Whole d r) ∧ r.accepted = true
  | .unlink => d.file = r.fileFound ∧ (Whole d r ∧ r.accepted = true) ∧ r.bootSet = true ∧ d.boot = r.tgt
  | .done (.ok ()) => (Whole d r ∧ r.accepted = true) ∧ r.bootSet = true ∧ d.boot = r.tgt
  | _ => Untouched d r

/-- A reboot is asked for at the very end. -/
structure Inv (d : Device) (r : SdRun) : Prop where
  point : HoldsAt d r r.pc
  reboot : r.reboot = true → r.pc = .done (.ok ())

variable {d d' : Device} {r r' : SdRun} {pc : SdPc} {data : Bytes}

theorem enter_inv (d : Device) : Inv d (enter d) := ⟨⟨rfl, rfl⟩, by rintro ⟨⟩⟩

theorem Inv.at (h : Inv d r) (hpc : r.pc = pc) : HoldsAt d r pc := hpc ▸ h.point

theorem Inv.no_reboot (h : Inv d r) (hpc : r.pc = pc) (hne : pc ≠ .done (.ok ())) : r.reboot = false := by
  cases hr : r.reboot with
  | false => rfl
  | true => exact absurd (hpc.symm.trans (h.reboot hr)) hne

/-- A step that goes on there and asks for no reboot. -/
theorem inv_goto (hold : HoldsAt d r pc) (hr : r.reboot = false) : Inv d (r.goto pc) where
  point := by
    have hgoto : HoldsAt d (r.goto pc) pc = HoldsAt d r pc := by
      cases pc <;> rfl
    exact hgoto ▸ hold
  reboot h := by
    rw [goto, hr] at h
    cases h

/-- A read takes the next bytes of the file. -/
theorem Copying.read {err : Bool} (h : Copying d r []) (hfile : d.file = r.fileFound)
    (hmay : MayRead d r data err) :
    Copying d { r with pos := r.pos + data.length, readErr := r.readErr || err } data := by
  obtain ⟨htgt, content, hfound, hcopy⟩ := h
  refine ⟨htgt, content, hfound, fun hgood => ?_⟩
  obtain ⟨hnext, -⟩ := hmay.2 hgood
  obtain ⟨hslot, hpos⟩ := hcopy (Bool.or_eq_false_iff.mp hgood).1
  rw [hfile, hfound, Option.getD_some] at hnext
  rw [List.append_nil] at hslot
  have hdata : data = (content.drop r.pos).take data.length := List.prefix_iff_eq_take.mp hnext
  have hlen := hnext.length_le
  rw [List.length_drop] at hlen
  refine ⟨?_, show r.pos + data.length ≤ content.length by omega⟩
  calc d.slot r.tgt ++ data
    _ = content.take r.pos ++ (content.drop r.pos).take data.length := by rw [hslot, ← hdata]
    _ = content.take (r.pos + data.length) := List.take_add.symm

/-- An empty read without an error means that all was written. -/
theorem Copying.whole {err : Bool} (h : Copying d r []) (hfile : d.file = r.fileFound)
    (hmay : MayRead d r [] err) (hgood : (r.readErr || err) = false) : Whole d r := by
  obtain ⟨htgt, content, hfound, hcopy⟩ := h
  obtain ⟨hslot, -⟩ := hcopy (Bool.or_eq_false_iff.mp hgood).1
  have hend := (hmay.2 hgood).2 rfl
  rw [hfile, hfound, Option.getD_some] at hend
  rw [List.append_nil, List.take_of_length_le hend] at hslot
  exact ⟨htgt, hfound.trans (congrArg some hslot.symm)⟩

/-- An accepted write appends the bytes at hand. -/
theorem Copying.write (h : Copying d r data) : Copying (d.put r.tgt (d.slot r.tgt ++ data)) r [] := by
  obtain ⟨htgt, content, hfound, hcopy⟩ := h
  refine ⟨htgt, content, hfound, fun hgood => ?_⟩
  rw [Device.put_slot, List.append_nil]
  exact hcopy hgood

/-- After the erase nothing is written yet. -/
theorem copying_begin (hfound : r.fileFound.isSome = true) (htgt : r.tgt ≠ d.running) (hpos : r.pos = 0) :
    Copying (d.put r.tgt []) r [] := by
  obtain ⟨content, hcontent⟩ := Option.isSome_iff_exists.mp hfound
  refine ⟨htgt, content, hcontent, fun _ => ?_⟩
  rw [Device.put_slot, hpos]
  exact ⟨rfl, Nat.zero_le _⟩

theorem nextPartition_inv {tgt : Option ℕ} (h : Inv d r)
    (hstep : step d r (.nextPartition tgt) = some (d', r')) :
    Inv d' r' := by
  obtain ⟨⟨hpc, hother⟩, heq⟩ := when_eq_some.mp hstep
  obtain ⟨hsame, hopen⟩ := h.at hpc
  have hr := h.no_reboot hpc (by rintro ⟨⟩)
  cases tgt with
  | none =>
    cases heq
    exact inv_goto hsame hr
  | some p =>
    cases heq
    exact inv_goto ⟨⟨hsame, hopen⟩, fun heq => hother (congrArg some heq)⟩ hr

theorem otaBegin_inv {err : Option ℤ} {left : Bytes} (h : Inv d r)
    (hstep : step d r (.otaBegin err left) = some (d', r')) :
    Inv d' r' := by
  obtain ⟨hpc, heq⟩ := when_eq_some.mp hstep
  obtain ⟨⟨hsame, hsome, hpos⟩, htgt⟩ := h.at hpc
  have hr := h.no_reboot hpc (by rintro ⟨⟩)
  cases err with
  | none =>
    cases heq
    exact inv_goto ⟨hsame, copying_begin (hsame.1 ▸ hsome) htgt hpos⟩ hr
  | some code =>
    cases heq
    exact inv_goto hsame hr

theorem fread_inv {data : Bytes} {err : Bool} (h : Inv d r)
    (hstep : step d r (.fread data err) = some (d', r')) :
    Inv d' r' := by
  obtain ⟨⟨hpc, hmay⟩, heq⟩ := when_eq_some.mp hstep
  cases heq
  obtain ⟨hsame, hcopy⟩ := h.at hpc
  refine inv_goto ?_ (h.no_reboot hpc (by rintro ⟨⟩))
  split
  · next hempty =>
    subst hempty
    exact ⟨hsame, fun hgood => hcopy.whole hsame.1 hmay hgood⟩
  · exact ⟨hsame, hcopy.read hsame.1 hmay⟩

theorem otaWrite_inv {err : Option ℤ} {left : Bytes} (h : Inv d r)
    (hstep : step d r (.otaWrite err left) = some (d', r')) :
    Inv d' r' := by
  cases hpc : r.pc with
  | write data =>
    simp only [step, hpc] at hstep
    obtain ⟨hsame, hcopy⟩ := h.at hpc
    have hr := h.no_reboot hpc (by rintro ⟨⟩)
    cases err with
    | none =>
      cases hstep
      exact inv_goto ⟨hsame, hcopy.write⟩ hr
    | some code =>
      cases hstep
      exact inv_goto hsame hr
  | _ => simp [step, hpc] at hstep

/-- After the loop the error flag tells a whole copy from a cut one. -/
theorem fclose_inv (h : Inv d r) (hstep : step d r .fclose = some (d', r')) :
    Inv d' r' := by
  cases hpc : r.pc with
  | closing failed =>
    have hr := h.no_reboot hpc (by rintro ⟨⟩)
    cases failed with
    | some code =>
      simp only [step, hpc] at hstep
      cases hstep
      have hsame : Untouched d r := h.at hpc
      exact inv_goto hsame hr
    | none =>
      simp only [step, hpc] at hstep
      cases hstep
      obtain ⟨hsame, hwhole⟩ := h.at hpc
      refine inv_goto ?_ hr
      cases hgood : r.readErr with
      | true => exact hsame
      | false => exact ⟨hsame, hwhole hgood⟩
  | dropping e =>
    simp only [step, hpc] at hstep
    cases hstep
    have hsame : Untouched d r := h.at hpc
    exact inv_goto hsame (h.no_reboot hpc (by rintro ⟨⟩))
  | _ => simp [step, hpc] at hstep

theorem setBoot_inv {err : Option ℤ} (h : Inv d r) (hstep : step d r (.setBoot err) = some (d', r')) :
    Inv d' r' := by
  obtain ⟨hpc, heq⟩ := when_eq_some.mp hstep
  have hr := h.no_reboot hpc (by rintro ⟨⟩)
  obtain ⟨⟨hsame, hwhole⟩, hacc⟩ := h.at hpc
  cases err with
  | none =>
    cases heq
    exact inv_goto ⟨hsame.1, ⟨hwhole, hacc⟩, rfl, rfl⟩ hr
  | some code =>
    cases heq
    exact inv_goto hsame hr

/-- Every call of `do_sd` keeps the invariant. -/
theorem step_inv {a : SdAct} (h : Inv d r) (hstep : step d r a = some (d', r')) : Inv d' r' := by
  cases a with
  | sdMounted yes =>
    obtain ⟨hpc, heq⟩ := when_eq_some.mp hstep
    cases heq
    have hsame : Untouched d r := h.at hpc
    refine inv_goto ?_ (h.no_reboot hpc (by rintro ⟨⟩))
    cases yes <;> exact hsame
  | stat size =>
    obtain ⟨hpc, heq⟩ := when_eq_some.mp hstep
    have hsame : Untouched d r := h.at hpc
    have hr := h.no_reboot hpc (by rintro ⟨⟩)
    cases size with
    | none =>
      cases heq
      exact inv_goto hsame hr
    | some n =>
      cases heq
      refine inv_goto ?_ hr
      split <;> exact hsame
  | verOpen ok =>
    obtain ⟨hpc, heq⟩ := when_eq_some.mp hstep
    cases heq
    have hsame : Untouched d r := h.at hpc
    refine inv_goto ?_ (h.no_reboot hpc (by rintro ⟨⟩))
    cases ok <;> exact hsame
  | verSeek ok =>
    obtain ⟨hpc, heq⟩ := when_eq_some.mp hstep
    cases heq
    have hsame : Untouched d r := h.at hpc
    refine inv_goto ?_ (h.no_reboot hpc (by rintro ⟨⟩))
    cases ok <;> exact hsame
  | verRead =>
    obtain ⟨hpc, heq⟩ := when_eq_some.mp hstep
    cases heq
    have hsame : Untouched d r := h.at hpc
    exact inv_goto hsame (h.no_reboot hpc (by rintro ⟨⟩))
  | verClose =>
    obtain ⟨hpc, heq⟩ := when_eq_some.mp hstep
    cases heq
    have hsame : Untouched d r := h.at hpc
    exact inv_goto hsame (h.no_reboot hpc (by rintro ⟨⟩))
  | fopen ok =>
    obtain ⟨⟨hpc, hthere⟩, heq⟩ := when_eq_some.mp hstep
    cases heq
    have hsame : Untouched d r := h.at hpc
    refine inv_goto ?_ (h.no_reboot hpc (by rintro ⟨⟩))
    cases ok with
    | true => exact ⟨hsame, hthere rfl, rfl⟩
    | false => exact hsame
  | nextPartition tgt => exact nextPartition_inv h hstep
  | malloc ok =>
    obtain ⟨hpc, heq⟩ := when_eq_some.mp hstep
    cases heq
    obtain ⟨⟨hsame, hopen⟩, htgt⟩ := h.at hpc
    refine inv_goto ?_ (h.no_reboot hpc (by rintro ⟨⟩))
    cases ok with
    | true => exact ⟨⟨hsame, hopen⟩, htgt⟩
    | false => exact hsame
  | otaBegin err left => exact otaBegin_inv h hstep
  | fread data err => exact fread_inv h hstep
  | otaWrite err left => exact otaWrite_inv h hstep
  | fclose => exact fclose_inv h hstep
  | otaAbort =>
    cases hpc : r.pc with
    | abort e =>
      simp only [step, hpc] at hstep
      cases hstep
      have hsame : Untouched d r := h.at hpc
      exact inv_goto hsame (h.no_reboot hpc (by rintro ⟨⟩))
    | _ => simp [step, hpc] at hstep
  | otaEnd err =>
    obtain ⟨hpc, heq⟩ := when_eq_some.mp hstep
    have hr := h.no_reboot hpc (by rintro ⟨⟩)
    have hwhole := h.at hpc
    cases err with
    | none =>
      cases heq
      exact inv_goto ⟨hwhole, rfl⟩ hr
    | some code =>
      cases heq
      exact inv_goto hwhole.1 hr
  | setBoot err => exact setBoot_inv h hstep
  | unlink ok =>
    obtain ⟨hpc, heq⟩ := when_eq_some.mp hstep
    cases heq
    obtain ⟨-, hwhole, hset, hboot⟩ := h.at hpc
    refine ⟨?_, fun _ => rfl⟩
    cases ok <;> exact ⟨hwhole, hset, hboot⟩

/-- What one call can do to the device. -/
theorem step_device {a : SdAct} (hstep : step d r a = some (d', r')) :
    d' = d ∨ (∃ left, d' = d.put r.tgt left ∧ (r.pc = .begin ∨ ∃ data, r.pc = .write data)) ∨
      (r.pc = .setBoot ∧ d' = { d with boot := r.tgt }) ∨
        (r.pc = .unlink ∧ d' = { d with file := none }) := by
  cases a with
  | otaBegin err left =>
    obtain ⟨hpc, heq⟩ := when_eq_some.mp hstep
    cases err <;> cases heq <;> exact .inr (.inl ⟨_, rfl, .inl hpc⟩)
  | otaWrite err left =>
    cases hpc : r.pc with
    | write data =>
      simp only [step, hpc] at hstep
      cases err <;> cases hstep <;> exact .inr (.inl ⟨_, rfl, .inr ⟨data, rfl⟩⟩)
    | _ => simp [step, hpc] at hstep
  | setBoot err =>
    obtain ⟨hpc, heq⟩ := when_eq_some.mp hstep
    cases err with
    | none =>
      cases heq
      exact .inr (.inr (.inl ⟨hpc, rfl⟩))
    | some code =>
      cases heq
      exact .inl rfl
  | unlink ok =>
    obtain ⟨hpc, heq⟩ := when_eq_some.mp hstep
    cases ok with
    | true =>
      cases heq
      exact .inr (.inr (.inr ⟨hpc, rfl⟩))
    | false =>
      cases heq
      exact .inl rfl
  | fclose =>
    cases hpc : r.pc with
    | closing failed => cases failed <;> simp only [step, hpc] at hstep <;> cases hstep <;> exact .inl rfl
    | dropping e =>
      simp only [step, hpc] at hstep
      cases hstep
      exact .inl rfl
    | _ => simp [step, hpc] at hstep
  | otaAbort =>
    cases hpc : r.pc with
    | abort e =>
      simp only [step, hpc] at hstep
      cases hstep
      exact .inl rfl
    | _ => simp [step, hpc] at hstep
  | stat answer | nextPartition answer | otaEnd answer =>
    obtain ⟨-, heq⟩ := when_eq_some.mp hstep
    cases answer <;> cases heq <;> exact .inl rfl
  | _ =>
    obtain ⟨-, heq⟩ := when_eq_some.mp hstep
    cases heq
    exact .inl rfl

/-- The boot partition changes only once `esp_ota_end` has accepted the whole file in another partition. -/
theorem Inv.boot_changed {a : SdAct} (h : Inv d r) (hstep : step d r a = some (d', r'))
    (hboot : d'.boot ≠ d.boot) :
    (Untouched d r ∧ Whole d r) ∧ r.accepted = true := by
  rcases step_device hstep with rfl | ⟨left, rfl, -⟩ | ⟨hpc, -⟩ | ⟨-, rfl⟩
  · exact absurd rfl hboot
  · exact absurd rfl hboot
  · exact h.at hpc
  · exact absurd rfl hboot

/-- The file goes only once the boot partition is set. -/
theorem Inv.file_changed {a : SdAct} (h : Inv d r) (hstep : step d r a = some (d', r'))
    (hfile : d'.file ≠ d.file) :
    r.bootSet = true ∧ d.boot = r.tgt := by
  rcases step_device hstep with rfl | ⟨left, rfl, -⟩ | ⟨-, rfl⟩ | ⟨hpc, -⟩
  · exact absurd rfl hfile
  · exact absurd rfl hfile
  · exact absurd rfl hfile
  · exact (h.at hpc).2.2

/-- The running partition is not written. -/
theorem Inv.running_kept {a : SdAct} (h : Inv d r) (hstep : step d r a = some (d', r')) :
    d'.running = d.running ∧ d'.slot d.running = d.slot d.running := by
  rcases step_device hstep with rfl | ⟨left, rfl, hpc⟩ | ⟨-, rfl⟩ | ⟨-, rfl⟩
  · exact ⟨rfl, rfl⟩
  · have htgt : r.tgt ≠ d.running := by
      rcases hpc with hpc | ⟨data, hpc⟩
      · exact (h.at hpc).2
      · exact (h.at hpc).2.1
    exact ⟨rfl, Function.update_of_ne htgt.symm ..⟩
  · exact ⟨rfl, rfl⟩
  · exact ⟨rfl, rfl⟩

end SdRun

end FdcSds
