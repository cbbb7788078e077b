import FdcSds.Disk.Table
import FdcSds.Schemes.Buffered

/-! A WRIT is on the card before its WSTA OK (`local_write_at`, `disk_write_track`, `handle_writ`).

    The images of local drives, one open file each, behind the stdio buffer and the FatFs sector cache. The
    FDC task runs one transaction at a time; while a stdio call runs, the caches below may take any of
    their steps, and the call may fail after any of them. A failed stream keeps the bytes it has not
    handed on, or drops them. After a power loss the card is what is left.

        WRIT ─▶ fseek ─▶ fwrite ─▶ fflush ─▶ fsync ─▶ WSTA OK
                  └────────┴─────────┴─────────┴────▶ WSTA write error

    What stops before `local_write_at` (a checksum, a time-out, a drive that is not ready) leaves the files
    alone. A read goes through `fseek` and `fread`. -/

namespace FdcSds
open Schemes Schemes.Runs

/-- Bytes in a card sector. -/
def sectorSize : ℕ := 512

/-- A WRIT of a local drive: the backing it found, the track and the payload. -/
structure TrackWrite where
  file : ℕ
  track : UInt32
  data : Bytes
  deriving DecidableEq

def TrackWrite.off (x : TrackWrite) : ℕ := (diskTrackOffset x.track (.ofNat x.data.length)).toNat

/-- Byte `off` of this file is one the WRIT writes. -/
def TrackWrite.covers (x : TrackWrite) (file off : ℕ) : Bool :=
  x.file == file && x.off ≤ off && off < x.off + x.data.length

/-- Where the FDC task is. -/
inductive FdcPc where
  | idle
  | reading (file : ℕ)
  | seeking (x : TrackWrite)
  | writing (x : TrackWrite) (n : ℕ)
  | flushing (x : TrackWrite)
  | syncing (x : TrackWrite)
  | answering (x : TrackWrite) (ok : Bool)
  deriving DecidableEq

namespace FdcPc

/-- The file a stdio call is running on. -/
def file : FdcPc → Option ℕ
  | .idle | .answering _ _ => none
  | .reading file => some file
  | .seeking x | .writing x _ | .flushing x | .syncing x => some x.file

/-- The WRIT in progress. -/
def writ : FdcPc → Option TrackWrite
  | .idle | .reading _ => none
  | .seeking x | .writing x _ | .flushing x | .syncing x | .answering x _ => some x

/-- It is in progress, and writes this byte. -/
def covers (pc : FdcPc) (file off : ℕ) : Bool :=
  match pc.writ with | some x => x.covers file off | none => false

end FdcPc

/-- The files, the task, and the WRITs answered so far with their answer, newest first. -/
structure Storage where
  file : ℕ → Buffered
  pc : FdcPc
  log : List (TrackWrite × Bool)

inductive StorageAct where
  | read (drive : ℕ) (track : UInt32) (len : ℕ)
  | readDone
  | writ (drive : ℕ) (track : UInt32) (data : Bytes)
  | sought
  | accept
  | written
  | flushed
  | synced
  | fail (keep : Bool)
  | wsta
  | cache (a : CacheStep)

namespace Storage

/-- The backing of a local drive that holds this track. -/
def localTrack (w : Disk) (drive : ℕ) (track : UInt32) (len : ℕ) : Option ℕ :=
  match w.checkTrack drive track len with
  | (_, .ok b) => if (w.drv drive).remote then none else some b
  | (_, .error _) => none

def step (w : Disk) (s : Storage) : StorageAct → Option Storage
  | .read drive track len =>
    match s.pc, localTrack w drive track len with
    | .idle, some b => some { s with pc := .reading b }
    | _, _ => none
  | .readDone =>
    match s.pc with
    | .reading _ => some { s with pc := .idle }
    | _ => none
  | .writ drive track data =>
    match s.pc, localTrack w drive track data.length with
    | .idle, some b => when ((w.drv drive).readonly = false) { s with pc := .seeking ⟨b, track, data⟩ }
    | _, _ => none
  | .sought =>
    match s.pc with
    | .seeking x => when ((s.file x.file).pending = []) { s with pc := .writing x 0 }
    | _ => none
  | .accept =>
    match s.pc with
    | .writing x n =>
      match x.data[n]? with
      | some b =>
        some
          { s with
            file := Function.update s.file x.file ((s.file x.file).push (x.off + n) b)
            pc := .writing x (n + 1) }
      | none => none
    | _ => none
  | .written =>
    match s.pc with
    | .writing x n => when (n = x.data.length) { s with pc := .flushing x }
    | _ => none
  | .flushed =>
    match s.pc with
    | .flushing x => when ((s.file x.file).pending = []) { s with pc := .syncing x }
    | _ => none
  | .synced =>
    match s.pc with
    | .syncing x => when ((s.file x.file).dirty = false) { s with pc := .answering x true }
    | _ => none
  | .fail keep =>
    let dropped (b : ℕ) := if keep then s.file else Function.update s.file b (s.file b).forget
    match s.pc with
    | .reading b => some { s with file := dropped b, pc := .idle }
    | .seeking x | .writing x _ | .flushing x | .syncing x =>
      some { s with file := dropped x.file, pc := .answering x false }
    | .idle | .answering _ _ => none
  | .wsta =>
    match s.pc with
    | .answering x ok => some { s with pc := .idle, log := (x, ok) :: s.log }
    | _ => none
  | .cache a =>
    match s.pc.file with
    | some b => ((s.file b).step sectorSize a).map fun f => { s with file := Function.update s.file b f }
    | none => none

/-- Files just opened. -/
def Start (s : Storage) : Prop := (∀ b, (s.file b).pending = [] ∧ (s.file b).sector = none) ∧
      s.pc = .idle ∧ s.log = []

def machine (w : Disk) : Machine Storage StorageAct := ⟨Start, step w⟩

/-- The newest answered WRIT of this byte. -/
def newest (s : Storage) (b off : ℕ) : Option (TrackWrite × Bool) := s.log.find? fun e => e.1.covers b off

/-- A WRIT of this byte is in progress, or the newest answered one failed. -/
def Loose (s : Storage) (b off : ℕ) : Prop := s.pc.covers b off = true ∨ ∃ x, s.newest b off = some (x, false)

/-- The file reads as the first `n` bytes of the payload. -/
def Accepted (s : Storage) (x : TrackWrite) (n : ℕ) : Prop :=
  ∀ k < n, some ((s.file x.file).view sectorSize (x.off + k)) = x.data[k]?

/-- How far the WRIT in progress is. -/
def Progress (s : Storage) : FdcPc → Prop
  | .idle | .reading _ | .seeking _ | .answering _ false => True
  | .writing x n => s.Accepted x n
  | .flushing x => s.Accepted x x.data.length
  | .syncing x => (s.file x.file).pending = [] ∧ s.Accepted x x.data.length
  | .answering x true =>
    (s.file x.file).pending = [] ∧ (s.file x.file).dirty = false ∧ s.Accepted x x.data.length

structure Sound (s : Storage) : Prop where
  coherent : ∀ b, (s.file b).Coherent sectorSize
  within : ∀ b, (s.file b).Within sectorSize (s.Loose b)
  acked : ∀ b off x, s.newest b off = some (x, true) → s.pc.covers b off = false →
    some ((s.file b).card off) = x.data[off - x.off]?
  progress : s.Progress s.pc

variable {w : Disk} {s s' : Storage} {x : TrackWrite}

theorem Start.sound (h : s.Start) : s.Sound := by
  obtain ⟨hfiles, hpc, hlog⟩ := h
  constructor
  · intro b t ht
    rw [(hfiles b).2] at ht
    cases ht
  · refine fun b => ⟨fun p hp => ?_, fun t ht => ?_⟩
    · rw [(hfiles b).1] at hp
      cases hp
    · rw [(hfiles b).2] at ht
      cases ht
  · intro b off x hx
    rw [newest, hlog] at hx
    cases hx
  · rw [hpc]
    trivial

/-- The task goes on with the WRIT it has. -/
theorem Sound.turn (h : s.Sound) {p : FdcPc} (hwrit : p.writ = s.pc.writ) (hprogress : s.Progress p) :
    { s with pc := p }.Sound := by
  have hcovers (b off : ℕ) : p.covers b off = s.pc.covers b off := by rw [FdcPc.covers, FdcPc.covers, hwrit]
  refine ⟨h.coherent, fun b => (h.within b).mono fun off hloose => ?_, fun b off x hx hout => ?_, hprogress⟩
  · exact hloose.imp_left (hcovers b off).trans
  · exact h.acked b off x hx ((hcovers b off).symm.trans hout)

/-- The stream of one file drops what it has not handed on. -/
theorem Sound.drop (h : s.Sound) (b : ℕ) {pc : FdcPc} (hwrit : pc.writ = s.pc.writ)
    (hprogress : ∀ s : Storage, s.Progress pc) :
    { s with file := Function.update s.file b (s.file b).forget, pc := pc }.Sound := by
  have hfile (c : ℕ) : Function.update s.file b (s.file b).forget c = s.file c ∨
      Function.update s.file b (s.file b).forget c = (s.file c).forget := by
    by_cases hc : c = b
    · subst hc
      exact .inr (Function.update_self ..)
    · exact .inl (Function.update_of_ne hc ..)
  have hturn := h.turn hwrit (hprogress _)
  refine ⟨fun c => ?_, fun c => ?_, fun c off x hx hout => ?_, hprogress _⟩
  · rcases hfile c with hc | hc
    · simp only [hc]
      exact h.coherent c
    · simp only [hc]
      exact h.coherent c
  · rcases hfile c with hc | hc
    · simp only [hc]
      exact hturn.within c
    · simp only [hc]
      exact (hturn.within c).forget
  · have hcard : (Function.update s.file b (s.file b).forget c).card = (s.file c).card := by
      rcases hfile c with hc | hc
      · rw [hc]
      · rw [hc]
        rfl
    rw [hcard]
    exact hturn.acked c off x hx hout

theorem writ_sound (h : s.Sound) {drive : ℕ} {track : UInt32} {data : Bytes}
    (hstep : step w s (.writ drive track data) = some s') : s'.Sound := by
  simp only [step] at hstep
  split at hstep
  · next b hidle _ =>
    obtain ⟨-, rfl⟩ := when_eq_some.mp hstep
    have hnone (c off : ℕ) : s.pc.covers c off = false := by rw [hidle]; rfl
    refine ⟨h.coherent, fun c => (h.within c).mono fun off hloose => .inr ?_, fun c off x hx _ => ?_, trivial⟩
    · rw [Loose, hnone c off] at hloose
      exact hloose.resolve_left (by decide)
    · exact h.acked c off x hx (hnone c off)
  · cases hstep

theorem accept_sound (h : s.Sound) (hstep : step w s .accept = some s') : s'.Sound := by
  simp only [step] at hstep
  split at hstep
  · next x n hpc =>
    split at hstep
    · next b hb =>
      cases hstep
      have hlt : n < x.data.length := (List.getElem?_eq_some_iff.mp hb).1
      have hturn := h.turn (p := .seeking x) (by rw [hpc]; rfl) trivial
      have hprogress : s.Accepted x n := by
        have hp := h.progress
        rwa [hpc] at hp
      refine ⟨fun c => ?_, fun c => ?_, fun c off y hy hout => ?_, ?_⟩
      · by_cases hc : c = x.file
        · subst hc
          simpa [Buffered.Coherent, Buffered.push] using h.coherent x.file
        · simpa [hc] using h.coherent c
      · by_cases hc : c = x.file
        · subst hc
          have hmine : x.covers x.file (x.off + n) = true := by simp [TrackWrite.covers, hlt]
          simp only [Function.update_self]
          exact (hturn.within x.file).push (.inl hmine) b
        · simp only [Function.update_of_ne hc]
          exact hturn.within c
      · have hcard : (Function.update s.file x.file ((s.file x.file).push (x.off + n) b) c).card =
          (s.file c).card := by
          by_cases hc : c = x.file
          · subst hc
            simp [Buffered.push]
          · simp [hc]
        rw [hcard]
        exact hturn.acked c off y hy hout
      · intro k hk
        simp only [Function.update_self, Buffered.view_push]
        by_cases hkn : k = n
        · rw [hkn, Function.update_self, hb]
        · rw [Function.update_of_ne (by omega)]
          exact hprogress k (by omega)
    · cases hstep
  · cases hstep

theorem cache_sound (h : s.Sound) {a : CacheStep} (hstep : step w s (.cache a) = some s') : s'.Sound := by
  have hunit : 0 < sectorSize := by decide
  simp only [step] at hstep
  split at hstep
  · next b hfile =>
    obtain ⟨f, hf, rfl⟩ := Option.map_eq_some_iff.mp hstep
    obtain ⟨hwithin, hcard⟩ := Buffered.step_within (h.within b) hf
    have hview := Buffered.step_view hunit (h.coherent b) hf
    refine ⟨fun c => ?_, fun c => ?_, fun c off x hx hout => ?_, ?_⟩
    · by_cases hc : c = b
      · subst hc
        simpa using Buffered.step_coherent hunit (h.coherent c) hf
      · simpa [hc] using h.coherent c
    · by_cases hc : c = b
      · subst hc
        simp only [Function.update_self]
        exact hwithin
      · simp only [Function.update_of_ne hc]
        exact h.within c
    · by_cases hc : c = b
      · subst hc
        have htight : ¬ s.Loose c off := by
          rintro (hcovers | ⟨y, hy⟩)
          · rw [show s.pc.covers c off = false from hout] at hcovers
            cases hcovers
          · rw [show s.newest c off = some (x, true) from hx] at hy
            cases hy
        simpa [hcard off htight] using h.acked c off x hx hout
      · simpa [hc] using h.acked c off x hx hout
    · have haccepted {x : TrackWrite} {n : ℕ} (hx : s.Accepted x n) :
          Accepted { s with file := Function.update s.file b f } x n := by
        intro k hk
        have hold := hx k hk
        by_cases hc : x.file = b
        · subst hc
          simpa [hview] using hold
        · simpa [hc] using hold
      have hprogress := h.progress
      cases hpc : s.pc with
      | idle | reading | seeking => trivial
      | writing x n =>
        rw [hpc] at hprogress
        exact haccepted hprogress
      | flushing x =>
        rw [hpc] at hprogress
        exact haccepted hprogress
      | syncing x =>
        rw [hpc] at hprogress hfile
        cases hfile
        refine ⟨?_, haccepted hprogress.2⟩
        simpa using Buffered.step_pending hprogress.1 hf
      | answering x ok =>
        rw [hpc] at hfile
        cases hfile
  · cases hstep

/-- The answer goes out. -/
theorem wsta_sound (h : s.Sound) (hstep : step w s .wsta = some s') : s'.Sound := by
  simp only [step] at hstep
  split at hstep
  · next x ok hpc =>
    cases hstep
    have hcovers (b off : ℕ) : s.pc.covers b off = x.covers b off := by rw [hpc]; rfl
    have hnewest (b off : ℕ) : newest { s with pc := .idle, log := (x, ok) :: s.log } b off =
        if x.covers b off then some (x, ok) else s.newest b off := by
      cases hx : x.covers b off <;> simp [newest, hx]
    have hold {b off : ℕ} (hout : x.covers b off = false) (hloose : s.Loose b off) :
        Loose { s with pc := .idle, log := (x, ok) :: s.log } b off := by
      rw [Loose, hcovers, hout] at hloose
      rw [Loose, hnewest, hout]
      exact .inr (hloose.resolve_left (by decide))
    cases ok with
    | false =>
      refine ⟨h.coherent, fun b => (h.within b).mono fun off hloose => ?_, fun b off y hy _ => ?_, trivial⟩
      · by_cases hx : x.covers b off = true
        · exact .inr ⟨x, by rw [hnewest, if_pos hx]⟩
        · exact hold (by simpa using hx) hloose
      · rw [hnewest] at hy
        split at hy
        · cases hy
        · next hx => exact h.acked b off y hy ((hcovers b off).trans (by simpa using hx))
    | true =>
      have hprogress := h.progress
      rw [hpc] at hprogress
      obtain ⟨hempty, hclean, haccepted⟩ := hprogress
      refine ⟨h.coherent, fun b => ?_, fun b off y hy _ => ?_, trivial⟩
      · by_cases hb : b = x.file
        · subst hb
          exact (h.coherent x.file).within hempty hclean _
        · have hother (off : ℕ) : x.covers b off = false := by simp [TrackWrite.covers, Ne.symm hb]
          exact (h.within b).mono fun off => hold (hother off)
      · rw [hnewest] at hy
        split at hy
        · next hx =>
          cases hy
          simp only [TrackWrite.covers, Bool.and_eq_true, beq_iff_eq, decide_eq_true_eq] at hx
          obtain ⟨⟨rfl, hle⟩, hlt⟩ := hx
          have hbyte := haccepted (off - x.off) (by omega)
          rw [Nat.add_sub_cancel' hle] at hbyte
          rwa [(h.coherent x.file).card hempty hclean]
        · next hx => exact h.acked b off y hy ((hcovers b off).trans (by simpa using hx))
  · cases hstep

theorem fail_sound (h : s.Sound) {keep : Bool} (hstep : step w s (.fail keep) = some s') : s'.Sound := by
  cases hpc : s.pc with
  | idle | answering => simp [step, hpc] at hstep
  | reading b =>
    simp only [step, hpc, Option.some.injEq] at hstep
    subst hstep
    cases keep with
    | true => exact h.turn (by rw [hpc]; rfl) trivial
    | false => exact h.drop b (by rw [hpc]; rfl) fun _ => trivial
  | seeking x | writing x | flushing x | syncing x =>
    simp only [step, hpc, Option.some.injEq] at hstep
    subst hstep
    cases keep with
    | true => exact h.turn (by rw [hpc]; rfl) trivial
    | false => exact h.drop x.file (by rw [hpc]; rfl) fun _ => trivial

theorem step_sound {a : StorageAct} (h : s.Sound) (hstep : step w s a = some s') : s'.Sound := by
  have hprogress := h.progress
  cases a with
  | read drive track len =>
    simp only [step] at hstep
    split at hstep
    · next hidle _ =>
      cases hstep
      exact h.turn (by rw [hidle]; rfl) trivial
    · cases hstep
  | readDone =>
    simp only [step] at hstep
    split at hstep
    · next hreading =>
      cases hstep
      exact h.turn (by rw [hreading]; rfl) trivial
    · cases hstep
  | writ drive track data => exact writ_sound h hstep
  | sought =>
    simp only [step] at hstep
    split at hstep
    · next x hseeking =>
      obtain ⟨-, rfl⟩ := when_eq_some.mp hstep
      exact h.turn (by rw [hseeking]; rfl) (by rintro k ⟨⟩)
    · cases hstep
  | accept => exact accept_sound h hstep
  | written =>
    simp only [step] at hstep
    split at hstep
    · next x n hwriting =>
      obtain ⟨rfl, rfl⟩ := when_eq_some.mp hstep
      rw [hwriting] at hprogress
      exact h.turn (by rw [hwriting]; rfl) hprogress
    · cases hstep
  | flushed =>
    simp only [step] at hstep
    split at hstep
    · next x hflushing =>
      obtain ⟨hempty, rfl⟩ := when_eq_some.mp hstep
      rw [hflushing] at hprogress
      exact h.turn (by rw [hflushing]; rfl) ⟨hempty, hprogress⟩
    · cases hstep
  | synced =>
    simp only [step] at hstep
    split at hstep
    · next x hsyncing =>
      obtain ⟨hclean, rfl⟩ := when_eq_some.mp hstep
      rw [hsyncing] at hprogress
      exact h.turn (by rw [hsyncing]; rfl) ⟨hprogress.1, hclean, hprogress.2⟩
    · cases hstep
  | fail keep => exact fail_sound h hstep
  | wsta => exact wsta_sound h hstep
  | cache a => exact cache_sound h hstep

/-- CORRECT: a byte whose newest answered WRIT was answered OK is on the card as that WRIT had it, whenever
    the power goes, unless a later WRIT of that byte is in progress. -/
theorem acked_on_card (h : (machine w).Reach Machine.always s) {b off : ℕ}
    (hnewest : s.newest b off = some (x, true)) (hdone : s.pc.covers b off = false) :
    some ((s.file b).card off) = x.data[off - x.off]? := by
  have hsound : s.Sound :=
    Machine.Reach.invariant (I := fun s => s.Sound) (fun _ => Start.sound) (fun _ _ _ h _ => step_sound h) h
  exact hsound.acked b off x hnewest hdone

/-- Blank files. -/
def blank : Storage := ⟨fun _ => ⟨fun _ => 0, none, []⟩, .idle, []⟩

theorem blank_start : blank.Start := ⟨fun _ => ⟨rfl, rfl⟩, rfl, rfl⟩

/-- Drive 0 has a local image of four bytes. -/
def oneLocal : Disk :=
  ⟨fun d => if d = 0 then ⟨true, false, false, ['A'], ['A'], some 0⟩ else .empty, [],
    ⟨false, 0, 0, 0⟩, fun _ => ⟨.sd 0, 4⟩,
    fun _ => [0, 0, 0, 0]⟩

/-- A WRIT of a one-byte track, acknowledged. -/
def writTrack (track : UInt32) (b : UInt8) : List StorageAct :=
  [.writ 0 track [b], .sought, .accept, .written, .cache (.load 0), .cache .put, .flushed,
    .cache .writeBack, .synced,
    .wsta]

/-- Track 1 is written, and the power goes when the next track, in the same sector, is half written back. -/
def neighbour : List StorageAct :=
  writTrack 1 0xAA ++ [.writ 0 2 [0xBB], .sought, .accept, .written, .cache .put, .cache .writeBack]

theorem exec_neighbour : ((machine oneLocal).exec blank neighbour).isSome = true := by decide

def atNeighbour : Storage := ((machine oneLocal).exec blank neighbour).get exec_neighbour

theorem reach_atNeighbour : (machine oneLocal).Reach Machine.always atNeighbour :=
  ⟨blank, blank_start, Machine.exec_always (Option.some_get exec_neighbour).symm⟩

theorem acked_on_card_atNeighbour : some ((atNeighbour.file 0).card 1) = some 0xAA :=
  acked_on_card (x := ⟨0, 1, [0xAA]⟩) reach_atNeighbour (by decide) (by decide)

/-- The same track again; the sync fails after the sector was written, and the WSTA says so. -/
def failedRewrite : List StorageAct :=
  writTrack 1 0xAA ++ [.writ 0 1 [0xBB], .sought, .accept, .written, .cache .put, .flushed, .cache .writeBack,
    .fail false, .wsta]

theorem exec_failedRewrite : ((machine oneLocal).exec blank failedRewrite).isSome = true := by decide

/-- No WRIT is in progress, and the card has not what was acknowledged last. -/
theorem failedRewrite_lost : ∃ s, (machine oneLocal).Reach Machine.always s ∧ s.pc = .idle ∧
    (s.log.filter fun e => e.2).find? (fun e => e.1.covers 0 1) = some (⟨0, 1, [0xAA]⟩, true) ∧
    (s.file 0).card 1 = 0xBB :=
  ⟨_, ⟨blank, blank_start, Machine.exec_always (Option.some_get exec_failedRewrite).symm⟩,
    by decide, by decide, by decide⟩

end Storage

end FdcSds
