import FdcSds.Net.TnfsServer

/-! What a turn of the server does to its sessions.

    A handler keeps the id and the client of the session it runs in, whatever the card answers. With
    that, a whole turn is a function of the server alone as far as ids, clients and reply keys go:
    reaping only frees slots, a replay touches one clock, a run sets one key, and a MOUNT takes an id
    no live session has.

        slot:  free ──MOUNT, fresh id──▶ (sid, peer) key (seq, cmd) ──run──▶ new key
                 ▲────────── reaped, UMOUNT, link down ──────────┘              -/

namespace FdcSds.Tnfsd
open Schemes Prog

/-- The statuses `resolve_path` fails with. -/
theorem resolvePath_error {s : Session} {req : CStr} {st : UInt8} (h : resolvePath s req = .error st) :
    st = tnfsEnametoolong ∨ st = tnfsEinval := by
  unfold resolvePath at h
  dsimp only at h
  split at h
  · next hrel =>
    cases h
    split at hrel
    · split at hrel
      · split at hrel
        · exact .inl (Except.error.inj hrel).symm
        · cases hrel
      · cases hrel
    · cases hrel
  · split at h
    · cases h
    · split at h
      · cases h
      · exact .inr (Except.error.inj h).symm

/-! ### Handlers keep the frame -/

/-- Same use, id and client. -/
structure Session.SameOwner (s t : Session) : Prop where
  inUse : t.inUse = s.inUse
  sid : t.sid = s.sid
  peer : t.peer = s.peer

/-- The cached reply is for this (seq, cmd). -/
structure Session.Keyed (s : Session) (seq cmd : UInt8) : Prop where
  have_reply : s.haveReply = true
  seq : s.lastSeq = seq
  cmd : s.lastCmd = cmd

/-- The cached reply is for the same (seq, cmd), or there is none in either. -/
structure Session.SameKey (s t : Session) : Prop where
  have_reply : t.haveReply = s.haveReply
  seq : t.lastSeq = s.lastSeq
  cmd : t.lastCmd = s.lastCmd

/-- The session a handler gives back has the owner of the one it took. -/
abbrev Owned (s : Session) (r : Session × Bytes) : Prop := s.SameOwner r.1

/-- A handler changes nothing in its session but files and directories, and gives a status. -/
structure Framed (s : Session) (r : Session × Bytes) : Prop where
  session : r.1 = { s with files := r.1.files, dirs := r.1.dirs }
  status : r.2 ≠ []

theorem framed_self {s : Session} {st : UInt8} {body : Bytes} : Framed s (s, st :: body) :=
  ⟨rfl, List.cons_ne_nil _ _⟩

/-- Any other field is as it was. -/
theorem Framed.field {s : Session} {r : Session × Bytes} (h : Framed s r) {α : Type} (f : Session → α)
    (hf : ∀ files dirs, f { s with files := files, dirs := dirs } = f s) : f r.1 = f s :=
  (congrArg f h.session).trans (hf ..)

theorem Framed.owned {s : Session} {r : Session × Bytes} (h : Framed s r) : Owned s r where
  inUse := h.field Session.inUse fun _ _ => rfl
  sid := h.field Session.sid fun _ _ => rfl
  peer := h.field Session.peer fun _ _ => rfl

theorem withPath_framed {s : Session} {pl : Bytes} {k : CStr → Sys (Session × Bytes)}
    (hk : ∀ abs, (k abs).Ensures (Framed s)) : (withPath s pl k).Ensures (Framed s) := by
  unfold withPath
  repeat' split
  any_goals exact framed_self
  exact hk _

theorem hOpen_framed (s : Session) (pl : Bytes) : (hOpen s pl).Ensures (Framed s) := by
  unfold hOpen
  repeat' split
  any_goals exact framed_self
  refine Ensures.bind_of_forall fun r => ?_
  split <;> exact ⟨rfl, List.cons_ne_nil _ _⟩

theorem hRead_framed (s : Session) (pl : Bytes) : (hRead s pl).Ensures (Framed s) := by
  unfold hRead
  repeat' split
  any_goals exact framed_self
  refine Ensures.bind_of_forall fun r => ?_
  repeat' split
  all_goals exact framed_self

theorem hWrite_framed (s : Session) (pl : Bytes) : (hWrite s pl).Ensures (Framed s) := by
  unfold hWrite
  repeat' split
  any_goals exact framed_self
  refine Ensures.bind_of_forall fun r => ?_
  split <;> exact framed_self

theorem hClose_framed (s : Session) (pl : Bytes) : (hClose s pl).Ensures (Framed s) := by
  unfold hClose
  repeat' split
  any_goals exact framed_self
  exact Ensures.bind_of_forall fun _ => ⟨rfl, List.cons_ne_nil _ _⟩

theorem hLseek_framed (s : Session) (pl : Bytes) : (hLseek s pl).Ensures (Framed s) := by
  unfold hLseek
  repeat' split
  any_goals exact framed_self
  refine Ensures.bind_of_forall fun r => ?_
  split <;> exact framed_self

theorem hStat_framed (s : Session) (pl : Bytes) : (hStat s pl).Ensures (Framed s) := by
  refine withPath_framed fun abs => Ensures.bind_of_forall fun r => ?_
  split <;> exact framed_self

theorem hPathop_framed (op : CStr → Sys (Except Errno Unit)) (s : Session) (pl : Bytes) :
    (hPathop op s pl).Ensures (Framed s) :=
  withPath_framed fun _ => Ensures.bind_of_forall fun _ => framed_self

theorem hRename_framed (s : Session) (pl : Bytes) : (hRename s pl).Ensures (Framed s) := by
  unfold hRename
  repeat' split
  any_goals exact framed_self
  exact Ensures.bind_of_forall fun _ => framed_self

theorem hOpendir_framed (s : Session) (pl : Bytes) : (hOpendir s pl).Ensures (Framed s) := by
  refine withPath_framed fun abs => ?_
  split
  · exact framed_self
  · refine Ensures.bind_of_forall fun r => ?_
    split <;> exact ⟨rfl, List.cons_ne_nil _ _⟩

theorem hOpendirx_framed (s : Session) (pl : Bytes) : (hOpendirx s pl).Ensures (Framed s) := by
  unfold hOpendirx
  repeat' split
  any_goals exact framed_self
  all_goals
    refine Ensures.bind_of_forall fun r => ?_
    split
    · exact framed_self
    · exact Ensures.bind_of_forall fun _ => Ensures.bind_of_forall fun _ => ⟨rfl, List.cons_ne_nil _ _⟩

theorem hReaddir_framed (s : Session) (pl : Bytes) : (hReaddir s pl).Ensures (Framed s) := by
  unfold hReaddir
  repeat' split
  any_goals exact framed_self
  refine Ensures.bind_of_forall ?_
  rintro ⟨d, e⟩
  cases e <;> exact ⟨rfl, List.cons_ne_nil _ _⟩

theorem hReaddirx_framed (s : Session) (pl : Bytes) : (hReaddirx s pl).Ensures (Framed s) := by
  unfold hReaddirx
  repeat' split
  any_goals exact framed_self
  refine Ensures.bind_of_forall ?_
  rintro ⟨d, out, count, status⟩
  dsimp only
  split <;> exact ⟨rfl, List.cons_ne_nil _ _⟩

theorem hClosedir_framed (s : Session) (pl : Bytes) : (hClosedir s pl).Ensures (Framed s) := by
  unfold hClosedir
  repeat' split
  any_goals exact framed_self
  exact Ensures.bind_of_forall fun _ => ⟨rfl, List.cons_ne_nil _ _⟩

/-- Every command leaves the frame of its session as it is. -/
theorem handle_framed (s : Session) (cmd : UInt8) (pl : Bytes) : (handle s cmd pl).Ensures (Framed s) := by
  unfold handle
  refine ensures_ite framed_self <| ensures_ite (hOpen_framed s pl) <| ensures_ite (hRead_framed s pl) <|
    ensures_ite (hWrite_framed s pl) <| ensures_ite (hClose_framed s pl) <|
    ensures_ite (hLseek_framed s pl) <| ensures_ite (hStat_framed s pl) <|
    ensures_ite (hPathop_framed mkdirOp s pl) <| ensures_ite (hPathop_framed sysRmdir s pl) <|
    ensures_ite (hPathop_framed unlinkOp s pl) <| ensures_ite (hRename_framed s pl) <|
    ensures_ite (hOpendir_framed s pl) <| ensures_ite (hOpendirx_framed s pl) <|
    ensures_ite (hReaddir_framed s pl) <| ensures_ite (hReaddirx_framed s pl) <|
    ensures_ite (hClosedir_framed s pl) <| ensures_ite framed_self framed_self

/-- Every command keeps the owner of its session. -/
theorem handle_owned (s : Session) (cmd : UInt8) (pl : Bytes) : (handle s cmd pl).Ensures (Owned s) :=
  (handle_framed s cmd pl).mono fun _ h => h.owned

/-! ### Slots -/

theorem firstSlot_some {n : ℕ} {p : ℕ → Bool} {i : ℕ} (h : firstSlot n p = some i) : i < n ∧ p i = true := by
  have hmem := List.mem_of_find?_eq_some h
  exact ⟨List.mem_range.mp hmem, List.find?_some h⟩

theorem firstSlot_none {n : ℕ} {p : ℕ → Bool} (h : firstSlot n p = none) : ∀ i < n, p i = false := by
  intro i hi
  have := List.find?_eq_none.mp h i (List.mem_range.mpr hi)
  simpa using this

namespace Server

variable {v : Server}

@[simp] theorem setSession_self (i : ℕ) (s : Session) : (v.setSession i s).sessions i = s := by
  simp [setSession]

@[simp] theorem setSession_of_ne {i j : ℕ} (s : Session) (h : j ≠ i) :
    (v.setSession i s).sessions j = v.sessions j := by
  simp [setSession, h]

theorem freeSession_zero (s : Session) : (freeSession s).Ensures (· = .zero) :=
  Ensures.bind_of_forall fun _ => Ensures.bind_of_forall fun _ => rfl

/-- What `reap_idle` leaves, over the first `n` slots. -/
def reaped (now : ℕ) : ℕ → Server → Server
  | 0, v => v
  | n + 1, v =>
    let v := v.reaped now n
    if (v.sessions n).inUse && tnfsdIdleUs < now - (v.sessions n).lastActiveUs then v.setSession n .zero
    else v

theorem reapIdle_reaped (now n : ℕ) (v : Server) : (reapIdle now n v).Ensures (· = v.reaped now n) := by
  induction n with
  | zero => exact rfl
  | succ n ih =>
    refine Ensures.bind (ih.mono fun w hw => ?_)
    subst hw
    simp only [reaped]
    split
    · exact Ensures.bind ((freeSession_zero _).mono fun s hs => by subst hs; rfl)
    · rfl

/-- Some slots freed, the rest as they were. -/
def Freed (v v' : Server) : Prop := ∀ i, v'.sessions i = v.sessions i ∨ v'.sessions i = .zero

theorem Freed.of_inUse {v' : Server} (h : v.Freed v') {i : ℕ} (hin : (v'.sessions i).inUse = true) :
    v'.sessions i = v.sessions i := by
  rcases h i with heq | hzero
  · exact heq
  · rw [hzero] at hin
    cases hin

/-- One more slot freed. -/
theorem Freed.free {v' : Server} (h : v.Freed v') (n : ℕ) : v.Freed (v'.setSession n .zero) := by
  intro i
  by_cases hi : i = n
  · subst hi
    exact .inr (setSession_self ..)
  · rw [setSession_of_ne _ hi]
    exact h i

theorem reaped_freed (now n : ℕ) (v : Server) : v.Freed (v.reaped now n) := by
  induction n with
  | zero => exact fun i => .inl rfl
  | succ n ih =>
    simp only [reaped]
    split
    · exact ih.free n
    · exact ih

theorem dropSessions_freed (n : ℕ) (v : Server) : (dropSessions n v).Ensures v.Freed := by
  induction n with
  | zero => exact fun i => .inl rfl
  | succ n ih =>
    refine Ensures.bind (ih.mono fun w hw => ?_)
    split
    · exact Ensures.bind ((freeSession_zero _).mono fun s hs => by subst hs; exact hw.free n)
    · exact hw

theorem dropSessions_free (n : ℕ) (v : Server) : (dropSessions n v).Ensures fun w =>
    ∀ i < n, (w.sessions i).inUse = false := by
  induction n with
  | zero =>
    rintro i ⟨⟩
  | succ n ih =>
    refine Ensures.bind (ih.mono fun w hw => ?_)
    split
    · refine Ensures.bind ((freeSession_zero _).mono fun s hs i hi => ?_)
      subst hs
      by_cases hin : i = n
      · subst hin
        exact congrArg Session.inUse (setSession_self ..)
      · rw [setSession_of_ne _ hin]
        exact hw i (by omega)
    · next hfree =>
      intro i hi
      rcases Nat.lt_succ_iff_lt_or_eq.mp hi with hlt | rfl
      · exact hw i hlt
      · exact Bool.eq_false_iff.mpr hfree

/-! ### Fresh ids -/

/-- An id `next_sid` passes over. -/
def Taken (v : Server) (sid : UInt16) : Prop :=
  sid = 0 ∨ ∃ i < tnfsdMaxSessions, (v.sessions i).inUse = true ∧ (v.sessions i).sid = sid

theorem nextSidLoop_succ (fuel : ℕ) (cand : UInt16) :
    (v.Taken cand ∧ v.nextSidLoop (fuel + 1) cand = v.nextSidLoop fuel (cand + 1)) ∨
    (¬ v.Taken cand ∧ v.nextSidLoop (fuel + 1) cand = cand) := by
  have hiff : (cand = 0 || (firstSlot tnfsdMaxSessions fun i =>
      (v.sessions i).inUse && (v.sessions i).sid == cand).isSome) = true ↔ v.Taken cand := by
    simp only [Taken, Bool.or_eq_true, decide_eq_true_eq, firstSlot, List.find?_isSome, List.mem_range,
      Bool.and_eq_true, beq_iff_eq]
  simp only [nextSidLoop]
  by_cases ht : v.Taken cand
  · exact .inl ⟨ht, if_pos (hiff.mpr ht)⟩
  · exact .inr ⟨ht, if_neg fun h => ht (hiff.mp h)⟩

/-- With at most one id in use besides 0, three candidates are enough. -/
theorem nextSidLoop_free {a : UInt16} (h : ∀ sid, v.Taken sid → sid = 0 ∨ sid = a) (cand : UInt16) :
    ¬ v.Taken (v.nextSidLoop 3 cand) := by
  have step_ne : ∀ c : UInt16, c + 1 ≠ c ∧ c + 1 + 1 ≠ c := by
    intro c
    constructor <;> intro hc <;> have := congrArg UInt16.toNat hc <;> simp at this <;> omega
  have h₀ := step_ne cand
  have h₁ := step_ne (cand + 1)
  rcases nextSidLoop_succ 2 cand with ⟨t₀, e₀⟩ | ⟨f₀, e₀⟩
  · rcases nextSidLoop_succ 1 (cand + 1) with ⟨t₁, e₁⟩ | ⟨f₁, e₁⟩
    · rcases nextSidLoop_succ 0 (cand + 1 + 1) with ⟨t₂, -⟩ | ⟨f₂, e₂⟩
      · -- three different candidates cannot all be 0 or `a`
        have := h _ t₀
        have := h _ t₁
        have := h _ t₂
        grind
      · rw [e₀, e₁, e₂]
        exact f₂
    · rw [e₀, e₁]
      exact f₁
  · rw [e₀]
    exact f₀

/-- The id a MOUNT in slot `i` gets. -/
def mountSid (v : Server) (i : ℕ) : UInt16 := (v.allocSession i).allocSid.1

theorem mountSid_not_taken {i : ℕ} (hi : i < tnfsdMaxSessions) :
    ¬ (v.allocSession i).Taken (v.mountSid i) := by
  refine nextSidLoop_free (a := (v.sessions (1 - i)).sid) ?_ v.nextSid
  rintro sid (rfl | ⟨k, hk, hin, rfl⟩)
  · exact .inl rfl
  · by_cases hki : k = i
    · subst hki
      simp [allocSession, Session.zero]
    · have hkj : k = 1 - i := by simp only [tnfsdMaxSessions] at *; omega
      subst hkj
      exact .inr (by simp [allocSession, hki])

theorem mountSid_ne_zero {i : ℕ} (hi : i < tnfsdMaxSessions) : v.mountSid i ≠ 0 :=
  fun hzero => mountSid_not_taken hi (.inl hzero)

/-- No other live session has the id of a new one. -/
theorem mountSid_fresh {i j : ℕ} (hi : i < tnfsdMaxSessions) (hj : j < tnfsdMaxSessions) (hne : j ≠ i)
    (hlive : (v.sessions j).inUse = true) : (v.sessions j).sid ≠ v.mountSid i := by
  intro heq
  have hsame : (v.allocSession i).sessions j = v.sessions j := setSession_of_ne _ hne
  have htaken : (v.allocSession i).Taken (v.mountSid i) :=
    .inr ⟨j, hj, by rw [hsame]; exact hlive, by rw [hsame]; exact heq⟩
  exact mountSid_not_taken hi htaken

/-! ### Turns -/

/-- The slot a turn acts for. -/
def Turn.slot : Turn → ℕ
  | .ignored | .refused => 0
  | .replay i | .mount i | .run i => i

theorem turn_run {peer : Peer} {rx : Bytes} {i : ℕ} (h : v.turn peer rx = .run i) :
    i < tnfsdMaxSessions ∧ rx.getD 3 0 ≠ tnfsMount ∧ (v.sessions i).inUse = true ∧
      (v.sessions i).sid = UInt16.ofNat (word rx 0) ∧ (v.sessions i).peer = peer ∧
      ¬ ((v.sessions i).haveReply = true ∧ (v.sessions i).lastSeq = rx.getD 2 0 ∧
        (v.sessions i).lastCmd = rx.getD 3 0) := by
  unfold turn at h
  split at h
  · cases h
  split at h
  · unfold mountTurn at h
    repeat' split at h
    all_goals cases h
  · next hcmd =>
    split at h
    · cases h
    · next j hfind =>
      dsimp only at h
      split at h
      · cases h
      · next hkey =>
        cases h
        unfold findSession at hfind
        split at hfind
        · cases hfind
        · obtain ⟨hi, hp⟩ := firstSlot_some hfind
          simp only [Bool.and_eq_true, beq_iff_eq] at hp hkey
          exact ⟨hi, hcmd, hp.1.1, hp.1.2, hp.2, fun hk => hkey ⟨⟨hk.1, hk.2.1⟩, hk.2.2⟩⟩

theorem turn_mount {peer : Peer} {rx : Bytes} {i : ℕ} (h : v.turn peer rx = .mount i) :
    i < tnfsdMaxSessions ∧ rx.getD 3 0 = tnfsMount ∧ (v.sessions i).inUse = false := by
  unfold turn at h
  split at h
  · cases h
  split at h
  · next hcmd =>
    unfold mountTurn at h
    split at h
    · cases h
    split at h
    · cases h
    · next j hfree =>
      cases h
      obtain ⟨hi, hp⟩ := firstSlot_some hfree
      exact ⟨hi, hcmd, by simpa using hp⟩
  · split at h
    · cases h
    · dsimp only at h
      split at h <;> cases h

/-- A replay answers the session of the sender that has this (seq, cmd) cached. -/
theorem turn_replay {peer : Peer} {rx : Bytes} {i : ℕ} (h : v.turn peer rx = .replay i) :
    i < tnfsdMaxSessions ∧ (v.sessions i).inUse = true ∧ (v.sessions i).peer = peer ∧
      (v.sessions i).Keyed (rx.getD 2 0) (rx.getD 3 0) := by
  unfold turn at h
  split at h
  · cases h
  split at h
  · next hcmd =>
    unfold mountTurn at h
    split at h
    · next j hfind =>
      cases h
      obtain ⟨hi, hp⟩ := firstSlot_some hfind
      simp only [Bool.and_eq_true, beq_iff_eq] at hp
      obtain ⟨⟨⟨⟨hlive, hpeer⟩, hreply⟩, hlast⟩, hseq⟩ := hp
      exact ⟨hi, hlive, hpeer, hreply, hseq, hlast.trans hcmd.symm⟩
    · split at h <;> cases h
  · split at h
    · cases h
    · next j hfind =>
      dsimp only at h
      split at h
      · next hkey =>
        cases h
        unfold findSession at hfind
        split at hfind
        · cases hfind
        · obtain ⟨hi, hp⟩ := firstSlot_some hfind
          simp only [Bool.and_eq_true, beq_iff_eq] at hp hkey
          exact ⟨hi, hp.1.1, hp.2, hkey.1.1, hkey.1.2, hkey.2⟩
      · cases h

/-- What a turn does to the slots, as far as owners and reply keys go. -/
def Effect (v : Server) (peer : Peer) (rx : Bytes) : Turn → Server → Prop
  | .ignored, v' | .refused, v' | .replay _, v' => ∀ j,
      (v.sessions j).SameOwner (v'.sessions j) ∧ (v.sessions j).SameKey (v'.sessions j)
  | .mount i, v' => (∀ j ≠ i, v'.sessions j = v.sessions j) ∧
      ((v'.sessions i).inUse = true → (v'.sessions i).sid = v.mountSid i ∧ (v'.sessions i).peer = peer)
  | .run i, v' => (∀ j ≠ i, v'.sessions j = v.sessions j) ∧
      ((v'.sessions i).inUse = true → (v.sessions i).SameOwner (v'.sessions i) ∧
        (v'.sessions i).Keyed (rx.getD 2 0) (rx.getD 3 0))

theorem process_zero_or (now : ℕ) (s : Session) (seq cmd : UInt8) (pl : Bytes) :
    (process now s seq cmd pl).Ensures fun r => r.1 = .zero ∨ r.1.inUse = s.inUse := by
  refine Ensures.bind ((handle_owned s cmd pl).mono ?_)
  rintro ⟨t, body⟩ howner
  refine ensures_ite ?_ (.inr howner.inUse)
  exact Ensures.bind ((freeSession_zero _).mono fun z hz => .inl hz)

theorem mountIn_zero_or (now : ℕ) (peer : Peer) (seq : UInt8) (pl : Bytes) (v : Server) (i : ℕ) :
    (mountIn now peer seq pl v i).Ensures fun r =>
      r.1.sessions i = .zero ∨ (r.1.sessions i).inUse = true := by
  refine Ensures.bind_of_forall fun _ => ensures_ite ?_ (.inr ?_)
  · refine Ensures.bind ((freeSession_zero _).mono fun s hs => .inl ?_)
    subst hs
    simp [setSession]
  · simp [setSession, Session.cacheReply, allocSession]

theorem mountIn_effect (now : ℕ) (peer : Peer) (rx : Bytes) (seq : UInt8) (pl : Bytes) (v : Server)
    (i : ℕ) : (mountIn now peer seq pl v i).Ensures fun r => v.Effect peer rx (.mount i) r.1 := by
  refine Ensures.bind_of_forall fun _ => ?_
  dsimp only
  split
  · refine Ensures.bind ((freeSession_zero _).mono fun s hs => ?_)
    subst hs
    refine ⟨fun j hj => ?_, fun h => ?_⟩
    · simp [setSession, allocSession, hj]
    · simp [setSession, Session.zero] at h
  · refine ⟨fun j hj => ?_, fun _ => ?_⟩
    · simp [setSession, allocSession, hj]
    · simp [setSession, Session.cacheReply, mountSid]

/-- A turn leaves every slot but its own as it is. -/
theorem answer_others (now : ℕ) (peer : Peer) (rx : Bytes) (v : Server) (t : Turn) :
    (v.answer now peer rx t).Ensures fun r => ∀ j ≠ t.slot, r.1.sessions j = v.sessions j := by
  cases t with
  | ignored | refused => exact fun j _ => rfl
  | replay i =>
    intro j hj
    exact setSession_of_ne _ hj
  | mount i => exact (mountIn_effect now peer rx _ _ v i).mono fun r hr => hr.1
  | run i => exact Ensures.bind_of_forall fun r j hj => setSession_of_ne _ hj

theorem process_effect (now : ℕ) (s : Session) (seq cmd : UInt8) (pl : Bytes) :
    (process now s seq cmd pl).Ensures fun r =>
      r.1.inUse = true → s.SameOwner r.1 ∧ r.1.Keyed seq cmd := by
  refine Ensures.bind ((handle_owned s cmd pl).mono ?_)
  rintro ⟨t, body⟩ howner
  dsimp only
  split
  · refine Ensures.bind ((freeSession_zero _).mono fun z hz => ?_)
    subst hz
    rintro ⟨⟩
  · exact fun _ => ⟨⟨howner.inUse, howner.sid, howner.peer⟩, rfl, rfl, rfl⟩

theorem answer_effect (now : ℕ) (peer : Peer) (rx : Bytes) (v : Server) (t : Turn) :
    (v.answer now peer rx t).Ensures fun r => v.Effect peer rx t r.1 := by
  cases t with
  | ignored | refused => exact fun j => ⟨⟨rfl, rfl, rfl⟩, ⟨rfl, rfl, rfl⟩⟩
  | replay i =>
    intro j
    by_cases hj : j = i
    · subst hj
      simp only [resend, setSession_self]
      exact ⟨⟨rfl, rfl, rfl⟩, ⟨rfl, rfl, rfl⟩⟩
    · simp only [resend, setSession_of_ne _ hj]
      exact ⟨⟨rfl, rfl, rfl⟩, ⟨rfl, rfl, rfl⟩⟩
  | mount i => exact mountIn_effect ..
  | run i =>
    refine Ensures.bind ((process_effect ..).mono ?_)
    rintro ⟨s, out⟩ hs
    exact ⟨fun j hj => by simp [hj], by simpa using hs⟩

/-- A turn of the serve loop: reap, choose, carry out. -/
theorem serve_effect (now : ℕ) (peer : Peer) (rx : Bytes) (v : Server) :
    (v.serve now peer rx).Ensures fun r =>
      (v.reaped now tnfsdMaxSessions).Effect peer rx ((v.reaped now tnfsdMaxSessions).turn peer rx) r.1 := by
  refine Ensures.bind ((reapIdle_reaped now tnfsdMaxSessions v).mono fun w hw => ?_)
  subst hw
  exact answer_effect ..

/-! ### Ids of live sessions -/

/-- Live sessions have different ids, none of them 0. -/
structure Ids (v : Server) : Prop where
  distinct : ∀ i < tnfsdMaxSessions, ∀ j < tnfsdMaxSessions, i ≠ j → (v.sessions i).inUse = true →
    (v.sessions j).inUse = true → (v.sessions i).sid ≠ (v.sessions j).sid
  nonzero : ∀ i < tnfsdMaxSessions, (v.sessions i).inUse = true → (v.sessions i).sid ≠ 0

theorem ids_of_free (h : ∀ i, (v.sessions i).inUse = false) : v.Ids where
  distinct := by
    intro i _ j _ _ hin
    rw [h i] at hin
    cases hin
  nonzero := by
    intro i _ hin
    rw [h i] at hin
    cases hin

theorem Ids.freed {v' : Server} (h : v.Ids) (hf : v.Freed v') : v'.Ids where
  distinct := by
    intro i hi j hj hne hin hjn
    have hisame := hf.of_inUse hin
    have hjsame := hf.of_inUse hjn
    rw [hisame] at hin ⊢
    rw [hjsame] at hjn ⊢
    exact h.distinct i hi j hj hne hin hjn
  nonzero := by
    intro i hi hin
    have hsame := hf.of_inUse hin
    rw [hsame] at hin ⊢
    exact h.nonzero i hi hin

/-- One slot changed, and its id is neither 0 nor that of another live session. -/
theorem Ids.slot {v' : Server} (h : v.Ids) {k : ℕ} (hk : k < tnfsdMaxSessions)
    (hrest : ∀ j ≠ k, v'.sessions j = v.sessions j)
    (hnew : (v'.sessions k).inUse = true → (v'.sessions k).sid ≠ 0 ∧ ∀ j < tnfsdMaxSessions, j ≠ k →
      (v.sessions j).inUse = true → (v.sessions j).sid ≠ (v'.sessions k).sid) : v'.Ids where
  distinct := by
    intro i hi j hj hne hin hjn
    by_cases hik : i = k
    · subst hik
      rw [hrest j hne.symm] at hjn ⊢
      exact ((hnew hin).2 j hj hne.symm hjn).symm
    · rw [hrest i hik] at hin ⊢
      by_cases hjk : j = k
      · subst hjk
        exact (hnew hjn).2 i hi hne hin
      · rw [hrest j hjk] at hjn ⊢
        exact h.distinct i hi j hj hne hin hjn
  nonzero := by
    intro i hi hin
    by_cases hik : i = k
    · subst hik
      exact (hnew hin).1
    · rw [hrest i hik] at hin ⊢
      exact h.nonzero i hi hin

theorem Ids.effect {v' : Server} {peer : Peer} {rx : Bytes} (h : v.Ids)
    (heff : v.Effect peer rx (v.turn peer rx) v') : v'.Ids := by
  cases ht : v.turn peer rx with
  | ignored | refused | replay =>
    rw [ht] at heff
    constructor
    · intro i hi j hj hne hin hjn
      rw [(heff i).1.inUse] at hin
      rw [(heff j).1.inUse] at hjn
      rw [(heff i).1.sid, (heff j).1.sid]
      exact h.distinct i hi j hj hne hin hjn
    · intro i hi hin
      rw [(heff i).1.inUse] at hin
      rw [(heff i).1.sid]
      exact h.nonzero i hi hin
  | mount k =>
    rw [ht] at heff
    obtain ⟨hrest, hnew⟩ := heff
    obtain ⟨hk, -, -⟩ := turn_mount ht
    refine h.slot hk hrest fun hin => ?_
    rw [(hnew hin).1]
    exact ⟨mountSid_ne_zero hk, fun j hj hjk hjn => mountSid_fresh hk hj hjk hjn⟩
  | run k =>
    rw [ht] at heff
    obtain ⟨hrest, howner⟩ := heff
    obtain ⟨hk, -, hlive, -⟩ := turn_run ht
    refine h.slot hk hrest fun hin => ?_
    rw [(howner hin).1.sid]
    exact ⟨h.nonzero k hk hlive, fun j hj hjk hjn => h.distinct j hj k hk hjk hjn hlive⟩

/-! ### Free slots -/

/-- A free slot is all zeros. -/
def Clean (v : Server) : Prop :=
  ∀ i < tnfsdMaxSessions, (v.sessions i).inUse = false → v.sessions i = .zero

theorem Clean.freed {v' : Server} (h : v.Clean) (hf : v.Freed v') : v'.Clean := by
  intro i hi hfree
  rcases hf i with heq | hzero
  · rw [heq] at hfree ⊢
    exact h i hi hfree
  · exact hzero

theorem answer_clean (now : ℕ) (peer : Peer) (rx : Bytes) (h : v.Clean) :
    (v.answer now peer rx (v.turn peer rx)).Ensures fun r => r.1.Clean := by
  -- a slot that is not the turn's is as before; the turn's own is in use or all zeros
  have own_slot : ∀ {r : Server × List Sent}, (∀ j ≠ (v.turn peer rx).slot, r.1.sessions j = v.sessions j) →
      (r.1.sessions (v.turn peer rx).slot = .zero ∨ (r.1.sessions (v.turn peer rx).slot).inUse = true) →
      r.1.Clean := by
    intro r hothers hown i hi hfree
    by_cases hslot : i = (v.turn peer rx).slot
    · subst hslot
      rcases hown with hzero | hlive
      · exact hzero
      · rw [hlive] at hfree
        cases hfree
    · rw [hothers i hslot] at hfree ⊢
      exact h i hi hfree
  have hothers := answer_others now peer rx v (v.turn peer rx)
  cases ht : v.turn peer rx with
  | ignored | refused => exact h
  | replay i =>
    rw [ht] at own_slot hothers
    obtain ⟨-, hlive, -⟩ := turn_replay ht
    refine own_slot hothers (.inr ?_)
    simpa [Turn.slot, resend] using hlive
  | mount i =>
    rw [ht] at own_slot hothers
    exact (hothers.and (mountIn_zero_or ..)).mono fun r hr => own_slot hr.1 hr.2
  | run i =>
    rw [ht] at own_slot hothers
    obtain ⟨-, -, hlive, -⟩ := turn_run ht
    refine (hothers.and ?_).mono fun r hr => own_slot hr.1 hr.2
    refine Ensures.bind ((process_zero_or ..).mono ?_)
    rintro ⟨s, out⟩ hs
    simpa [Turn.slot, hlive] using hs

theorem serve_clean (now : ℕ) (peer : Peer) (rx : Bytes) (h : v.Clean) :
    (v.serve now peer rx).Ensures fun r => r.1.Clean := by
  refine Ensures.bind ((reapIdle_reaped now tnfsdMaxSessions v).mono fun w hw => ?_)
  subst hw
  exact answer_clean now peer rx (h.freed (reaped_freed now tnfsdMaxSessions v))

end Server

end FdcSds.Tnfsd
