import FdcSds.Net.Accounting

/-! Session isolation of the TNFS server.

    A turn acts for one slot: the one whose session the sender named, or a free one for a MOUNT. Every
    other slot is as before, unless it was idle for too long and reaped first. So a datagram from one
    address cannot reach the session of another.

        datagram from p ──▶ slot of (sid, p)          slot of (sid', q)  unchanged, or idle and reaped -/

namespace FdcSds.Tnfsd
open Schemes Schemes.Runs Prog

namespace Server

variable {v : Server}

/-- Reaping frees only sessions that were idle for more than 30 s. -/
theorem reaped_idle (now n : ℕ) (v : Server) (i : ℕ) : (v.reaped now n).sessions i = v.sessions i ∨
    ((v.reaped now n).sessions i = .zero ∧ tnfsdIdleUs < now - (v.sessions i).lastActiveUs) := by
  induction n with
  | zero => exact .inl rfl
  | succ n ih =>
    simp only [reaped]
    split
    · next hidle =>
      by_cases hi : i = n
      · subst hi
        refine .inr ⟨setSession_self .., ?_⟩
        simp only [Bool.and_eq_true, decide_eq_true_eq] at hidle
        rw [(reaped_freed now i v).of_inUse hidle.1] at hidle
        exact hidle.2
      · rw [setSession_of_ne _ hi]
        exact ih
    · exact ih

/-- A turn changes no session of another client. -/
theorem answer_isolated (now : ℕ) (peer : Peer) (rx : Bytes) (v : Server) :
    (v.answer now peer rx (v.turn peer rx)).Ensures fun r => ∀ i,
      (v.sessions i).inUse = true → (v.sessions i).peer ≠ peer → r.1.sessions i = v.sessions i := by
  have hothers := answer_others now peer rx v (v.turn peer rx)
  cases ht : v.turn peer rx with
  | ignored | refused => exact fun i _ _ => rfl
  | replay k =>
    rw [ht] at hothers
    refine hothers.mono fun r hr i _ hpeer => hr i ?_
    rintro rfl
    exact hpeer (turn_replay ht).2.2.1
  | mount k =>
    rw [ht] at hothers
    refine hothers.mono fun r hr i hlive _ => hr i ?_
    rintro rfl
    have hfree := (turn_mount ht).2.2
    rw [hlive] at hfree
    cases hfree
  | run k =>
    rw [ht] at hothers
    refine hothers.mono fun r hr i _ hpeer => hr i ?_
    rintro rfl
    exact hpeer (turn_run ht).2.2.2.2.1

/-- A free slot that is in use after a turn was taken by a MOUNT of the sender. -/
theorem answer_taken (now : ℕ) (peer : Peer) (rx : Bytes) (v : Server) :
    (v.answer now peer rx (v.turn peer rx)).Ensures fun r => ∀ i, (v.sessions i).inUse = false →
      (r.1.sessions i).inUse = true → rx.getD 3 0 = tnfsMount ∧ (r.1.sessions i).peer = peer := by
  refine (answer_effect now peer rx v _).mono fun r heff i hfree hlive => ?_
  cases ht : v.turn peer rx with
  | ignored | refused | replay =>
    rw [ht] at heff
    rw [(heff i).1.inUse, hfree] at hlive
    cases hlive
  | mount k =>
    rw [ht] at heff
    by_cases hik : i = k
    · subst hik
      exact ⟨(turn_mount ht).2.1, (heff.2 hlive).2⟩
    · rw [heff.1 i hik, hfree] at hlive
      cases hlive
  | run k =>
    rw [ht] at heff
    have hsame : r.1.sessions i = v.sessions i := heff.1 i (by
      rintro rfl
      have hrun := (turn_run ht).2.2.1
      rw [hfree] at hrun
      cases hrun)
    rw [hsame, hfree] at hlive
    cases hlive

/-- The session of another client after a whole turn. -/
theorem serve_isolated (now : ℕ) (peer : Peer) (rx : Bytes) (v : Server) :
    (v.serve now peer rx).Ensures fun r => ∀ i, (v.sessions i).inUse = true →
      (v.sessions i).peer ≠ peer → r.1.sessions i = v.sessions i ∨
        (tnfsdIdleUs < now - (v.sessions i).lastActiveUs ∧
          ((r.1.sessions i).inUse = true → rx.getD 3 0 = tnfsMount ∧ (r.1.sessions i).peer = peer)) := by
  refine Ensures.bind ((reapIdle_reaped now tnfsdMaxSessions v).mono fun w hw => ?_)
  subst hw
  refine ((answer_isolated ..).and (answer_taken ..)).mono fun r hr i hlive hpeer => ?_
  rcases reaped_idle now tnfsdMaxSessions v i with hsame | ⟨hzero, hidle⟩
  · refine .inl ((hr.1 i ?_ ?_).trans hsame)
    · rw [hsame]
      exact hlive
    · rw [hsame]
      exact hpeer
  · exact .inr ⟨hidle, hr.2 i (by rw [hzero]; rfl)⟩

end Server

/-! ### Whose handles a turn touches -/

section Handles

variable {σ : Type} {world : σ → (c : SysCall) → σ × c.Answer} {card : σ} {v : Server}

/-- A session that holds nothing is freed without a call. -/
theorem freeSession_trace {s : Session} (hfiles : s.files = fun _ => none) (hdirs : s.dirs = fun _ => none) :
    (freeSession s).trace world card = [] := by
  have files_none : ∀ n card, (closeFiles s n).trace world card = [] := by
    intro n
    induction n with
    | zero => exact fun _ => rfl
    | succ n ih =>
      intro card
      simp only [closeFiles, hfiles, trace_bind, ih, trace_pure, List.append_nil]
  have dirs_none : ∀ n card, (closeDirs s n).trace world card = [] := by
    intro n
    induction n with
    | zero => exact fun _ => rfl
    | succ n ih =>
      intro card
      simp only [closeDirs, hdirs, trace_bind, ih, trace_pure, List.append_nil]
  simp only [freeSession, trace_bind, files_none, dirs_none, trace_pure, List.append_nil]

/-- A MOUNT into a free slot calls nothing. -/
theorem mountIn_trace {now : ℕ} {peer : Peer} {seq : UInt8} {pl : Bytes} {i : ℕ}
    (hzero : v.sessions i = .zero) : (v.mountIn now peer seq pl i).trace world card = [] := by
  have hnew : (v.allocSession i).sessions i = { Session.zero with inUse := true } :=
    Server.setSession_self ..
  simp only [Server.mountIn, trace_bind, hzero]
  rw [freeSession_trace rfl rfl, List.nil_append]
  split
  · simp only [trace_bind, trace_pure, List.append_nil]
    exact freeSession_trace (by rw [hnew]; rfl) (by rw [hnew]; rfl)
  · rfl

namespace Daemon

/-- Reaping calls only on behalf of sessions idle for more than 30 s. -/
theorem reapOps_idle {now n : ℕ} {op : ℕ × SysOp} (h : op ∈ reapOps world now n card v) :
    tnfsdIdleUs < now - (v.sessions op.1).lastActiveUs := by
  induction n with
  | zero => cases h
  | succ n ih =>
    simp only [reapOps, List.mem_append] at h
    rcases h with h | h
    · exact ih h
    · split at h
      · next hidle =>
        obtain ⟨x, -, rfl⟩ := List.mem_map.mp h
        have hreaped := (Server.reapIdle_reaped now n v).run world card
        simp only [hreaped, Bool.and_eq_true, decide_eq_true_eq] at hidle
        rw [(Server.reaped_freed now n v).of_inUse hidle.1] at hidle
        exact hidle.2
      · cases h

/-- A call on a descriptor or directory is made for the sender's session or an idle one. -/
theorem serveOps_sender {now : ℕ} {peer : Peer} {rx : Bytes} {op : ℕ × SysOp} (hc : v.Clean)
    (h : op ∈ serveOps world now peer rx card v) :
    (v.sessions op.1).peer = peer ∨ tnfsdIdleUs < now - (v.sessions op.1).lastActiveUs := by
  have hreaped := (Server.reapIdle_reaped now tnfsdMaxSessions v).run world card
  have hfreed := Server.reaped_freed now tnfsdMaxSessions v
  rcases List.mem_append.mp h with h | h
  · exact .inr (reapOps_idle h)
  · obtain ⟨x, hx, rfl⟩ := List.mem_map.mp h
    simp only [hreaped] at hx ⊢
    cases ht : (v.reaped now tnfsdMaxSessions).turn peer rx with
    | ignored | refused | replay =>
      rw [ht] at hx
      cases hx
    | mount k =>
      rw [ht] at hx
      obtain ⟨hk, -, hfree⟩ := Server.turn_mount ht
      rw [Server.answer, mountIn_trace (hc.freed hfreed k hk hfree)] at hx
      cases hx
    | run k =>
      obtain ⟨-, -, hlive, -, hpeer, -⟩ := Server.turn_run ht
      rw [hfreed.of_inUse hlive] at hpeer
      exact .inl hpeer

theorem startLoop_freed (n : ℕ) (v : Server) : (startLoop n v).Ensures v.Freed := by
  induction n with
  | zero => exact fun i => .inl rfl
  | succ n ih =>
    refine Ensures.bind (ih.mono fun w hw => ?_)
    exact Ensures.bind ((Server.freeSession_zero _).mono fun s hs => by subst hs; exact hw.free n)

theorem startLoop_zero (n : ℕ) (v : Server) : (startLoop n v).Ensures fun w =>
    ∀ i < n, w.sessions i = .zero := by
  induction n with
  | zero =>
    rintro i ⟨⟩
  | succ n ih =>
    refine Ensures.bind (ih.mono fun w hw => ?_)
    refine Ensures.bind ((Server.freeSession_zero _).mono fun s hs i hi => ?_)
    subst hs
    by_cases hin : i = n
    · subst hin
      exact Server.setSession_self ..
    · rw [Server.setSession_of_ne _ hin]
      exact hw i (by omega)

/-- The table of a running task: free slots are zeros, live ids are distinct and not 0. -/
theorem reach_table {d : Daemon σ} {ok : Daemon σ → Beat → Prop} (h : (machine world).Reach ok d) :
    d.server.Ids ∧ (d.started = true → d.server.Clean) := by
  refine h.invariant (I := fun d => d.server.Ids ∧ (d.started = true → d.server.Clean)) ?_ ?_
  · rintro d ⟨card, rfl⟩
    exact ⟨Server.ids_of_free fun _ => rfl, by rintro ⟨⟩⟩
  · intro d b d' ⟨hids, hclean⟩ _ hstep
    have hreaped : ∀ now, (d.server.reaped now tnfsdMaxSessions).Ids := fun now =>
      hids.freed (Server.reaped_freed now tnfsdMaxSessions d.server)
    cases b with
    | start =>
      obtain ⟨-, rfl⟩ := when_eq_some.mp hstep
      have hfree := (startLoop_zero tnfsdMaxSessions d.server).run world d.card
      refine ⟨hids.freed ((startLoop_freed tnfsdMaxSessions d.server).run world d.card), fun _ i hi _ => ?_⟩
      exact hfree i hi
    | datagram now peer rx =>
      obtain ⟨hon, rfl⟩ := when_eq_some.mp hstep
      exact ⟨(hreaped now).effect ((Server.serve_effect now peer _ d.server).run world d.card),
        fun _ => (Server.serve_clean now peer _ (hclean hon)).run world d.card⟩
    | timeout now =>
      obtain ⟨hon, rfl⟩ := when_eq_some.mp hstep
      exact ⟨(hreaped now).effect ((Server.serve_effect now _ _ d.server).run world d.card),
        fun _ => (Server.serve_clean now _ _ (hclean hon)).run world d.card⟩
    | linkDown =>
      obtain ⟨hon, rfl⟩ := when_eq_some.mp hstep
      have hfreed := (Server.dropSessions_freed tnfsdMaxSessions d.server).run world d.card
      exact ⟨hids.freed hfreed, fun _ => (hclean hon).freed hfreed⟩

/-- CORRECT: live sessions have distinct ids, none of them 0, and no datagram changes the session of
    another address, unless that was idle for more than 30 s; nor does the turn touch a descriptor or a
    directory stream of such a session. -/
theorem sessions_isolated {d : Daemon σ} (h : (machine world).Reach Machine.always d)
    (hstarted : d.started = true) : d.server.Ids ∧ ∀ now peer rx,
      (∀ i < tnfsdMaxSessions, (d.server.sessions i).inUse = true → (d.server.sessions i).peer ≠ peer →
        ((d.server.serve now peer rx).run world d.card).2.1.sessions i = d.server.sessions i ∨
        (tnfsdIdleUs < now - (d.server.sessions i).lastActiveUs ∧
          ((((d.server.serve now peer rx).run world d.card).2.1.sessions i).inUse = true →
            rx.getD 3 0 = tnfsMount ∧
            (((d.server.serve now peer rx).run world d.card).2.1.sessions i).peer = peer))) ∧
      Ledger.Allows (fun i => (d.server.sessions i).handles) (serveOps world now peer rx d.card d.server) ∧
      ∀ op ∈ serveOps world now peer rx d.card d.server, (d.server.sessions op.1).peer = peer ∨
        tnfsdIdleUs < now - (d.server.sessions op.1).lastActiveUs := by
  obtain ⟨hids, hclean⟩ := reach_table h
  refine ⟨hids, fun now peer rx => ⟨fun i _ => ?_, ?_, fun op => serveOps_sender (hclean hstarted)⟩⟩
  · exact (Server.serve_isolated now peer rx d.server).run world d.card i
  · exact (serveOps_booked now peer rx fun i _ => rfl).allowed

theorem sessions_isolated_firstOpened : firstOpened.server.Ids :=
  (sessions_isolated reach_firstOpened (by decide)).1

end Daemon

end Handles

end FdcSds.Tnfsd
