import FdcSds.Ftp.Commands

/-! The passes of `ftp_run` under `watched`, and the rounds of its task.

    Every pass keeps `Steady`, whatever state it begins in; so does the pump loop, and with the reset at the
    end of a link every round of the task.

        init ──pass──▶ … ──pass──▶ ──reset──▶ init ──pass──▶ …                  -/

namespace FdcSds.Ftp
open Schemes Prog

variable {conf : Conf} {polite : Prop} {w : Watch} {d : Data}

/-- What `ftp_recv_non_blocking` may give. -/
theorem recvNonBlocking_obeys {s : Sock} {sd : Option ℕ} {maxlen : ℕ} (huses : w.Uses s sd)
    (hmoved : s = .d → ∃ x, w.moved = some (x, x)) {Q : Watch → RecvResult → Prop}
    (hdata : ∀ n bs, w.Gives polite (.recv s n maxlen) (.data bs) →
      Q (w.after (.recv s n maxlen) (.data bs)) (if bs = [] then .failed else .ok bs))
    (hagain : Q w .continue) (hfailed : Q w .failed) :
    (watched polite).Obeys w (recvNonBlocking s sd maxlen) Q := by
  cases sd with
  | none => exact hfailed
  | some n =>
    refine Contract.Obeys.bind ⟨⟨huses, hmoved⟩, fun r hgives => ?_⟩
    cases r with
    | data bs => exact hdata n bs hgives
    | again => cases s <;> exact hagain
    | failed => cases s <;> exact hfailed

/-- The control connection in `E_FTP_STE_READY`: a command, the time limit, or a connection that is gone. -/
theorem processCmd_obeys (h : Steady conf polite w d) (hready : d.state = .ready) :
    (watched polite).Obeys w (processCmd conf d) fun w' d' => Steady conf polite w' d' := by
  have hmarked : ∀ {w : Watch}, Steady conf polite w d →
    Steady conf polite w { d with closechild := false } := fun h => h.same rfl rfl rfl
  have hclosed : ∀ {w : Watch}, Steady conf polite w d →
      (watched polite).Obeys w (closeCmdData { d with closechild := false }) fun w' d' =>
        Steady conf polite w' d' := by
    intro w h
    refine (closeCmdData_obeys (hmarked h).toInv).mono ?_
    rintro w' d' ⟨rfl, h', -⟩
    exact h'.steady (.inl hready) (fun _ => rfl) fun _ => rfl
  refine Contract.Obeys.bind (recvNonBlocking_obeys (h.uses .c) (by rintro ⟨⟩)
    (fun n bs hgives => ?_) ?_ (hclosed h))
  · by_cases hbs : bs = []
    · rw [if_pos hbs]
      exact hclosed (h.heard bs)
    · rw [if_neg hbs]
      exact Contract.Obeys.bind (overrunIf_obeys (serveCommand_obeys (hmarked h) hready hgives))
  · exact Contract.obeys_ite ((hmarked h).answer hready (by simp [Status]) [] (by decide)) (hmarked h)

theorem runReady_obeys (h : Steady conf polite w d) (hready : d.state = .ready) :
    (watched polite).Obeys w (runReady conf d) fun w' d' => Steady conf polite w' d' := by
  unfold runReady
  split
  · next hfree =>
    obtain ⟨hnone, hsub⟩ := hfree
    have hnone := Option.isNone_iff_eq_none.mp hnone
    have hsame : d.setConn .c none = d := by rw [Data.setConn, ← hnone]
    refine Contract.Obeys.bind (Contract.Obeys.bind ⟨⟨h.closed .c hnone, h.uses .lc⟩, fun r _ => ?_⟩)
    cases r with
    | conn sd ip =>
      have hout : Inv conf polite w.loggedOut { d with uservalid := false, passvalid := false } :=
        ⟨h.creds, by rintro ⟨⟩, by rintro ⟨⟩, h.change, h.held, h.uses, h.closed⟩
      have hin : Inv conf polite (w.loggedOut.made .c sd)
        { d with cSd := some sd, uservalid := false, passvalid := false } := by
        refine hout.socket .c (some sd) rfl ?_ rfl (fun t hts => w.loggedOut.made_others sd hts)
          (w.loggedOut.made_uses .c sd)
          (by rintro ⟨⟩)
        funext s
        cases s <;> rfl
      refine Steady.answer ?_ ?_ (by simp [Status]) _ (by decide)
      · refine Inv.steady ?_ (.inl hready) (fun hp => h.idle hp (.inl (by rw [hready]; rfl))) h.waits
        exact hin.same rfl
      · exact hready
    | again =>
      rw [hsame]
      exact h
    | failed =>
      rw [hsame]
      refine Contract.Obeys.bind ((reset_obeys h.toInv).mono ?_)
      rintro w' d' ⟨rfl, h', -⟩
      exact h'.steady_reset
  · split
    · exact processCmd_obeys h hready
    · exact h

/-! ### Blocks -/

theorem sendData_obeys {data : Bytes} (h : Inv conf polite w d) (hdata : ∀ m ∈ w.moved, m.1 = m.2 ++ data) :
    (watched polite).Obeys w (sendData data d) fun w' d' =>
      Inv conf polite w' d' ∧ (d' = d ∧ w'.moved = w.moved.map (fun m => (m.1, m.2 ++ data)) ∨
        d' = d.reset ∧ w'.moved = w.moved) := by
  refine Contract.Obeys.bind ⟨⟨h.uses .d, hdata⟩, fun ok _ => ?_⟩
  cases ok with
  | true => exact ⟨⟨h.creds, h.user, h.pass, h.change, h.held, h.uses, h.closed⟩, .inl ⟨rfl, rfl⟩⟩
  | false =>
    refine (reset_obeys h).mono ?_
    rintro w' d' ⟨rfl, h', hmoved⟩
    exact ⟨h', .inr ⟨rfl, hmoved⟩⟩

/-- The reply that ends a transfer. -/
theorem finish_obeys {status : ℕ} {f : Data → Data}
    (hf : ∀ d, (f d).view = d.view ∧ (f d).state = .endTransfer ∧ (f d).substate = d.substate)
    (h : Inv conf polite w d) (hheld : polite → d.held = none)
    (hwaits : d.substate = .listenForData → d.dSd = none) (hs : Status status)
    (heven : status = 226 → d.cSd ≠ none → w.Even) :
    (watched polite).Obeys w (sendReply status [] d >>= fun d => pure (f d)) fun w' d' =>
      Steady conf polite w' d' := by
  refine Contract.Obeys.bind ((sendReply_obeys hs [] h heven).mono ?_)
  rintro w' d' ⟨hafter, h', -⟩
  obtain ⟨hview, hstate, hsub⟩ := hf d'
  have hrest : (polite → d'.held = none) ∧ (d'.substate = .listenForData → d'.dSd = none) := by
    rcases hafter with rfl | rfl
    · unfold Data.replied
      split
      · exact ⟨fun _ => rfl, fun _ => rfl⟩
      · split
        · exact ⟨fun _ => rfl, fun _ => rfl⟩
        · exact ⟨hheld, hwaits⟩
    · exact ⟨fun _ => rfl, fun _ => rfl⟩
  have hheld' : (f d').held = d'.held := congrArg (fun v => v.2.2.1) hview
  have hd : (f d').dSd = d'.dSd := congrArg (fun v => v.2.2.2.2.2.2.2) hview
  refine (h'.same hview).steady (.inr hstate) (fun hp => hheld'.trans (hrest.1 hp)) ?_
  rw [hsub, hd]
  exact hrest.2

/-! ### Listings -/

theorem getEplfItem_obeys (hlogin : w.pass = true) (destsize : ℕ) (de : Dirent) :
    (watched polite).Obeys w (getEplfItem conf d destsize de) fun w' _ => w' = w := by
  refine Contract.Obeys.bind (overrunIf_obeys (Contract.Obeys.bind (sys_obeys rfl hlogin fun r => ?_)))
  refine Contract.Obeys.bind ⟨trivial, fun now _ => ?_⟩
  cases r <;> exact Contract.Obeys.bind (overrunIf_obeys rfl)

theorem listLoop_obeys (h : Inv conf polite w d) (hlogin : w.pass = true) (hdir : polite → IsDir d.held)
    (fuel : ℕ) (list : CStr) (count : ℕ) :
    (watched polite).Obeys w (listLoop conf d fuel list count) fun w' _ => w' = w := by
  induction fuel generalizing list count with
  | zero => rfl
  | succ fuel ih =>
    refine Contract.obeys_ite (Contract.Obeys.bind ⟨fun hp => ⟨hdir hp, (h.held hp).1⟩, fun r _ => ?_⟩) rfl
    cases r with
    | none => rfl
    | some de =>
      refine Contract.obeys_ite (ih _ _) (Contract.Obeys.bind ((getEplfItem_obeys hlogin _ _).mono ?_))
      rintro w' item rfl
      exact ih _ _

/-- A block of a listing, which is closed at its end. -/
theorem listDir_obeys (h : Inv conf polite w d) (hlogin : w.pass = true) (hdir : polite → IsDir d.held) :
    (watched polite).Obeys w (listDir conf d) fun w' r =>
      Inv conf polite w' r.1 ∧ w'.moved = w.moved ∧ r.1.state = d.state ∧
        r.1.substate = d.substate ∧ r.1.dSd = d.dSd ∧
        r.1.passvalid = d.passvalid ∧ (r.2.2 = true → polite → r.1.held = none) ∧
          (r.2.2 = false → r.1.held = d.held) := by
  refine Contract.Obeys.bind ((listLoop_obeys h hlogin hdir _ _ _).mono ?_)
  rintro w' ⟨list, atEnd⟩ rfl
  have hread : ∀ b : Bytes, Inv conf polite w' { d with dBuffer := b } := fun b => h.same rfl
  have hkept : ∃ b, (if list = [] then d else {
    d with dBuffer := memcpy d.dBuffer (CStr.bytes list ++ [0]) }) = { d with dBuffer := b } := by
    split
    · exact ⟨d.dBuffer, rfl⟩
    · exact ⟨_, rfl⟩
  obtain ⟨b, hb⟩ := hkept
  dsimp only
  rw [hb]
  cases atEnd with
  | false => exact ⟨hread b, rfl, rfl, rfl, rfl, rfl, by rintro ⟨⟩, fun _ => rfl⟩
  | true =>
    refine Contract.Obeys.bind ((closeFilesDir_obeys (hread b)).mono ?_)
    rintro w'' d' ⟨rfl, h', hmoved, hnone⟩
    exact ⟨h', hmoved, rfl, rfl, rfl, rfl, fun _ => hnone, by rintro ⟨⟩⟩

theorem runListing_obeys (h : Steady conf polite w d) (hlist : d.state = .continueListing) :
    (watched polite).Obeys w (runListing conf d) fun w' d' => Steady conf polite w' d' := by
  obtain ⟨hmoved, hlogin⟩ := h.listing hlist
  refine Contract.Obeys.bind ((listDir_obeys h.toInv (h.pass hlogin) fun hp => (h.stream hp).1 hlist).mono ?_)
  rintro w₁ ⟨d₁, list, atEnd⟩ ⟨h₁, hmoved₁, hstate, hsub, hd, hpass, hclosed, hopen⟩
  have hnone : w₁.moved = none := hmoved₁.trans hmoved
  have hsend : (watched polite).Obeys w₁ (sendList list d₁) fun w' d' =>
      Inv conf polite w' d' ∧ w'.moved = none ∧ (d' = d₁ ∨ d' = d₁.reset) := by
    refine Contract.obeys_ite ⟨h₁, hnone, .inl rfl⟩ ((sendData_obeys h₁ (by rw [hnone]; rintro m ⟨⟩)).mono ?_)
    rintro w' d' ⟨h', ⟨hd', hmoved'⟩ | ⟨hd', hmoved'⟩⟩
    · exact ⟨h', by rw [hmoved', hnone]; rfl, .inl hd'⟩
    · exact ⟨h', hmoved'.trans hnone, .inr hd'⟩
  refine Contract.Obeys.bind (hsend.mono ?_)
  rintro w₂ d₂ ⟨h₂, hnone₂, hd₂⟩
  cases atEnd with
  | true =>
    refine finish_obeys (f := fun d => { d with state := .endTransfer, ctimeout := 0 })
      (fun _ => ⟨rfl, rfl, rfl⟩) h₂ (fun hp => ?_)
      (fun hlisten => ?_) (by simp [Status]) fun _ _ => ?_
    · rcases hd₂ with rfl | rfl
      · exact hclosed rfl hp
      · rfl
    · rcases hd₂ with rfl | rfl
      · exact hd.trans (h.waits (hsub.symm.trans hlisten))
      · rfl
    · rw [Watch.Even, hnone₂]
      rintro m ⟨⟩
  | false =>
    have hsteady : Steady conf polite w₂ d₂ := by
      rcases hd₂ with rfl | rfl
      · refine ⟨h₂, fun hp hidle => ?_, fun hst => ?_, fun _ => ⟨hnone₂, hpass.trans hlogin⟩, fun hp =>
          ⟨fun _ => ?_, fun hst => ?_⟩,
          fun hst => ?_, fun hlisten => hd.trans (h.waits (hsub.symm.trans hlisten))⟩
        · rw [hstate, hd] at hidle
          exact (hopen rfl).trans (h.idle hp hidle)
        · rw [hstate, hlist] at hst
          rcases hst with ⟨⟨⟩⟩ | ⟨⟨⟩⟩
        · rw [show d₂.held = d.held from hopen rfl]
          exact (h.stream hp).1 hlist
        · rw [hstate, hlist] at hst
          rcases hst with ⟨⟨⟩⟩ | ⟨⟨⟩⟩
        · rw [hstate, hlist] at hst
          rcases hst with ⟨⟨⟩⟩ | ⟨⟨⟩⟩
      · exact h₂.steady_reset
    exact hsteady.same rfl rfl rfl

/-! ### Files -/

/-- A block that goes out, and what is left of its file. -/
theorem runFileTx_obeys (h : Steady conf polite w d) (htx : d.state = .continueFileTx) :
    (watched polite).Obeys w (runFileTx conf d) fun w' d' => Steady conf polite w' d' := by
  obtain ⟨x, hx⟩ := h.files (.inl htx)
  refine Contract.Obeys.bind ⟨⟨fun hp => ⟨(h.stream hp).2 (.inl htx), (h.held hp).1⟩, x, hx⟩, fun r _ => ?_⟩
  have hread : Inv conf polite (w.into r.1) { d with ctimeout := 0, dBuffer := memcpy d.dBuffer r.1 } :=
    ⟨h.creds, h.user, h.pass, h.change, h.held, h.uses, h.closed⟩
  have hmoved : (w.into r.1).moved = some (x ++ r.1, x) := by rw [Watch.into, hx]; rfl
  have hfinish : ∀ {w' : Watch} {d' : Data} {status : ℕ}, Status status →
    (status = 226 → d'.cSd ≠ none → w'.Even) → Inv conf polite w' d' →
      (d' = Data.filesClosed { d with ctimeout := 0, dBuffer := memcpy d.dBuffer r.1 } ∧
        (polite → d'.held = none) ∨
        d' = (Data.filesClosed { d with ctimeout := 0, dBuffer := memcpy d.dBuffer r.1 }).reset) →
      (watched polite).Obeys w' (sendReply status [] d' >>= fun d => pure { d with state := .endTransfer })
        fun w' d' => Steady conf polite w' d' := by
    rintro w' d' status hs heven h' (⟨rfl, hnone⟩ | rfl)
    · exact finish_obeys (f := fun d => { d with state := .endTransfer }) (fun _ => ⟨rfl, rfl, rfl⟩)
        h' hnone h.waits hs heven
    · exact finish_obeys (f := fun d => { d with state := .endTransfer }) (fun _ => ⟨rfl, rfl, rfl⟩) h'
        (fun _ => rfl) (fun _ => rfl)
        hs heven
  have hclosed := closeFilesDir_obeys hread
  refine Contract.obeys_ite' (fun hempty => ?_) fun hfull =>
    Contract.obeys_ite' (fun hshort => ?_) fun hlong => ?_
  · refine Contract.Obeys.bind (hclosed.mono ?_)
    rintro w' d' ⟨rfl, h', hmoved', hnone⟩
    refine hfinish ?_ (fun _ _ m hm => ?_) h' (.inl ⟨rfl, hnone⟩)
    · split <;> simp [Status]
    · rw [hmoved', hmoved, hempty, List.append_nil] at hm
      cases hm
      rfl
  · refine Contract.Obeys.bind (hclosed.mono ?_)
    rintro w' d' ⟨rfl, h', hmoved', hnone⟩
    refine Contract.Obeys.bind ((sendData_obeys h' ?_).mono ?_)
    · rw [hmoved', hmoved]
      rintro m ⟨⟩
      rfl
    · rintro w'' d'' ⟨h'', ⟨rfl, hsent⟩ | ⟨rfl, -⟩⟩
      · refine hfinish (by simp [Status]) (fun _ _ m hm => ?_) h'' (.inl ⟨rfl, hnone⟩)
        rw [hsent, hmoved', hmoved] at hm
        cases hm
        rfl
      · exact hfinish (by simp [Status]) (fun _ hc => absurd rfl hc) h'' (.inr rfl)
  · refine (sendData_obeys hread ?_).mono ?_
    · rw [hmoved]
      rintro m ⟨⟩
      rfl
    · rintro w' d' ⟨h', ⟨rfl, hsent⟩ | ⟨rfl, -⟩⟩
      · refine ⟨h', h.idle, fun _ => ⟨x ++ r.1, ?_⟩, fun hst => ?_, h.stream, fun hst => ?_, h.waits⟩
        · rw [hsent, hmoved]
          rfl
        · exact absurd (htx.symm.trans hst) (by rintro ⟨⟩)
        · rcases hst with hst | hst <;> exact absurd (htx.symm.trans hst) (by rintro ⟨⟩)
      · exact h'.steady_reset

/-- A transfer that ends with its stream closed and a reply. -/
theorem endTransfer_obeys {status : ℕ} (h : Inv conf polite w d)
    (hwaits : d.substate = .listenForData → d.dSd = none) (hs : Status status)
    (heven : status = 226 → w.Even) : (watched polite).Obeys w (do
      let d ← closeFilesDir d
      let d ← sendReply status [] d
      pure { d with state := .endTransfer }) fun w' d' => Steady conf polite w' d' := by
  refine Contract.Obeys.bind ((closeFilesDir_obeys h).mono ?_)
  rintro w' d' ⟨rfl, h', hmoved, hnone⟩
  refine finish_obeys (f := fun d => { d with state := .endTransfer }) (fun _ => ⟨rfl, rfl, rfl⟩)
    h' hnone hwaits hs fun heq _ => ?_
  rw [Watch.Even, hmoved]
  exact heven heq

/-- A block that comes in, and what it says when no more do. -/
theorem runFileRx_obeys (h : Steady conf polite w d) (hrx : d.state = .continueFileRx) :
    (watched polite).Obeys w (runFileRx conf d) fun w' d' => Steady conf polite w' d' := by
  obtain ⟨x, hx⟩ := h.files (.inr hrx)
  have heven : w.Even := by
    rw [Watch.Even, hx]
    rintro m ⟨⟩
    rfl
  refine Contract.Obeys.bind (recvNonBlocking_obeys (h.uses .d) (fun _ => ⟨x, hx⟩) (fun n bs _ => ?_) ?_ ?_)
  · have hin : Inv conf polite (w.into bs)
      { d with dtimeout := 0, ctimeout := 0, dBuffer := memcpy d.dBuffer bs } :=
      ⟨h.creds, h.user, h.pass, h.change, h.held, h.uses, h.closed⟩
    have hmoved : (w.into bs).moved = some (x ++ bs, x) := by rw [Watch.into, hx]; rfl
    by_cases hbs : bs = []
    · rw [if_pos hbs]
      refine endTransfer_obeys ⟨h.creds, h.user, h.pass, h.change, h.held, h.uses, h.closed⟩ h.waits
        (by simp [Status]) fun _ m hm => ?_
      have hm' : (w.into bs).moved = some m := hm
      rw [hmoved, hbs, List.append_nil] at hm'
      cases hm'
      rfl
    · rw [if_neg hbs]
      refine Contract.Obeys.bind ⟨⟨fun hp => ⟨(h.stream hp).2 (.inr hrx), (h.held hp).1⟩, x, hmoved⟩,
        fun taken _ => ?_⟩
      refine Contract.obeys_ite' (fun hall => ?_) fun _ => ?_
      · refine ⟨⟨h.creds, h.user, h.pass, h.change, h.held, h.uses, h.closed⟩, h.idle, fun _ =>
          ⟨x ++ bs, ?_⟩, fun hst => ?_, h.stream,
          fun hst => ?_, h.waits⟩
        · change ((w.into bs).outOf (bs.take taken)).moved = _
          rw [Watch.outOf, hmoved, hall, List.take_length]
          rfl
        · exact absurd (hrx.symm.trans hst) (by rintro ⟨⟩)
        · rcases hst with hst | hst <;> exact absurd (hrx.symm.trans hst) (by rintro ⟨⟩)
      · exact endTransfer_obeys ⟨h.creds, h.user, h.pass, h.change, h.held, h.uses, h.closed⟩ h.waits
          (by simp [Status]) fun heq => absurd heq (by decide)
  · exact Contract.obeys_ite (endTransfer_obeys h.toInv h.waits (by simp [Status]) fun heq =>
      absurd heq (by decide)) h
  · exact endTransfer_obeys h.toInv h.waits (by simp [Status]) fun _ => heven

/-! ### A pass -/

theorem runState_obeys (h : Steady conf polite w d) :
    (watched polite).Obeys w (runState conf d) fun w' d' => Steady conf polite w' d' := by
  unfold runState
  cases hst : d.state with
  | disabled =>
    have hstart : Steady conf polite w { d with state := .start } := by
      refine Inv.steady_off ?_ (.inr rfl) (fun hp => h.idle hp (.inl (by rw [hst]; rfl)))
        (h.begins (.inl hst)) h.waits
      exact h.toInv.same rfl
    change Steady conf polite w (if d.enabled = true then { d with state := .start } else d)
    split
    · exact hstart
    · exact h
  | start =>
    have hidle : polite → d.held = none := fun hp => h.idle hp (.inl (by rw [hst]; rfl))
    refine Contract.Obeys.bind ((createListeningSocket_obeys (.inl rfl) h.toInv
      (h.begins (.inr hst))).mono ?_)
    rintro w' ⟨sd, ok⟩ ⟨hinv, -, hfail⟩
    cases ok with
    | true =>
      refine Inv.steady ?_ (.inl rfl) hidle h.waits
      exact hinv.same rfl
    | false =>
      refine Inv.steady_off ?_ (.inr rfl) hidle (hfail rfl) h.waits
      exact hinv.same rfl
  | ready => exact runReady_obeys h hst
  | endTransfer =>
    have hidle : polite → d.held = none := fun hp => h.idle hp (.inl (by rw [hst]; rfl))
    refine Contract.obeys_ite (obeys_close h.toInv .d ?_) h
    refine Inv.steady ?_ (.inr rfl) hidle fun _ => rfl
    exact h.toInv.close .d rfl (by funext s; cases s <;> rfl)
  | continueListing => exact runListing_obeys h hst
  | continueFileTx => exact runFileTx_obeys h hst
  | continueFileRx => exact runFileRx_obeys h hst

/-- The data connection was accepted. -/
theorem Steady.connected (h : Steady conf polite w d) (hnone : d.dSd = none) (sd : ℕ) :
    Steady conf polite (w.made .d sd)
      { d with dSd := some sd, dtimeout := 0, substate := .dataConnected } := by
  have hin : Inv conf polite (w.made .d sd)
    { d with dSd := some sd, dtimeout := 0, substate := .dataConnected } := by
    refine h.toInv.socket .d (some sd) rfl ?_ rfl (fun t hts => w.made_others sd hts)
      (w.made_uses .d sd) (by rintro ⟨⟩)
    funext s
    cases s <;> rfl
  refine ⟨hin, fun hp _ => h.idle hp (.inr hnone), h.files, h.listing, h.stream, fun hst => ?_, by rintro ⟨⟩⟩
  exact (congrArg (fun x => x.2.1) (w.made_others sd (show Sock.lc ≠ Sock.d by decide))).trans (h.begins hst)

/-- The passive listener is closed. -/
theorem Steady.closeListener (h : Steady conf polite w d) (hnone : d.dSd = none) :
    Steady conf polite (w.after (.closesocket .ld d.ldSd) ())
      { d with dtimeout := 0, ldSd := none, substate := .disconnected } := by
  have hin : Inv conf polite (w.after (.closesocket .ld d.ldSd) ())
    { d with dtimeout := 0, ldSd := none, substate := .disconnected } :=
    h.toInv.close .ld rfl (by funext s; cases s <;> rfl)
  refine ⟨hin, h.idle, ?_, ?_, h.stream, fun hst => ?_, fun _ => hnone⟩
  · rw [after_close_moved]; exact h.files
  · rw [after_close_moved]; exact h.listing
  · exact (after_close_isOpen w d.ldSd (show Sock.lc ≠ Sock.ld by decide)).trans (h.begins hst)

theorem runSubstate_obeys (h : Steady conf polite w d) :
    (watched polite).Obeys w (runSubstate d) fun w' d' => Steady conf polite w' d' := by
  unfold runSubstate
  cases hsub : d.substate with
  | disconnected => exact h
  | listenForData =>
    have hnone := h.waits hsub
    have hsame : d.setConn .d none = d := by rw [Data.setConn, ← hnone]
    refine Contract.Obeys.bind (Contract.Obeys.bind ⟨⟨h.closed .d hnone, h.uses .ld⟩, fun r _ => ?_⟩)
    cases r with
    | conn sd ip => exact h.connected hnone sd
    | again =>
      rw [hsame]
      exact Contract.obeys_ite ⟨h.uses .ld, fun _ _ => h.closeListener hnone⟩ h
    | failed =>
      rw [hsame]
      refine Contract.Obeys.bind ((reset_obeys h.toInv).mono ?_)
      rintro w' d' ⟨rfl, h', -⟩
      exact Contract.obeys_ite ⟨h'.uses .ld, fun _ _ => h'.steady_reset.closeListener rfl⟩ h'.steady_reset
  | dataConnected =>
    refine Contract.obeys_ite' (fun hlate => ?_) fun _ => h
    have hld : Inv conf polite _ { d with ldSd := none } :=
      h.toInv.close .ld rfl (by funext s; cases s <;> rfl)
    have hd : Inv conf polite _ { d with substate := .dataConnected, ldSd := none, dSd := none } :=
      hld.close .d rfl (by funext s; cases s <;> rfl)
    refine obeys_close h.toInv .ld
      (obeys_close hld .d (Contract.Obeys.bind ((closeFilesystemOnError_obeys hd).mono ?_)))
    rintro w' d' ⟨rfl, h', -⟩
    refine Inv.steady ?_ (.inl hlate.1) (fun _ => rfl) fun _ => rfl
    exact h'.same rfl

theorem Steady.settle (h : Steady conf polite w d) : Steady conf polite w (settle d) := by
  unfold Ftp.settle
  split
  · next hlost =>
    have hnone := Option.isNone_iff_eq_none.mp hlost.1
    refine Inv.steady ?_ (.inl rfl) (fun hp => h.idle hp (.inr hnone)) fun _ => hnone
    exact h.toInv.same rfl
  · exact h

theorem run_obeys (h : Steady conf polite w d) (elapsed : UInt32) :
    (watched polite).Obeys w (run conf elapsed d) fun w' d' => Steady conf polite w' d' := by
  refine Contract.Obeys.bind (Contract.Obeys.mono (runState_obeys ?_) fun w₁ d₁ h₁ => ?_)
  · exact h.same rfl rfl rfl
  · exact Contract.Obeys.bind ((runSubstate_obeys h₁).mono fun _ _ h₂ => h₂.settle)

/-! ### The task -/

theorem pump_obeys (h : Steady conf polite w d) (es : List UInt32) :
    (watched polite).Obeys w (pump conf es d) fun w' d' => Steady conf polite w' d' := by
  induction es generalizing w d with
  | nil => exact h
  | cons e es ih => exact Contract.Obeys.bind ((run_obeys h e).mono fun _ _ h' => ih h')

/-- Nothing is open, and no change is under way. -/
structure Watch.Shut (polite : Prop) (w : Watch) : Prop where
  change : w.change = none
  held : polite → w.held = none
  socks : ∀ s, w.isOpen s = false

variable {clock : Clock} {l : Link}

/-- The variables `ftp_init` leaves belong to a watch of nothing. -/
theorem Watch.Shut.steady (hw : w.Shut polite) (creds : CStr × CStr) (heap : Bytes) :
    Steady (setup clock creds) polite (w.after .config creds) (enable (init heap d)) := by
  refine Inv.steady_off ⟨rfl, by rintro ⟨⟩, by rintro ⟨⟩, hw.change, fun hp => ⟨hw.held hp, trivial⟩,
    fun s => ?_, fun s _ => hw.socks s⟩ (.inl rfl) (fun _ => rfl) (hw.socks .lc) fun _ => rfl
  cases s <;> rintro n ⟨⟩

/-- A round of the task begins and ends with nothing open. -/
theorem serveLink_obeys (hw : w.Shut polite) :
    (watched polite).Obeys w (serveLink clock l d) fun w' _ => w'.Shut polite := by
  refine Contract.Obeys.bind ⟨trivial, fun creds _ => ?_⟩
  cases l.heap with
  | none => exact ⟨hw.change, hw.held, hw.socks⟩
  | some heap =>
    refine Contract.Obeys.bind ((pump_obeys (hw.steady creds heap) _).mono fun w' d' h =>
      (reset_obeys h.toInv).mono ?_)
    rintro w'' d'' ⟨rfl, h', -⟩
    exact ⟨h'.change, fun hp => (h'.held hp).1, fun s => h'.closed s (by cases s <;> rfl)⟩

theorem task_obeys (ls : List Link) (hw : w.Shut polite) :
    (watched polite).Obeys w (task clock ls d) fun w' _ => w'.Shut polite := by
  induction ls generalizing w d with
  | nil => exact hw
  | cons l ls ih => exact Contract.Obeys.bind ((serveLink_obeys hw).mono fun _ _ h => ih h)

end FdcSds.Ftp
