import FdcSds.Ftp.Obedience

/-! The commands of the FTP server under `watched`.

    A command begins in `E_FTP_STE_READY`, with nothing open when the client is polite, and keeps `Steady`.
    What it may ask of the card it may ask because the login check came first.

        ready, Steady ──command──▶ Steady                                    -/

namespace FdcSds.Ftp
open Schemes Prog

variable {conf : Conf} {polite : Prop} {w : Watch} {d : Data} {str : CStr}

/-- Where a command begins, for one that needs the login. -/
structure Served (conf : Conf) (polite : Prop) (w : Watch) (d : Data) :
    Prop extends Steady conf polite w d where
  ready : d.state = .ready
  login : d.passvalid = true

theorem Served.still (h : Served conf polite w d) : d.state.still := .inl h.ready

/-- The card may be asked. -/
theorem Served.allowed (h : Served conf polite w d) : w.pass = true := h.pass h.login

theorem Served.free (h : Served conf polite w d) (hp : polite) : w.held = none ∧ d.held = none := by
  have hidle := h.idle hp (.inl (by rw [h.ready]; rfl))
  exact ⟨(h.held hp).1.trans hidle, hidle⟩

theorem Served.same {d' : Data} (h : Served conf polite w d) (hview : d'.view = d.view)
    (hstate : d'.state = d.state) (hsub : d'.substate = d.substate) : Served conf polite w d' :=
  ⟨h.toSteady.same hview hstate hsub, hstate.trans h.ready, (congrArg (fun v => v.2.1) hview).trans h.login⟩

/-- A reply that is none of a transfer's ends the command. -/
theorem Served.reply {status : ℕ} (h : Served conf polite w d) (hs : Status status) (message : CStr)
    (hne : status ≠ 226) :
    (watched polite).Obeys w (sendReply status message d) fun w' d' => Steady conf polite w' d' :=
  (h.toSteady.reply hs message hne h.still.ne.2.2.2.2 (.inl h.still)).mono fun _ _ h => h.2

section
variable {α : Type} {Q : Watch → α → Prop}

/-- Calls that only look, and the two the guard is not asked about. -/
def SysCall.unguarded : SysCall → Bool
  | .stat _ | .mkdir _ | .rmdir _ => true
  | _ => false

theorem sys_obeys {c : SysCall} (hc : SysCall.unguarded c = true) (hlogin : w.pass = true)
    {Q : Watch → c.Answer → Prop} (hQ : ∀ r, Q w r) : (watched polite).Obeys w (sysCall c) Q := by
  cases c with
  | stat p | mkdir p | rmdir p =>
    exact ⟨⟨fun _ => hlogin, ⟨by rintro q ⟨⟩, trivial⟩, trivial⟩, fun r _ => hQ r⟩
  | «open» | read | write | lseek | close | unlink | rename | opendir | readdir | rewinddir | closedir
  | changeBegin | changeEnd => cases hc

theorem fullname_obeys {path : CStr} {Q : Watch → CStr → Prop} (hQ : Q w (conf.root ++ path)) :
    (watched polite).Obeys w (fullname conf path) Q :=
  Contract.Obeys.bind (overrunIf_obeys hQ)

theorem Inv.ended {d : Data} (h : Inv conf polite w d) : { w with change := none } = w := by
  rw [← h.change]

/-- A deletion or a renaming between `ftp_change_begin` and `ftp_change_end`. -/
theorem change_obeys {full : CStr} {c : SysCall} (hc : (c = .unlink full) ∨ ∃ new, c = .rename full new)
    (h : Inv conf polite w d) (hlogin : w.pass = true) {g : Data × Bool → Serve α}
    {k : Data → c.Answer → Serve α}
    (hg : ∀ d, g (d, true) = sysCall c >>= fun r => sysCall .changeEnd >>= fun _ => k d r)
    (hk : ∀ r, (watched polite).Obeys w (k { d with guardRefused := false } r) Q)
    (hstop : (watched polite).Obeys w (g ({ d with guardRefused := true }, false)) Q) :
    (watched polite).Obeys w (changeBegin full d >>= g) Q := by
  refine ⟨⟨fun _ => hlogin, ⟨by rintro q ⟨⟩, h.change⟩, trivial⟩, fun drive _ => ?_⟩
  cases drive with
  | some n => exact hstop
  | none =>
    change (watched polite).Obeys { w with change := some full }
      (g ({ d with guardRefused := false }, true)) Q
    rw [hg]
    have hend : ∀ r, (watched polite).Obeys { w with change := some full }
        (sysCall .changeEnd >>= fun _ => k { d with guardRefused := false } r) Q := by
      refine fun r => ⟨⟨fun hpaths => absurd rfl hpaths, ⟨by rintro q ⟨⟩, rfl⟩, trivial⟩, fun _ _ => ?_⟩
      have hnow := hk r
      rw [← h.ended] at hnow
      exact hnow
    rcases hc with rfl | ⟨new, rfl⟩
    · exact ⟨⟨fun _ => hlogin, ⟨by rintro q ⟨⟩; rfl, trivial⟩, trivial⟩, fun r _ => hend r⟩
    · exact ⟨⟨fun _ => hlogin, ⟨by rintro q ⟨⟩; rfl, trivial⟩, trivial⟩, fun r _ => hend r⟩

end

/-! ### The working directory -/

theorem getParamAndOpenChild_obeys (h : Served conf polite w d) :
    (watched polite).Obeys w (getParamAndOpenChild str d) fun w' d' =>
    w' = w ∧ Served conf polite w d' ∧ d'.dSd = d.dSd := by
  refine Contract.obeys_ite ⟨rfl, h.same rfl rfl rfl, rfl⟩ ?_
  exact Contract.Obeys.bind (overrunIf_obeys ⟨rfl, h.same rfl rfl rfl, rfl⟩)

theorem closePath_obeys (h : Served conf polite w d) :
    (watched polite).Obeys w (closePath d) fun w' d' => w' = w ∧ Served conf polite w d' :=
  Contract.Obeys.bind (overrunIf_obeys ⟨rfl, h.same rfl rfl rfl⟩)

theorem cdup_obeys (h : Served conf polite w d) :
    (watched polite).Obeys w (closePath d >>= fun d => sendReply 250 [] d)
    fun w' d' => Steady conf polite w' d' := by
  refine Contract.Obeys.bind ((closePath_obeys h).mono ?_)
  rintro w' d' ⟨rfl, h'⟩
  exact h'.reply (by simp [Status]) [] (by decide)

theorem replyResult_obeys (h : Served conf polite w d) (r : Except Errno Unit) :
    (watched polite).Obeys w (replyResult r d) fun w' d' => Steady conf polite w' d' := by
  cases r with
  | ok _ => exact h.reply (by simp [Status]) [] (by decide)
  | error _ => exact h.reply (by simp [Status]) [] (by decide)

theorem pathop_obeys {op : CStr → Serve (Except Errno Unit)}
    (hop : ∀ p (Q : Watch → Except Errno Unit → Prop), (∀ r, Q w r) → (watched polite).Obeys w (op p) Q)
    (h : Served conf polite w d) :
    (watched polite).Obeys w (pathop conf op str d) fun w' d' => Steady conf polite w' d' := by
  refine Contract.Obeys.bind ((getParamAndOpenChild_obeys h).mono ?_)
  rintro w' d' ⟨rfl, h', -⟩
  refine Contract.obeys_ite ?_ (h'.reply (by simp [Status]) [] (by decide))
  exact Contract.Obeys.bind (fullname_obeys (Contract.Obeys.bind (hop _ _ fun r => replyResult_obeys h' r)))

theorem cmdDele_obeys (h : Served conf polite w d) :
    (watched polite).Obeys w (cmdDele conf str d) fun w' d' => Steady conf polite w' d' := by
  refine Contract.Obeys.bind ((getParamAndOpenChild_obeys h).mono ?_)
  rintro w' d' ⟨rfl, h', -⟩
  refine Contract.obeys_ite ?_ (h'.reply (by simp [Status]) [] (by decide))
  refine Contract.Obeys.bind (fullname_obeys ?_)
  refine change_obeys (.inl rfl) h'.toInv h'.allowed (fun _ => rfl) (fun r => ?_) ?_
  · refine replyResult_obeys ?_ r
    exact h'.same rfl rfl rfl
  · refine Served.reply ?_ (by simp [Status]) _ (by decide)
    exact h'.same rfl rfl rfl

theorem cmdRnto_obeys (h : Served conf polite w d) :
    (watched polite).Obeys w (cmdRnto conf str d) fun w' d' => Steady conf polite w' d' := by
  refine Contract.Obeys.bind ((getParamAndOpenChild_obeys h).mono ?_)
  rintro w' d' ⟨rfl, h', -⟩
  refine Contract.Obeys.bind (overrunIf_obeys
    (Contract.Obeys.bind (fullname_obeys (Contract.Obeys.bind (fullname_obeys ?_)))))
  refine change_obeys (.inr ⟨_, rfl⟩) h'.toInv h'.allowed (fun _ => rfl) (fun r => ?_) ?_
  · refine replyResult_obeys ?_ r
    exact h'.same rfl rfl rfl
  · refine Served.reply ?_ (by simp [Status]) _ (by decide)
    exact h'.same rfl rfl rfl

theorem cmdRnfr_obeys (h : Served conf polite w d) :
    (watched polite).Obeys w (cmdRnfr conf str d) fun w' d' => Steady conf polite w' d' := by
  refine Contract.Obeys.bind ((getParamAndOpenChild_obeys h).mono ?_)
  rintro w' d' ⟨rfl, h', -⟩
  refine Contract.Obeys.bind (fullname_obeys (Contract.Obeys.bind (sys_obeys rfl h'.allowed fun r => ?_)))
  cases r with
  | error e => exact h'.reply (by simp [Status]) [] (by decide)
  | ok st =>
    exact Contract.Obeys.bind ((h'.reply (by simp [Status]) [] (by decide)).mono fun _ _ hs =>
      hs.same rfl rfl rfl)

theorem cmdStat_obeys (text : Stat → CStr) (h : Served conf polite w d) :
    (watched polite).Obeys w (cmdStat conf text str d) fun w' d' => Steady conf polite w' d' := by
  refine Contract.Obeys.bind ((getParamAndOpenChild_obeys h).mono ?_)
  rintro w' d' ⟨rfl, h', -⟩
  refine Contract.Obeys.bind (fullname_obeys (Contract.Obeys.bind (sys_obeys rfl h'.allowed fun r => ?_)))
  cases r with
  | error e => exact h'.reply (by simp [Status]) [] (by decide)
  | ok st =>
    refine Served.reply ?_ (by simp [Status]) _ (by decide)
    exact h'.same rfl rfl rfl

/-- With the variable cleared: a polite client finds nothing there. -/
theorem Served.cleared (h : Served conf polite w d) : Served conf polite w { d with held := none } := by
  refine ⟨Inv.steady ⟨h.creds, h.user, h.pass, h.change, fun hp => ?_, h.uses, h.closed⟩ h.still
    (fun _ => rfl) h.waits, h.ready, h.login⟩
  obtain ⟨hw, hnone⟩ := h.free hp
  exact ⟨hw, by rw [h.held_none hp hnone]; trivial⟩

theorem enter_obeys (h : Served conf polite w d) : (watched polite).Obeys w (enter conf d) fun w' d' =>
      Steady conf polite w' d' := by
  refine Contract.obeys_ite (h.cleared.reply (by simp [Status]) [] (by decide))
    (Contract.Obeys.bind (fullname_obeys ?_))
  refine Contract.Obeys.bind ⟨⟨fun _ => h.allowed, ⟨by rintro q ⟨⟩, trivial⟩, fun hp => (h.free hp).1⟩,
    fun r _ => ?_⟩
  cases r with
  | error e =>
    refine Contract.Obeys.bind ((closePath_obeys h.cleared).mono ?_)
    rintro w' d' ⟨rfl, h'⟩
    exact h'.reply (by simp [Status]) [] (by decide)
  | ok k =>
    refine ⟨fun _ => ⟨⟨k, rfl⟩, rfl⟩, fun _ _ => ?_⟩
    refine Served.reply ?_ (by simp [Status]) [] (by decide)
    refine ⟨Inv.steady ⟨h.creds, h.user, h.pass, h.change, fun hp => ⟨rfl, ?_⟩, h.uses, h.closed⟩
      h.still (fun _ => rfl) h.waits, h.ready,
      h.login⟩
    rw [h.held_none hp (h.free hp).2]
    trivial

theorem cmdCwd_obeys (h : Served conf polite w d) :
    (watched polite).Obeys w (cmdCwd conf str d) fun w' d' => Steady conf polite w' d' := by
  refine Contract.obeys_ite ?_ (Contract.obeys_ite ?_ ?_)
  · refine Served.reply ?_ (by simp [Status]) [] (by decide)
    exact h.cleared.same rfl rfl rfl
  · exact cdup_obeys (h.same rfl rfl rfl)
  · exact Contract.Obeys.bind (overrunIf_obeys (enter_obeys (h.same rfl rfl rfl)))

theorem cmdPwd_obeys (h : Served conf polite w d) : (watched polite).Obeys w (cmdPwd d) fun w' d' =>
      Steady conf polite w' d' :=
  Contract.Obeys.bind (overrunIf_obeys (h.reply (by simp [Status]) _ (by decide)))

/-! ### The login -/

/-- In `E_FTP_STE_READY` a reply keeps `Steady`, login or not. -/
theorem Steady.answer {status : ℕ} (h : Steady conf polite w d) (hready : d.state = .ready)
    (hs : Status status) (message : CStr) (hne : status ≠ 226) :
    (watched polite).Obeys w (sendReply status message d) fun w' d' => Steady conf polite w' d' := by
  have hstill : d.state.still := .inl hready
  exact (h.reply hs message hne hstill.ne.2.2.2.2 (.inl hstill)).mono fun _ _ h => h.2

theorem cmdUser_obeys (h : Steady conf polite w d) (hready : d.state = .ready)
    (huser : (popParam str maxParamSize true true).1 = conf.user → w.user = true) :
    (watched polite).Obeys w (cmdUser conf str d) fun w' d' => Steady conf polite w' d' := by
  refine Contract.Obeys.bind (overrunIf_obeys (Steady.answer ?_ ?_ (by simp [Status]) [] (by decide)))
  · refine ⟨⟨h.creds, fun hu => ?_, h.pass, h.change, h.held, h.uses, h.closed⟩, h.idle, h.files,
      h.listing, h.stream, h.begins, h.waits⟩
    rcases Bool.or_eq_true_iff.mp hu with hu | hu
    · exact h.user hu
    · exact huser (of_decide_eq_true hu)
  · exact hready

theorem cmdPass_obeys (h : Steady conf polite w d) (hready : d.state = .ready)
    (hpass : (popParam str maxParamSize true true).1 = conf.pass → d.uservalid = true → w.pass = true) :
    (watched polite).Obeys w (cmdPass conf str d) fun w' d' => Steady conf polite w' d' := by
  refine Contract.Obeys.bind (overrunIf_obeys ?_)
  split
  · next hright =>
    refine Steady.answer ?_ ?_ (by simp [Status]) [] (by decide)
    · exact ⟨⟨h.creds, h.user, fun _ => hpass hright.1 hright.2, h.change, h.held, h.uses, h.closed⟩,
        h.idle, h.files,
        fun hlist => ⟨(h.listing hlist).1, rfl⟩, h.stream, h.begins, h.waits⟩
    · exact hready
  · refine Steady.answer ?_ ?_ (by simp [Status]) [] (by decide)
    · exact h.same rfl rfl rfl
    · exact hready

/-! ### Transfers -/

/-- A transfer that does not begin. -/
theorem Served.ended (h : Served conf polite w d) :
    Steady conf polite w { d with state := .endTransfer } := by
  refine Inv.steady ?_ (.inr rfl) (fun hp => (h.free hp).2) h.waits
  exact h.toInv.same rfl

/-- A file that was opened, or not. -/
theorem openFile_obeys (path : CStr) (flags : OpenFlags) (h : Served conf polite w d) :
    (watched polite).Obeys w (openFile conf path flags d) fun w' r =>
      r.1.state = .ready ∧ r.1.substate = d.substate ∧ r.1.dSd = d.dSd ∧
        (r.2 = false → Served conf polite w' r.1) ∧
        (r.2 = true → Inv conf polite w' r.1 ∧ w'.moved = some ([], []) ∧ IsFile r.1.held) := by
  have hopen : ∀ (b : Bool) (r : Except Errno ℕ) (full : CStr),
      let w' := w.after (.sys (.open full flags)) r
      let x := opened r { d with guardRefused := b }
      x.1.state = .ready ∧ x.1.substate = d.substate ∧ x.1.dSd = d.dSd ∧
        (x.2 = false → Served conf polite w' x.1) ∧
        (x.2 = true → Inv conf polite w' x.1 ∧ w'.moved = some ([], []) ∧ IsFile x.1.held) := by
    intro b r full
    cases r with
    | error e => exact ⟨h.ready, rfl, rfl, fun _ => h.cleared.same rfl rfl rfl, by rintro ⟨⟩⟩
    | ok fd =>
      exact ⟨h.ready, rfl, rfl, by rintro ⟨⟩, fun _ =>
        ⟨⟨h.creds, h.user, h.pass, h.change, fun _ => ⟨rfl, trivial⟩, h.uses, h.closed⟩, rfl, ⟨fd, rfl⟩⟩⟩
  refine Contract.Obeys.bind (fullname_obeys ?_)
  cases hw : flags.writes with
  | false =>
    rw [if_neg Bool.false_ne_true]
    refine Contract.Obeys.bind ⟨⟨fun _ => h.allowed, ⟨?_, trivial⟩, fun hp => (h.free hp).1⟩,
      fun r _ => hopen false r _⟩
    intro q hq
    rw [SysCall.target, hw] at hq
    cases hq
  | true =>
    rw [if_pos rfl]
    refine Contract.Obeys.bind ⟨⟨fun _ => h.allowed, ⟨by rintro q ⟨⟩, h.change⟩, trivial⟩, fun drive _ => ?_⟩
    cases drive with
    | some n => exact ⟨h.ready, rfl, rfl, fun _ => h.same rfl rfl rfl, by rintro ⟨⟩⟩
    | none =>
      refine Contract.Obeys.bind ⟨⟨fun _ => h.allowed, ⟨?_, trivial⟩, fun hp => (h.free hp).1⟩, fun r _ => ?_⟩
      · intro q hq
        rw [SysCall.target, hw, if_pos rfl] at hq
        exact hq
      · have hnow := hopen false r (conf.root ++ path)
        refine ⟨⟨fun hpaths => absurd rfl hpaths, ⟨by rintro q ⟨⟩, ?_⟩, trivial⟩, fun _ _ => ?_⟩
        · cases r <;> rfl
        · have hend : (({ w with change := some (conf.root ++ path) } : Watch).after
              (.sys (.open (conf.root ++ path) flags)) r).after (.sys .changeEnd) () =
              w.after (.sys (.open (conf.root ++ path) flags)) r := by
            cases r with
            | error e => exact h.toInv.ended
            | ok fd =>
              exact congrArg (fun w : Watch =>
                { w with held := some (.file fd), moved := some ([], []) }) h.toInv.ended
          rw [← hend] at hnow
          exact hnow

theorem transfer_obeys {flags : OpenFlags} {next : Ste}
    (hnext : next = .continueFileTx ∨ next = .continueFileRx) (message : Data → CStr)
    (h : Served conf polite w d) (hconn : polite → d.dSd ≠ none) :
    (watched polite).Obeys w (transfer conf flags next message str d) fun w' d' =>
      Steady conf polite w' d' := by
  refine Contract.Obeys.bind ((getParamAndOpenChild_obeys h).mono ?_)
  rintro w₁ d₁ ⟨rfl, h₁, hd₁⟩
  have hstill : Ste.still .endTransfer := .inr rfl
  refine Contract.obeys_ite (Contract.Obeys.bind ((openFile_obeys _ _ h₁).mono ?_)) ?_
  · rintro w₂ ⟨d₂, ok⟩ ⟨-, hsub, hd₂, hfail, hok⟩
    cases ok with
    | false =>
      exact ((hfail rfl).ended.reply (by simp [Status]) _ (by decide) hstill.ne.2.2.2.2
        (.inl hstill)).mono fun _ _ h => h.2
    | true =>
      obtain ⟨hinv, hmoved, hfile⟩ := hok rfl
      have hmoves : next.moves = true ∧ next ≠ .continueListing ∧ next ≠ .disabled ∧ next ≠ .start := by
        rcases hnext with rfl | rfl <;> decide
      refine Contract.Obeys.mono (Steady.reply ?_ (by simp [Status]) [] (by decide) hmoves.2.2
        (.inr rfl)) fun _ _ h => h.2
      refine ⟨hinv.same rfl, fun hp hidle => ?_, fun _ => ⟨[], hmoved⟩, fun hlist => (hmoves.2.1 hlist).elim,
        fun _ => ⟨fun hlist => (hmoves.2.1 hlist).elim, fun _ => hfile⟩, fun hst =>
          (hst.elim hmoves.2.2.1 hmoves.2.2.2).elim, ?_⟩
      · rcases hidle with hidle | hidle
        · exact absurd (hmoves.1.symm.trans hidle) (by decide)
        · exact absurd (hd₁.symm.trans (hd₂.symm.trans hidle)) (hconn hp)
      · intro hlisten
        exact hd₂.trans (h₁.waits (hsub.symm.trans hlisten))
  · exact (h₁.ended.reply (by simp [Status]) [] (by decide) hstill.ne.2.2.2.2 (.inl hstill)).mono
      fun _ _ h => h.2

/-- A directory that was opened, or not. -/
theorem openDirForListing_obeys (path : CStr) (h : Served conf polite w d) :
    (watched polite).Obeys w (openDirForListing conf path d) fun w' r =>
      r.1.state = .ready ∧ r.1.substate = d.substate ∧ r.1.dSd = d.dSd ∧ r.1.passvalid = d.passvalid ∧
        (r.2 = false → Served conf polite w' r.1) ∧
          (r.2 = true → Inv conf polite w' r.1 ∧ w'.moved = none ∧ IsDir r.1.held) := by
  have hopen : ∀ {w : Watch}, Served conf polite w { d with held := none } →
    (watched polite).Obeys w (openDir conf path d) fun w' r =>
      r.1.state = .ready ∧ r.1.substate = d.substate ∧ r.1.dSd = d.dSd ∧ r.1.passvalid = d.passvalid ∧
        (r.2 = false → Served conf polite w' r.1) ∧
          (r.2 = true → Inv conf polite w' r.1 ∧ w'.moved = none ∧ IsDir r.1.held) := by
    intro w h
    refine Contract.Obeys.bind (fullname_obeys
      (Contract.Obeys.bind ⟨⟨fun _ => h.allowed, ⟨by rintro q ⟨⟩, trivial⟩,
      fun hp => (h.free hp).1⟩, fun r _ => ?_⟩))
    cases r with
    | error e => exact ⟨h.ready, rfl, rfl, rfl, fun _ => h, by rintro ⟨⟩⟩
    | ok k =>
      exact ⟨h.ready, rfl, rfl, rfl, by rintro ⟨⟩, fun _ =>
        ⟨⟨h.creds, h.user, h.pass, h.change, fun _ => ⟨rfl, trivial⟩, h.uses, h.closed⟩, rfl, ⟨k, rfl⟩⟩⟩
  unfold openDirForListing
  split
  · next hsome =>
    have himpolite : ¬ polite := by
      intro hp
      rw [(h.free hp).2] at hsome
      cases hsome
    refine ⟨fun hp => absurd hp himpolite, fun _ _ => hopen ?_⟩
    exact ⟨Inv.steady ⟨h.creds, h.user, h.pass, h.change, fun hp => absurd hp himpolite, h.uses,
      h.closed⟩ h.still (fun _ => rfl) h.waits,
      h.ready, h.login⟩
  · exact hopen h.cleared

theorem cmdList_obeys (nlist : Bool) (h : Served conf polite w d) (hconn : polite → d.dSd ≠ none) :
    (watched polite).Obeys w (cmdList conf nlist str d) fun w' d' => Steady conf polite w' d' := by
  refine Contract.Obeys.bind ((getParamAndOpenChild_obeys h).mono ?_)
  rintro w₁ d₁ ⟨rfl, h₁, hd₁⟩
  have hmarked : Served conf polite w₁ { d₁ with nlist := nlist } := h₁.same rfl rfl rfl
  refine Contract.Obeys.bind ((openDirForListing_obeys _ hmarked).mono ?_)
  rintro w₂ ⟨d₂, ok⟩ ⟨-, hsub, hd₂, hpass₂, hfail, hok⟩
  cases ok with
  | false => exact (hfail rfl).reply (by simp [Status]) [] (by decide)
  | true =>
    obtain ⟨hinv, hmoved, hdir⟩ := hok rfl
    refine Contract.Obeys.mono (Steady.reply ?_ (by simp [Status]) [] (by decide)
      ⟨by rintro ⟨⟩, by rintro ⟨⟩⟩ (.inr rfl)) fun _ _ h => h.2
    refine ⟨hinv.same rfl, fun hp hidle => ?_, ?_, fun _ => ⟨hmoved, hpass₂.trans h₁.login⟩, fun _ =>
      ⟨fun _ => hdir, ?_⟩, ?_,
      fun hlisten => ?_⟩
    · rcases hidle with ⟨⟨⟩⟩ | hidle
      exact absurd (hd₁.symm.trans (hd₂.symm.trans hidle)) (hconn hp)
    · rintro (⟨⟨⟩⟩ | ⟨⟨⟩⟩)
    · rintro (⟨⟨⟩⟩ | ⟨⟨⟩⟩)
    · rintro (⟨⟨⟩⟩ | ⟨⟨⟩⟩)
    · exact hd₂.trans (h₁.waits (hsub.symm.trans hlisten))

theorem cmdPasv_obeys (h : Served conf polite w d) : (watched polite).Obeys w (cmdPasv d) fun w' d' =>
      Steady conf polite w' d' := by
  have hd : Inv conf polite _ { d with dSd := none, substate := .disconnected } :=
    h.toInv.close .d rfl (by funext s; cases s <;> rfl)
  have hend : ∀ {w' : Watch} {d' : Data} {status : ℕ} (message : CStr), Status status → status ≠ 226 →
    Inv conf polite w' d' →
      d'.state = .ready → d'.dSd = none → d'.held = d.held →
      (watched polite).Obeys w' (sendReply status message d') fun w' d' => Steady conf polite w' d' := by
    intro w' d' status message hs hne hinv hready hnone hheld
    exact (hinv.steady (.inl hready) (fun hp => hheld.trans (h.free hp).2) fun _ => hnone).answer
      hready hs message hne
  refine obeys_close h.toInv .d ?_
  refine Contract.Obeys.bind (Contract.Obeys.mono (Q := fun w' (r : Data × Bool) =>
    Inv conf polite w' r.1 ∧ r.1.state = .ready ∧ r.1.dSd = none ∧
    r.1.held = d.held) ?_ ?_)
  · unfold passiveListener
    split
    · next hfree =>
      have hclosed := hd.closed .ld (Option.isNone_iff_eq_none.mp hfree)
      refine Contract.Obeys.bind ((createListeningSocket_obeys (.inr rfl) hd hclosed).mono ?_)
      rintro w' ⟨sd, ok⟩ ⟨hinv, -, -⟩
      exact ⟨hinv, h.ready, rfl, rfl⟩
    · exact ⟨hd, h.ready, rfl, rfl⟩
  · rintro w' ⟨d', ok⟩ ⟨hinv, hready, hnone, hheld⟩
    refine Contract.obeys_ite ?_ (hend [] (by simp [Status]) (by decide) hinv hready hnone hheld)
    exact hend _ (by simp [Status]) (by decide) (hinv.same rfl) hready hnone hheld

/-! ### One command -/

/-- Only USER, PASS, QUIT, FEAT and AUTH are served without the login. -/
theorem command_obeys {cmd : Option Cmd} (h : Steady conf polite w d) (hready : d.state = .ready)
    (hlogin : Cmd.open cmd = false → d.passvalid = true)
    (huser : cmd = some .user → (popParam str maxParamSize true true).1 = conf.user → w.user = true)
    (hpass : cmd = some .pass → (popParam str maxParamSize true true).1 = conf.pass →
      d.uservalid = true → w.pass = true) (hconn : ∀ x ∈ cmd, x.transfers = true → polite → d.dSd ≠ none) :
    (watched polite).Obeys w (command conf cmd str d) fun w' d' => Steady conf polite w' d' := by
  have served : Cmd.open cmd = false → Served conf polite w d := fun hx => ⟨h, hready, hlogin hx⟩
  rcases cmd with _ | cmd
  · exact (served rfl).reply (by simp [Status]) _ (by decide)
  cases cmd <;> simp only [command]
  case feat | auth | quit => exact h.answer hready (by simp [Status]) _ (by decide)
  case user => exact cmdUser_obeys h hready (huser rfl)
  case pass => exact cmdPass_obeys h hready (hpass rfl)
  case syst | type | noop => exact (served rfl).reply (by simp [Status]) _ (by decide)
  case cdup => exact cdup_obeys (served rfl)
  case cwd => exact cmdCwd_obeys (served rfl)
  case pwd | xpwd => exact cmdPwd_obeys (served rfl)
  case size | mdtm => exact cmdStat_obeys _ (served rfl)
  case pasv => exact cmdPasv_obeys (served rfl)
  case list | nlst => exact cmdList_obeys _ (served rfl) (hconn _ rfl rfl)
  case retr => exact transfer_obeys (.inl rfl) _ (served rfl) (hconn _ rfl rfl)
  case appe | stor => exact transfer_obeys (.inr rfl) _ (served rfl) (hconn _ rfl rfl)
  case dele => exact cmdDele_obeys (served rfl)
  case rmd =>
    exact pathop_obeys (fun p _ hQ => sys_obeys (c := .rmdir p) rfl (h.pass (hlogin rfl)) hQ) (served rfl)
  case mkd =>
    exact pathop_obeys (fun p _ hQ => sys_obeys (c := .mkdir p) rfl (h.pass (hlogin rfl)) hQ) (served rfl)
  case rnfr => exact cmdRnfr_obeys (served rfl)
  case rnto => exact cmdRnto_obeys (served rfl)

/-- The watch once the bytes of a command are there. -/
def Watch.heard (w : Watch) (bs : Bytes) : Watch :=
  { w with
    user := w.user || loginWord bs = (some .user, w.creds.1)
    pass := w.pass || w.user && loginWord bs = (some .pass, w.creds.2) }

theorem Steady.heard (h : Steady conf polite w d) (bs : Bytes) : Steady conf polite (w.heard bs) d :=
  ⟨⟨h.creds, fun hu => by simp only [Watch.heard, h.user hu, Bool.true_or],
    fun hp => by simp only [Watch.heard, h.pass hp, Bool.true_or], h.change, h.held, h.uses, h.closed⟩,
    h.idle, h.files, h.listing, h.stream, h.begins, h.waits⟩

theorem serveCommand_obeys {bs : Bytes} (h : Steady conf polite w d) (hready : d.state = .ready)
    (hconn : polite → (∃ cmd ∈ (loginWord bs).1, cmd.transfers = true) → w.isOpen .d = true) :
    (watched polite).Obeys (w.heard bs) (serveCommand conf bs d) fun w' d' => Steady conf polite w' d' := by
  have hheard : Steady conf polite (w.heard bs) d := h.heard bs
  have hword : loginWord bs = ((popCommand (commandText bs)).1,
    (popParam (popCommand (commandText bs)).2 maxParamSize true true).1) := rfl
  unfold serveCommand
  rcases hpop : popCommand (commandText bs) with ⟨cmd, str⟩
  rw [hpop] at hword
  dsimp only at hword ⊢
  split
  · exact hheard.answer hready (by simp [Status]) [] (by decide)
  · next hgate =>
    have hlogin : Cmd.open cmd = false → d.passvalid = true := by
      intro hshut
      simpa [hshut] using hgate
    refine Contract.Obeys.bind ((command_obeys hheard hready hlogin ?_ ?_ ?_).mono fun w' d' h' => ?_)
    · rintro rfl hname
      simp only [Watch.heard, hword, hname, h.creds, decide_true, Bool.or_true]
    · rintro rfl hname hvalid
      simp only [Watch.heard, hword, hname, h.creds, h.user hvalid, decide_true, Bool.and_true, Bool.or_true]
    · intro x hx hmoves hp hnone
      have hopen := hconn hp ⟨x, by rw [hword]; exact hx, hmoves⟩
      rw [h.closed .d hnone] at hopen
      cases hopen
    · exact Contract.obeys_ite (h'.same rfl rfl rfl) h'

end FdcSds.Ftp
