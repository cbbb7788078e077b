import FdcSds.Ftp.Passes

/-! What the FTP server does over all its rounds.

    Each result is about every call of a run of `ftp_task` up to its first access outside a buffer: whatever
    the card, the network and the clients answer, and however often the link comes and goes. `seen` is what
    an observer knows from the calls before.

        taskOps = pre ++ call :: post ++ (overrun, …)        seen pre ──▶ what call may be -/

namespace FdcSds.Ftp
open Schemes Prog

/-- A call of the server and its answer. -/
abbrev FtpOp : Type := Op Call Call.Answer

/-- What an observer of these calls knows. -/
def seen (ops : List FtpOp) : Watch := (watched False).after .start ops

variable {polite : Prop} {σ : Type} {world : σ → (c : Call) → σ × c.Answer} {s : σ} {clock : Clock}
    {ls : List Link} {d : Data}
variable {pre post ops : List FtpOp} {op : FtpOp}

theorem after_eq_seen (w : Watch) (ops : List FtpOp) :
    (watched polite).after w ops = (watched False).after w ops := by
  induction ops generalizing w with
  | nil => rfl
  | cons op ops ih => exact ih _

theorem seen_append (ops ops' : List FtpOp) : seen (ops ++ ops') = (watched False).after (seen ops) ops' :=
  Contract.after_append ..

theorem start_shut : Watch.start.Shut polite := ⟨rfl, fun _ => rfl, fun _ => rfl⟩

/-- Clients send a transfer command only with an open data connection. -/
def Polite (ops : List FtpOp) : Prop :=
  ∀ pre post sd n bs, ops = pre ++ ⟨.recv .c sd n, .data bs⟩ :: post →
    (∃ cmd ∈ (loginWord bs).1, cmd.transfers = true) → (seen pre).isOpen .d = true

/-- What the server relies on is that clients are polite. -/
theorem given_iff_polite : (watched polite).Given .start ops ↔ (polite → Polite ops) := by
  rw [Contract.given_iff]
  constructor
  · rintro h hp pre post sd n bs hsplit
    have hgives := h pre _ post hsplit
    rw [after_eq_seen] at hgives
    exact hgives hp
  · rintro h pre ⟨c, r⟩ post hsplit
    change Watch.Gives polite _ c r
    rw [after_eq_seen]
    cases c with
    | recv k sd n =>
      cases k with
      | c =>
        cases r with
        | data bs => exact fun hp => h hp pre post sd n bs hsplit
        | again | failed => trivial
      | lc | ld | d => trivial
    | sys | fclose | closedir | readdir | fread | fwrite | time | config | socket | listen | accept | send
    | closesocket | overrun => trivial

instance [Decidable polite] (w : Watch) (c : Call) (r : c.Answer) : Decidable (w.Gives polite c r) := by
  unfold Watch.Gives
  split <;> infer_instance

instance decidableGiven [Decidable polite] : ∀ (w : Watch) (ops : List FtpOp),
      Decidable ((watched polite).Given w ops)
  | _, [] => .isTrue trivial
  | w, ⟨c, r⟩ :: ops =>
    have : Decidable ((watched polite).Given (w.after c r) ops) := decidableGiven _ ops
    inferInstanceAs (Decidable (w.Gives polite c r ∧ (watched polite).Given (w.after c r) ops))

/-- The calls of the task up to its first access outside a buffer. What the code does from there on is
    undefined. -/
def taskOps (world : σ → (c : Call) → σ × c.Answer) (clock : Clock) (ls : List Link) (d : Data)
    (s : σ) : List FtpOp :=
  ((task clock ls d).trace world s).takeWhile fun op => !op.1.outside

/-- No access is outside a buffer. -/
def InBounds (ops : List FtpOp) : Prop := ∀ op ∈ ops, op.1.outside = false

instance (ops : List FtpOp) : Decidable (InBounds ops) := by unfold InBounds; infer_instance

/-- A run with all its accesses in bounds is looked at to its end. -/
theorem taskOps_eq (h : InBounds ((task clock ls d).trace world s)) :
    taskOps world clock ls d s = (task clock ls d).trace world s :=
  List.takeWhile_eq_self_iff.mpr fun op hop => by rw [h op hop]; rfl

/-- Each call of the task is one that `watched` allows after the calls before it. -/
theorem task_allows (polite : Prop) (hpolite : polite → Polite (taskOps world clock ls d s)) :
    ∀ pre op post, taskOps world clock ls d s = pre ++ op :: post → (seen pre).May polite op.1 := by
  intro pre op post hsplit
  have hallow := (task_obeys ls start_shut).allows_front (List.takeWhile_prefix _)
    (given_iff_polite.mpr hpolite)
  change (watched polite).Allows _ (taskOps world clock ls d s) at hallow
  rw [hsplit] at hallow
  have hmay := hallow.at
  rw [after_eq_seen] at hmay
  exact hmay

/-- At the end of a run nothing is open. -/
theorem task_shut (polite : Prop) (hpolite : polite → Polite (taskOps world clock ls d s))
    (h : InBounds ((task clock ls d).trace world s)) : (seen (taskOps world clock ls d s)).Shut polite := by
  rw [taskOps_eq h] at hpolite ⊢
  obtain ⟨-, hend⟩ := (task_obeys ls start_shut).allows (given_iff_polite.mpr hpolite)
  rwa [after_eq_seen] at hend

/-! ### A visit -/

/-- A client that says these lines one after the other, and a file with these bytes. -/
def visit : List CStr × Bytes → (c : Call) → (List CStr × Bytes) × c.Answer
  | (talk, file), .recv .c _ _ =>
    ((talk.tail, file), (talk.head?.map fun l => .data (l ++ ['\r', '\n']).bytes).getD .failed)
  | (talk, file), .fread _ _ => ((talk, []), (file, file.isEmpty))
  | s, .recv _ _ _ => (s, .again)
  | s, .socket _ => (s, some 5)
  | s, .listen _ _ => (s, true)
  | s, .accept .c _ => (s, .conn 6 0)
  | s, .accept _ _ => (s, .conn 7 0)
  | s, .send _ _ _ => (s, true)
  | s, .config => (s, (['u'], ['p']))
  | s, .time => (s, 0)
  | s, .fclose _ => (s, true)
  | s, .fwrite _ data => (s, data.length)
  | s, .readdir _ => (s, none)
  | s, .sys (.open _ _) => (s, .ok 3)
  | s, .sys (.opendir _) => (s, .ok 4)
  | s, .sys (.stat _) => (s, .ok ⟨true, 0, 0, 0⟩)
  | s, .sys (.changeBegin _) => (s, none)
  | s, .sys (.rename _ _) | s, .sys (.unlink _) | s, .sys (.mkdir _) | s, .sys (.rmdir _) => (s, .ok ())
  | s, .sys (.read _ _) => (s, .ok [])
  | s, .sys (.write _ _) | s, .sys (.lseek _ _ _) => (s, .ok 0)
  | s, .sys (.readdir _) => (s, none)
  | s, .sys (.close _) | s, .sys (.rewinddir _) | s, .sys (.closedir _) | s, .sys .changeEnd => (s, ())
  | s, .closedir _ | s, .closesocket _ _ | s, .overrun => (s, ())

/-- Before `ftp_init`. -/
def Data.blank : Data where
  state := .disabled
  substate := .disconnected
  ctimeout := 0
  dtimeout := 0
  held := none
  eOpen := .nothing
  lcSd := none
  ldSd := none
  cSd := none
  dSd := none
  ipAddr := 0
  uservalid := false
  passvalid := false
  closechild := false
  enabled := false
  path := []
  scratch := []
  dBuffer := []
  nlist := false
  guardRefused := false

/-- One link, on which a client fetches a file. -/
def visitOps : List FtpOp :=
  taskOps visit ⟨fun _ => [], fun _ => [], fun _ => []⟩ [⟨some [], List.replicate 9 10⟩] .blank
    (["USER u".toList, "PASS p".toList, "PASV".toList, "RETR x".toList], [1, 2, 3])

theorem visit_inBounds : InBounds
      ((task ⟨fun _ => [], fun _ => [], fun _ => []⟩ [⟨some [], List.replicate 9 10⟩] .blank).trace visit
    (["USER u".toList, "PASS p".toList, "PASV".toList, "RETR x".toList], [1, 2, 3])) := by decide +kernel

/-- The file is opened by the seventeenth call. -/
theorem visitOps_open : visitOps = visitOps.take 16 ++
    ⟨.sys (.open "/sd/x".toList ⟨.rdonly, false, false, false, false⟩), .ok 3⟩ :: visitOps.drop 17 := rfl

/-! ### The login -/

/-- A control connection is accepted. -/
def Accepts (op : FtpOp) : Prop := ∃ l sd ip, op = ⟨.accept .c l, .conn sd ip⟩

/-- A client says this command with this word. -/
def Says (cmd : Cmd) (name : CStr) (op : FtpOp) : Prop :=
  ∃ sd n bs, op = ⟨.recv .c sd n, .data bs⟩ ∧ loginWord bs = (some cmd, name)

/-- Since the last control connection was accepted, its client has sent USER and then PASS, with the
    credentials in force. -/
def LoggedIn (ops : List FtpOp) : Prop :=
  ∃ front user mid pass rest, ops = front ++ user :: (mid ++ pass :: rest) ∧
    Says .user (seen front).creds.1 user ∧
    Says .pass (seen (front ++ user :: mid)).creds.2 pass ∧ ∀ op ∈ mid ++ pass :: rest, ¬ Accepts op

/-- Only a connection and a command change who is logged in. -/
theorem Watch.after_login (w : Watch) (op : FtpOp) :
    Accepts op ∧ (w.after op.1 op.2).user = false ∧ (w.after op.1 op.2).pass = false ∨
      ¬ Accepts op ∧ (((w.after op.1 op.2).user, (w.after op.1 op.2).pass) = (w.user, w.pass) ∨
        ∃ sd n bs, op = ⟨.recv .c sd n, .data bs⟩) := by
  obtain ⟨c, r⟩ := op
  cases c with
  | accept k l =>
    cases k with
    | c =>
      cases r with
      | conn sd ip => exact .inl ⟨⟨l, sd, ip, rfl⟩, rfl, rfl⟩
      | again | failed => exact .inr ⟨by rintro ⟨l, sd, ip, ⟨⟩⟩, .inl rfl⟩
    | lc | ld | d => exact .inr ⟨by rintro ⟨l, sd, ip, ⟨⟩⟩, .inl (by cases r <;> rfl)⟩
  | recv k sd n =>
    refine .inr ⟨by rintro ⟨l, sd, ip, ⟨⟩⟩, ?_⟩
    cases k with
    | c =>
      cases r with
      | data bs => exact .inr ⟨sd, n, bs, rfl⟩
      | again | failed => exact .inl rfl
    | lc | ld | d => exact .inl (by cases r <;> rfl)
  | sys c => exact .inr ⟨by rintro ⟨l, sd, ip, ⟨⟩⟩, .inl (by cases c <;> first | rfl | cases r <;> rfl)⟩
  | send k sd data =>
    refine .inr ⟨by rintro ⟨l, sd, ip, ⟨⟩⟩, .inl ?_⟩
    cases k <;> cases r <;> first | rfl | skip
    simp only [Watch.after]
    split <;> rfl
  | socket k =>
    refine .inr ⟨by rintro ⟨l, sd, ip, ⟨⟩⟩, .inl ?_⟩
    cases r with
    | none => rfl
    | some n =>
      simp only [Watch.after]
      split <;> rfl
  | listen k sd => exact .inr ⟨by rintro ⟨l, sd, ip, ⟨⟩⟩, .inl (by cases r <;> rfl)⟩
  | closesocket k sd => exact .inr ⟨by rintro ⟨l, sd, ip, ⟨⟩⟩, .inl (by cases sd <;> rfl)⟩
  | fclose | closedir | readdir | fread | fwrite | time | config | overrun =>
    exact .inr ⟨by rintro ⟨l, sd, ip, ⟨⟩⟩, .inl rfl⟩

/-- A login comes from a USER and a later PASS. -/
theorem loggedIn_of_pass (h : (seen ops).pass = true) : LoggedIn ops := by
  have hpass := Contract.since (K := watched False) (g := .start) (fun w => w.pass = true)
    (fun w op => w.user = true ∧ Says .pass w.creds.2 op) Accepts (by decide) ops ?_ h
  · obtain ⟨pre, pass, rest, rfl, ⟨huser, hsays⟩, hkept⟩ := hpass
    have huser := Contract.since (K := watched False) (g := .start) (fun w => w.user = true)
      (fun w op => Says .user w.creds.1 op)
      Accepts (by decide) pre ?_ huser
    · obtain ⟨front, user, mid, rfl, hname, hkept'⟩ := huser
      refine ⟨front, user, mid, pass, rest, by simp, hname, hsays, fun op hop => ?_⟩
      rcases List.mem_append.mp hop with hop | hop
      · exact hkept' op (List.mem_cons_of_mem _ hop)
      · exact hkept op hop
    · intro front op _ _ hu
      rcases Watch.after_login _ op with ⟨-, hout, -⟩ | ⟨hno, hsame | ⟨sd, n, bs, rfl⟩⟩
      · exact absurd (hout.symm.trans hu) (by decide)
      · exact ⟨.inl ((congrArg Prod.fst hsame).symm.trans hu), hno⟩
      · refine ⟨?_, hno⟩
        rcases Bool.or_eq_true_iff.mp hu with hu | hu
        · exact .inl hu
        · exact .inr ⟨sd, n, bs, rfl, of_decide_eq_true hu⟩
  · intro front op _ _ hp
    rcases Watch.after_login _ op with ⟨-, -, hout⟩ | ⟨hno, hsame | ⟨sd, n, bs, rfl⟩⟩
    · exact absurd (hout.symm.trans hp) (by decide)
    · exact ⟨.inl ((congrArg Prod.snd hsame).symm.trans hp), hno⟩
    · refine ⟨?_, hno⟩
      rcases Bool.or_eq_true_iff.mp hp with hp | hp
      · exact .inl hp
      · obtain ⟨hu, hw⟩ := Bool.and_eq_true_iff.mp hp
        exact .inr ⟨hu, sd, n, bs, rfl, of_decide_eq_true hw⟩

/-- The calls on the card. -/
def cardOps : List FtpOp → List (Op SysCall SysCall.Answer)
  | [] => []
  | ⟨.sys c, r⟩ :: ops => ⟨c, r⟩ :: cardOps ops
  | _ :: ops => cardOps ops

/-- Calls on the card move the watch's change as the guard's contract says, and no other call does. -/
theorem Watch.after_change (w : Watch) (op : FtpOp) :
    (w.after op.1 op.2).change = guarded.after w.change (cardOps [op]) := by
  obtain ⟨c, r⟩ := op
  cases c with
  | sys c => cases c <;> first | rfl | cases r <;> rfl
  | send k sd data =>
    cases k <;> cases r <;> first | rfl | skip
    simp only [Watch.after]
    split <;> rfl
  | socket k =>
    cases r with
    | none => rfl
    | some n =>
      simp only [Watch.after]
      split <;> rfl
  | accept k l => cases k <;> cases r <;> rfl
  | recv k sd n => cases k <;> cases r <;> rfl
  | listen k sd => cases r <;> rfl
  | closesocket k sd => cases sd <;> rfl
  | fclose | closedir | readdir | fread | fwrite | time | config | overrun => rfl

theorem cardOps_append (ops ops' : List FtpOp) : cardOps (ops ++ ops') = cardOps ops ++ cardOps ops' := by
  induction ops with
  | nil => rfl
  | cons op ops ih =>
    obtain ⟨c, r⟩ := op
    cases c with
    | sys c => exact congrArg (List.cons _) ih
    | fclose | closedir | readdir | fread | fwrite | time | config | socket | listen | accept | recv | send
    | closesocket | overrun => exact ih

theorem seen_change (ops : List FtpOp) : (seen ops).change = guarded.after none (cardOps ops) := by
  induction ops using List.reverseRecOn with
  | nil => rfl
  | append_singleton ops op ih =>
    rw [seen_append, cardOps_append, Contract.after_append, ← ih]
    exact Watch.after_change _ op

theorem cardOps_allowed (hmay : ∀ pre op post, ops = pre ++ op :: post → (seen pre).May polite op.1) :
    guarded.Allows none (cardOps ops) := by
  induction ops using List.reverseRecOn with
  | nil => trivial
  | append_singleton ops op ih =>
    have hrest := ih fun pre x post hsplit => hmay pre x (post ++ [op]) (by rw [hsplit]; simp)
    have hnow := hmay ops op [] rfl
    rw [cardOps_append, Contract.allows_append, ← seen_change]
    refine ⟨hrest, ?_⟩
    obtain ⟨c, r⟩ := op
    cases c with
    | sys c => exact ⟨hnow.2.1, trivial⟩
    | fclose | closedir | readdir | fread | fwrite | time | config | socket | listen | accept | recv | send
    | closesocket | overrun => trivial

/-- What a call may do with the one stream variable, when `held` is what is open. -/
def StreamRule (held : Option Handle) : Call → Prop
  | .sys (.open _ _) | .sys (.opendir _) => held = none
  | .fread h _ | .fwrite h _ | .fclose h => IsFile h ∧ held = h
  | .readdir h | .closedir h => IsDir h ∧ held = h
  | _ => True

theorem visitOps_polite : Polite visitOps :=
  given_iff_polite.mp (by decide +kernel : (watched True).Given .start visitOps) trivial

/-- The number of the socket is kept though it is closed: goodbye was said on the control connection, or
    the socket did not come to listen. -/
def Spoils (k : Sock) (op : FtpOp) : Prop :=
  (k = .c ∧ ∃ sd data, op = ⟨.send .c sd data, true⟩ ∧ Tells 221 data) ∨
    (k.listener = k ∧ ∃ sd, op = ⟨.listen k sd, false⟩)

/-- New sockets do not have the number 0, as lwIP's have not, which come behind those of the files. -/
def Numbered : FtpOp → Prop
  | ⟨.socket _, r⟩ => r ≠ some 0
  | _ => True

instance : DecidablePred Numbered := fun op => by
  unfold Numbered
  split <;> infer_instance

/-- A new socket for this use. -/
def Makes (k : Sock) (op : FtpOp) : Prop :=
  (∃ sd, 0 < sd ∧ op = ⟨.socket k, some sd⟩) ∨ ∃ l sd ip, op = ⟨.accept k l, .conn sd ip⟩

/-- What a call may do with the sockets. -/
def Watch.SockRule (w : Watch) : Call → Prop
  | .socket k => k.listener = k ∧ w.isOpen k = false
  | .accept k l => w.isOpen k = false ∧ w.Uses k.listener l
  | .listen k sd => k.listener = k ∧ w.Uses k (some sd)
  | .recv k sd _ => w.Uses k (some sd)
  | .send k sd _ | .closesocket k sd => w.Uses k sd
  | _ => True

theorem Watch.May.sockRule {c : Call} {w : Watch} (h : w.May polite c) : w.SockRule c := by
  cases c with
  | socket | listen | accept | closesocket => exact h
  | recv => exact h.1
  | send k => cases k <;> exact h.1
  | sys | fclose | closedir | readdir | fread | fwrite | time | config | overrun => trivial

theorem Watch.made_spent {w : Watch} {j k : Sock} {sd : ℕ} (h : (w.made j sd).spent k = true) :
    k ≠ j ∧ w.spent k = true := by
  by_cases hkj : k = j
  · subst hkj
    exact absurd ((Function.update_self ..).symm.trans h) (by decide)
  · exact ⟨hkj, (Function.update_of_ne hkj ..).symm.trans h⟩

/-- A number is spoilt by one call, and good again with the next socket. -/
theorem Watch.after_spent {w : Watch} {k : Sock} {op : FtpOp} (hrule : w.SockRule op.1)
    (hnumbered : Numbered op) (h : (w.after op.1 op.2).spent k = true) :
    (w.spent k = true ∨ Spoils k op) ∧ ¬ Makes k op := by
  have hnone : ∀ {c : Call} {r : c.Answer}, (∀ j, c ≠ .socket j) → (∀ j l, c ≠ .accept j l) →
    ¬ Makes k ⟨c, r⟩ := by
    rintro c r hsock hacc (⟨sd, -, hop⟩ | ⟨l, sd, ip, hop⟩)
    · exact hsock k (congrArg Sigma.fst hop)
    · exact hacc k l (congrArg Sigma.fst hop)
  obtain ⟨c, r⟩ := op
  cases c with
  | socket j =>
    cases r with
    | none => exact ⟨.inl h, by rintro (⟨sd, -, ⟨⟩⟩ | ⟨l, sd, ip, ⟨⟩⟩)⟩
    | some sd =>
      simp only [Watch.after] at h
      split at h
      · obtain ⟨hkj, hkept⟩ := made_spent h
        refine ⟨.inl hkept, ?_⟩
        rintro (⟨n, -, hop⟩ | ⟨l, n, ip, hop⟩)
        · cases hop
          exact hkj rfl
        · cases hop
      · next hzero => exact absurd (congrArg some (Nat.eq_zero_of_not_pos hzero)) hnumbered
  | accept j l =>
    cases r with
    | conn sd ip =>
      have hmade : k ≠ j ∧ w.spent k = true := by
        cases j with
        | c =>
          obtain ⟨hkj, hkept⟩ := made_spent h
          exact ⟨hkj, hkept⟩
        | lc | ld | d => exact made_spent h
      refine ⟨.inl hmade.2, ?_⟩
      rintro (⟨n, -, hop⟩ | ⟨l', n, ip', hop⟩)
      · cases hop
      · cases hop
        exact hmade.1 rfl
    | again | failed =>
      refine ⟨.inl (by cases j <;> exact h), ?_⟩
      rintro (⟨n, -, ⟨⟩⟩ | ⟨l', n, ip', ⟨⟩⟩)
  | listen j sd =>
    refine ⟨?_, hnone (by rintro _ ⟨⟩) (by rintro _ _ ⟨⟩)⟩
    cases r with
    | true => exact .inl h
    | false =>
      by_cases hkj : k = j
      · subst hkj
        exact .inr (.inr ⟨hrule.1, sd, rfl⟩)
      · exact .inl ((Function.update_of_ne hkj ..).symm.trans h)
  | send j sd data =>
    refine ⟨?_, hnone (by rintro _ ⟨⟩) (by rintro _ _ ⟨⟩)⟩
    cases j <;> cases r <;> first | exact .inl h | skip
    simp only [Watch.after] at h
    split at h
    · next htells =>
      by_cases hkc : k = .c
      · exact .inr (.inl ⟨hkc, sd, data, rfl, htells⟩)
      · exact .inl ((Function.update_of_ne hkc ..).symm.trans h)
    · exact .inl h
  | sys c =>
    refine ⟨.inl ?_, hnone (by rintro _ ⟨⟩) (by rintro _ _ ⟨⟩)⟩
    cases c <;> first | exact h | cases r <;> exact h
  | recv j sd n =>
    refine ⟨.inl ?_, hnone (by rintro _ ⟨⟩) (by rintro _ _ ⟨⟩)⟩
    cases j <;> cases r <;> exact h
  | closesocket j sd =>
    refine ⟨.inl ?_, hnone (by rintro _ ⟨⟩) (by rintro _ _ ⟨⟩)⟩
    cases sd <;> exact h
  | fclose | closedir | readdir | fread | fwrite | time | config | overrun =>
    exact ⟨.inl h, hnone (by rintro _ ⟨⟩) (by rintro _ _ ⟨⟩)⟩

theorem visitOps_numbered : ∀ op ∈ visitOps, Numbered op := by decide +kernel

/-- A new stream. -/
def Opens (op : FtpOp) : Prop :=
  (∃ p flags fd, op = ⟨.sys (.open p flags), .ok fd⟩) ∨ ∃ p k, op = ⟨.sys (.opendir p), .ok k⟩

/-- What a call brings in from the source of a transfer: from the file, or from the client. -/
def cameIn : FtpOp → Bytes
  | ⟨.fread _ _, r⟩ => r.1
  | ⟨.recv .d _ _, .data bs⟩ => bs
  | _ => []

/-- What a call puts out to its destination: what `fwrite` took, or what was sent. -/
def wentOut : FtpOp → Bytes
  | ⟨.fwrite _ data, n⟩ => data.take n
  | ⟨.send .d _ data, true⟩ => data
  | _ => []

theorem Watch.after_moved (w : Watch) {op : FtpOp} (h : ¬ Opens op) :
    (w.after op.1 op.2).moved = w.moved.map fun m => (m.1 ++ cameIn op, m.2 ++ wentOut op) := by
  have hsame : w.moved = w.moved.map fun m => (m.1 ++ [], m.2 ++ []) := by cases w.moved <;> simp
  obtain ⟨c, r⟩ := op
  cases c with
  | sys c =>
    cases c with
    | «open» p flags =>
      cases r with
      | ok fd => exact absurd (.inl ⟨p, flags, fd, rfl⟩) h
      | error e => exact hsame
    | opendir p =>
      cases r with
      | ok k => exact absurd (.inr ⟨p, k, rfl⟩) h
      | error e => exact hsame
    | changeBegin p => cases r <;> exact hsame
    | read | write | lseek | close | stat | mkdir | rmdir | unlink | rename | readdir | rewinddir | closedir
    | changeEnd => exact hsame
  | fread hd n => exact Option.map_congr fun m _ => by simp [cameIn, wentOut]
  | fwrite hd data => exact Option.map_congr fun m _ => by simp [cameIn, wentOut]
  | recv k sd n =>
    cases k with
    | d =>
      cases r with
      | data bs => exact Option.map_congr fun m _ => by simp [cameIn, wentOut]
      | again | failed => exact hsame
    | lc | ld | c => cases r <;> exact hsame
  | send k sd data =>
    cases k with
    | d =>
      cases r with
      | true => exact Option.map_congr fun m _ => by simp [cameIn, wentOut]
      | false => exact hsame
    | c =>
      cases r with
      | true =>
        simp only [Watch.after]
        split <;> exact hsame
      | false => exact hsame
    | lc | ld => cases r <;> exact hsame
  | socket k =>
    cases r with
    | none => exact hsame
    | some n =>
      simp only [Watch.after]
      split <;> exact hsame
  | accept k l => cases k <;> cases r <;> exact hsame
  | listen k sd => cases r <;> exact hsame
  | closesocket k sd => cases sd <;> exact hsame
  | fclose | closedir | readdir | time | config | overrun => exact hsame

theorem seen_moved {a b : List FtpOp} {x y : Bytes} (ha : (seen a).moved = some (x, y))
    (hb : ∀ op ∈ b, ¬ Opens op) :
    (seen (a ++ b)).moved = some (x ++ b.flatMap cameIn, y ++ b.flatMap wentOut) := by
  induction b generalizing a x y with
  | nil => simpa using ha
  | cons op b ih =>
    have hop : (seen (a ++ [op])).moved = some (x ++ cameIn op, y ++ wentOut op) := by
      rw [seen_append]
      exact (Watch.after_moved _ (hb op List.mem_cons_self)).trans (by rw [ha]; rfl)
    have hrest := ih hop fun op' hop' => hb op' (List.mem_cons_of_mem _ hop')
    simpa [List.append_assoc] using hrest

/-- What may go in or out keeps what is out a prefix of what came in. -/
theorem Watch.May.inOrder {w : Watch} {op : FtpOp} (h : w.May polite op.1) {x y : Bytes}
    (hm : w.moved = some (x, y)) (hxy : y <+: x) :
    y ++ wentOut op <+: x ++ cameIn op := by
  have hsame : y ++ [] <+: x ++ [] := by simpa using hxy
  obtain ⟨c, r⟩ := op
  cases c with
  | fread hd n =>
    obtain ⟨-, z, hz⟩ := h
    cases hm.symm.trans hz
    simp [cameIn, wentOut]
  | fwrite hd data =>
    obtain ⟨-, z, hz⟩ := h
    cases hm.symm.trans hz
    simpa [cameIn, wentOut] using List.take_prefix r data
  | recv k sd n =>
    cases k with
    | d =>
      obtain ⟨z, hz⟩ := h.2 rfl
      cases hm.symm.trans hz
      cases r <;> simp [cameIn, wentOut]
    | lc | ld | c => exact hsame
  | send k sd data =>
    cases k with
    | d =>
      cases r with
      | true =>
        have hall : x = y ++ data := h.2 (x, y) hm
        simp [cameIn, wentOut, hall]
      | false => exact hsame
    | lc | ld | c => exact hsame
  | sys | fclose | closedir | readdir | time | config | socket | listen | accept | closesocket | overrun =>
    exact hsame

/-- The calls from the opening of the file to the reply at its end. -/
theorem visitOps_sent : visitOps.drop 17 =
    (visitOps.drop 17).take 4 ++ ⟨.send .c (some 6) (CStr.bytes "226 \r\n".toList), true⟩ ::
      visitOps.drop 22 := rfl

end FdcSds.Ftp
