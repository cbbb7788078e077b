import FdcSds.Ftp.Watch

/-! The FTP server makes only calls that `watched` allows.

    `Inv` ties the server's variables to the watch at every point between two calls; the change of the card
    is over wherever it is stated. Each part of the server has one lemma: what it leaves in the variables,
    and that the invariant holds again.

        Inv w d ──part──▶ Inv w' d',  d' = …                                   -/

namespace FdcSds.Ftp
open Schemes Prog

/-- The socket variables. -/
def Data.sd (d : Data) : Sock → Option ℕ
  | .lc => d.lcSd
  | .ld => d.ldSd
  | .c => d.cSd
  | .d => d.dSd

/-- `e_open` is of the kind of the stream. -/
def Kind : Option Handle → EOpen → Prop
  | none, .nothing | some (.file _), .file | some (.dir _), .dir => True
  | _, _ => False

/-- What the invariant looks at. -/
def Data.view (d : Data) : Bool × Bool × Option Handle × EOpen × Option ℕ × Option ℕ × Option ℕ × Option ℕ :=
  (d.uservalid, d.passvalid, d.held, d.eOpen, d.lcSd, d.ldSd, d.cSd, d.dSd)

structure Inv (conf : Conf) (polite : Prop) (w : Watch) (d : Data) : Prop where
  creds : w.creds = (conf.user, conf.pass)
  user : d.uservalid = true → w.user = true
  pass : d.passvalid = true → w.pass = true
  change : w.change = none
  held : polite → w.held = d.held ∧ Kind d.held d.eOpen
  uses : ∀ s, w.Uses s (d.sd s)
  closed : ∀ s, d.sd s = none → w.isOpen s = false

variable {conf : Conf} {polite : Prop} {w w' : Watch} {d d' : Data}

theorem Inv.same (h : Inv conf polite w d) (hview : d'.view = d.view) : Inv conf polite w d' := by
  simp only [Data.view, Prod.mk.injEq] at hview
  obtain ⟨huser, hpass, hheld, hopen, hlc, hld, hc, hd⟩ := hview
  have hsd : d'.sd = d.sd := by
    funext s
    cases s <;> assumption
  refine ⟨h.creds, ?_, ?_, h.change, ?_, ?_, ?_⟩
  · rw [huser]; exact h.user
  · rw [hpass]; exact h.pass
  · rw [hheld, hopen]; exact h.held
  · rw [hsd]; exact h.uses
  · rw [hsd]; exact h.closed

/-- Without a stream no kind is open. -/
theorem Inv.held_none (h : Inv conf polite w d) (hp : polite) (hnone : d.held = none) :
    d.eOpen = .nothing := by
  have hkind := (h.held hp).2
  rw [hnone] at hkind
  cases hopen : d.eOpen with
  | nothing => rfl
  | file | dir =>
    rw [hopen] at hkind
    exact hkind.elim

/-! ### Sockets -/

/-- One socket variable has a new value, and the watch knows. -/
theorem Inv.socket (h : Inv conf polite w d) (s : Sock) (sd : Option ℕ)
    (hd : (d'.uservalid, d'.passvalid, d'.held, d'.eOpen) = (d.uservalid, d.passvalid, d.held, d.eOpen))
    (hsd : d'.sd = Function.update d.sd s sd)
    (hw : (w'.creds, w'.user, w'.pass, w'.change, w'.held) = (w.creds, w.user, w.pass, w.change,
      w.held)) (hothers : ∀ t ≠ s, (w'.sock t, w'.isOpen t, w'.spent t) =
        (w.sock t, w.isOpen t, w.spent t)) (huses : w'.Uses s sd)
    (hclosed : sd = none → w'.isOpen s = false) : Inv conf polite w' d' := by
  simp only [Prod.mk.injEq] at hd hw hothers
  obtain ⟨huser, hpass, hheld, hopen⟩ := hd
  obtain ⟨hcreds', huser', hpass', hchange', hheld'⟩ := hw
  refine ⟨hcreds'.trans h.creds, ?_, ?_, hchange'.trans h.change, ?_, fun t => ?_, fun t ht => ?_⟩
  · rw [huser, huser']; exact h.user
  · rw [hpass, hpass']; exact h.pass
  · rw [hheld, hopen, hheld']; exact h.held
  · rw [hsd]
    by_cases hts : t = s
    · subst hts
      rw [Function.update_self]
      exact huses
    · obtain ⟨hsock, hisOpen, hspent⟩ := hothers t hts
      rw [Function.update_of_ne hts]
      intro n hn
      rw [hsock, hisOpen, hspent]
      exact h.uses t n hn
  · rw [hsd] at ht
    by_cases hts : t = s
    · subst hts
      rw [Function.update_self] at ht
      exact hclosed ht
    · rw [Function.update_of_ne hts] at ht
      rw [(hothers t hts).2.1]
      exact h.closed t ht

/-- A closed socket whose number is forgotten. -/
theorem Inv.close (h : Inv conf polite w d) (s : Sock)
    (hd : (d'.uservalid, d'.passvalid, d'.held, d'.eOpen) = (d.uservalid, d.passvalid, d.held, d.eOpen))
    (hsd : d'.sd = Function.update d.sd s none) :
    Inv conf polite (w.after (.closesocket s (d.sd s)) ()) d' := by
  cases hs : d.sd s with
  | none => exact h.socket s none hd hsd rfl (fun _ _ => rfl) (by rintro n ⟨⟩) fun _ => h.closed s hs
  | some n =>
    refine h.socket s none hd hsd rfl (fun t hts => ?_) (by rintro m ⟨⟩) fun _ => Function.update_self ..
    rw [Prod.mk.injEq, Prod.mk.injEq]
    exact ⟨rfl, Function.update_of_ne hts .., rfl⟩

section
variable {α : Type} {Q : Watch → α → Prop}

theorem obeys_close (h : Inv conf polite w d) (s : Sock) {k : Unit → Serve α}
    (hk : (watched polite).Obeys (w.after (.closesocket s (d.sd s)) ()) (k ()) Q) :
    (watched polite).Obeys w (ask (Call.closesocket s (d.sd s)) >>= k) Q :=
  ⟨h.uses s, fun _ _ => hk⟩

theorem after_close_moved (w : Watch) (s : Sock) (sd : Option ℕ) :
    (w.after (.closesocket s sd) ()).moved = w.moved := by
  cases sd <;> rfl

end

/-- The variables with no stream. -/
def Data.idle (d : Data) : Data := { d with held := none, eOpen := .nothing }

/-- What `ftp_close_files_dir` leaves: a stream that is not marked as open stays. -/
def Data.filesClosed (d : Data) : Data :=
  { d with held := if d.eOpen = .nothing then d.held else none, eOpen := .nothing }

/-- A stream that is closed is forgotten on both sides. -/
theorem Inv.drop (h : Inv conf polite w d) : Inv conf polite { w with held := none } d.idle :=
  ⟨h.creds, h.user, h.pass, h.change, fun _ => ⟨rfl, trivial⟩, h.uses, h.closed⟩

theorem closeFilesDir_obeys (h : Inv conf polite w d) :
    (watched polite).Obeys w (closeFilesDir d) fun w' d' =>
    d' = d.filesClosed ∧ Inv conf polite w' d' ∧ w'.moved = w.moved ∧ (polite → d'.held = none) := by
  unfold closeFilesDir
  cases hopen : d.eOpen with
  | nothing =>
    have hsame : { d with eOpen := .nothing } = d := by rw [← hopen]
    refine ⟨by rw [Data.filesClosed, if_pos hopen], ?_, rfl, fun hp => ?_⟩
    · rw [hsame]
      exact h
    · have hkind := (h.held hp).2
      rw [hopen] at hkind
      cases hheld : d.held with
      | none => rfl
      | some x =>
        rw [hheld] at hkind
        cases x <;> exact hkind.elim
  | file =>
    refine ⟨fun hp => ?_, fun _ _ => ?_⟩
    · obtain ⟨hw, hkind⟩ := h.held hp
      rw [hopen] at hkind
      rcases hheld : d.held with _ | fd | k
      · rw [hheld] at hkind
        exact hkind.elim
      · exact ⟨⟨fd, rfl⟩, hw.trans hheld⟩
      · rw [hheld] at hkind
        exact hkind.elim
    · exact ⟨by rw [Data.filesClosed, hopen]; rfl, h.drop, rfl, fun _ => rfl⟩
  | dir =>
    refine ⟨fun hp => ?_, fun _ _ => ?_⟩
    · obtain ⟨hw, hkind⟩ := h.held hp
      rw [hopen] at hkind
      rcases hheld : d.held with _ | fd | k
      · rw [hheld] at hkind
        exact hkind.elim
      · rw [hheld] at hkind
        exact hkind.elim
      · exact ⟨⟨k, rfl⟩, hw.trans hheld⟩
    · exact ⟨by rw [Data.filesClosed, hopen]; rfl, h.drop, rfl, fun _ => rfl⟩

theorem closeFilesystemOnError_obeys (h : Inv conf polite w d) :
    (watched polite).Obeys w (closeFilesystemOnError d) fun w' d' =>
    d' = d.idle ∧ Inv conf polite w' d' ∧ w'.moved = w.moved := by
  refine Contract.Obeys.bind ((closeFilesDir_obeys h).mono ?_)
  rintro w' d' ⟨rfl, h', hmoved, hnone⟩
  split
  · next hsome =>
    refine ⟨fun hp => ?_, fun _ _ => ⟨rfl, h'.drop, hmoved⟩⟩
    rw [hnone hp] at hsome
    cases hsome
  · next hsome =>
    have hheld : d.filesClosed.held = none := by simpa using hsome
    have hidle : d.filesClosed = d.idle := by
      rw [Data.idle, ← hheld]
      rfl
    exact ⟨hidle, h', hmoved⟩

/-- What `ftp_close_cmd_data` leaves. -/
def Data.cmdClosed (d : Data) : Data := { d with cSd := none, dSd := none }.idle

theorem closeCmdData_obeys (h : Inv conf polite w d) : (watched polite).Obeys w (closeCmdData d) fun w' d' =>
    d' = d.cmdClosed ∧ Inv conf polite w' d' ∧ w'.moved = w.moved := by
  have hc : Inv conf polite _ { d with cSd := none } := h.close .c rfl (by funext s; cases s <;> rfl)
  have hd : Inv conf polite _ { d with cSd := none, dSd := none } :=
    hc.close .d rfl (by funext s; cases s <;> rfl)
  refine obeys_close h .c (obeys_close hc .d ((closeFilesystemOnError_obeys hd).mono ?_))
  rintro w' d' ⟨rfl, h', hmoved⟩
  exact ⟨rfl, h', by rw [hmoved, after_close_moved, after_close_moved]⟩

/-- What `_ftp_reset` leaves. -/
def Data.reset (d : Data) : Data :=
  { { d with lcSd := none, ldSd := none }.cmdClosed with state := .start, substate := .disconnected }

theorem reset_obeys (h : Inv conf polite w d) : (watched polite).Obeys w (reset d) fun w' d' =>
    d' = d.reset ∧ Inv conf polite w' d' ∧ w'.moved = w.moved := by
  have hlc : Inv conf polite _ { d with lcSd := none } := h.close .lc rfl (by funext s; cases s <;> rfl)
  have hld : Inv conf polite _ { d with lcSd := none, ldSd := none } :=
    hlc.close .ld rfl (by funext s; cases s <;> rfl)
  refine obeys_close h .lc (obeys_close hlc .ld (Contract.Obeys.bind ((closeCmdData_obeys hld).mono ?_)))
  rintro w' d' ⟨rfl, h', hmoved⟩
  exact ⟨rfl, h'.same rfl, by rw [hmoved, after_close_moved, after_close_moved]⟩

theorem Watch.made_others (w : Watch) {s t : Sock} (sd : ℕ) (hts : t ≠ s) :
    ((w.made s sd).sock t, (w.made s sd).isOpen t, (w.made s sd).spent t) =
      (w.sock t, w.isOpen t, w.spent t) := by
  simp only [Watch.made, Function.update_of_ne hts]

/-- The data variable of a listening socket. -/
def Data.setListener (d : Data) (s : Sock) (sd : Option ℕ) : Data :=
  match s with
  | .lc => { d with lcSd := sd }
  | .ld => { d with ldSd := sd }
  | .c | .d => d

theorem Watch.made_uses (w : Watch) (s : Sock) (sd : ℕ) : (w.made s sd).Uses s (some sd) := by
  rintro n ⟨⟩
  exact ⟨Function.update_self .., .inl (Function.update_self ..)⟩

theorem createListeningSocket_obeys {s : Sock} (hs : s = .lc ∨ s = .ld) (h : Inv conf polite w d)
    (hclosed : w.isOpen s = false) :
    (watched polite).Obeys w (createListeningSocket s) fun w' r =>
      Inv conf polite w' (d.setListener s r.1) ∧ w'.moved = w.moved ∧
        (r.2 = false → w'.isOpen s = false) := by
  have hsd : ∀ sd, (d.setListener s sd).sd = Function.update d.sd s sd := by
    intro sd
    rcases hs with rfl | rfl <;> funext t <;> cases t <;> rfl
  have hd : ∀ sd, ((d.setListener s sd).uservalid, (d.setListener s sd).passvalid, (d.setListener s sd).held,
      (d.setListener s sd).eOpen) = (d.uservalid, d.passvalid, d.held, d.eOpen) := by
    intro sd
    rcases hs with rfl | rfl <;> rfl
  unfold createListeningSocket
  have hlistener : s.listener = s := by rcases hs with rfl | rfl <;> rfl
  refine Contract.Obeys.bind ⟨⟨hlistener, hclosed⟩, fun r _ => ?_⟩
  rcases r with _ | sd
  · exact ⟨h.socket s none (hd none) (hsd none) rfl (fun _ _ => rfl) (by rintro n ⟨⟩) fun _ => hclosed,
      rfl, fun _ => hclosed⟩
  · change (watched polite).Obeys (if 0 < sd then w.made s sd else w.kept s sd) (if 0 < sd then _ else _) _
    split
    · refine Contract.Obeys.bind ⟨⟨hlistener, w.made_uses s sd⟩, fun ok _ => ?_⟩
      · cases ok with
        | true =>
          exact ⟨h.socket s (some sd) (hd _) (hsd _) rfl (fun t hts => w.made_others sd hts)
            (w.made_uses s sd) (by rintro ⟨⟩), rfl,
            by rintro ⟨⟩⟩
        | false =>
          refine ⟨?_, fun _ _ => ⟨h.socket s (some sd) (hd _) (hsd _) rfl (fun t hts => ?_) ?_
            (by rintro ⟨⟩), rfl, fun _ => ?_⟩⟩
          · rintro n ⟨⟩
            exact ⟨Function.update_self .., .inr (Function.update_self ..)⟩
          · have hmade := w.made_others sd hts
            simp only [Prod.mk.injEq] at hmade ⊢
            exact ⟨hmade.1, (Function.update_of_ne hts ..).trans hmade.2.1,
              (Function.update_of_ne hts ..).trans hmade.2.2⟩
          · rintro n ⟨⟩
            exact ⟨Function.update_self .., .inr (Function.update_self ..)⟩
          · exact Function.update_self ..
    · refine ⟨h.socket s (some sd) (hd _) (hsd _) rfl (fun t hts => ?_) ?_ (by rintro ⟨⟩),
        rfl, fun _ => hclosed⟩
      · simp only [Watch.kept, Function.update_of_ne hts]
      · rintro n ⟨⟩
        exact ⟨Function.update_self .., .inr (Function.update_self ..)⟩

/-! ### Replies -/

/-- The number some digits stand for. -/
def digitsValue (bs : Bytes) : ℕ := bs.foldl (fun v b => 10 * v + (b.toNat - 48)) 0

theorem digitsValue_toDigits : ∀ n < 1000, digitsValue (CStr.bytes (Nat.toDigits 10 n)) = n := by
  decide +kernel

theorem length_toDigits : ∀ n < 1000, 100 ≤ n → (Nat.toDigits 10 n).length = 3 := by decide +kernel

/-- The statuses of replies. -/
def Status (n : ℕ) : Prop := 100 ≤ n ∧ n < 1000

/-- A reply tells its own status. -/
theorem tells_reply {n status : ℕ} (hn : Status n) (hs : Status status) (message : CStr) :
    Tells n (CStr.bytes (replyText status message)) ↔ status = n := by
  have hfront : (CStr.bytes (replyText status message)).take 3 = CStr.bytes (Nat.toDigits 10 status) := by
    rw [CStr.bytes, CStr.bytes, ← List.map_take]
    congr 1
    rw [replyText, List.append_assoc, ← length_toDigits status hs.2 hs.1, List.take_left]
  rw [Tells, hfront]
  constructor
  · intro heq
    rw [← digitsValue_toDigits status hs.2, heq, digitsValue_toDigits n hn.2]
  · rintro rfl
    rfl

/-- What a reply leaves when it is out. -/
def Data.replied (d : Data) (status : ℕ) : Data :=
  if status = 221 then { d with dSd := none, ldSd := none, substate := .disconnected }.idle
  else if status = 426 ∨ status = 451 ∨ status = 550 then { d with dSd := none }.idle
  else d

/-- A control descriptor that is told goodbye is closed, and its number kept. -/
theorem Inv.leave (h : Inv conf polite w d) (hspent : w.spent .c = true) :
    Inv conf polite (w.after (.closesocket .c d.cSd) ()) d := by
  cases hc : d.cSd with
  | none => exact h
  | some n =>
    refine ⟨h.creds, h.user, h.pass, h.change, h.held, fun s m hm => ?_, fun s hs => ?_⟩
    · refine ⟨(h.uses s m hm).1, ?_⟩
      by_cases hsc : s = .c
      · subst hsc
        exact .inr hspent
      · change Function.update w.isOpen .c false s = true ∨ w.spent s = true
        rw [Function.update_of_ne hsc]
        exact (h.uses s m hm).2
    · have hsc : s ≠ .c := by
        rintro rfl
        rw [Data.sd, hc] at hs
        cases hs
      exact (Function.update_of_ne hsc ..).trans (h.closed s hs)

theorem Inv.spend (h : Inv conf polite w d) (s : Sock) :
    Inv conf polite { w with spent := Function.update w.spent s true } d := by
  refine ⟨h.creds, h.user, h.pass, h.change, h.held, fun t m hm => ⟨(h.uses t m hm).1, ?_⟩, h.closed⟩
  by_cases hts : t = s
  · subst hts
    exact .inr (Function.update_self ..)
  · exact (h.uses t m hm).2.imp_right fun hsp => (Function.update_of_ne hts ..).trans hsp

theorem after_close_isOpen (w : Watch) {s t : Sock} (sd : Option ℕ) (hts : t ≠ s) :
    (w.after (.closesocket s sd) ()).isOpen t = w.isOpen t := by
  cases sd with
  | none => rfl
  | some n => exact Function.update_of_ne hts ..

theorem after_close_spent (w : Watch) (s t : Sock) (sd : Option ℕ) :
    (w.after (.closesocket s sd) ()).spent t = w.spent t := by
  cases sd <;> rfl

theorem replied_obeys {status : ℕ} (h : Inv conf polite w d) (hspent : status = 221 → w.spent .c = true) :
    (watched polite).Obeys w (replied status d) fun w' d' => d' = d.replied status ∧
      Inv conf polite w' d' ∧ w'.moved = w.moved := by
  have hd : Inv conf polite _ { d with dSd := none } := h.close .d rfl (by funext s; cases s <;> rfl)
  unfold replied Data.replied
  split
  · next hbye =>
    have hld : Inv conf polite _ { d with dSd := none, ldSd := none } :=
      hd.close .ld rfl (by funext s; cases s <;> rfl)
    have hc := hld.leave (by rw [after_close_spent, after_close_spent]; exact hspent hbye)
    have hsub : Inv conf polite _ { d with dSd := none, ldSd := none, substate := .disconnected } :=
      hc.same rfl
    refine obeys_close h .d (obeys_close hd .ld
      (obeys_close hld .c ((closeFilesystemOnError_obeys hsub).mono ?_)))
    rintro w' d' ⟨rfl, h', hmoved⟩
    exact ⟨rfl, h', by rw [hmoved, after_close_moved, after_close_moved, after_close_moved]⟩
  · split
    · refine obeys_close h .d ((closeFilesystemOnError_obeys hd).mono ?_)
      rintro w' d' ⟨rfl, h', hmoved⟩
      exact ⟨rfl, h', by rw [hmoved, after_close_moved]⟩
    · exact ⟨rfl, h, rfl⟩

theorem overrunIf_obeys {p : Prop} [Decidable p] {Q : Watch → Unit → Prop} (hQ : Q w ()) :
    (watched polite).Obeys w (overrunIf p) Q := by
  unfold overrunIf
  exact Contract.obeys_ite ⟨trivial, fun _ _ => hQ⟩ hQ

/-- After a reply that was to be sent: it is out, or all is reset. -/
def Data.After (d d' : Data) (status : ℕ) : Prop := d' = d.replied status ∨ d' = d.reset

theorem sendReply_obeys {status : ℕ} (hs : Status status) (message : CStr) (h : Inv conf polite w d)
    (heven : status = 226 → d.cSd ≠ none → w.Even) :
    (watched polite).Obeys w (sendReply status message d) fun w' d' =>
      d.After d' status ∧ Inv conf polite w' d' ∧ w'.moved = w.moved := by
  refine Contract.Obeys.bind (overrunIf_obeys ⟨⟨h.uses .c, fun htells => ?_⟩, fun ok _ => ?_⟩)
  · exact heven ((tells_reply (by simp [Status]) hs message).mp htells)
  · cases ok with
    | false =>
      refine (reset_obeys h).mono ?_
      rintro w' d' ⟨rfl, h', hmoved⟩
      exact ⟨.inr rfl, h', hmoved⟩
    | true =>
      have hw : w.after (.send .c d.cSd (CStr.bytes (replyText status message))) true =
          if status = 221 then { w with spent := Function.update w.spent .c true } else w := by
        change (if Tells 221 _ then _ else _) = _
        rw [if_congr (tells_reply (by simp [Status]) hs message) rfl rfl]
      have hafter : Inv conf polite (w.after (.send .c d.cSd (CStr.bytes (replyText status message)))
        true) d ∧
          (status = 221 → (w.after (.send .c d.cSd (CStr.bytes (replyText status message))) true).spent
            .c = true) ∧
          (w.after (.send .c d.cSd (CStr.bytes (replyText status message))) true).moved = w.moved := by
        rw [hw]
        split
        · exact ⟨h.spend .c, fun _ => by simp, rfl⟩
        · next hne => exact ⟨h, fun heq => absurd heq hne, rfl⟩
      refine (replied_obeys hafter.1 hafter.2.1).mono ?_
      rintro w' d' ⟨rfl, h', hmoved⟩
      exact ⟨.inl rfl, h', hmoved.trans hafter.2.2⟩

/-! ### Between two passes -/

/-- A transfer is going on. -/
def Ste.moves : Ste → Bool
  | .continueListing | .continueFileTx | .continueFileRx => true
  | _ => false

/-- With a control connection, and no transfer. -/
def Ste.still (s : Ste) : Prop := s = .ready ∨ s = .endTransfer

theorem Ste.still.ne {s : Ste} (h : s.still) : s.moves = false ∧ s ≠ .continueListing ∧ s ≠ .continueFileTx ∧
    s ≠ .continueFileRx ∧ s ≠ .disabled ∧ s ≠ .start := by
  rcases h with rfl | rfl <;> decide

/-- What holds between two passes of `ftp_run`, and at the start and end of a command. -/
structure Steady (conf : Conf) (polite : Prop) (w : Watch) (d : Data) : Prop extends Inv conf polite w d where
  idle : polite → d.state.moves = false ∨ d.dSd = none → d.held = none
  files : d.state = .continueFileTx ∨ d.state = .continueFileRx → ∃ x, w.moved = some (x, x)
  listing : d.state = .continueListing → w.moved = none ∧ d.passvalid = true
  stream : polite → (d.state = .continueListing → IsDir d.held) ∧
    (d.state = .continueFileTx ∨ d.state = .continueFileRx → IsFile d.held)
  begins : d.state = .disabled ∨ d.state = .start → w.isOpen .lc = false
  waits : d.substate = .listenForData → d.dSd = none

theorem Steady.same (h : Steady conf polite w d) (hview : d'.view = d.view) (hstate : d'.state = d.state)
    (hsub : d'.substate = d.substate) : Steady conf polite w d' := by
  have hview' := hview
  simp only [Data.view, Prod.mk.injEq] at hview'
  obtain ⟨-, hpass, hheld, -, -, -, -, hd⟩ := hview'
  refine ⟨h.toInv.same hview, ?_, ?_, ?_, ?_, ?_, ?_⟩
  · rw [hstate, hd, hheld]
    exact h.idle
  · rw [hstate]
    exact h.files
  · rw [hstate, hpass]
    exact h.listing
  · rw [hstate, hheld]
    exact h.stream
  · rw [hstate]
    exact h.begins
  · rw [hsub, hd]
    exact h.waits

/-- Outside the transfers, with nothing open. -/
theorem Inv.steady (h : Inv conf polite w d) (hstill : d.state.still) (hheld : polite → d.held = none)
    (hwaits : d.substate = .listenForData → d.dSd = none) : Steady conf polite w d := by
  obtain ⟨-, hlist, htx, hrx, hoff, hstart⟩ := hstill.ne
  exact ⟨h, fun hp _ => hheld hp, fun hst => (hst.elim htx hrx).elim, fun hst => (hlist hst).elim,
    fun _ => ⟨fun hst => (hlist hst).elim, fun hst => (hst.elim htx hrx).elim⟩, fun hst =>
      (hst.elim hoff hstart).elim, hwaits⟩

/-- Before there is a listening socket, with nothing open. -/
theorem Inv.steady_off (h : Inv conf polite w d) (hoff : d.state = .disabled ∨ d.state = .start)
    (hheld : polite → d.held = none) (hlc : w.isOpen .lc = false)
    (hwaits : d.substate = .listenForData → d.dSd = none) : Steady conf polite w d := by
  have hne : d.state ≠ .continueListing ∧ d.state ≠ .continueFileTx ∧ d.state ≠ .continueFileRx := by
    rcases hoff with hst | hst <;> rw [hst] <;> decide
  obtain ⟨hlist, htx, hrx⟩ := hne
  exact ⟨h, fun hp _ => hheld hp, fun hst => (hst.elim htx hrx).elim, fun hst => (hlist hst).elim,
    fun _ => ⟨fun hst => (hlist hst).elim, fun hst => (hst.elim htx hrx).elim⟩, fun _ => hlc, hwaits⟩

/-- After a reset nothing is open. -/
theorem Inv.steady_reset (h : Inv conf polite w d.reset) : Steady conf polite w d.reset :=
  h.steady_off (.inr rfl) (fun _ => rfl) (h.closed .lc rfl) fun _ => rfl

/-- A reply keeps what holds between passes, unless it ends a transfer. -/
theorem Steady.reply {status : ℕ} (h : Steady conf polite w d) (hs : Status status) (message : CStr)
    (hne : status ≠ 226) (hstate : d.state ≠ .disabled ∧ d.state ≠ .start)
    (hkeep : d.state.still ∨ d.replied status = d) :
    (watched polite).Obeys w (sendReply status message d) fun w' d' => d.After d' status ∧
      Steady conf polite w' d' := by
  refine (sendReply_obeys hs message h.toInv fun heq => absurd heq hne).mono ?_
  rintro w' d' ⟨rfl | rfl, h', hmoved⟩
  · refine ⟨.inl rfl, ?_⟩
    rcases hkeep with hstill | hsame
    · have hrest : (polite → (d.replied status).held = none) ∧ (d.replied status).state = d.state ∧
          ((d.replied status).substate = .listenForData → (d.replied status).dSd = none) := by
        unfold Data.replied
        split
        · exact ⟨fun _ => rfl, rfl, fun _ => rfl⟩
        · split
          · exact ⟨fun _ => rfl, rfl, fun _ => rfl⟩
          · exact ⟨fun hp => h.idle hp (.inl hstill.ne.1), rfl, h.waits⟩
      refine h'.steady ?_ hrest.1 hrest.2.2
      rw [hrest.2.1]
      exact hstill
    · rw [hsame] at h' ⊢
      refine ⟨h', h.idle, ?_, ?_, h.stream, fun hst => (hst.elim hstate.1 hstate.2).elim, h.waits⟩
      · rw [hmoved]; exact h.files
      · rw [hmoved]; exact h.listing
  · exact ⟨.inr rfl, h'.steady_reset⟩

end FdcSds.Ftp
