import FdcSds.Net.Copy

/-! `copy http://… <dst>` (`http_get`, `copy_sink_write`, `cmd_copy`): a body from a web server.

    The client calls back with each part of what the server sends, of redirects and errors too. Only what
    comes with a 2xx status goes on to the sink, and after a part that the sink refused nothing does.

        perform ─▶ data, 302 ─▶ skipped
                ─▶ data, 200 ─▶ sink ─▶ destination ⟲
                ─▶ returns, 200 ─▶ copied n bytes                                                    -/

namespace FdcSds
open Schemes Prog

/-! ### The client -/

/-- `esp_http_client_perform` calls back, with data or with something else, or it returns. -/
inductive WebEvent where
  | other
  | onData (data : Bytes)
  | returned (err : ℤ)
  deriving DecidableEq

/-- `next` lets `esp_http_client_perform` go on, with what the handler gave back. -/
inductive WebCall where
  | init (url : CStr)
  | next (handled : ℤ)
  | statusCode
  | cleanup

abbrev WebCall.Answer : WebCall → Type
  | .init _ => Bool
  | .next _ => WebEvent
  | .statusCode => ℤ
  | .cleanup => Unit

/-- A copy may call the client too. -/
abbrev Fetch : Type → Type :=
  Prog (WebCall ⊕ (StdioCall ⊕ (NetCall ⊕ NetCall)))
    (Either WebCall.Answer (Either StdioCall.Answer (Either NetCall.Answer NetCall.Answer)))

def onWeb {α : Type} (p : Prog WebCall WebCall.Answer α) : Fetch α := p.inl
def onCopy {α : Type} (p : Copy α) : Fetch α := p.inr

/-! ### The source -/

/-- `http_get_ctx_t`. -/
structure HttpGet (κ : Type) where
  ctx : κ
  bytes : UInt32
  sinkErr : ℤ

/-- `status < 200 || status >= 300`. -/
def refusedStatus (status : ℤ) : Bool := status < 200 || 300 ≤ status

section

variable {κ : Type} (sink : κ → Bytes → Fetch (κ × ℤ))

/-- `on_http_event`. -/
def onHttpEvent (g : HttpGet κ) : WebEvent → Fetch (HttpGet κ × ℤ)
  | .onData data =>
    if g.sinkErr ≠ espOk then pure (g, espOk)
    else do
      let status ← onWeb (ask WebCall.statusCode)
      if refusedStatus status then pure (g, espOk)
      else if data = [] then pure (g, espOk)
      else do
        let (ctx, r) ← sink g.ctx data
        if r ≠ 0 then pure ({ g with ctx, sinkErr := espFail }, espFail)
        else pure ({ g with ctx, bytes := g.bytes + UInt32.ofNat data.length }, espOk)
  | _ => pure (g, espOk)

/-- `esp_http_client_perform` with its handler, up to so many events. -/
def httpPerform (g : HttpGet κ) (handled : ℤ) : ℕ → Fetch (Option (HttpGet κ × ℤ))
  | 0 => pure none
  | rounds + 1 => do
    match ← onWeb (ask (WebCall.next handled)) with
    | .returned err => pure (some (g, err))
    | event => do
      let (g, handled) ← onHttpEvent sink g event
      httpPerform g handled rounds

/-- What `http_get` returns. -/
def httpResult (g : HttpGet κ) (err status : ℤ) : Except ℤ UInt32 :=
  if g.sinkErr ≠ espOk then .error g.sinkErr
  else if err ≠ espOk then .error err
  else if refusedStatus status then .error espErrInvalidResponse
  else .ok g.bytes

def httpGet (url : CStr) (ctx : κ) (rounds : ℕ) : Fetch (Option (κ × Except ℤ UInt32)) := do
  if ← onWeb (ask (WebCall.init url)) then do
    match ← httpPerform sink ⟨ctx, 0, espOk⟩ espOk rounds with
    | none => pure none
    | some (g, err) => do
      let status ← onWeb (ask WebCall.statusCode)
      onWeb (ask WebCall.cleanup)
      pure (some (g.ctx, httpResult g err status))
  else pure (some (ctx, .error espErrNoMem))

end

/-! ### The command -/

/-- `copy_sink_t`. -/
structure CopySink where
  out : CopyOut
  off : UInt32
  err : Option CopyError

/-- `copy_sink_write`. -/
def copySinkWrite (s : CopySink) (data : Bytes) : Fetch (CopySink × ℤ) := do
  match ← onCopy (copyWrite s.off data s.out) with
  | (out, .error e) => pure ({ s with out, err := some e }, -1)
  | (out, .ok ()) => pure ({ s with out, off := s.off + UInt32.ofNat data.length }, 0)

/-- What the command prints when it fails. -/
inductive HttpCopyError where
  | copy (e : CopyError)
  | requestFailed
  | unreachable
  | fetchFailed
  deriving DecidableEq

/-- Which message it is. -/
def httpCopyError (sink : CopySink) (err : ℤ) : HttpCopyError :=
  match sink.err with
  | some e => .copy e
  | none =>
    if err = espErrInvalidResponse then .requestFailed
    else if err = espErrTimeout then .unreachable
    else .fetchFailed

/-- `cmd_copy` of a source `url`, with its two URL checks done. -/
def cmdCopyHttp (sh : Shell) (online : Bool) (url : CStr) (dst : Endpoint) (rounds : ℕ) :
    Fetch (Option (Except HttpCopyError UInt32)) :=
  if !online then pure (some (.error (.copy .offline)))
  else do
    match ← onCopy (copyOpenDest sh dst) with
    | .error e => pure (some (.error (.copy e)))
    | .ok out =>
      match ← httpGet copySinkWrite url ⟨out, 0, none⟩ rounds with
      | none => pure none
      | some (sink, result) => do
        let closed ← onCopy (closeOut sink.out)
        match result with
        | .error err => pure (some (.error (httpCopyError sink err)))
        | .ok got => pure (some (if closed then .ok got else .error (.copy .closeError)))

/-! ### What a server sends -/

/-- The client, as it will go: whether there is memory for it, the data it will call back with and the
    status at each, and what it returns in the end. -/
structure Web where
  opens : Bool
  events : List (ℤ × Option Bytes)
  result : ℤ
  final : ℤ
  status : ℤ

namespace Web

def call (w : Web) : (c : WebCall) → Web × c.Answer
  | .init _ => (w, w.opens)
  | .next _ =>
    match w.events with
    | [] => ({ w with status := w.final }, .returned w.result)
    | (status, none) :: events => ({ w with status, events }, .other)
    | (status, some data) :: events => ({ w with status, events }, .onData data)
  | .statusCode => (w, w.status)
  | .cleanup => (w, ())

/-- What came with a 2xx status. -/
def bodyOf (events : List (ℤ × Option Bytes)) : Bytes :=
  events.flatMap fun e => if refusedStatus e.1 then [] else e.2.getD []

/-- The files and sockets of a copy, call by call. -/
abbrev Steps (σ : Type) : Type :=
  σ → (c : StdioCall ⊕ (NetCall ⊕ NetCall)) →
    σ × Either StdioCall.Answer (Either NetCall.Answer NetCall.Answer) c

/-- The part of an event that goes on. -/
def passed (status : ℤ) (data : Bytes) : Bytes := if refusedStatus status then [] else data

variable {σ κ : Type} {world : Steps σ} {sink : κ → Bytes → Fetch (κ × ℤ)} {I : Bytes → σ → κ → Prop}
    {s : Web × σ} {g : HttpGet κ} {got : Bytes}

@[simp] theorem run_onWeb {α : Type} (p : Prog WebCall WebCall.Answer α) :
    run (both call world) s (onWeb p) = (((run call s.1 p).1, s.2), (run call s.1 p).2) := run_inl s p

@[simp] theorem run_onCopy {α : Type} (p : Copy α) :
    run (both call world) s (onCopy p) = ((s.1, (run world s.2 p).1), (run world s.2 p).2) := run_inr s p

/-- The rule of a sink: when it takes some data, they are added to what it got. -/
structure Sinks (world : Steps σ) (sink : κ → Bytes → Fetch (κ × ℤ)) (I : Bytes → σ → κ → Prop) : Prop where
  web : ∀ s ctx data, (run (both call world) s (sink ctx data)).1.1 = s.1
  takes : ∀ got s ctx data, I got s.2 ctx → (run (both call world) s (sink ctx data)).2.2 = 0 →
    I (got ++ data) (run (both call world) s (sink ctx data)).1.2
      (run (both call world) s (sink ctx data)).2.1

/-- The event of a part that comes with data, or of something else. -/
def event (data : Option Bytes) : WebEvent := (data.map WebEvent.onData).getD .other

/-- One event: what it passes on is taken, or the transfer has failed, and what failed stays failed. -/
theorem onHttpEvent_run (hsink : Sinks world sink I) (got : Bytes) (data : Option Bytes)
    {r : (Web × σ) × HttpGet κ × ℤ} (hr : r = run (both call world) s (onHttpEvent sink g (event data))) :
    r.1.1 = s.1 ∧ (r.2.1.sinkErr = espOk → g.sinkErr = espOk ∧ (I got s.2 g.ctx →
      I (got ++ passed s.1.status (data.getD [])) r.1.2 r.2.1.ctx ∧
        r.2.1.bytes = g.bytes + UInt32.ofNat (passed s.1.status (data.getD [])).length)) := by
  have hnothing : ∀ part : Bytes, part = [] → I got s.2 g.ctx →
      I (got ++ part) s.2 g.ctx ∧ g.bytes = g.bytes + UInt32.ofNat part.length := by
    rintro _ rfl hgot
    rw [List.append_nil]
    exact ⟨hgot, (UInt32.add_zero _).symm⟩
  cases data with
  | none =>
    rw [hr]
    exact ⟨rfl, fun hok => ⟨hok, hnothing _ (ite_self _)⟩⟩
  | some data =>
    change r = run (both call world) s (onHttpEvent sink g (.onData data)) at hr
    rw [onHttpEvent] at hr
    split at hr
    · next hbad =>
      rw [hr]
      exact ⟨rfl, fun hok => absurd hok hbad⟩
    · next hok =>
      have hstatus : run call s.1 (ask WebCall.statusCode) = (s.1, s.1.status) := rfl
      rw [run_bind, run_onWeb, hstatus] at hr
      dsimp only at hr
      split at hr
      · next hrefused =>
        rw [hr]
        exact ⟨rfl, fun _ => ⟨not_not.mp hok, hnothing _ (if_pos hrefused)⟩⟩
      · next hpassed =>
        have hdata : passed s.1.status ((some data).getD []) = data := if_neg hpassed
        rw [hdata]
        split at hr
        · next hnone =>
          rw [hr]
          exact ⟨rfl, fun _ => ⟨not_not.mp hok, hnothing _ hnone⟩⟩
        · rw [run_bind] at hr
          have hweb := hsink.web s g.ctx data
          split at hr
          · rw [hr]
            exact ⟨hweb, by rintro ⟨⟩⟩
          · next htook =>
            rw [hr]
            exact ⟨hweb, fun _ => ⟨not_not.mp hok, fun hgot =>
              ⟨hsink.takes got s g.ctx data hgot (not_not.mp htook), rfl⟩⟩⟩

/-- A sink that takes everything does not fail the transfer. -/
theorem onHttpEvent_fair (hfair : ∀ got s ctx data, I got s.2 ctx →
      (run (both call world) s (sink ctx data)).2.2 = 0) (hgot : I got s.2 g.ctx)
    (hok : g.sinkErr = espOk) (data : Option Bytes) :
    (run (both call world) s (onHttpEvent sink g (event data))).2.1.sinkErr = espOk := by
  cases data with
  | none => exact hok
  | some data =>
    have hstatus : run call s.1 (ask WebCall.statusCode) = (s.1, s.1.status) := rfl
    change (run (both call world) s (onHttpEvent sink g (.onData data))).2.1.sinkErr = espOk
    rw [onHttpEvent, if_neg (not_not.mpr hok), run_bind, run_onWeb, hstatus]
    dsimp only
    split
    · exact hok
    · split
      · exact hok
      · rw [run_bind, if_neg (not_not.mpr (hfair got s g.ctx data hgot))]
        exact hok

/-- What `esp_http_client_perform` does next. -/
theorem call_next (w : Web) (handled : ℤ) :
    w.events = [] ∧ w.call (.next handled) = ({ w with status := w.final }, .returned w.result) ∨
      ∃ status data events, w.events = (status, data) :: events ∧
        w.call (.next handled) = ({ w with status, events }, event data) := by
  cases hev : w.events with
  | nil => exact .inl ⟨rfl, by rw [call, hev]⟩
  | cons e events =>
    obtain ⟨status, data⟩ := e
    cases data with
    | none => exact .inr ⟨status, none, events, rfl, by rw [call, hev]; rfl⟩
    | some data => exact .inr ⟨status, some data, events, rfl, by rw [call, hev]; rfl⟩

/-- A round of it: it returns, or it hands over the next event and goes on. -/
theorem httpPerform_next (sink : κ → Bytes → Fetch (κ × ℤ)) (s : Web × σ) (g : HttpGet κ)
    (handled : ℤ) (rounds : ℕ) :
    s.1.events = [] ∧ run (both call world) s (httpPerform sink g handled (rounds + 1)) =
        (({ s.1 with status := s.1.final }, s.2), some (g, s.1.result)) ∨
      ∃ status data events r, s.1.events = (status, data) :: events ∧
        r = run (both call world) ({ s.1 with status, events }, s.2) (onHttpEvent sink g (event data)) ∧
        run (both call world) s (httpPerform sink g handled (rounds + 1)) =
          run (both call world) r.1 (httpPerform sink r.2.1 r.2.2 rounds) := by
  rw [httpPerform, run_bind, run_onWeb, run_ask]
  rcases s.1.call_next handled with ⟨hnone, hcall⟩ | ⟨status, data, events, hev, hcall⟩
  · rw [hcall]
    exact .inl ⟨hnone, rfl⟩
  · refine .inr ⟨status, data, events, _, hev, rfl, ?_⟩
    rw [hcall]
    cases data <;> exact run_bind ..

/-- Unless the sink refuses some of it, it gets the whole body, whatever else the client calls back with. -/
theorem httpPerform_run (hsink : Sinks world sink I) {rounds : ℕ} {handled err : ℤ} {s' : Web × σ}
    {g' : HttpGet κ} (hr : run (both call world) s (httpPerform sink g handled rounds) =
      (s', some (g', err))) (hok : g'.sinkErr = espOk) :
    err = s.1.result ∧ s'.1.status = s.1.final ∧ g.sinkErr = espOk ∧ (I got s.2 g.ctx →
      I (got ++ bodyOf s.1.events) s'.2 g'.ctx ∧
        g'.bytes = g.bytes + UInt32.ofNat (bodyOf s.1.events).length) := by
  induction rounds generalizing s g got handled with
  | zero => cases hr
  | succ rounds ih =>
    rcases httpPerform_next sink s g handled rounds with ⟨hnone, hrun⟩ | ⟨status, data,
      events, r, hev, hstep, hrun⟩
    · cases hrun.symm.trans hr
      rw [hnone]
      refine ⟨rfl, rfl, hok, fun hgot => ⟨?_, (UInt32.add_zero _).symm⟩⟩
      rwa [bodyOf, List.flatMap_nil, List.append_nil]
    · obtain ⟨hweb, htook⟩ := onHttpEvent_run hsink got data hstep
      obtain ⟨hresult, hfinal, hok', hbody⟩ :=
        @ih r.1 r.2.1 (got ++ passed status (data.getD [])) r.2.2 (hrun.symm.trans hr)
      rw [hweb] at hresult hfinal hbody
      obtain ⟨hstart, htook⟩ := htook hok'
      refine ⟨hresult, hfinal, hstart, fun hgot => ?_⟩
      obtain ⟨hgot', hbytes'⟩ := htook hgot
      obtain ⟨hgot', hbytes⟩ := hbody hgot'
      have hcons : bodyOf s.1.events = passed status (data.getD []) ++ bodyOf events := by
        rw [hev]
        exact List.flatMap_cons ..
      rw [hcons]
      refine ⟨by rwa [← List.append_assoc], ?_⟩
      rw [hbytes, hbytes', List.length_append, UInt32.ofNat_add, UInt32.add_assoc]

/-- With a round for each event it ends, and where the sink takes everything the transfer has not failed. -/
theorem httpPerform_ends (hsink : Sinks world sink I) {rounds : ℕ} {handled : ℤ}
    (hrounds : s.1.events.length < rounds) :
    ∃ s' g' err, run (both call world) s (httpPerform sink g handled rounds) = (s', some (g', err)) ∧
      ((∀ got s ctx data, I got s.2 ctx → (run (both call world) s (sink ctx data)).2.2 = 0) →
        I got s.2 g.ctx →
        g.sinkErr = espOk → g'.sinkErr = espOk) := by
  induction rounds generalizing s g got handled with
  | zero => omega
  | succ rounds ih =>
    rcases httpPerform_next sink s g handled rounds with ⟨-, hrun⟩ | ⟨status, data,
      events, r, hev, hstep, hrun⟩
    · exact ⟨_, _, _, hrun, fun _ _ hok => hok⟩
    · obtain ⟨hweb, htook⟩ := onHttpEvent_run hsink got data hstep
      have hfewer : r.1.1.events.length < rounds := by
        rw [hweb]
        rw [hev, List.length_cons] at hrounds
        exact Nat.lt_of_succ_lt_succ hrounds
      obtain ⟨s', g', err, hrest, hfair⟩ := @ih r.1 r.2.1 (got ++ passed status (data.getD [])) r.2.2 hfewer
      refine ⟨s', g', err, hrun.trans hrest, fun hall hgot hok => ?_⟩
      have hok' : r.2.1.sinkErr = espOk := by
        rw [hstep]
        exact @onHttpEvent_fair σ κ world sink I ({ s.1 with status, events }, s.2) g got hall hgot hok data
      exact hfair hall ((htook hok').2 hgot).1 hok'

/-- The client gets a whole body: `esp_http_client_perform` succeeds, and with a 2xx status. -/
def Succeeds (w : Web) : Prop := w.opens = true ∧ w.result = espOk ∧ refusedStatus w.final = false

theorem httpResult_ok {g : HttpGet κ} {err status : ℤ} {n : UInt32} :
    httpResult g err status = .ok n ↔ g.sinkErr = espOk ∧ err = espOk ∧
      refusedStatus status = false ∧ g.bytes = n := by
  unfold httpResult
  split
  · next h => simp [h]
  · next h =>
    split
    · next h' => simp [h']
    · next h' =>
      split
      · next h'' => simp [h'']
      · next h'' => simp [not_not.mp h, not_not.mp h', h'']

/-- A transfer that says it succeeded: the sink got the whole body. -/
theorem httpGet_run (hsink : Sinks world sink I) {url : CStr} {ctx ctx' : κ} {rounds : ℕ} {s' : Web × σ}
    {n : UInt32} (hgot : I [] s.2 ctx)
    (hr : run (both call world) s (httpGet sink url ctx rounds) = (s', some (ctx', .ok n))) :
    s.1.Succeeds ∧ I (bodyOf s.1.events) s'.2 ctx' ∧ n = UInt32.ofNat (bodyOf s.1.events).length := by
  have hinit : run call s.1 (ask (WebCall.init url)) = (s.1, s.1.opens) := rfl
  rw [httpGet, run_bind, run_onWeb, hinit] at hr
  dsimp only at hr
  split at hr
  · next hopens =>
    rw [run_bind] at hr
    cases hperform : run (both call world) s (httpPerform sink ⟨ctx, 0, espOk⟩ espOk rounds) with
    | mk s₁ result =>
      rw [hperform] at hr
      cases result with
      | none => cases hr
      | some result =>
        obtain ⟨g, err⟩ := result
        have hstatus : run call s₁.1 (ask WebCall.statusCode) = (s₁.1, s₁.1.status) := rfl
        have hcleanup : run call s₁.1 (ask WebCall.cleanup) = (s₁.1, ()) := rfl
        dsimp only at hr
        rw [run_bind, run_onWeb, hstatus] at hr
        dsimp only at hr
        rw [run_bind, run_onWeb, hcleanup] at hr
        obtain ⟨hs, hsome⟩ := Prod.ext_iff.mp hr
        obtain ⟨rfl, hresult⟩ := Prod.ext_iff.mp (Option.some.inj hsome)
        obtain ⟨hok, herr, hfinal, hbytes⟩ := httpResult_ok.mp hresult
        obtain ⟨hres, hend, -, hbody⟩ := httpPerform_run hsink hperform hok
        obtain ⟨hI, hn⟩ := hbody hgot
        have hs' : s₁ = s' := hs
        subst hs'
        rw [hend] at hfinal
        refine ⟨⟨hopens, hres.symm.trans herr, hfinal⟩, hI, ?_⟩
        rw [← hbytes, hn, UInt32.zero_add]
  · cases hr

/-- Where the sink takes everything a transfer succeeds that can. -/
theorem httpGet_succeeds (hsink : Sinks world sink I)
    (hfair : ∀ got s ctx data, I got s.2 ctx → (run (both call world) s (sink ctx data)).2.2 = 0)
    {url : CStr} {ctx : κ} {rounds : ℕ} (hgot : I [] s.2 ctx) (hrounds : s.1.events.length < rounds)
    (hs : s.1.Succeeds) :
    ∃ s' ctx' n, run (both call world) s (httpGet sink url ctx rounds) = (s', some (ctx', .ok n)) := by
  have hinit : run call s.1 (ask (WebCall.init url)) = (s.1, s.1.opens) := rfl
  obtain ⟨s₁, g, err, hperform, hok⟩ :=
    @httpPerform_ends σ κ world sink I s ⟨ctx, 0, espOk⟩ [] hsink rounds espOk hrounds
  have hok' := hok hfair hgot rfl
  obtain ⟨hres, hend, -⟩ := @httpPerform_run σ κ world sink I s _ [] hsink rounds espOk err s₁ g hperform hok'
  rw [httpGet, run_bind, run_onWeb, hinit]
  dsimp only
  rw [if_pos hs.1, run_bind, hperform]
  have hstatus : run call s₁.1 (ask WebCall.statusCode) = (s₁.1, s₁.1.status) := rfl
  dsimp only
  rw [run_bind, run_onWeb, hstatus]
  dsimp only
  rw [run_bind, httpResult_ok.mpr ⟨hok', hres.trans hs.2.1, by rw [hend]; exact hs.2.2, rfl⟩]
  exact ⟨_, _, _, rfl⟩

end Web

/-! ### The card -/

/-- The file of the card that a destination means. -/
def Endpoint.target (sh : Shell) : Endpoint → Option CStr
  | .sd name => sh.resolve name
  | .url _ => none

/-- Only the destination is opened, to write it. -/
def intoTarget (target : Option CStr) :
    Contract (WebCall ⊕ (StdioCall ⊕ (NetCall ⊕ NetCall)))
      (Either WebCall.Answer (Either StdioCall.Answer (Either NetCall.Answer NetCall.Answer))) Unit where
  may _ c :=
    match c with
    | .inr (.inl (.fopen .sout path)) => target = some path
    | .inr (.inl (.fopen .sin _)) | .inr (.inl (.fread _)) => False
    | _ => True
  gives _ _ _ := True
  next _ _ _ := ()

section

variable {target : Option CStr} {α : Type} {Q : Unit → α → Prop} {κ : Type} {sink : κ → Bytes → Fetch (κ × ℤ)}

theorem obeys_onWeb {p : Prog WebCall WebCall.Answer α} (h : ∀ a, Q () a) :
    (intoTarget target).Obeys () (onWeb p) Q := by
  induction p with
  | ret a => exact h a
  | call c k ih => exact ⟨trivial, fun r _ => ih r⟩

theorem obeys_onDest {p : Net α} (h : ∀ a, Q () a) : (intoTarget target).Obeys () (onCopy (onDest p)) Q := by
  induction p with
  | ret a => exact h a
  | call c k ih => exact ⟨trivial, fun r _ => ih r⟩

theorem obeys_bind {β : Type} {p : Copy α} {f : α → Copy β} {S : Unit → β → Prop}
    (h : (intoTarget target).Obeys () (onCopy p) fun _ a => (intoTarget target).Obeys () (onCopy (f a)) S) :
    (intoTarget target).Obeys () (onCopy (p >>= f)) S := by
  induction p with
  | ret a => exact h
  | call c k ih => exact ⟨h.1, fun r hr => ih r (h.2 r hr)⟩

theorem onHttpEvent_into (hsink : ∀ ctx data, (intoTarget target).Obeys () (sink ctx data) fun _ _ =>
      True) (g : HttpGet κ) (e : WebEvent) :
    (intoTarget target).Obeys () (onHttpEvent sink g e) fun _ _ => True := by
  cases e with
  | other | returned => trivial
  | onData data =>
    refine Contract.obeys_ite trivial (Contract.Obeys.bind (obeys_onWeb fun status => ?_))
    refine Contract.obeys_ite trivial
      (Contract.obeys_ite trivial (Contract.Obeys.bind ((hsink _ _).mono fun _ took _ => ?_)))
    exact Contract.obeys_ite trivial trivial

theorem httpPerform_into (hsink : ∀ ctx data, (intoTarget target).Obeys () (sink ctx data) fun _ _ =>
      True) (g : HttpGet κ) (handled : ℤ) (rounds : ℕ) :
    (intoTarget target).Obeys () (httpPerform sink g handled rounds) fun _ _ => True := by
  induction rounds generalizing g handled with
  | zero => trivial
  | succ rounds ih =>
    refine Contract.Obeys.bind (obeys_onWeb fun e => ?_)
    cases e with
    | returned err => trivial
    | other => exact Contract.Obeys.bind ((onHttpEvent_into hsink g .other).mono fun _ next _ => ih ..)
    | onData data =>
      exact Contract.Obeys.bind ((onHttpEvent_into hsink g (.onData data)).mono fun _ next _ => ih ..)

theorem httpGet_into (hsink : ∀ ctx data, (intoTarget target).Obeys () (sink ctx data) fun _ _ => True)
    (url : CStr) (ctx : κ) (rounds : ℕ) :
    (intoTarget target).Obeys () (httpGet sink url ctx rounds) fun _ _ => True := by
  refine Contract.Obeys.bind (obeys_onWeb fun opens => Contract.obeys_ite ?_ trivial)
  refine Contract.Obeys.bind ((httpPerform_into hsink _ _ _).mono fun _ result _ => ?_)
  cases result with
  | none => trivial
  | some result =>
    exact Contract.Obeys.bind (obeys_onWeb fun status => Contract.Obeys.bind (obeys_onWeb fun _ => trivial))

theorem copyWrite_into (off : UInt32) (data : Bytes) (out : CopyOut) :
    (intoTarget target).Obeys () (onCopy (copyWrite off data out)) fun _ _ => True := by
  cases out with
  | rout f =>
    refine obeys_bind (obeys_onDest ?_)
    rintro ⟨f, e | u⟩ <;> trivial
  | sout => exact ⟨trivial, fun put _ => trivial⟩

theorem copySinkWrite_into (s : CopySink) (data : Bytes) :
    (intoTarget target).Obeys () (copySinkWrite s data) fun _ _ => True := by
  refine Contract.Obeys.bind ((copyWrite_into s.off data s.out).mono fun _ r _ => ?_)
  obtain ⟨out, e | u⟩ := r <;> trivial

theorem closeOut_into (out : CopyOut) :
    (intoTarget target).Obeys () (onCopy (closeOut out)) fun _ _ => True := by
  cases out with
  | rout f => exact obeys_bind (obeys_onDest fun _ => trivial)
  | sout => exact ⟨trivial, fun _ _ => trivial⟩

theorem copyOpenDest_into (sh : Shell) (dst : Endpoint) :
    (intoTarget (dst.target sh)).Obeys () (onCopy (copyOpenDest sh dst)) fun _ _ => True := by
  cases dst with
  | url path =>
    refine obeys_bind (obeys_onDest ?_)
    rintro (e | f) <;> trivial
  | sd name =>
    rw [copyOpenDest, Endpoint.target]
    split
    · trivial
    · next path hpath =>
      rw [hpath]
      refine ⟨trivial, fun refused _ => ?_⟩
      cases refused with
      | some drive => trivial
      | none =>
        refine ⟨rfl, fun opened _ => ⟨trivial, fun _ _ => ?_⟩⟩
        cases opened <;> trivial

/-- Of the card a copy from a web server opens its destination only, and it reads nothing. -/
theorem cmdCopyHttp_into (sh : Shell) (online : Bool) (url : CStr) (dst : Endpoint) (rounds : ℕ) :
    (intoTarget (dst.target sh)).Obeys () (cmdCopyHttp sh online url dst rounds) fun _ _ => True := by
  refine Contract.obeys_ite trivial
    (Contract.Obeys.bind ((copyOpenDest_into sh dst).mono fun _ opened _ => ?_))
  cases opened with
  | error e => trivial
  | ok out =>
    refine Contract.Obeys.bind ((httpGet_into copySinkWrite_into _ _ _).mono fun _ result _ => ?_)
    cases result with
    | none => trivial
    | some result =>
      obtain ⟨sink, result⟩ := result
      refine Contract.Obeys.bind ((closeOut_into sink.out).mono fun _ closed _ => ?_)
      cases result <;> trivial

end

/-- The files that were there are, but for the one the destination means. -/
structure Spared (v : Volume) (files : Loc → Bytes) (target : Option CStr) (b : Stdio) : Prop where
  known : ∀ q, target = some q → b.names q = Stdio.namesOf v q ∨ Stdio.namesOf v q = .absent ∧
    b.names q = .file none
  names : ∀ p, Stdio.namesOf v p ≠ .absent → b.names p = Stdio.namesOf v p
  data : ∀ l, (∀ q, target = some q → Stdio.namesOf v q ≠ .file (some l)) →
    b.data (some l) = files l ∧ b.dest ≠ some l

variable {v : Volume} {files : Loc → Bytes} {target : Option CStr} {b : Stdio}

theorem Spared.same (h : Spared v files target b) {b' : Stdio} (hnames : b'.names = b.names)
    (hdata : b'.data = b.data) (hdest : b'.dest = b.dest) : Spared v files target b' := by
  refine ⟨?_, ?_, ?_⟩
  · rw [hnames]
    exact h.known
  · rw [hnames]
    exact h.names
  · rw [hdata, hdest]
    exact h.data

/-- A write to the destination. -/
theorem Spared.write (h : Spared v files target b) (bs : Bytes) : Spared v files target (b.write bs) := by
  refine ⟨h.known, h.names, fun l hl => ⟨?_, (h.data l hl).2⟩⟩
  exact (Function.update_of_ne (h.data l hl).2.symm ..).trans (h.data l hl).1

theorem Spared.call (h : Spared v files target b) (c : StdioCall)
    (hmay : (intoTarget target).may () (.inr (.inl c))) :
    Spared v files target (b.call c).1 := by
  cases c with
  | fopen f path =>
    cases f with
    | sin => exact hmay.elim
    | sout =>
      have hpath : target = some path := hmay
      unfold Stdio.call
      dsimp only
      split
      · exact h.same rfl rfl rfl
      · split
        · next habsent =>
          have hnew : Stdio.namesOf v path = .absent := by
            rcases h.known path hpath with hknown | ⟨-, hknown⟩
            · exact hknown.symm.trans habsent
            · rw [habsent] at hknown
              cases hknown
          refine ⟨fun q hq => ?_, fun p hp => ?_, fun l hl => ⟨?_, (Option.some_ne_none l).symm⟩⟩
          · obtain rfl : path = q := Option.some.inj (hpath.symm.trans hq)
            exact .inr ⟨hnew, Function.update_self ..⟩
          · refine (Function.update_of_ne ?_ ..).trans (h.names p hp)
            rintro rfl
            exact hp hnew
          · change Function.update b.data none [] (some l) = files l
            rw [Function.update_of_ne (Option.some_ne_none l)]
            exact (h.data l hl).1
        · exact h.same rfl rfl rfl
        · next i hi =>
          refine ⟨h.known, h.names, fun l hl => ?_⟩
          have hother : some l ≠ i := by
            rintro rfl
            rcases h.known path hpath with hknown | ⟨-, hknown⟩
            · exact hl path hpath (hknown.symm.trans hi)
            · rw [hi] at hknown
              cases hknown
          exact ⟨(Function.update_of_ne hother ..).trans (h.data l hl).1, hother.symm⟩
  | fread n => exact hmay.elim
  | ferror | changeBegin path | changeEnd => exact h
  | fwrite bs => exact Spared.write (b := { b with time := b.time + 1 }) (h.same rfl rfl rfl) _
  | fclose f =>
    cases f with
    | sin => exact h.same rfl rfl rfl
    | sout =>
      unfold Stdio.call
      dsimp only
      split
      · exact Spared.write (b := { b with time := b.time + 1 }) (h.same rfl rfl rfl) _
      · exact h.same rfl rfl rfl

/-! ### Whole copies -/

section

open Tnfsd

variable {σ τ : Type} {world : σ → (c : SysCall) → σ × c.Answer} {clock : ℕ → ℕ} {fate : ℕ → Fate} {me : Peer}
  {other : τ → (c : NetCall) → τ × c.Answer} {a : Stdio}

/-- What `cmdCopyHttp` runs in. -/
abbrev httpWorld (world : σ → (c : SysCall) → σ × c.Answer) (clock : ℕ → ℕ) (fate : ℕ → Fate) (me : Peer)
    (other : τ → (c : NetCall) → τ × c.Answer) :=
  both Web.call (copyWorld world clock fate me other)

theorem spared_kept (v : Volume) (files : Loc → Bytes) (target : Option CStr) :
    (intoTarget target).KeptBy (httpWorld world clock fate me other) fun s _ =>
      Spared v files target s.2.1 := by
  intro s g c hs hmay
  refine ⟨trivial, ?_⟩
  rcases c with c | c | c | c
  · exact hs
  · exact hs.call c hmay
  · exact hs
  · exact hs

/-- The opened destination holds what was got. -/
def HoldsGot (a : Stdio) (got : Bytes) (s : Stdio × Wire σ × τ) (sink : CopySink) : Prop :=
  sink.out = .sout ∧ Filled got got.length a s.1 ∧ s.1.weather = a.weather

theorem copySinkWrite_sinks (a : Stdio) :
    Web.Sinks (copyWorld world clock fate me other) copySinkWrite (HoldsGot a) where
  web s ctx data := by
    rw [copySinkWrite, run_bind, Web.run_onCopy]
    generalize run (copyWorld world clock fate me other) s.2 (copyWrite ctx.off data ctx.out) = r
    obtain ⟨s', out, e | u⟩ := r <;> rfl
  takes got s ctx data hgot hok := by
    obtain ⟨hout, hfilled, hweather⟩ := hgot
    rw [copySinkWrite, run_bind, Web.run_onCopy, hout] at hok ⊢
    cases hr : run (copyWorld world clock fate me other) s.2 (copyWrite ctx.off data .sout) with
    | mk s' r =>
      obtain ⟨out, r⟩ := r
      rw [hr] at hok
      obtain ⟨hsame, -, hwrote⟩ := copyWrite_run hr.symm
      cases r with
      | error e => cases hok
      | ok u =>
        have hall : Filled (got ++ data) got.length a s.2.1 := by
          refine ⟨hfilled.names, hfilled.dest, ?_⟩
          rw [hfilled.data, List.take_left, List.take_length]
        refine ⟨hsame, ?_, (congrArg Stdio.weather (hwrote rfl)).trans hweather⟩
        rw [List.length_append]
        exact hall.next (hwrote rfl) (by rw [List.drop_left])

/-- In fair weather the card takes everything. -/
theorem copySinkWrite_fair (hfair : a.weather = fair) (got : Bytes) (s : Web × Stdio × Wire σ × τ)
    (sink : CopySink) (data : Bytes) (hgot : HoldsGot a got s.2 sink) :
    (run (httpWorld world clock fate me other) s (copySinkWrite sink data)).2.2 = 0 := by
  obtain ⟨hout, -, hweather⟩ := hgot
  have hputs : s.2.1.puts data = data := by
    rw [Stdio.puts, hweather, hfair]
    rfl
  rw [copySinkWrite, run_bind, Web.run_onCopy, hout, copyWrite, run_bind, run_onCard, run_ask]
  have hcall : (Stdio.call s.2.1 (.fwrite data)).2 = data.length := congrArg List.length hputs
  dsimp only
  rw [hcall, if_pos rfl]
  rfl

variable {sh : Shell} {online : Bool} {url dst : CStr} {rounds : ℕ} {guard : CStr → Option ℕ}
    {weather : ℕ → Weather} {w : Web} {x : Wire σ × τ}

theorem spared_start (v : Volume) (files : Loc → Bytes) (guard : CStr → Option ℕ)
    (weather : ℕ → Weather) (target : Option CStr) :
    Spared v files target (Stdio.start v files guard weather) :=
  ⟨fun _ _ => .inl rfl, fun _ _ => rfl, fun _ _ => ⟨rfl, (Option.some_ne_none _).symm⟩⟩

/-- A copy that says it succeeded. -/
theorem cmdCopyHttp_run {r : (Web × Stdio × Wire σ × τ) × Option (Except HttpCopyError UInt32)} {k : UInt32}
    (hr : r = run (httpWorld world clock fate me other) (w, Stdio.start v files guard weather, x)
      (cmdCopyHttp sh online url (.sd dst) rounds)) (hok : r.2 = some (.ok k)) :
    online = true ∧ Opens sh v guard dst ∧ w.Succeeds ∧ k = UInt32.ofNat (Web.bodyOf w.events).length ∧
      CopiedTo sh dst (Web.bodyOf w.events) r.1.2.1 := by
  rw [cmdCopyHttp] at hr
  split at hr
  · rw [hr] at hok
    cases hok
  · next honline =>
    rw [run_bind, Web.run_onCopy] at hr
    cases hopen : run (copyWorld world clock fate me other) (Stdio.start v files guard weather, x)
      (copyOpenDest sh (.sd dst)) with
    | mk s₁ opened =>
      rw [hopen] at hr
      cases opened with
      | error e =>
        rw [hr] at hok
        cases hok
      | ok out =>
        obtain ⟨rfl, q, hq, hguard, hdst, hs₁⟩ := copyOpenDest_run hopen.symm rfl
        obtain ⟨i, st, hcall, hdest, hname, hdata, hwas, -⟩ := Stdio.call_fopen_sout hdst
        dsimp only at hs₁
        rw [hcall] at hs₁
        subst hs₁
        have hopens : Opens sh v guard dst := by
          refine ⟨q, hq, hguard, fun hfolder => ?_⟩
          rcases hwas with hfile | ⟨habsent, -⟩
          · exact Named.noConfusion (hfolder.symm.trans hfile)
          · exact Named.noConfusion (hfolder.symm.trans habsent)
        have hstart : HoldsGot st [] (st, x) ⟨.sout, 0, none⟩ := by
          refine ⟨rfl, ⟨rfl, rfl, ?_⟩, rfl⟩
          rw [List.take_nil, hdata, hdest, Function.update_idem]
        dsimp only at hr
        rw [run_bind] at hr
        cases hget : run (httpWorld world clock fate me other) (w, st, x)
          (httpGet copySinkWrite url ⟨.sout, 0, none⟩ rounds) with
        | mk s₂ result =>
          rw [hget] at hr
          cases result with
          | none =>
            rw [hr] at hok
            cases hok
          | some result =>
            obtain ⟨sink, result⟩ := result
            dsimp only at hr
            rw [run_bind, Web.run_onCopy] at hr
            cases result with
            | error err =>
              rw [hr] at hok
              cases hok
            | ok got =>
              obtain ⟨hsucceeds, ⟨hout, hfilled, -⟩, hgot⟩ :=
                Web.httpGet_run (copySinkWrite_sinks st) hstart hget
              rw [hout] at hr
              cases hclose : run (copyWorld world clock fate me other) s₂.2 (closeOut .sout) with
              | mk s₃ closed =>
                rw [hclose] at hr
                rw [hr] at hok ⊢
                cases closed with
                | false => cases hok
                | true =>
                  cases hok
                  have hsame := closeOut_run hclose.symm rfl
                  refine ⟨by simpa using honline, hopens, hsucceeds, hgot, q, hq, ?_⟩
                  change Stdio.contentOf s₃.1 q = _
                  rw [Stdio.contentOf, hsame.names, hfilled.names, hname]
                  dsimp only
                  rw [hsame.data, hfilled.data, hdest, Function.update_self, List.take_length]

/-- In fair weather a copy succeeds that can. -/
theorem cmdCopyHttp_succeeds (hopens : Opens sh v guard dst) (hsucceeds : w.Succeeds)
    (hrounds : w.events.length < rounds) :
    ∃ s' k, run (httpWorld world clock fate me other) (w, Stdio.start v files guard fair, x)
      (cmdCopyHttp sh true url (.sd dst) rounds) = (s', some (.ok k)) := by
  obtain ⟨q, hq, hguard, hfolder⟩ := hopens
  have hdst : ((Stdio.start v files guard fair).call (.fopen .sout q)).2 = .ok () :=
    fopen_sout_fair rfl hfolder
  have hopen := @copyOpenDest_opens σ τ world clock fate me other (Stdio.start v files guard fair, x)
    sh dst q hq hguard hdst
  obtain ⟨i, st, hcall, hdest, -, hdata, -, -, -, -, -, -, hweather, -⟩ := Stdio.call_fopen_sout hdst
  have hfair : st.weather = fair := hweather
  rw [hcall] at hopen
  have hstart : HoldsGot st [] (st, x) ⟨.sout, 0, none⟩ := by
    refine ⟨rfl, ⟨rfl, rfl, ?_⟩, rfl⟩
    rw [List.take_nil, hdata, hdest, Function.update_idem]
  obtain ⟨s₂, sink, n, hget⟩ := @Web.httpGet_succeeds _ _ (copyWorld world clock fate me other)
    copySinkWrite (HoldsGot st) (w, st, x)
    (copySinkWrite_sinks st) (copySinkWrite_fair hfair) url ⟨.sout, 0, none⟩ rounds hstart hrounds hsucceeds
  obtain ⟨-, ⟨hout, -, hweather₂⟩, -⟩ := Web.httpGet_run (copySinkWrite_sinks st) hstart hget
  obtain ⟨s₃, hclose, -⟩ := @closeOut_fair σ τ world clock fate me other s₂.2 (hweather₂.trans hfair)
  refine ⟨(s₂.1, s₃), n, ?_⟩
  rw [cmdCopyHttp, if_neg (by decide), run_bind, Web.run_onCopy, hopen]
  dsimp only
  rw [run_bind, hget]
  dsimp only
  rw [run_bind, Web.run_onCopy, hout, hclose]
  rfl

/-- Whatever a web server and its connection do: no file of the card is changed but the one the
    destination means. That one has the whole 2xx body and nothing else when the command says that it
    copied so many bytes; and with the card in fair weather it says so just when there is a destination
    and the transfer succeeds. -/
theorem http_copy_exact (sh : Shell) (v : Volume) (files : Loc → Bytes) (guard : CStr → Option ℕ)
    (weather : ℕ → Weather) (online : Bool) (url : CStr) (dst : Endpoint) (rounds : ℕ) (w : Web)
    (world : σ → (c : SysCall) → σ × c.Answer) (clock : ℕ → ℕ) (fate : ℕ → Fate) (me : Peer)
    (other : τ → (c : NetCall) → τ × c.Answer) (x : Wire σ × τ) :
    ∃ after card net result, run (httpWorld world clock fate me other)
      (w, Stdio.start v files guard weather, x)
        (cmdCopyHttp sh online url dst rounds) = ((after, card, net), result) ∧
      Spared v files (dst.target sh) card ∧
      ∀ name, dst = .sd name →
        (∀ k, result = some (.ok k) → online = true ∧ Opens sh v guard name ∧ w.Succeeds ∧
          k = UInt32.ofNat (Web.bodyOf w.events).length ∧ CopiedTo sh name (Web.bodyOf w.events) card) ∧
        (weather = fair → w.events.length < rounds →
          ((∃ k, result = some (.ok k)) ↔ online = true ∧ Opens sh v guard name ∧ w.Succeeds)) := by
  obtain ⟨-, -, hspared⟩ := (cmdCopyHttp_into sh online url dst rounds).sound
    (@spared_kept σ τ world clock fate me other v files (dst.target sh))
    (s := (w, Stdio.start v files guard weather, x)) (spared_start v files guard weather (dst.target sh))
  refine ⟨_, _, _, _, rfl, hspared, ?_⟩
  rintro name rfl
  refine ⟨fun k hok => cmdCopyHttp_run rfl hok, fun hfair hrounds => ⟨?_, ?_⟩⟩
  · rintro ⟨k, hok⟩
    obtain ⟨honline, hopens, hsucceeds, -⟩ := cmdCopyHttp_run rfl hok
    exact ⟨honline, hopens, hsucceeds⟩
  · rintro ⟨rfl, hopens, hsucceeds⟩
    subst hfair
    obtain ⟨s', k, hrun⟩ :=
      @cmdCopyHttp_succeeds v files σ τ world clock fate me other sh url name rounds guard w x
        hopens hsucceeds hrounds
    exact ⟨k, by rw [hrun]⟩

end

end FdcSds
