import FdcSds.Cli.Editor

/-! Telnet on the network console (`src/net/console.c`).

    The parser takes the Telnet sequences out of what is received, byte by byte and over the ends of
    receives, and feeds the rest to the line editor. What it answers is left out.

        data ──IAC──▶ iac ──WILL WONT DO DONT──▶ opt ──any──▶ data
                       │ ──SB──▶ sb ──IAC──▶ sbIac ──SE──▶ data
                       └─ any other ─▶ data                        -/

namespace FdcSds
open Schemes

def telSe : UInt8 := 240
def telSb : UInt8 := 250
def telWill : UInt8 := 251
def telWont : UInt8 := 252
def telDo : UInt8 := 253
def telDont : UInt8 := 254
def telIac : UInt8 := 255

def teloptEcho : UInt8 := 1

inductive TnState where
  | data | iac | opt | sb | sbIac
  deriving DecidableEq

/-- `telnet_t`. -/
structure Telnet where
  state : TnState
  cmd : UInt8

namespace CliConsole

variable (logout : Logout)

def isOptionCmd (b : UInt8) : Bool := b == telWill || b == telWont || b == telDo || b == telDont

/-- `telnet_feed`. -/
def telnetFeed (tn : Telnet) (con : CliConsole) (b : UInt8) : Telnet × CliConsole :=
  match tn.state with
  | .data => if b = telIac then ({ tn with state := .iac }, con) else (tn, con.cliFeed logout b)
  | .iac =>
    if b = telIac then ({ tn with state := .data }, con.cliFeed logout b)
    else if isOptionCmd b then (⟨.opt, b⟩, con)
    else if b = telSb then ({ tn with state := .sb }, con)
    else ({ tn with state := .data }, con)
  | .opt =>
    ({ tn with state := .data },
      if b = teloptEcho ∧ (tn.cmd = telDo ∨
        tn.cmd = telDont) then { con with echo := tn.cmd == telDo } else con)
  | .sb => (if b = telIac then { tn with state := .sbIac } else tn, con)
  | .sbIac => ({ tn with state := if b = telSe then .data else .sb }, con)

/-- The bytes of one `recv`, up to a disconnect. -/
def serveRecv (tn : Telnet) (con : CliConsole) : Bytes → Telnet × CliConsole
  | [] => (tn, con)
  | b :: bs =>
    if (con.telnetFeed logout tn b).2.disconnect then con.telnetFeed logout tn b
    else serveRecv (con.telnetFeed logout tn b).1 (con.telnetFeed logout tn b).2 bs

/-- The loop of `serve_client`, over what the calls of `recv` give. -/
def serveClient (tn : Telnet) (con : CliConsole) : List Bytes → Telnet × CliConsole
  | [] => (tn, con)
  | bs :: recvs =>
    if con.disconnect then (tn, con)
    else serveClient (serveRecv logout tn con bs).1 (serveRecv logout tn con bs).2 recvs

end CliConsole

/-! ### Sequences between data -/

/-- The complete Telnet sequences, but for an escaped 0xFF. -/
inductive IacSeq : Bytes → Prop
  | option (cmd opt : UInt8) : CliConsole.isOptionCmd cmd = true → IacSeq [telIac, cmd, opt]
  | sub (payload : Bytes) :
      IacSeq (telIac :: telSb :: payload.flatMap
        (fun b => if b = telIac then [telIac, telIac] else [b]) ++ [telIac, telSe])
  | other (b : UInt8) : b ≠ telIac → CliConsole.isOptionCmd b = false → b ≠ telSb → IacSeq [telIac, b]

/-- `wire` is `data` with sequences anywhere in it. -/
inductive Interleaved : Bytes → Bytes → Prop
  | nil : Interleaved [] []
  | data (b : UInt8) {data wire : Bytes} : b ≠ telIac → Interleaved data wire →
      Interleaved (b :: data) (b :: wire)
  | seq {q data wire : Bytes} : IacSeq q → Interleaved data wire → Interleaved data (q ++ wire)

namespace CliConsole

variable {logout : Logout} {tn : Telnet} {con con' : CliConsole} {bs data wire : Bytes}

/-- The same, but for the echo. -/
structure SameEditor (con con' : CliConsole) : Prop where
  isNetwork : con'.isNetwork = con.isNetwork
  disconnect : con'.disconnect = con.disconnect
  len : con'.len = con.len
  sawCr : con'.sawCr = con.sawCr
  line : con'.line = con.line
  dispatched : con'.dispatched = con.dispatched

theorem SameEditor.eq (h : SameEditor con con') : con' = { con with echo := con'.echo } := by
  obtain ⟨echo, net, disc, len, cr, line, lines⟩ := con
  obtain ⟨echo', net', disc', len', cr', line', lines'⟩ := con'
  obtain ⟨rfl, rfl, rfl, rfl, rfl, rfl⟩ := h
  rfl

/-- The echo does not matter to the editor. -/
theorem SameEditor.feed (h : SameEditor con con') (b : UInt8) :
    SameEditor (con.cliFeed logout b) (con'.cliFeed logout b) := by
  rw [h.eq]
  generalize con'.echo = echo
  have hfeed : cliFeed logout { con with echo := echo } b = { con.cliFeed logout b with echo := echo } := by
    unfold cliFeed
    dsimp only [dispatch]
    repeat' split
    all_goals rfl
  rw [hfeed]
  exact ⟨rfl, rfl, rfl, rfl, rfl, rfl⟩

/-! ### Receives -/

/-- A stream, up to a disconnect. -/
def serveBytes (logout : Logout) (tn : Telnet) (con : CliConsole) : Bytes → Telnet × CliConsole
  | [] => (tn, con)
  | b :: bs =>
    if con.disconnect then (tn, con)
    else serveBytes logout (con.telnetFeed logout tn b).1 (con.telnetFeed logout tn b).2 bs

theorem serveBytes_done (h : con.disconnect = true) (bs : Bytes) :
    serveBytes logout tn con bs = (tn, con) := by
  cases bs with
  | nil => rfl
  | cons b bs => rw [serveBytes, if_pos h]

theorem serveBytes_append (bs cs : Bytes) : serveBytes logout tn con (bs ++ cs) =
    serveBytes logout (serveBytes logout tn con bs).1 (serveBytes logout tn con bs).2 cs := by
  induction bs generalizing tn con with
  | nil => rfl
  | cons b bs ih =>
    rw [List.cons_append, serveBytes, serveBytes]
    split
    · next h => exact (serveBytes_done h cs).symm
    · exact ih

theorem serveRecv_eq (h : con.disconnect = false) (bs : Bytes) :
    serveRecv logout tn con bs = serveBytes logout tn con bs := by
  induction bs generalizing tn con with
  | nil => rfl
  | cons b bs ih =>
    have hgo : ¬ con.disconnect = true := by simp [h]
    rw [serveRecv, serveBytes, if_neg hgo]
    split
    · next hdone => exact (serveBytes_done hdone bs).symm
    · next hon => exact ih (by simpa using hon)

/-- How the stream is split over receives does not matter. -/
theorem serveClient_eq (recvs : List Bytes) :
    serveClient logout tn con recvs = serveBytes logout tn con recvs.flatten := by
  induction recvs generalizing tn con with
  | nil => rfl
  | cons bs recvs ih =>
    rw [serveClient, List.flatten_cons, serveBytes_append]
    split
    · next h =>
      rw [serveBytes_done h]
      exact (serveBytes_done h _).symm
    · next h => rw [ih, serveRecv_eq (by simpa using h)]

/-! ### Sequences -/

theorem sameEditor_refl (con : CliConsole) : SameEditor con con := ⟨rfl, rfl, rfl, rfl, rfl, rfl⟩

theorem serve_cons (h : con.disconnect = false) (b : UInt8) (rest : Bytes) :
    serveBytes logout tn con (b :: rest) =
    serveBytes logout (con.telnetFeed logout tn b).1 (con.telnetFeed logout tn b).2 rest := by
  rw [serveBytes, if_neg (by simp [h])]

/-- The payload of a subnegotiation is skipped. -/
theorem serve_payload (h : con.disconnect = false) (cmd : UInt8) (payload rest : Bytes) :
    serveBytes logout ⟨.sb, cmd⟩ con
      (payload.flatMap (fun b => if b = telIac then [telIac, telIac] else [b]) ++ rest) =
      serveBytes logout ⟨.sb, cmd⟩ con rest := by
  induction payload with
  | nil => rfl
  | cons b payload ih =>
    rw [List.flatMap_cons, List.append_assoc]
    by_cases hb : b = telIac
    · rw [if_pos hb]
      change serveBytes logout _ con (telIac :: telIac :: _) = _
      rw [serve_cons h]
      exact (serve_cons h _ _).trans ih
    · have hstay : telnetFeed logout ⟨.sb, cmd⟩ con b = (⟨.sb, cmd⟩, con) := by simp [telnetFeed, hb]
      rw [if_neg hb]
      change serveBytes logout _ con (b :: _) = _
      rw [serve_cons h, hstay]
      exact ih

/-- A sequence is skipped, but for the echo. -/
theorem serve_seq {q : Bytes} (hq : IacSeq q) (cmd : UInt8) (h : con.disconnect = false) (rest : Bytes) :
    ∃ cmd' con', SameEditor con con' ∧ serveBytes logout ⟨.data, cmd⟩ con (q ++ rest) =
      serveBytes logout ⟨.data, cmd'⟩ con' rest := by
  have hiac : telnetFeed logout ⟨.data, cmd⟩ con telIac = (⟨.iac, cmd⟩, con) := rfl
  cases hq with
  | option cmd' opt hcmd =>
    have hne : cmd' ≠ telIac := by
      rintro rfl
      exact absurd hcmd (by decide)
    have hopt : telnetFeed logout ⟨.iac, cmd⟩ con cmd' = (⟨.opt, cmd'⟩, con) := by
      simp [telnetFeed, hne, hcmd]
    refine ⟨cmd', (telnetFeed logout ⟨.opt, cmd'⟩ con opt).2, ?_, ?_⟩
    · rw [telnetFeed]
      dsimp only
      split
      · exact ⟨rfl, rfl, rfl, rfl, rfl, rfl⟩
      · exact sameEditor_refl con
    · change serveBytes logout _ con (telIac :: cmd' :: opt :: rest) = _
      rw [serve_cons h, hiac, serve_cons h, hopt, serve_cons h]
      rfl
  | sub payload =>
    refine ⟨cmd, con, sameEditor_refl con, ?_⟩
    have hsb : telnetFeed logout ⟨.iac, cmd⟩ con telSb = (⟨.sb, cmd⟩, con) := rfl
    change serveBytes logout _ con (telIac :: telSb :: ((payload.flatMap _ ++ [telIac, telSe]) ++ rest)) = _
    rw [serve_cons h, hiac, serve_cons h, hsb, List.append_assoc, serve_payload h]
    change serveBytes logout _ con (telIac :: telSe :: rest) = _
    rw [serve_cons h]
    exact serve_cons h _ _
  | other b hne hcmd hsb =>
    have hother : telnetFeed logout ⟨.iac, cmd⟩ con b = (⟨.data, cmd⟩, con) := by
      simp [telnetFeed, hne, hcmd, hsb]
    refine ⟨cmd, con, sameEditor_refl con, ?_⟩
    change serveBytes logout _ con (telIac :: b :: rest) = _
    rw [serve_cons h, hiac, serve_cons h, hother]

theorem SameEditor.trans {con'' : CliConsole} (h : SameEditor con con') (h' : SameEditor con' con'') :
    SameEditor con con'' :=
  ⟨h'.isNetwork.trans h.isNetwork, h'.disconnect.trans h.disconnect, h'.len.trans h.len,
    h'.sawCr.trans h.sawCr,
    h'.line.trans h.line, h'.dispatched.trans h.dispatched⟩

theorem serve_interleaved (h : Interleaved data wire) (hsame : SameEditor con con') (cmd cmd' : UInt8) :
    SameEditor (serveBytes logout ⟨.data, cmd⟩ con data).2 (serveBytes logout ⟨.data, cmd'⟩ con' wire).2 := by
  induction h generalizing con con' cmd cmd' with
  | nil => exact hsame
  | data b hb _ ih =>
    have hdata : ∀ (cmd : UInt8) (c : CliConsole),
      telnetFeed logout ⟨.data, cmd⟩ c b = (⟨.data, cmd⟩, c.cliFeed logout b) := by
      intro cmd c
      simp [telnetFeed, hb]
    cases hdone : con.disconnect with
    | true =>
      rw [serveBytes_done hdone, serveBytes_done (hsame.disconnect.trans hdone)]
      exact hsame
    | false =>
      rw [serve_cons hdone, serve_cons (hsame.disconnect.trans hdone), hdata, hdata]
      exact ih (hsame.feed b) cmd cmd'
  | seq hq _ ih =>
    cases hdone : con.disconnect with
    | true =>
      rw [serveBytes_done hdone, serveBytes_done (hsame.disconnect.trans hdone)]
      exact hsame
    | false =>
      obtain ⟨cmd₂, con₂, hskip, hserve⟩ := serve_seq hq cmd' (hsame.disconnect.trans hdone) _
      rw [hserve]
      exact ih (hsame.trans hskip) cmd cmd₂

/-- Telnet sequences between the data, and how it all is split over receives, make no difference to the
    lines that are dispatched or to the editor's state. -/
theorem telnet_invisible (logout : Logout) (con : CliConsole) (cmd cmd' : UInt8)
    (h : Interleaved data wire) (recvs recvs' : List Bytes) (hdata : recvs.flatten = data)
    (hwire : recvs'.flatten = wire) :
    SameEditor (serveClient logout ⟨.data, cmd⟩ con recvs).2
      (serveClient logout ⟨.data, cmd'⟩ con recvs').2 := by
  rw [serveClient_eq, serveClient_eq, hdata, hwire]
  exact serve_interleaved h (sameEditor_refl con) cmd cmd'

/-- Between CR and LF the client accepts the echo. -/
theorem telnet_invisible_crlf :
    SameEditor (serveClient (fun _ => false) ⟨.data, 0⟩ (cliConsoleInit false true) [[0x61, cr, lf]]).2
      (serveClient (fun _ => false) ⟨.data, 0⟩ (cliConsoleInit false true)
        [[0x61, cr, telIac], [telDo, teloptEcho, lf]]).2 :=
  telnet_invisible (fun _ => false) (cliConsoleInit false true) 0 0
    (.data 0x61 (by decide) (.data cr (by decide)
      (.seq (.option telDo teloptEcho (by decide)) (.data lf (by decide) .nil))))
    [[0x61, cr, lf]] [[0x61, cr, telIac], [telDo, teloptEcho, lf]] rfl rfl

end CliConsole

end FdcSds
