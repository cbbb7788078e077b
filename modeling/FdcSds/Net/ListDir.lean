import FdcSds.Net.Wire

/-! The client's directory listing (`tnfs_list_dir`), against this server.

    A transient session: MOUNT, OPENDIRX, READDIRX for one entry at a time until EOF, CLOSEDIR, UMOUNT.
    Only a server that rejects OPENDIRX is asked again with OPENDIR and READDIR, which give names only.

        MOUNT ─▶ OPENDIRX ─▶ READDIRX ⟲ entry: call back ─EOF─▶ CLOSEDIR ─▶ UMOUNT
                     └─rejected─▶ OPENDIR ─▶ READDIR ⟲                          -/

namespace FdcSds
open Schemes

/-! ### The client -/

/-- What a listing did: what it called back with, and how it ended; `none` while it goes on. -/
abbrev ListRun : Type := List Listed × Option (Except EspErr Unit)

/-- `tnfs_mount_root`. -/
def tnfsMountRoot (f : TnfsFile) : Net (TnfsFile × Except EspErr Unit) := do
  match ← tnfsCommand { f with seq := 0, conn := 0 } tnfsMount [tnfsVerLo, tnfsVerHi, 0x2F, 0, 0, 0] with
  | (f, .error e) => pure (f, .error e)
  | (f, .ok m) =>
    match mountReply m with
    | none => pure (f, .error .fail)
    | some sid => pure ({ f with conn := sid }, .ok ())

/-- The loop of `tnfs_listx`. -/
def listxLoop : ℕ → TnfsFile → UInt8 → List Listed → Net (TnfsFile × ListRun)
  | 0, f, _, calls => pure (f, calls, none)
  | rounds + 1, f, dh, calls => do
    match ← tnfsCommand f tnfsReaddirx [dh, 1] with
    | (f, .error e) => pure (f, calls, some (.error e))
    | (f, .ok m) =>
      if replyStatus m = tnfsEof then pure (f, calls, some (.ok ()))
      else match listxReply m with
        | none => pure (f, calls, some (.error .fail))
        | some ((batch, whole), last) =>
          if !whole then pure (f, calls ++ batch, some (.error .fail))
          else if last then pure (f, calls ++ batch, some (.ok ()))
          else listxLoop rounds f dh (calls ++ batch)

/-- `tnfs_listx`: the handle to close, and the run. -/
def tnfsListx (rounds : ℕ) (f : TnfsFile) (path : CStr) : Net (TnfsFile × UInt8 × ListRun) :=
  if tnfsMsgCap - tnfsHdrLen < 5 + (path.length + 1) then pure (f, 0, [], some (.error .invalidSize))
  else do
    match ← tnfsCommand f tnfsOpendirx ([0, 0] ++ le16 0 ++ [0] ++ CStr.bytes path ++ [0]) with
    | (f, .error e) => pure (f, 0, [], some (.error e))
    | (f, .ok m) =>
      match handleReply m with
      | none =>
        pure (f, 0, [], some (.error (if replyStatus m = tnfsEnoent then .notFound else .notSupported)))
      | some dh => do
        let (f, r) ← listxLoop rounds f dh []
        pure (f, dh, r)

/-- The loop of `tnfs_list_basic`. -/
def basicLoop : ℕ → TnfsFile → UInt8 → List Listed → Net (TnfsFile × ListRun)
  | 0, f, _, calls => pure (f, calls, none)
  | rounds + 1, f, dh, calls => do
    match ← tnfsCommand f tnfsReaddir [dh] with
    | (f, .error e) => pure (f, calls, some (.error e))
    | (f, .ok m) =>
      if replyStatus m = tnfsEof then pure (f, calls, some (.ok ()))
      else if replyStatus m ≠ tnfsOk then pure (f, calls, some (.error .fail))
      else
        -- an empty reply, like an empty name, is passed over
        let name := basicName m
        basicLoop rounds f dh (if name = [] then calls else calls ++ [(name, false)])

/-- `tnfs_list_basic`, with the handle that was there before. -/
def tnfsListBasic (rounds : ℕ) (f : TnfsFile) (path : CStr) (dh : UInt8) : Net (TnfsFile × UInt8 × ListRun) :=
  if tnfsMsgCap - tnfsHdrLen < path.length + 1 then pure (f, dh, [], some (.error .invalidSize))
  else do
    match ← tnfsCommand f tnfsOpendir (CStr.bytes path ++ [0]) with
    | (f, .error e) => pure (f, dh, [], some (.error e))
    | (f, .ok m) =>
      match handleReply m with
      | none => pure (f, dh, [], some (.error (if replyStatus m = tnfsEnoent then .notFound else .fail)))
      | some dh => do
        let (f, r) ← basicLoop rounds f dh []
        pure (f, dh, r)

/-- `tnfs_list_dir`, of the path in a parsed URL, with a server on UDP only. -/
def tnfsListDir (rounds : ℕ) (path : CStr) : Net ListRun := do
  match ← tnfsMountRoot ⟨0, 0, 0, 0, 0, false⟩ with
  | (_, .error _) => pure ([], some (.error .timeout))
  | (f, .ok ()) => do
    let (f, dh, r) ← tnfsListx rounds f path
    let (f, dh, r) ←
      if r.2 = some (.error .notSupported) then tnfsListBasic rounds f path dh else pure (f, dh, r)
    let (f, _) ← tnfsCommand f tnfsClosedir [dh]
    let _ ← tnfsCommand f tnfsUmount []
    pure r

namespace Tnfsd
open Prog

/-! ### Failures of the client -/

theorem attempts_ensures (req : Bytes) (seq cmd : UInt8) (n : ℕ) :
    (attempts req seq cmd n).Ensures fun r => r ≠ .error .notSupported := by
  induction n with
  | zero => exact fun h => by cases h
  | succ n ih =>
    refine fun sent => ?_
    cases sent with
    | false => exact fun h => by cases h
    | true =>
      refine fun r => ?_
      cases r with
      | none => exact ih
      | some m => exact ensures_ite (fun _ => ih) fun h => by cases h

/-- No command fails because it is not supported. -/
theorem tnfsCommand_ensures (f : TnfsFile) (cmd : UInt8) (pl : Bytes) :
    (tnfsCommand f cmd pl).Ensures fun r => r.2 ≠ .error .notSupported := by
  refine ensures_ite (fun h => by cases h) (Ensures.bind ((attempts_ensures _ _ _ _).mono fun r hr => ?_))
  cases r with
  | error e => exact fun h => hr h
  | ok m => exact fun h => by cases h

theorem listxLoop_ensures (n : ℕ) (f : TnfsFile) (dh : UInt8) (calls : List Listed) :
    (listxLoop n f dh calls).Ensures fun r => r.2.2 ≠ some (.error .notSupported) := by
  induction n generalizing f calls with
  | zero => exact fun h => by cases h
  | succ n ih =>
    refine Ensures.bind ((tnfsCommand_ensures f tnfsReaddirx [dh, 1]).mono ?_)
    rintro ⟨f', e | m⟩ hr
    · intro h
      cases h
      exact hr rfl
    · refine ensures_ite (fun h => by cases h) ?_
      split
      · exact fun h => by cases h
      · exact ensures_ite (fun h => by cases h) (ensures_ite (fun h => by cases h) (ih ..))

/-! ### Reading a handle over the wire -/

variable {σ : Type} {world : σ → (c : SysCall) → σ × c.Answer} {contents : CStr → List Dirent}
    {left whole : σ → ℕ → List Dirent} {asked : σ → List SysOp} {clock : ℕ → ℕ} {fate : ℕ → Fate}
    {me : Peer} {w : Wire σ} {f : TnfsFile} {d : DirSlot} {all : List Dirent} {h cmd : UInt8}
    {pl : Bytes} {before : List DirEntry}

/-- The card knows every call that was made on it. -/
def Remembers (world : σ → (c : SysCall) → σ × c.Answer) (asked : σ → List SysOp) : Prop :=
  ∀ card c, asked (world card c).1 = asked card ++ [⟨c, (world card c).2⟩]

/-- No call on the card is forgotten while a client plays a program. -/
theorem Remembers.run (hrem : Remembers world asked) {α : Type} (p : Net α) {w' : Wire σ}
    (hw' : w' = (run (wired world clock fate me) w p).1) : ∀ op ∈ asked w.card, op ∈ asked w'.card := by
  have hserved : ∀ (w₁ : Wire σ) (data : Bytes), ∀ op ∈ asked w₁.card,
    op ∈ asked (w₁.served world clock me data).card :=
    fun w₁ data op hop => run_preserves (I := fun card => op ∈ asked card)
      (fun card c hmem => by rw [hrem]; exact List.mem_append_left _ hmem) hop _
  intro op hop
  rw [hw']
  refine run_preserves (I := fun w₁ : Wire σ => op ∈ asked w₁.card) (fun w₁ c hmem => ?_) hop p
  cases c with
  | send data =>
    unfold wired
    dsimp only
    split
    · exact hmem
    · exact hserved w₁ data op hmem
    · exact hserved w₁ data op hmem
  | await seq cmd =>
    unfold wired
    dsimp only
    split <;> exact hmem
  | delay ms => exact hmem

/-- What was read of a stream is among the calls on the card. -/
theorem lists_remembered (hst : Streams world contents left whole) (hrem : Remembers world asked) {k : ℕ} :
    (lists k all).KeptBy world fun card log =>
      (left card k = restOf all log ∧ whole card k = all) ∧ ∀ op ∈ log, op ∈ asked card := by
  rintro card log c ⟨hreads, hlog⟩ hmay
  obtain ⟨hgives, hnext⟩ := lists_kept hst card log c hreads hmay
  refine ⟨hgives, hnext, fun op hop => ?_⟩
  rw [hrem]
  exact List.mem_append.mpr ((List.mem_append.mp hop).imp_left (hlog op))

/-- The client holds a session and in it a handle, from which the entries `before` were delivered. -/
def Wire.Delivered (left whole : σ → ℕ → List Dirent) (asked : σ → List SysOp) (me : Peer) (d : DirSlot)
    (all : List Dirent) (h : UInt8) (w : Wire σ) (f : TnfsFile) (before : List DirEntry) : Prop :=
  ∃ s d' log, w.Holds me f s ∧ s.dirSlot h = some d' ∧ Progress d all log d' before ∧
    (left w.card d.dir = restOf all log ∧ whole w.card d.dir = all) ∧ ∀ op ∈ log, op ∈ asked w.card

/-- The answers to READDIR and READDIRX. -/
theorem Answered.cases {shown before : List CStr} {a : Reply} {es : List DirEntry}
    (ha : Answered shown before pl a es) (hfits : a.Fits cmd)
    (hcmd : cmd = tnfsReaddir ∨ cmd = tnfsReaddirx) :
    (a = .failed tnfsEof ∧ es = [] ∧ before = shown) ∨
      (cmd = tnfsReaddir ∧ ∃ e, es = [e] ∧ a = .name e.name) ∨
      (cmd = tnfsReaddirx ∧ es ≠ [] ∧ ∃ st pos, a = .batch st pos es) := by
  have not_other : ∀ other : UInt8, other ≠ tnfsReaddir → other ≠ tnfsReaddirx → cmd ≠ other := by
    rintro other hne hne' rfl
    exact hcmd.elim hne hne'
  cases a with
  | failed st =>
    have hnil : es = [] := ha.gives
    have hall : before = shown := by
      by_contra hne
      exact ha.some hne hnil
    exact .inl ⟨ha.eof.mpr hall, hnil, hall⟩
  | busy ms => exact absurd hfits.1 (not_other _ (by decide) (by decide))
  | done =>
    rcases hfits with hfits | hfits | hfits <;> exact absurd hfits (not_other _ (by decide) (by decide))
  | mounted ms => exact absurd hfits (not_other _ (by decide) (by decide))
  | file x => exact absurd hfits (not_other _ (by decide) (by decide))
  | dir x => exact absurd hfits (not_other _ (by decide) (by decide))
  | listing x n => exact absurd hfits (not_other _ (by decide) (by decide))
  | moved pos => exact absurd hfits.1 (not_other _ (by decide) (by decide))
  | wrote n => exact absurd hfits.1 (not_other _ (by decide) (by decide))
  | data b => exact absurd hfits.1 (not_other _ (by decide) (by decide))
  | name x =>
    obtain ⟨e, hes, hname⟩ := ha.gives
    exact .inr (.inl ⟨hfits.1, e, hes, by rw [hname]⟩)
  | batch st pos es' =>
    have hsame : es = es' := ha.gives
    have hne : before ≠ shown := fun hall => absurd (ha.eof.mpr hall) (by rintro ⟨⟩)
    exact .inr (.inr ⟨hfits.1, ha.some hne, st, pos, by rw [hsame]⟩)

/-- The replies to READDIR and READDIRX are short, and do not ask to wait. -/
theorem reading_reply {a : Reply} (hfits : a.Fits cmd)
    (hkind : (∃ st, a = .failed st) ∨ (∃ x, a = .name x) ∨ ∃ st pos es, a = .batch st pos es) :
    a.body.length ≤ tnfsMsgCap - tnfsHdrLen ∧
      replyStatus (tnfsHeader f.conn f.seq cmd ++ a.body) ≠ tnfsEagain := by
  have hcap : tnfsMsgCap - tnfsHdrLen = 1028 := rfl
  rcases hkind with ⟨st, rfl⟩ | ⟨x, rfl⟩ | ⟨st, pos, es, rfl⟩
  · exact ⟨by rw [hcap]; exact Nat.le_add_left 1 1027, hfits.2⟩
  · have hshort : x.length < 256 := hfits.2.short
    refine ⟨?_, (by decide : tnfsOk ≠ tnfsEagain)⟩
    simp only [Reply.body, List.length_append, List.length_singleton, FdcSds.length_bytes]
    omega
  · have hroom := hfits.2.2.2
    refine ⟨?_, (by decide : tnfsOk ≠ tnfsEagain)⟩
    simp only [Reply.body, List.length_append, List.length_cons, List.length_nil, length_le16]
    omega

/-- A READDIR or READDIRX, over the wire. -/
theorem Wire.Delivered.ask (hst : Streams world contents left whole) (hrem : Remembers world asked)
    (hall : ∀ de ∈ all, WireName de.name) (hfew : all.length ≤ fatDirEntries)
    (hd : w.Delivered left whole asked me d all h f before) (hq : Asks h (cmd, pl))
    (hlen : tnfsHdrLen + pl.length ≤ tnfsMsgCap) {r : Wire σ × TnfsFile × Except EspErr Bytes}
    (hr : r = run (wired world clock fate me) w (tnfsCommand f cmd pl)) :
    ∃ a es, a.Fits cmd ∧ Answered ((d.shows all).map Dirent.name) (before.map DirEntry.name) pl a es ∧
      (∀ m, r.2.2 = .ok m → m = tnfsHeader f.conn f.seq cmd ++ a.body ∧
        r.1.Delivered left whole asked me d all h r.2.1 (before ++ es)) ∧
      (Prompt clock fate → w.Recent clock → (∃ m, r.2.2 = .ok m) ∧ r.1.Recent clock) := by
  obtain ⟨s, d', log, hholds, hd', hp, hreads, hasked⟩ := hd
  obtain ⟨-, ⟨a, es, d'', hbody, hfits, hd'', hp', hanswered⟩, hreads', hasked'⟩ :=
    (handle_answered hq hall hfew hd' hp).sound (lists_remembered hst hrem) ⟨hreads, hasked⟩
  dsimp only at hbody hfits hd'' hanswered
  have hcmd : cmd = tnfsReaddir ∨ cmd = tnfsReaddirx := hq.1.imp And.left And.left
  have hkind : (∃ st, a = .failed st) ∨ (∃ x, a = .name x) ∨ ∃ st pos es, a = .batch st pos es := by
    rcases hanswered.cases hfits hcmd with ⟨ha, -⟩ | ⟨-, e, -, ha⟩ | ⟨-, -, st, pos, ha⟩
    · exact .inl ⟨_, ha⟩
    · exact .inr (.inl ⟨_, ha⟩)
    · exact .inr (.inr ⟨st, pos, es, ha⟩)
  obtain ⟨hshort, hagain⟩ := reading_reply (f := f) hfits hkind
  have hreply : ranReply world f cmd pl w.card s = tnfsHeader f.conn f.seq cmd ++ a.body := by
    rw [ranReply, hbody, List.take_of_length_le hshort]
  have hmount : cmd ≠ tnfsMount := by rcases hcmd with rfl | rfl <;> decide
  have humount : cmd ≠ tnfsUmount := by rcases hcmd with rfl | rfl <;> decide
  obtain ⟨hok, hgood⟩ := hholds.command hmount humount hlen hr
  rw [hreply] at hgood
  refine ⟨a, es, hfits, hanswered, fun m hm => ?_, fun hprompt hrecent => ?_⟩
  · obtain ⟨s', hcommanded⟩ := hok m hm
    refine ⟨hcommanded.reply.trans hreply, s', d'', _, hcommanded.holds, ?_, hp', ?_, ?_⟩
    · rw [Session.dirSlot, hcommanded.dirs]
      exact hd''
    · rw [hcommanded.card]
      exact hreads'
    · rw [hcommanded.card]
      exact hasked'
  · obtain ⟨hm, hrecent'⟩ := hgood hprompt hrecent hagain
    exact ⟨⟨_, hm⟩, hrecent'⟩

/-! ### The loops -/

/-- A listing of `shown` calls back for each entry in turn until it ends, as `tells` says, for all of
    them if it ends well, and it ends well under the condition `good`. -/
structure Covers (shown : List Dirent) (tells : Dirent → Listed → Prop) (good : Prop)
    (r : ListRun) : Prop where
  next : List.Forall₂ tells (shown.take r.1.length) r.1
  whole : r.2 = some (.ok ()) → List.Forall₂ tells shown r.1
  ends : good → r.2 = some (.ok ())

section Covers
variable {shown : List Dirent} {tells tells' : Dirent → Listed → Prop} {good good' : Prop} {r : ListRun}
    {calls : List Listed}

theorem Covers.weaken (hc : Covers shown tells good r) (hle : good' → good) : Covers shown tells good' r :=
  ⟨hc.next, hc.whole, fun h => hc.ends (hle h)⟩

theorem Covers.retold (hc : Covers shown tells good r) (hle : ∀ de call, tells de call → tells' de call) :
    Covers shown tells' good r :=
  ⟨hc.next.imp hle, fun h => (hc.whole h).imp hle, hc.ends⟩

/-- A listing that failed. -/
theorem Covers.failed {e : EspErr} (hnext : List.Forall₂ tells (shown.take calls.length) calls)
    (hgood : ¬ good) :
    Covers shown tells good (calls, some (.error e)) := by
  refine ⟨hnext, ?_, fun h => absurd h hgood⟩
  rintro ⟨⟩

/-- A listing that is done. -/
theorem Covers.done (hnext : List.Forall₂ tells (shown.take calls.length) calls)
    (hall : calls.length = shown.length) :
    Covers shown tells good (calls, some (.ok ())) := by
  refine ⟨hnext, fun _ => ?_, fun _ => rfl⟩
  rwa [hall, List.take_length] at hnext

end Covers

/-- The call for an entry that READDIRX delivers: its flag is from what `stat` answered. -/
def Seen (log : List SysOp) (abs : CStr) (de : Dirent) (call : Listed) : Prop :=
  ∃ e, Described log abs de e ∧ call = e.listed

/-- The call for a name that READDIR delivers. -/
def DirEntry.plain (e : DirEntry) : Listed := (e.name, false)

/-- The entries delivered are the first ones, described by calls that were made on the card. -/
theorem Wire.Delivered.described {asks : List SysOp} (hd : w.Delivered left whole asked me d all h f before)
    (hasks : ∀ op ∈ asked w.card, op ∈ asks) :
    List.Forall₂ (Described asks d.abspath) ((d.shows all).take before.length) before := by
  obtain ⟨s, d', log, -, -, hp, -, hlog⟩ := hd
  exact described_mono hp.described fun op hop => hasks op (hlog op hop)

theorem Wire.Delivered.seen {asks : List SysOp} (hd : w.Delivered left whole asked me d all h f before)
    (hasks : ∀ op ∈ asked w.card, op ∈ asks) :
    List.Forall₂ (Seen asks d.abspath) ((d.shows all).take (before.map DirEntry.listed).length)
      (before.map DirEntry.listed) := by
  rw [List.length_map, List.forall₂_map_right_iff]
  exact (hd.described hasks).imp fun _ e he => ⟨e, he, rfl⟩

theorem Wire.Delivered.plain (hd : w.Delivered left whole asked me d all h f before) :
    List.Forall₂ (fun de call => call = (de.name, false))
      ((d.shows all).take (before.map DirEntry.plain).length)
      (before.map DirEntry.plain) := by
  rw [List.length_map, List.forall₂_map_right_iff]
  exact (hd.described fun _ => id).imp fun _ e he => by rw [DirEntry.plain, he.name]

theorem length_of_names {des : List Dirent} {es : List DirEntry}
    (h : es.map DirEntry.name = des.map Dirent.name) :
    es.length = des.length := by
  simpa using congrArg List.length h

theorem listxLoop_run (hst : Streams world contents left whole) (hrem : Remembers world asked)
    (hall : ∀ de ∈ all, WireName de.name) (hfew : all.length ≤ fatDirEntries) (n : ℕ)
    (hd : w.Delivered left whole asked me d all h f before) {r : Wire σ × TnfsFile × ListRun}
    (hr : r = run (wired world clock fate me) w (listxLoop n f h (before.map DirEntry.listed)))
    {asks : List SysOp} (hasks : ∀ op ∈ asked r.1.card, op ∈ asks) :
    Covers (d.shows all) (Seen asks d.abspath)
      (Prompt clock fate ∧ w.Recent clock ∧ (d.shows all).length < before.length + n) r.2.2 := by
  induction n generalizing w f before with
  | zero =>
    have hseen := hd.seen fun op hop => hasks op (hrem.run _ (congrArg Prod.fst hr) op hop)
    rw [hr, listxLoop, run_pure]
    refine ⟨hseen, ?_, ?_⟩
    · rintro ⟨⟩
    · rintro ⟨-, -, hfuel⟩
      have hlen := hseen.length_eq
      simp only [List.length_map, List.length_take] at hlen
      omega
  | succ n ih =>
    have hseen := hd.seen fun op hop => hasks op (hrem.run _ (congrArg Prod.fst hr) op hop)
    rw [listxLoop, run_bind] at hr
    generalize hq : run (wired world clock fate me) w (tnfsCommand f tnfsReaddirx [h, 1]) = q at hr
    obtain ⟨a, es, hfits, hanswered, hok, hgood⟩ :=
      hd.ask hst hrem hall hfew ⟨.inr ⟨rfl, le_rfl⟩, rfl⟩
        (by simp [tnfsHdrLen, tnfsMsgCap, tnfsIoChunk]) hq.symm
    obtain ⟨w', f', e | m⟩ := q
    · rw [hr]
      refine Covers.failed hseen ?_
      rintro ⟨hprompt, hrecent, -⟩
      obtain ⟨⟨m, hm⟩, -⟩ := hgood hprompt hrecent
      cases hm
    · obtain ⟨hm, hd'⟩ := hok m rfl
      dsimp only at hr hd' hgood
      rcases hanswered.cases hfits (.inr rfl) with ⟨rfl, -, hshown⟩ | ⟨habs, -⟩ | ⟨-, hne, st, pos, rfl⟩
      · have hst : replyStatus m = tnfsEof := by
          rw [hm]
          rfl
        rw [if_pos hst] at hr
        rw [hr, run_pure]
        exact Covers.done hseen (by rw [List.length_map, length_of_names hshown])
      · exact absurd habs (by decide)
      · have hst : replyStatus m ≠ tnfsEof := by
          rw [hm]
          exact (by decide : tnfsOk ≠ tnfsEof)
        have hdecoded : (Reply.batch st pos es).Decoded tnfsReaddirx f.conn
            (tnfsHeader f.conn f.seq tnfsReaddirx ++ (Reply.batch st pos es).body) :=
          hfits.decoded (by rintro ⟨habs, -⟩; exact absurd habs (by decide))
        have hread : listxReply m = some ((es.map DirEntry.listed, true), st &&& tnfsDirstatusEof != 0) := by
          rw [hm]
          exact hdecoded.read
        rw [if_neg hst, hread] at hr
        dsimp only at hr
        rw [if_neg (by simp), ← List.map_append] at hr
        split at hr
        · next hlast =>
          have hflag : st ≠ 0 := by
            rintro rfl
            exact absurd hlast (by decide)
          have hshown := hanswered.flag st pos es rfl hflag
          rw [← List.map_append] at hshown
          have hseen' := hd'.seen fun op hop => hasks op (hrem.run _ (congrArg Prod.fst hr) op hop)
          rw [hr, run_pure]
          exact Covers.done hseen' (by rw [List.length_map, length_of_names hshown])
        · refine (ih hd' hr).weaken ?_
          rintro ⟨hprompt, hrecent, hfuel⟩
          have hpos := List.length_pos_of_ne_nil hne
          refine ⟨hprompt, (hgood hprompt hrecent).2, ?_⟩
          rw [List.length_append]
          omega

theorem basicLoop_run (hst : Streams world contents left whole) (hrem : Remembers world asked)
    (hall : ∀ de ∈ all, WireName de.name) (hfew : all.length ≤ fatDirEntries) (n : ℕ)
    (hd : w.Delivered left whole asked me d all h f before) {r : Wire σ × TnfsFile × ListRun}
    (hr : r = run (wired world clock fate me) w (basicLoop n f h (before.map DirEntry.plain))) :
    Covers (d.shows all) (fun de call => call = (de.name, false)) False r.2.2 := by
  induction n generalizing w f before with
  | zero =>
    rw [hr, basicLoop, run_pure]
    refine ⟨hd.plain, ?_, False.elim⟩
    rintro ⟨⟩
  | succ n ih =>
    rw [basicLoop, run_bind] at hr
    generalize hq : run (wired world clock fate me) w (tnfsCommand f tnfsReaddir [h]) = q at hr
    obtain ⟨a, es, hfits, hanswered, hok, -⟩ :=
      hd.ask hst hrem hall hfew ⟨.inl ⟨rfl, le_rfl⟩, rfl⟩
        (by simp [tnfsHdrLen, tnfsMsgCap, tnfsIoChunk]) hq.symm
    obtain ⟨w', f', e | m⟩ := q
    · rw [hr]
      exact Covers.failed hd.plain not_false
    · obtain ⟨hm, hd'⟩ := hok m rfl
      dsimp only at hr hd'
      rcases hanswered.cases hfits (.inl rfl) with ⟨rfl, -, hshown⟩ | ⟨-, e, rfl, rfl⟩ | ⟨habs, -⟩
      · have hst : replyStatus m = tnfsEof := by
          rw [hm]
          rfl
        rw [if_pos hst] at hr
        rw [hr, run_pure]
        exact Covers.done hd.plain (by rw [List.length_map, length_of_names hshown])
      · have hname : WireName e.name := hfits.2
        have hdecoded : (Reply.name e.name).Decoded tnfsReaddir f.conn
            (tnfsHeader f.conn f.seq tnfsReaddir ++ (Reply.name e.name).body) :=
          hfits.decoded (by rintro ⟨habs, -⟩; exact absurd habs (by decide))
        obtain ⟨hst, hread⟩ : replyStatus m = tnfsOk ∧ basicName m = e.name := by
          rw [hm]
          exact hdecoded.read
        have hcalls : before.map DirEntry.plain ++ [(e.name, false)] =
          (before ++ [e]).map DirEntry.plain := by
          rw [List.map_append]
          rfl
        rw [hst, if_neg (by decide), if_neg (by simp), hread, if_neg hname.ne, hcalls] at hr
        exact ih hd' hr
      · exact absurd habs (by decide)

/-! ### Opening the directory -/

/-- What is in the directory that `path` names from the root, but for the dotfiles. -/
def listedIn (contents : CStr → List Dirent) (path : CStr) : List Dirent :=
  match resolvePath .zero path with
  | .error _ => []
  | .ok abs => matching [] (contents abs)

variable {s : Session} {path abs : CStr}

/-- A name is resolved by the root of the session, and nothing else. -/
theorem resolvePath_root (h : s.root = []) : resolvePath s path = resolvePath .zero path := by
  rw [resolvePath, resolvePath, h]
  rfl

theorem cstrArg_path (hpath : IsCString path) : cstrArg (CStr.bytes path ++ [0]) = some path := by
  rw [cstrArg, if_pos (by simp), hpath.cstr_bytes]

/-- The payload of an OPENDIRX of the client. -/
def opendirxPayload (path : CStr) : Bytes := [0, 0] ++ le16 0 ++ [0] ++ CStr.bytes path ++ [0]

/-- The directory opens, and the request is answered well, or it does not, and the card knows. -/
theorem opendirx_cases (hpath : IsCString path) (hroot : s.root = []) (hdirs : s.dirs 0 = none)
    (hres : resolvePath .zero path = .ok abs) (card : σ) :
    ((∃ k, (world card (.opendir abs)).2 = .ok k) ∧
        (run world card (hOpendirx s (opendirxPayload path))).2.2.getD 0 0 = tnfsOk) ∨
      (∃ e, (world card (.opendir abs)).2 = .error e) ∧
        (run world card (hOpendirx s (opendirxPayload path))).1 = (world card (.opendir abs)).1 := by
  have hlong : ¬ (opendirxPayload path).length < 5 := by
    simp only [opendirxPayload, List.length_append, List.length_cons, length_le16]
    omega
  have hpat : cstrArg ((opendirxPayload path).drop 4) = some [] := by
    have hdrop : (opendirxPayload path).drop 4 = 0 :: (CStr.bytes path ++ [0]) := rfl
    rw [hdrop, cstrArg, if_pos (by simp)]
    rfl
  have hname : cstrArg ((opendirxPayload path).drop (4 + (([] : CStr).length + 1))) = some path :=
    cstrArg_path hpath
  have hslot : (firstSlot tnfsdMaxDirs fun i => (s.dirs i).isNone) = some 0 := by
    have hzero : (s.dirs 0).isNone = true := by rw [hdirs]; rfl
    have hrange : List.range tnfsdMaxDirs = 0 :: [1] := rfl
    rw [firstSlot, hrange]
    exact List.find?_cons_of_pos (l := [1]) hzero
  rw [hOpendirx, if_neg hlong, hpat]
  dsimp only
  rw [hname]
  dsimp only
  rw [resolvePath_root hroot, hres]
  dsimp only
  rw [hslot]
  dsimp only
  rw [sysOpendir, run_bind, run_ask]
  cases hk : (world card (.opendir abs)).2 with
  | error e => exact .inr ⟨⟨e, rfl⟩, rfl⟩
  | ok k =>
    refine .inl ⟨⟨k, rfl⟩, ?_⟩
    dsimp only
    rw [run_bind, sysRewinddir, run_bind, run_ask, run_pure]
    rfl

/-- The reply to OPENDIR or OPENDIRX, with a handle or without. -/
theorem handleReply_cases {m : Bytes} {card : σ} (hm : m = ranReply world f cmd pl card s) :
    (∀ dh, handleReply m = some dh → (run world card (handle s cmd pl)).2.2.getD 0 0 = tnfsOk ∧
        (run world card (handle s cmd pl)).2.2.getD 1 0 = dh) ∧
      (2 ≤ (run world card (handle s cmd pl)).2.2.length →
        (run world card (handle s cmd pl)).2.2.getD 0 0 = tnfsOk →
        handleReply m = some ((run world card (handle s cmd pl)).2.2.getD 1 0)) := by
  generalize hbody : (run world card (handle s cmd pl)).2.2 = body
  have hm' : m = tnfsHeader f.conn f.seq cmd ++ body.take (tnfsMsgCap - tnfsHdrLen) := by
    rw [hm, ranReply, hbody]
  have hst : replyStatus m = body.getD 0 0 := by
    rw [hm']
    cases body <;> rfl
  have hnext : m.getD (tnfsStatusOff + 1) 0 = body.getD 1 0 := by
    rw [hm']
    match body with
    | [] => rfl
    | [_] => rfl
    | _ :: _ :: _ => rfl
  have hlen : m.length = tnfsHdrLen + min (tnfsMsgCap - tnfsHdrLen) body.length := by
    rw [hm', List.length_append, List.length_take, Reply.length_tnfsHeader]
  constructor
  · intro dh hdh
    unfold handleReply at hdh
    split at hdh
    · cases hdh
    · next hno =>
      cases hdh
      rw [← hst, ← hnext]
      exact ⟨not_not.mp (not_or.mp hno).1, rfl⟩
  · intro htwo hok
    have hcap : tnfsMsgCap - tnfsHdrLen = 1028 := rfl
    have hoff : tnfsStatusOff = 4 ∧ tnfsHdrLen = 4 := ⟨rfl, rfl⟩
    rw [handleReply, if_neg ?_, hnext]
    rw [hst, hok, hlen]
    simp only [ne_eq, not_true_eq_false, false_or]
    omega

/-- What an OPENDIR or OPENDIRX of `path` leaves that is not refused: a fresh slot `d` that shows what is in
    that directory. -/
structure Shows (contents : CStr → List Dirent) (left whole : σ → ℕ → List Dirent) (path abs : CStr)
    (w₁ : σ × Session × Bytes) (d : DirSlot) : Prop where
  opened : Opened contents left whole abs w₁ d (w₁.2.2.getD 1 0)
  resolves : resolvePath .zero path = .ok abs
  listed : listedIn contents path = d.shows (contents abs)
  long : 2 ≤ w₁.2.2.length

theorem opendirx_shows (hst : Streams world contents left whole) (hpath : IsCString path)
    (hroot : s.root = []) {card : σ}
    (hok : (run world card (hOpendirx s (opendirxPayload path))).2.2.getD 0 0 = tnfsOk) :
    ∃ abs d, Shows contents left whole path abs (run world card (hOpendirx s (opendirxPayload path))) d := by
  obtain ⟨pat, path', abs, d, h, hpat, hpath', hres, ho, hpattern, hbody⟩ :=
    opendirx_run (w := run world card (hOpendirx s (opendirxPayload path))) hst rfl hok
  have hnil : pat = [] := by
    have hdrop : (opendirxPayload path).drop 4 = 0 :: (CStr.bytes path ++ [0]) := rfl
    rw [hdrop, cstrArg, if_pos (by simp)] at hpat
    exact (Option.some.inj hpat).symm
  subst hnil
  have hsame : path' = path := by
    have hname : (opendirxPayload path).drop (4 + (([] : CStr).length + 1)) = CStr.bytes path ++ [0] := rfl
    rw [hname, cstrArg_path hpath] at hpath'
    exact (Option.some.inj hpath').symm
  subst hsame
  rw [resolvePath_root hroot] at hres
  refine ⟨abs, d, ?_, hres, ?_, ?_⟩
  · rw [hbody]
    exact ho
  · have hshows : d.shows (contents abs) = matching [] (contents abs) := shows_matching (hpattern (by decide))
    rw [listedIn, hres, hshows]
  · rw [hbody]
    exact Nat.le_add_left 2 2

theorem opendir_shows (hst : Streams world contents left whole) (hpath : IsCString path)
    (hroot : s.root = []) {card : σ}
    (hok : (run world card (hOpendir s (CStr.bytes path ++ [0]))).2.2.getD 0 0 = tnfsOk) :
    ∃ abs d, Shows contents left whole path abs (run world card (hOpendir s (CStr.bytes path ++ [0]))) d := by
  obtain ⟨path', abs, d, h, hpath', hres, ho, hpattern, hbody⟩ :=
    opendir_run (w := run world card (hOpendir s (CStr.bytes path ++ [0]))) hst rfl hok
  rw [cstrArg_path hpath] at hpath'
  obtain rfl := Option.some.inj hpath'
  rw [resolvePath_root hroot] at hres
  refine ⟨abs, d, ?_, hres, ?_, ?_⟩
  · rw [hbody]
    exact ho
  · have hshows : d.shows (contents abs) = matching [] (contents abs) := shows_matching hpattern
    rw [listedIn, hres, hshows]
  · rw [hbody]
    exact le_rfl

/-- A fresh handle, over the wire. -/
theorem Shows.delivered {opened : σ × Session × Bytes}
    (hs : Shows contents left whole path abs opened d) {w' : Wire σ} {f' : TnfsFile} {s' : Session}
    (hholds : w'.Holds me f' s') (hdirs : s'.dirs = opened.2.1.dirs) (hcard : w'.card = opened.1) :
    w'.Delivered left whole asked me d (contents abs) (opened.2.2.getD 1 0) f' [] := by
  refine ⟨s', d, [], hholds, ?_, hs.opened.progress, ⟨?_, ?_⟩, by rintro op ⟨⟩⟩
  · rw [Session.dirSlot, hdirs]
    exact hs.opened.slot
  · rw [hcard]
    exact hs.opened.start.trans hs.opened.content
  · rw [hcard]
    exact hs.opened.content

theorem Shows.named (hst : Streams world contents left whole) {opened : σ × Session × Bytes}
    (hs : Shows contents left whole path abs opened d) : ∀ de ∈ contents abs, WireName de.name := by
  rw [← hs.opened.content]
  exact hst.name _ _

theorem Shows.few (hst : Streams world contents left whole) {opened : σ × Session × Bytes}
    (hs : Shows contents left whole path abs opened d) : (contents abs).length ≤ fatDirEntries := by
  rw [← hs.opened.content]
  exact hst.few _ _

/-- When the listing of a session that was just mounted ends well. -/
structure Ready (world : σ → (c : SysCall) → σ × c.Answer) (contents : CStr → List Dirent)
    (path : CStr) (n : ℕ) : Prop where
  short : 5 + (path.length + 1) ≤ tnfsMsgCap - tnfsHdrLen
  opens : ∃ abs, resolvePath .zero path = .ok abs ∧ ∀ card, ∃ k, (world card (.opendir abs)).2 = .ok k
  rounds : (listedIn contents path).length < n

theorem handle_opendirx (s : Session) (pl : Bytes) : handle s tnfsOpendirx pl = hOpendirx s pl := rfl

theorem handle_opendir (s : Session) (pl : Bytes) : handle s tnfsOpendir pl = hOpendir s pl := rfl

theorem covers_nil {shown : List Dirent} {tells : Dirent → Listed → Prop} {good : Prop}
    {e : EspErr} (hgood : ¬ good) :
    Covers shown tells good ([], some (.error e)) := Covers.failed .nil hgood

/-- An `opendir` of the directory failed. -/
def OpenFailed (log : List SysOp) (abs : CStr) : Prop := ∃ e, (⟨.opendir abs, .error e⟩ : SysOp) ∈ log

theorem length_opendirxPayload (hshort : 5 + (path.length + 1) ≤ tnfsMsgCap - tnfsHdrLen) :
    tnfsHdrLen + (opendirxPayload path).length ≤ tnfsMsgCap := by
  have hcap : tnfsMsgCap = 1032 ∧ tnfsHdrLen = 4 := ⟨rfl, rfl⟩
  simp only [opendirxPayload, List.length_append, List.length_cons, List.length_nil, length_le16,
    FdcSds.length_bytes]
  omega

/-- A directory that can be listed opens in a session without one. -/
theorem Ready.opened {n : ℕ} (h : Ready world contents path n) (hpath : IsCString path)
    (hroot : s.root = []) (hdirs : s.dirs 0 = none) (card : σ) :
    (run world card (hOpendirx s (opendirxPayload path))).2.2.getD 0 0 = tnfsOk := by
  obtain ⟨abs, hres, hopens⟩ := h.opens
  rcases opendirx_cases hpath hroot hdirs hres card with ⟨-, h0⟩ | ⟨⟨e, he⟩, -⟩
  · exact h0
  · obtain ⟨k, hk⟩ := hopens card
    exact absurd (hk.symm.trans he) (by rintro ⟨⟩)

theorem ranReply_opendirx {card : σ}
    (h0 : (run world card (hOpendirx s (opendirxPayload path))).2.2.getD 0 0 = tnfsOk) :
    replyStatus (ranReply world f tnfsOpendirx (opendirxPayload path) card s) ≠ tnfsEagain := by
  rw [ranReply, handle_opendirx]
  generalize (run world card (hOpendirx s (opendirxPayload path))).2.2 = body at h0 ⊢
  cases body with
  | nil => exact (by decide : (0 : UInt8) ≠ tnfsEagain)
  | cons b bs =>
    change b ≠ tnfsEagain
    rw [show b = tnfsOk from h0]
    decide

theorem tnfsListx_run (hst : Streams world contents left whole) (hrem : Remembers world asked)
    (hpath : IsCString path) (n : ℕ) (hw : w.Holds me f s) {r : Wire σ × TnfsFile × UInt8 × ListRun}
    (hr : r = run (wired world clock fate me) w (tnfsListx n f path)) {asks : List SysOp}
    (hasks : ∀ op ∈ asked r.1.card, op ∈ asks) :
    Covers (listedIn contents path) (fun de call => ∃ abs, resolvePath .zero path = .ok abs ∧
      Seen asks abs de call)
        (Prompt clock fate ∧ w.Recent clock ∧ s.dirs 0 = none ∧ Ready world contents path n) r.2.2.2 ∧
      (r.2.2.2.2 = some (.error .notSupported) → (∃ s', r.1.Holds me r.2.1 s') ∧
        ∀ abs, resolvePath .zero path = .ok abs → s.dirs 0 = none → OpenFailed asks abs) := by
  unfold tnfsListx at hr
  split at hr
  · next hlong =>
    rw [hr, run_pure]
    refine ⟨covers_nil ?_, ?_⟩
    · rintro ⟨-, -, -, hready⟩
      exact absurd hready.short (Nat.not_le.mpr hlong)
    · rintro ⟨⟩
  · next hshort =>
    change r = run _ w (tnfsCommand f tnfsOpendirx (opendirxPayload path) >>= _) at hr
    rw [run_bind] at hr
    generalize hq : run (wired world clock fate me) w
      (tnfsCommand f tnfsOpendirx (opendirxPayload path)) = q at hr
    obtain ⟨hok, hgood⟩ := hw.command (by decide) (by decide)
      (length_opendirxPayload (Nat.le_of_not_lt hshort)) hq.symm
    have hprompt : Prompt clock fate ∧ w.Recent clock ∧ s.dirs 0 = none ∧ Ready world contents path n →
        (∃ m, q.2.2 = .ok m) ∧ q.1.Recent clock := by
      rintro ⟨hprompt, hrecent, hdirs, hready⟩
      have hopened := hready.opened hpath hw.root hdirs w.card
      obtain ⟨hm, hrecent'⟩ := hgood hprompt hrecent (ranReply_opendirx hopened)
      exact ⟨⟨_, hm⟩, hrecent'⟩
    obtain ⟨w', f', e | m⟩ := q
    · rw [hr]
      refine ⟨covers_nil fun hall => ?_, ?_⟩
      · obtain ⟨⟨m, hm⟩, -⟩ := hprompt hall
        cases hm
      · intro hnot
        have herr := (tnfsCommand_ensures f tnfsOpendirx (opendirxPayload path)).run
          (wired world clock fate me) w
        rw [hq] at herr
        cases hnot
        exact absurd rfl herr
    · obtain ⟨s', hreply, hholds, -, hdirs, hcard⟩ := hok m rfl
      obtain ⟨hsome, hback⟩ := handleReply_cases hreply
      rw [handle_opendirx] at hsome hback hdirs hcard
      dsimp only at hr hprompt
      cases hh : handleReply m with
      | none =>
        rw [hh] at hr
        -- a good reply has a handle
        have hrefused : (run world w.card (hOpendirx s (opendirxPayload path))).2.2.getD 0 0 ≠ tnfsOk := by
          intro h0
          obtain ⟨abs, d, hs⟩ := opendirx_shows hst hpath hw.root h0
          have htwo := hback hs.long h0
          rw [hh] at htwo
          cases htwo
        rw [hr] at hasks ⊢
        refine ⟨covers_nil ?_, fun _ => ⟨⟨s', hholds⟩, fun abs hres hfree => ?_⟩⟩
        · rintro ⟨-, -, hfree, hready⟩
          exact hrefused (hready.opened hpath hw.root hfree w.card)
        · rcases opendirx_cases hpath hw.root hfree hres w.card with ⟨-, h0⟩ | ⟨⟨e, he⟩, hleft⟩
          · exact absurd h0 hrefused
          · refine ⟨e, hasks _ ?_⟩
            dsimp only at hcard
            change _ ∈ asked w'.card
            rw [hcard, hleft, hrem, he]
            exact List.mem_append_right _ (List.mem_singleton_self _)
      | some dh =>
        rw [hh] at hr
        obtain ⟨h0, rfl⟩ := hsome dh hh
        obtain ⟨abs, d, hs⟩ := opendirx_shows hst hpath hw.root h0
        dsimp only at hr
        rw [run_bind] at hr
        generalize hl : run (wired world clock fate me) w' (listxLoop n f' _ []) = l at hr
        have hlast : l.1 = r.1 := by rw [hr]; rfl
        have hcovers := listxLoop_run hst hrem (hs.named hst) (hs.few hst) n
          (hs.delivered hholds hdirs hcard) hl.symm
          (show ∀ op ∈ asked l.1.card, op ∈ asks by rwa [hlast])
        have hens := (listxLoop_ensures n f'
          ((run world w.card (hOpendirx s (opendirxPayload path))).2.2.getD 1 0) []).run
          (wired world clock fate me) w'
        rw [hl] at hens
        obtain ⟨w'', f'', calls⟩ := l
        rw [hr]
        refine ⟨?_, fun hnot => absurd hnot hens⟩
        rw [hs.opened.path] at hcovers
        rw [hs.listed]
        refine (hcovers.retold fun de call hseen => ⟨abs, hs.resolves, hseen⟩).weaken fun hall =>
          ⟨hall.1, (hprompt hall).2, ?_⟩
        have hrounds := hall.2.2.2.rounds
        rw [hs.listed] at hrounds
        simpa using hrounds

theorem tnfsListBasic_run (hst : Streams world contents left whole) (hrem : Remembers world asked)
    (hpath : IsCString path) (n : ℕ) (hw : w.Holds me f s) (dh : UInt8)
    {r : Wire σ × TnfsFile × UInt8 × ListRun}
    (hr : r = run (wired world clock fate me) w (tnfsListBasic n f path dh)) :
    Covers (listedIn contents path) (fun de call => ∃ abs, resolvePath .zero path = .ok abs ∧
      call = (de.name, false)) False
      r.2.2.2 := by
  unfold tnfsListBasic at hr
  split at hr
  · rw [hr, run_pure]
    exact covers_nil not_false
  · next hshort =>
    rw [run_bind] at hr
    generalize hq : run (wired world clock fate me) w
      (tnfsCommand f tnfsOpendir (CStr.bytes path ++ [0])) = q at hr
    have hlen : tnfsHdrLen + (CStr.bytes path ++ [0]).length ≤ tnfsMsgCap := by
      have hcap : tnfsMsgCap = 1032 ∧ tnfsHdrLen = 4 := ⟨rfl, rfl⟩
      simp only [List.length_append, List.length_cons, List.length_nil, FdcSds.length_bytes]
      omega
    obtain ⟨hok, -⟩ := hw.command (by decide) (by decide) hlen hq.symm
    obtain ⟨w', f', e | m⟩ := q
    · rw [hr]
      exact covers_nil not_false
    · obtain ⟨s', hreply, hholds, -, hdirs, hcard⟩ := hok m rfl
      obtain ⟨hsome, -⟩ := handleReply_cases hreply
      rw [handle_opendir] at hsome hdirs hcard
      dsimp only at hr
      cases hh : handleReply m with
      | none =>
        rw [hh] at hr
        rw [hr]
        exact covers_nil not_false
      | some dh' =>
        rw [hh] at hr
        obtain ⟨h0, rfl⟩ := hsome dh' hh
        obtain ⟨abs, d, hs⟩ := opendir_shows hst hpath hw.root h0
        dsimp only at hr
        rw [run_bind] at hr
        generalize hl : run (wired world clock fate me) w' (basicLoop n f' _ []) = l at hr
        have hcovers := basicLoop_run hst hrem (hs.named hst) (hs.few hst) n
          (hs.delivered hholds hdirs hcard) hl.symm
        obtain ⟨w'', f'', calls⟩ := l
        rw [hr, hs.listed]
        exact hcovers.retold fun de call hcall => ⟨abs, hs.resolves, hcall⟩

/-! ### The session -/

theorem tnfsMountRoot_run (hw : w.Gone) {r : Wire σ × TnfsFile × Except EspErr Unit}
    (hr : r = run (wired world clock fate me) w (tnfsMountRoot f)) :
    (r.2.2 = .ok () → ∃ s, r.1.Holds me r.2.1 s ∧ s.dirs 0 = none) ∧
      (Prompt clock fate → r.2.2 = .ok () ∧ r.1.Recent clock) := by
  have hmounting : w.Mounting me := ⟨.inl (hw.zero 0), fun j _ => hw.zero j, hw.quiet⟩
  change r = run _ w (tnfsCommand { f with seq := 0, conn := 0 } tnfsMount mountPayload >>= _) at hr
  rw [run_bind] at hr
  generalize hq : run (wired world clock fate me) w
    (tnfsCommand { f with seq := 0, conn := 0 } tnfsMount mountPayload) = q at hr
  obtain ⟨hok, hgood⟩ := hmounting.command (by rfl) hq.symm
  obtain ⟨w', f', e | m⟩ := q
  · change r = (w', f', .error e) at hr
    rw [hr]
    refine ⟨by rintro ⟨⟩, fun hprompt => ?_⟩
    obtain ⟨⟨m, hm⟩, -⟩ := hgood hprompt
    cases hm
  · obtain ⟨hfile, s, rfl, hfresh, hslot, hmounted⟩ := hok m rfl
    dsimp only at hr hfile
    rw [hfresh.mountReply, hfile] at hr
    rw [hr]
    refine ⟨fun _ => ⟨s, hmounted.holds hslot hfresh _, by rw [hfresh.dirs]⟩, fun hprompt =>
      ⟨rfl, (hgood hprompt).2⟩⟩

/-- A call of `tnfs_list_dir` for an entry of the directory that `path` names: its flag is from what
    `stat` answered. Where OPENDIRX found the directory not to open, and OPENDIR did open it, there is
    no flag. -/
def Called (log : List SysOp) (path : CStr) (de : Dirent) (call : Listed) : Prop :=
  ∃ abs, resolvePath .zero path = .ok abs ∧
    (Seen log abs de call ∨ call = (de.name, false) ∧ OpenFailed log abs)

theorem Called.name {log : List SysOp} {de : Dirent} {call : Listed} (h : Called log path de call) :
    call.1 = de.name := by
  obtain ⟨abs, -, ⟨e, he, rfl⟩ | ⟨rfl, -⟩⟩ := h
  · exact he.name
  · rfl

/-- The whole listing, from a server without sessions. -/
theorem tnfsListDir_run (hst : Streams world contents left whole) (hrem : Remembers world asked)
    (hpath : IsCString path) (n : ℕ) (hw : w.Gone) {r : Wire σ × ListRun}
    (hr : r = run (wired world clock fate me) w (tnfsListDir n path)) :
    Covers (listedIn contents path) (Called (asked r.1.card) path)
      (Prompt clock fate ∧ Ready world contents path n) r.2 := by
  rw [tnfsListDir, run_bind] at hr
  generalize hq : run (wired world clock fate me) w (tnfsMountRoot ⟨0, 0, 0, 0, 0, false⟩) = q at hr
  obtain ⟨hok, hgood⟩ := tnfsMountRoot_run hw hq.symm
  obtain ⟨w', f', e | _⟩ := q
  · rw [hr]
    refine covers_nil ?_
    rintro ⟨hprompt, -⟩
    exact absurd (hgood hprompt).1 (by rintro ⟨⟩)
  · obtain ⟨s, hholds, hdirs⟩ := hok rfl
    dsimp only at hr hholds hgood
    rw [run_bind] at hr
    generalize hl : run (wired world clock fate me) w' (tnfsListx n f' path) = l at hr
    have hasks : ∀ op ∈ asked l.1.card, op ∈ asked r.1.card :=
      fun op hop => hrem.run _ (congrArg Prod.fst hr) op hop
    obtain ⟨hcovers, hback⟩ := tnfsListx_run hst hrem hpath n hholds hl.symm hasks
    obtain ⟨w'', f'', dh, calls⟩ := l
    dsimp only at hr hcovers hback
    -- what CLOSEDIR and UMOUNT answer does not matter
    have hresult : ∀ (w₁ : Wire σ) (f₁ : TnfsFile) (dh₁ : UInt8) (calls₁ : ListRun),
        (run (wired world clock fate me) w₁ (tnfsCommand f₁ tnfsClosedir [dh₁] >>= fun x =>
          tnfsCommand x.1 tnfsUmount [] >>= fun _ => pure calls₁)).2 = calls₁ := by
      intro w₁ f₁ dh₁ calls₁
      rw [run_bind, run_bind, run_pure]
    by_cases hnot : calls.2 = some (.error .notSupported)
    · obtain ⟨⟨s', hholds'⟩, hfailed⟩ := hback hnot
      rw [if_pos hnot, run_bind] at hr
      generalize hb : run (wired world clock fate me) w'' (tnfsListBasic n f'' path dh) = b at hr
      have hbasic := tnfsListBasic_run hst hrem hpath n hholds' dh hb.symm
      obtain ⟨w₃, f₃, dh₃, calls₃⟩ := b
      have hcalls : r.2 = calls₃ := by
        rw [hr]
        exact hresult ..
      rw [hcalls]
      have hcalled := hbasic.retold fun de call ⟨abs, hres, hcall⟩ =>
        (⟨abs, hres, .inr ⟨hcall, hfailed abs hres hdirs⟩⟩ : Called (asked r.1.card) path de call)
      refine ⟨hcalled.next, hcalled.whole, ?_⟩
      rintro ⟨hprompt, hready⟩
      have hend := hcovers.ends ⟨hprompt, (hgood hprompt).2, hdirs, hready⟩
      rw [hnot] at hend
      cases hend
    · rw [if_neg hnot, run_bind, run_pure] at hr
      have hcalls : r.2 = calls := by
        rw [hr]
        exact hresult ..
      rw [hcalls]
      exact (hcovers.retold fun de call ⟨abs, hres, hseen⟩ =>
        (⟨abs, hres, .inl hseen⟩ : Called (asked r.1.card) path de call)).weaken fun h =>
          ⟨h.1, (hgood h.1).2, hdirs, h.2⟩

/-! ### The calls of the server -/

/-- A wire whose card records its calls, without the record. -/
def Wire.bare (w : Wire (σ × List SysOp)) : Wire σ := ⟨w.card.1, w.server, w.sent, w.inbox⟩

/-- The record does not change what the client sees. -/
theorem wired_recording (w : Wire (σ × List SysOp)) (c : NetCall) : wired world clock fate me w.bare c =
    ((wired (recording world) clock fate me w c).1.bare, (wired (recording world) clock fate me w c).2) := by
  have hturned : ∀ data, w.bare.turned world clock me data =
      ((w.turned (recording world) clock me data).1.1, (w.turned (recording world) clock me data).2) :=
    fun data => run_recording w.card _
  have hserved : ∀ data, w.bare.served world clock me data =
    (w.served (recording world) clock me data).bare := by
    intro data
    rw [Wire.served, hturned]
    rfl
  have hheard : ∀ data, w.bare.heard world clock me data = w.heard (recording world) clock me data := by
    intro data
    rw [Wire.heard, hturned]
    rfl
  have hsent : w.bare.sent = w.sent := rfl
  cases c with
  | send data =>
    simp only [wired, hsent]
    cases fate w.sent with
    | lost => rfl
    | unheard => rw [hserved]
    | answered =>
      rw [hserved, hheard]
      rfl
  | await seq cmd =>
    have hinbox : w.bare.inbox = w.inbox := rfl
    simp only [wired, hinbox]
    cases w.inbox.dropWhile (!udpMatches seq cmd ·) <;> rfl
  | delay ms => rfl

/-- A wire whose card starts a record of its calls. -/
def Wire.recorded (w : Wire σ) : Wire (σ × List SysOp) := ⟨(w.card, []), w.server, w.sent, w.inbox⟩

/-- The calls that the server makes on the card while a client plays `p`, with their answers. -/
def Wire.calls (world : σ → (c : SysCall) → σ × c.Answer) (clock : ℕ → ℕ) (fate : ℕ → Fate) (me : Peer)
    (w : Wire σ) {α : Type} (p : Net α) : List SysOp :=
  (run (wired (recording world) clock fate me) w.recorded p).1.card.2

theorem Streams.recording (hst : Streams world contents left whole) : Streams (recording world) contents
    (fun card k => left card.1 k) fun card k => whole card.1 k where
  opendir card path k h := hst.opendir card.1 path k h
  readdir card k := hst.readdir card.1 k
  rewind card k := hst.rewind card.1 k
  stat card path k := hst.stat card.1 path k
  name card k := hst.name card.1 k
  few card k := hst.few card.1 k

/-- The whole listing, by the calls of the server. -/
theorem tnfsListDir_covers (hst : Streams world contents left whole) (hpath : IsCString path)
    (n : ℕ) (hw : w.Gone) :
    Covers (listedIn contents path) (Called (w.calls world clock fate me (tnfsListDir n path)) path)
      (Prompt clock fate ∧ Ready world contents path n)
        (run (wired world clock fate me) w (tnfsListDir n path)).2 := by
  have hremembers : Remembers (recording world) Prod.snd := fun _ _ => rfl
  have hgone : w.recorded.Gone := ⟨hw.zero, hw.quiet⟩
  generalize hr : run (wired (recording world) clock fate me) w.recorded (tnfsListDir n path) = r
  have hcovers := tnfsListDir_run hst.recording hremembers hpath n hgone hr.symm
  have hsame : run (wired world clock fate me) w (tnfsListDir n path) = (r.1.bare, r.2) := by
    rw [← hr]
    exact run_alike wired_recording w.recorded (tnfsListDir n path)
  have hcalls : w.calls world clock fate me (tnfsListDir n path) = r.1.card.2 := by rw [Wire.calls, hr]
  rw [hsame, hcalls]
  refine hcovers.weaken fun ⟨hprompt, hready⟩ => ⟨hprompt, hready.short, ?_, hready.rounds⟩
  obtain ⟨abs, hres, hopens⟩ := hready.opens
  exact ⟨abs, hres, fun card => hopens card.1⟩

/-! ### Listings are complete -/

/-- CORRECT: an OPENDIRX that is not refused counts the entries that its pattern shows, and every
    sequence of READDIR and READDIRX requests on its handle is answered right: the entries delivered are
    the first of those in the directory, and their flags, sizes and times are what `stat` of
    `<directory>/<name>` answered meanwhile. Over a network that loses datagrams, `tnfs_list_dir` calls
    back for the entries of the directory in turn, with the directory flags that `stat` answered, and
    once for each if it succeeds; it does succeed when nothing is lost, the client is never idle for 30
    s and the directory opens. -/
theorem listing_complete (hst : Streams world contents left whole) :
    (∀ (s : Session) (pl : Bytes) (card : σ), (run world card (hOpendirx s pl)).2.2.getD 0 0 = tnfsOk →
      ∃ (pat path abs : CStr) (d : DirSlot) (h : UInt8), cstrArg (pl.drop 4) = some pat ∧
        cstrArg (pl.drop (4 + (pat.length + 1))) = some path ∧ resolvePath s path = .ok abs ∧
        (run world card (hOpendirx s pl)).2.1.dirSlot h = some d ∧
        (pat.length < tnfsdPatCap →
          (run world card (hOpendirx s pl)).2.2 = [tnfsOk, h] ++ le16 (matching pat (contents abs)).length ∧
          ∀ qs : List (UInt8 × Bytes), (∀ q ∈ qs, Asks h q) → ∃ steps : List (Reply × List DirEntry),
            (run world (run world card (hOpendirx s pl)).1
              (runAsks (run world card (hOpendirx s pl)).2.1 qs)).2.2 =
              steps.map (fun p => p.1.body) ∧
            AllAnswered ((matching pat (contents abs)).map Dirent.name) [] qs steps ∧
            List.Forall₂ (Described
                (trace world (run world card (hOpendirx s pl)).1
                  (runAsks (run world card (hOpendirx s pl)).2.1 qs)) abs)
              ((matching pat (contents abs)).take (steps.flatMap Prod.snd).length)
                (steps.flatMap Prod.snd))) ∧
    (∀ (clock : ℕ → ℕ) (fate : ℕ → Fate) (me : Peer) (w : Wire σ) (path : CStr) (n : ℕ),
      w.Gone → IsCString path →
      Covers (listedIn contents path) (Called (w.calls world clock fate me (tnfsListDir n path)) path)
        (Prompt clock fate ∧ Ready world contents path n)
          (run (wired world clock fate me) w (tnfsListDir n path)).2) := by
  refine ⟨fun s pl card hok => ?_, fun clock fate me w path n hw hpath => tnfsListDir_covers hst hpath n hw⟩
  obtain ⟨pat, path, abs, d, h, hpat, hpath, hres, ho, hpattern, hbody⟩ := opendirx_run hst rfl hok
  refine ⟨pat, path, abs, d, h, hpat, hpath, hres, ho.slot, fun hshort => ?_⟩
  have hshows : d.shows (contents abs) = matching pat (contents abs) := shows_matching (hpattern hshort)
  rw [hshows] at hbody
  refine ⟨hbody, fun qs hqs => ?_⟩
  have hanswered := ho.answered hst hqs
  rwa [hshows] at hanswered

/-- Three names, of which a client sees two. -/
def smallDir : List Dirent := [⟨['A'], false⟩, ⟨['.', 'x'], false⟩, ⟨['B'], true⟩]

/-- A card with one directory, and what is left of its stream. -/
def smallCard (rest : List Dirent) : (call : SysCall) → List Dirent × call.Answer
  | .opendir _ => (smallDir, .ok 0)
  | .readdir _ => (rest.tail, rest.head?)
  | .rewinddir _ => (smallDir, ())
  | c => (rest, (Daemon.numberedCard 0 c).2)

theorem smallCard_streams : Streams smallCard (fun _ => smallDir) (fun rest _ => rest) fun _ _ =>
      smallDir where
  opendir _ _ _ _ := ⟨rfl, rfl⟩
  readdir _ _ := ⟨rfl, rfl, rfl⟩
  rewind _ _ := ⟨rfl, rfl⟩
  stat _ _ _ := ⟨rfl, rfl⟩
  name := by
    intro _ _ de hde
    simp only [smallDir, List.mem_cons, List.not_mem_nil, or_false] at hde
    rcases hde with rfl | rfl | rfl <;> exact ⟨by decide, by simp, by decide⟩
  few _ _ := by decide

theorem listing_complete_small :
    (run (wired smallCard (fun _ => 0) (fun _ => .answered) ⟨1, 1⟩) ⟨[], ⟨fun _ => .zero, 1⟩, 0, []⟩
      (tnfsListDir 3 ['/'])).2.2 =
        some (.ok ()) ∧
      (run (wired smallCard (fun _ => 0) (fun _ => .answered) ⟨1, 1⟩) ⟨[], ⟨fun _ => .zero, 1⟩, 0, []⟩
        (tnfsListDir 3 ['/'])).2.1.map Prod.fst = [['A'], ['B']] := by
  have hcovers := (listing_complete smallCard_streams).2 (fun _ => 0) (fun _ => .answered) ⟨1, 1⟩
    ⟨[], ⟨fun _ => .zero, 1⟩, 0, []⟩
    ['/'] 3 ⟨fun _ => rfl, rfl⟩ (by simp [IsCString])
  have hready : Ready smallCard (fun _ => smallDir) ['/'] 3 :=
    ⟨by decide, ⟨sdMountPoint, by decide +kernel, fun _ => ⟨0, rfl⟩⟩, by decide +kernel⟩
  have hend := hcovers.ends ⟨⟨fun _ => rfl, fun _ => Nat.zero_le _⟩, hready⟩
  have hnames : (listedIn (fun _ => smallDir) ['/']).map Dirent.name = [['A'], ['B']] := by decide +kernel
  refine ⟨hend, ?_⟩
  have hcalled := (hcovers.whole hend).imp fun _ _ h => h.name.symm
  rw [← hnames]
  refine Eq.symm (List.forall₂_eq_eq_eq ▸ ?_ : _ = _)
  rw [List.forall₂_map_left_iff, List.forall₂_map_right_iff]
  exact hcalled

end Tnfsd

end FdcSds
