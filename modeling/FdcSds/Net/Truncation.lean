import FdcSds.Net.Jail

/-! Names longer than the server's buffers.

    A mountpoint is copied into 160 bytes, a path sent to a session rooted at the card into 320, and an
    OPENDIRX pattern into 64, each with `strlcpy` and no check. What the server then acts on has the
    components of what was asked for exactly when nothing but slashes was cut off.

        mountpoint  ─strlcpy 160─▶ root ─┐
        path        ─strlcpy 320─▶───────┴─▶ /sd/root/path
        pattern     ─strlcpy 64──▶ filter                        -/

namespace FdcSds
open Schemes

/-! ### Components and slashes -/

theorem components_slash (s : CStr) : components ('/' :: s) = components s :=
  components_append [] s

theorem components_strip (s : CStr) : components (Tnfsd.stripSlashes s) = components s := by
  induction s with
  | nil => rfl
  | cons c s ih =>
    by_cases hc : c = '/'
    · subst hc
      exact ih.trans (components_slash s).symm
    · rw [Tnfsd.stripSlashes, List.dropWhile_cons_of_neg (by simpa using hc)]

theorem components_snoc_slash (s : CStr) : components (s ++ ['/']) = components s := by
  rw [components_append, components_nil, List.append_nil]

/-- Slashes at the end add no component. -/
theorem components_append_slashes {s t : CStr} (h : ∀ c ∈ t, c = '/') :
    components (s ++ t) = components s := by
  induction t generalizing s with
  | nil => rw [List.append_nil]
  | cons c t ih =>
    obtain rfl := h c (List.mem_cons_self ..)
    calc components (s ++ '/' :: t)
        = components ((s ++ ['/']) ++ t) := by rw [List.append_assoc]; rfl
      _ = components (s ++ ['/']) := ih fun c hc => h c (List.mem_cons_of_mem _ hc)
      _ = components s := components_snoc_slash s

theorem components_trim (s : CStr) : components (Tnfsd.trimSlashes s) = components s := by
  have hsplit : s = Tnfsd.trimSlashes s ++ (s.reverse.takeWhile (· == '/')).reverse := by
    rw [Tnfsd.trimSlashes, ← List.reverse_append, List.takeWhile_append_dropWhile, List.reverse_reverse]
  conv_rhs => rw [hsplit]
  refine (components_append_slashes fun c hc => ?_).symm
  rw [List.mem_reverse] at hc
  simpa using List.mem_takeWhile_imp hc

/-- The characters of the components are the ones that are no slash. -/
theorem flatten_components (s : CStr) : (components s).flatten = s.filter (· ≠ '/') := by
  have hpieces : (segments s).flatten = s.filter (· ≠ '/') := by
    induction s with
    | nil => rfl
    | cons c s ih =>
      by_cases hc : c = '/'
      · simp [segments, hc, ih]
      · cases hs : segments s with
        | nil => exact absurd hs (segments_ne_nil s)
        | cons x xs =>
          rw [hs] at ih
          simp only [segments, if_neg hc, hs, List.modifyHead_cons, List.flatten_cons, List.cons_append]
          rw [List.flatten_cons] at ih
          rw [ih, List.filter_cons_of_pos (by simpa using hc)]
  rw [← hpieces, components]
  induction segments s with
  | nil => rfl
  | cons x xs ih =>
    by_cases hx : x = []
    · subst hx
      rwa [List.filter_cons_of_neg (by simp), List.flatten_cons, List.nil_append]
    · rw [List.filter_cons_of_pos (by simpa using hx), List.flatten_cons, List.flatten_cons, ih]

/-- Nothing but slashes stands behind the first `n` characters. -/
def Whole (n : ℕ) (s : CStr) : Prop := ∀ c ∈ s.drop n, c = '/'

instance (n : ℕ) (s : CStr) : Decidable (Whole n s) := List.decidableBAll (· = '/') (s.drop n)

/-- A cut keeps the components when only slashes are cut off. -/
theorem components_take {n : ℕ} {s : CStr} : components (s.take n) = components s ↔ Whole n s := by
  constructor
  · intro h c hc
    have hflat := congrArg List.flatten h
    have hfilter : s.filter (· ≠ '/') = (s.take n).filter (· ≠ '/') ++ (s.drop n).filter (· ≠ '/') := by
      rw [← List.filter_append, List.take_append_drop]
    rw [flatten_components, flatten_components, hfilter, List.self_eq_append_right,
      List.filter_eq_nil_iff] at hflat
    simpa using hflat c hc
  · intro h
    conv_rhs => rw [← List.take_append_drop n s]
    exact (components_append_slashes h).symm

namespace Tnfsd
open Prog Runs

/-! ### Mountpoint and path -/

/-- The root a mountpoint gives. -/
def rootOf (mp : CStr) : CStr := trimSlashes (strlcpy tnfsdRootCap (stripSlashes mp))

theorem components_rootOf (mp : CStr) :
    components (rootOf mp) = components mp ↔ Whole (tnfsdRootCap - 1) (stripSlashes mp) := by
  rw [rootOf, components_trim, ← components_strip mp]
  exact components_take

theorem rootOf_length (mp : CStr) : (rootOf mp).length < tnfsdRootCap :=
  trim_strlcpy_length (by decide) _

/-- Only a mountpoint of slashes gives the card as root. -/
theorem stripSlashes_of_rootOf {mp : CStr} (h : rootOf mp = []) : stripSlashes mp = [] := by
  rcases stripSlashes_cases mp with hnil | ⟨c, rest, hcons, hc⟩
  · exact hnil
  · rw [rootOf, hcons] at h
    exact absurd h (trimSlashes_ne_nil hc)

/-- The components `resolve_path` puts under the root. -/
theorem components_rootRelative {root req rel : CStr} (hroot : root.length < tnfsdRootCap)
    (h : rootRelative root (stripSlashes req) = .ok rel) : components rel = components root ++
      components (if root = [] then (stripSlashes req).take (tnfsdAbsCap - 1) else req) := by
  unfold rootRelative at h
  by_cases hempty : root = []
  · subst hempty
    cases h
    rw [if_pos rfl]
    rfl
  · rw [if_pos (by simpa using hempty)] at h
    rw [if_neg hempty, ← components_strip req]
    split at h
    · dsimp only at h
      split at h
      · cases h
      · cases h
        rw [List.append_assoc]
        exact components_append root (stripSlashes req)
    · next hreq =>
      cases h
      have hnil : stripSlashes req = [] := by simpa using hreq
      rw [hnil, components_nil, List.append_nil, strlcpy, List.take_of_length_le]
      simp only [tnfsdRootCap, tnfsdAbsCap] at *
      omega

/-- The components of a resolved path. -/
theorem components_resolved {s : Session} {req abs : CStr} (hroot : s.root.length < tnfsdRootCap)
    (h : resolvePath s req = .ok abs) : components abs = ['s', 'd'] :: (components s.root ++
      components (if s.root = [] then (stripSlashes req).take (tnfsdAbsCap - 1) else req)) := by
  obtain ⟨rel, hrel, hcase⟩ := resolvePath_ok_iff.mp h
  rw [← components_rootRelative hroot hrel, ← components_trim rel]
  rcases hcase with ⟨hnil, rfl⟩ | ⟨-, hsd⟩
  · rw [hnil]
    rfl
  · obtain ⟨rfl, -⟩ := sdPath_some hsd (trimSlashes_end rel)
    rw [components_append]
    rfl

/-- What the server acts on has the components of mountpoint and path exactly when nothing but slashes
    was cut off either. -/
theorem components_asked {s : Session} {mp req abs : CStr} (hroot : s.root = rootOf mp)
    (h : resolvePath s req = .ok abs) :
    components abs = ['s', 'd'] :: (components mp ++ components req) ↔
      Whole (tnfsdRootCap - 1) (stripSlashes mp) ∧
        (stripSlashes mp = [] → Whole (tnfsdAbsCap - 1) (stripSlashes req)) := by
  rw [components_resolved (hroot ▸ rootOf_length mp) h, hroot, List.cons_inj_right]
  by_cases hmp : stripSlashes mp = []
  · have hcard : rootOf mp = [] := by rw [rootOf, hmp]; rfl
    have hnone : components mp = [] := by rw [← components_strip, hmp, components_nil]
    rw [hcard, if_pos rfl, components_nil, List.nil_append, hnone, List.nil_append, ← components_strip req,
      components_take]
    exact ⟨fun hreq => ⟨by rw [hmp]; rintro c ⟨⟩, fun _ => hreq⟩, fun hreq => hreq.2 hmp⟩
  · have hdeep : rootOf mp ≠ [] := fun hnil => hmp (stripSlashes_of_rootOf hnil)
    rw [if_neg hdeep, List.append_cancel_right_eq, components_rootOf]
    exact ⟨fun hwhole => ⟨hwhole, fun hnil => absurd hnil hmp⟩, fun hboth => hboth.1⟩

/-! ### Pattern -/

/-- The pattern an OPENDIRX asks for; `*` asks for everything, like no pattern. -/
def wantedPattern (pat : CStr) : CStr := if !pat.isEmpty && pat != ['*'] then pat else []

/-- The pattern kept is the one asked for exactly when it fits. -/
theorem strlcpy_pattern (pat : CStr) :
    (if !pat.isEmpty && pat != ['*'] then strlcpy tnfsdPatCap pat else []) = wantedPattern pat ↔
      pat.length < tnfsdPatCap := by
  unfold wantedPattern
  split
  · rw [strlcpy, List.take_eq_self_iff]
    simp only [tnfsdPatCap]
    omega
  · next hall =>
    refine iff_of_true rfl ?_
    by_cases hnil : pat = []
    · subst hnil
      decide
    · obtain rfl : pat = ['*'] := by simpa [hnil] using hall
      decide

theorem errnoToTnfs_ne_ok (e : Errno) : errnoToTnfs e ≠ tnfsOk := by
  cases e <;> decide

/-- The directory an OPENDIRX opens, if it is not refused. -/
theorem hOpendirx_pattern (s : Session) {pl : Bytes} {pat : CStr} (hpat : cstrArg (pl.drop 4) = some pat) :
    (hOpendirx s pl).Ensures fun r => (∃ st ≠ tnfsOk, r = (s, [st])) ∨
      ∃ i d, r.1 = { s with dirs := Function.update s.dirs i (some d) } ∧
        (d.pattern = wantedPattern pat ↔ pat.length < tnfsdPatCap) := by
  have refused : ∀ {st : UInt8} {P : Session × Bytes → Prop}, st ≠ tnfsOk →
      (pure (s, [st]) : Sys (Session × Bytes)).Ensures fun r => (∃ st ≠ tnfsOk, r = (s, [st])) ∨ P r :=
    fun hst => .inl ⟨_, hst, rfl⟩
  unfold hOpendirx
  simp only [hpat]
  split
  · exact refused (by decide)
  split
  · exact refused (by decide)
  split
  · next hres => rcases resolvePath_error hres with rfl | rfl <;> exact refused (by decide)
  split
  · exact refused (by decide)
  refine Ensures.bind_of_forall fun r => ?_
  split
  · exact refused (errnoToTnfs_ne_ok _)
  · refine Ensures.bind_of_forall fun _ => Ensures.bind_of_forall fun _ => .inr ⟨_, _, rfl, ?_⟩
    exact strlcpy_pattern pat

/-! ### The mountpoint a session asked for -/

/-- The mountpoint of a MOUNT payload; an unterminated one counts as none. -/
def mountpoint (pl : Bytes) : CStr := if 2 < pl.length then (cstrArg (pl.drop 2)).getD [] else []

/-- A turn that mounts sets the mountpoint of its slot. -/
def Server.Turn.asks (rx : Bytes) (asked : ℕ → CStr) : Server.Turn → ℕ → CStr
  | .mount i => Function.update asked i (mountpoint (rx.drop tnfsHdrLen))
  | _ => asked

/-- Every live session has the root its mountpoint gives. -/
def Server.Rooted (v : Server) (asked : ℕ → CStr) : Prop :=
  ∀ i, (v.sessions i).inUse = true → (v.sessions i).root = rootOf (asked i)

namespace Server

variable {v : Server} {asked : ℕ → CStr}

theorem Rooted.freed {v' : Server} (h : v.Rooted asked) (hf : v.Freed v') : v'.Rooted asked := by
  intro i hlive
  have hsame := hf.of_inUse hlive
  rw [hsame] at hlive ⊢
  exact h i hlive

/-- One slot changed, and the rest have the roots and mountpoints they had. -/
theorem Rooted.slot {v' : Server} {asked' : ℕ → CStr} (h : v.Rooted asked) {k : ℕ}
    (hrest : ∀ j ≠ k, v'.sessions j = v.sessions j ∧ asked' j = asked j)
    (hown : (v'.sessions k).inUse = true → (v'.sessions k).root = rootOf (asked' k)) : v'.Rooted asked' := by
  intro i hlive
  by_cases hi : i = k
  · subst hi
    exact hown hlive
  · obtain ⟨hsame, hasked⟩ := hrest i hi
    rw [hsame] at hlive ⊢
    rw [hasked]
    exact h i hlive

theorem mountIn_root (now : ℕ) (peer : Peer) (seq : UInt8) (pl : Bytes) (v : Server) (i : ℕ) :
    (mountIn now peer seq pl v i).Ensures fun r =>
      (r.1.sessions i).inUse = true → (r.1.sessions i).root = rootOf (mountpoint pl) := by
  refine Ensures.bind_of_forall fun _ => ensures_ite ?_ fun _ => ?_
  · refine Ensures.bind ((freeSession_zero _).mono fun s hs hlive => ?_)
    subst hs
    simp [setSession, Session.zero] at hlive
  · have hfits : strlcpy tnfsdRootCap (mountRoot pl) = mountRoot pl := strlcpy_of_lt (rootOf_length _)
    simp only [setSession, Function.update_self, Session.cacheReply]
    exact hfits

theorem process_root (now : ℕ) (s : Session) (seq cmd : UInt8) (pl : Bytes) :
    (process now s seq cmd pl).Ensures fun r => r.1.inUse = true → r.1.root = s.root := by
  refine Ensures.bind ((handle_framed s cmd pl).mono ?_)
  rintro ⟨t, body⟩ hframed
  refine ensures_ite ?_ fun _ => hframed.field Session.root fun _ _ => rfl
  refine Ensures.bind ((freeSession_zero _).mono fun z hz => ?_)
  subst hz
  rintro ⟨⟩

theorem answer_rooted (h : v.Rooted asked) (now : ℕ) (peer : Peer) (rx : Bytes) :
    (v.answer now peer rx (v.turn peer rx)).Ensures fun r => r.1.Rooted ((v.turn peer rx).asks rx asked) := by
  have hothers := answer_others now peer rx v (v.turn peer rx)
  cases ht : v.turn peer rx with
  | ignored | refused => exact h
  | replay i =>
    refine h.slot (k := i) (fun j hj => ⟨setSession_of_ne _ hj, rfl⟩) fun hlive => ?_
    simp only [resend, setSession_self] at hlive ⊢
    exact h i hlive
  | mount i =>
    rw [ht] at hothers
    refine (hothers.and (mountIn_root ..)).mono fun r hr => h.slot (k := i) (fun j hj => ?_) fun hlive => ?_
    · exact ⟨hr.1 j hj, Function.update_of_ne hj ..⟩
    · rw [Turn.asks, Function.update_self]
      exact hr.2 hlive
  | run i =>
    refine Ensures.bind ((process_root ..).mono ?_)
    rintro ⟨s, out⟩ hs
    refine h.slot (k := i) (fun j hj => ⟨setSession_of_ne _ hj, rfl⟩) fun hlive => ?_
    obtain ⟨-, -, hused, -⟩ := turn_run ht
    simp only [setSession_self] at hlive ⊢
    exact (hs hlive).trans (h i hused)

theorem serve_rooted (h : v.Rooted asked) (now : ℕ) (peer : Peer) (rx : Bytes) :
    (v.serve now peer rx).Ensures fun r =>
      r.1.Rooted (((v.reaped now tnfsdMaxSessions).turn peer rx).asks rx asked) := by
  refine Ensures.bind ((reapIdle_reaped now tnfsdMaxSessions v).mono fun w hw => ?_)
  subst hw
  exact answer_rooted (h.freed (reaped_freed now tnfsdMaxSessions v)) now peer rx

end Server

namespace Daemon

variable {σ : Type} (world : σ → (c : SysCall) → σ × c.Answer)

/-- The mountpoints the sessions asked for, after a beat. -/
def asks (d : Daemon σ) : Beat → (ℕ → CStr) → ℕ → CStr
  | .datagram now peer rx, asked =>
    ((d.server.reaped now tnfsdMaxSessions).turn peer (rx.take tnfsMsgCap)).asks (rx.take tnfsMsgCap) asked
  | _, asked => asked

/-- The task, with the mountpoint the session of each slot asked for. -/
def named : Machine (Daemon σ × (ℕ → CStr)) Beat := (machine world).annotate asks

variable {world} {x : Daemon σ × (ℕ → CStr)} {ok : Daemon σ × (ℕ → CStr) → Beat → Prop}

theorem reach_rooted (h : (named world).Reach ok x) : x.1.server.Rooted x.2 := by
  refine h.invariant (I := fun x => x.1.server.Rooted x.2) ?_ fun x b x' hroot _ hstep => ?_
  · rintro ⟨d, asked⟩ ⟨card, rfl⟩ i ⟨⟩
  · obtain ⟨d, asked⟩ := x
    obtain ⟨d', hd, rfl⟩ := Option.map_eq_some_iff.mp hstep
    cases b with
    | start =>
      obtain ⟨-, rfl⟩ := when_eq_some.mp hd
      exact hroot.freed ((startLoop_freed tnfsdMaxSessions d.server).run world d.card)
    | datagram now peer rx =>
      obtain ⟨-, rfl⟩ := when_eq_some.mp hd
      exact (Server.serve_rooted hroot now peer (rx.take tnfsMsgCap)).run world d.card
    | timeout now =>
      obtain ⟨-, rfl⟩ := when_eq_some.mp hd
      exact (Server.serve_rooted hroot now ⟨0, 0⟩ []).run world d.card
    | linkDown =>
      obtain ⟨-, rfl⟩ := when_eq_some.mp hd
      exact hroot.freed ((Server.dropSessions_freed tnfsdMaxSessions d.server).run world d.card)

/-- CORRECT: of the requests the server does not refuse, a path names the mountpoint's components and
    then its own exactly when the copies cut off nothing but slashes; and an OPENDIRX that opens a
    directory filters by the pattern asked for exactly when that fits its buffer. -/
theorem names_whole (h : (named world).Reach Machine.always x) :
    (∀ i, (x.1.server.sessions i).inUse = true → ∀ req abs,
      resolvePath (x.1.server.sessions i) req = .ok abs →
        (components abs = ['s', 'd'] :: (components (x.2 i) ++ components req) ↔
          Whole (tnfsdRootCap - 1) (stripSlashes (x.2 i)) ∧
            (stripSlashes (x.2 i) = [] → Whole (tnfsdAbsCap - 1) (stripSlashes req)))) ∧
    ∀ s pl pat, cstrArg (pl.drop 4) = some pat →
      ((∃ st ≠ tnfsOk, ((hOpendirx s pl).run world x.1.card).2 = (s, [st])) ∨
        ∃ i slot, ((hOpendirx s pl).run world x.1.card).2.1 =
            { s with dirs := Function.update s.dirs i (some slot) } ∧
          (slot.pattern = wantedPattern pat ↔ pat.length < tnfsdPatCap)) := by
  refine ⟨fun i hlive req abs hres => ?_, fun s pl pat hpat => ?_⟩
  · exact components_asked (reach_rooted h i hlive) hres
  · exact (hOpendirx_pattern s hpat).run world x.1.card

/-- The task starts, and a client mounts `/aa…a`, a name of 200 characters. -/
def longMount : List Beat := [.start,
  .datagram 0 ⟨1, 1⟩ ([0, 0, 0, tnfsMount, tnfsVerLo, tnfsVerHi, 0x2F] ++
    List.replicate 200 0x61 ++ [0, 0, 0])]

theorem exec_longMount : ((named numberedCard).exec (zeroed, fun _ => []) longMount).isSome = true := by
  decide

def longMounted : Daemon ℕ × (ℕ → CStr) :=
  ((named numberedCard).exec (zeroed, fun _ => []) longMount).get exec_longMount

theorem reach_longMounted : (named numberedCard).Reach Machine.always longMounted :=
  ⟨(zeroed, fun _ => []), ⟨3, rfl⟩, Machine.exec_always (Option.some_get exec_longMount).symm⟩

/-- The path that session gives the card for `b`. -/
def cutPath : CStr := sdMountPoint ++ '/' :: List.replicate 159 'a' ++ ['/', 'b']

theorem names_whole_longMounted :
    resolvePath (longMounted.1.server.sessions 0) ['b'] = .ok cutPath ∧
    (components cutPath = ['s', 'd'] :: (components (longMounted.2 0) ++ components ['b']) ↔
      Whole (tnfsdRootCap - 1) (stripSlashes (longMounted.2 0)) ∧
        (stripSlashes (longMounted.2 0) = [] → Whole (tnfsdAbsCap - 1) (stripSlashes ['b']))) := by
  have hres : resolvePath (longMounted.1.server.sessions 0) ['b'] = .ok cutPath := by decide +kernel
  exact ⟨hres, (names_whole reach_longMounted).1 0 (by decide +kernel) ['b'] cutPath hres⟩

/-- The session is rooted at a name of 159 characters, and `b` is looked for under it. -/
theorem longMount_cut : ∃ x abs, (named numberedCard).Reach Machine.always x ∧
    (x.1.server.sessions 0).inUse = true ∧
    resolvePath (x.1.server.sessions 0) ['b'] = .ok abs ∧
    components abs ≠ ['s', 'd'] :: (components (x.2 0) ++ components ['b']) :=
  ⟨longMounted, cutPath, reach_longMounted, by decide +kernel, by decide +kernel, by decide +kernel⟩

end Daemon

end Tnfsd

end FdcSds
