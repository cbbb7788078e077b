import FdcSds.Sd.Names

/-! The files on the card, and what a path names (`sd_canonical`, `disk_change_begin`).

    FatFs takes a path apart at slashes and backslashes and looks each name up in the folder before it; a
    place on the card is the list of short names met. `sd_canonical` takes the path apart at slashes only,
    and asks FatFs for one name after the other. The mount table has such names of the local images.

        "/sd/dir/LongName.dsk"  ──▶  [DIR, LONGNA~1.DSK]  ──▶  "DIR/LONGNA~1.DSK" -/

namespace FdcSds

/-- A place on the card: short names, from the root. -/
abbrev Loc := List CStr

/-- Look one name after the other up. -/
def walkBy (look : Loc → CStr → Option CStr) : Loc → List CStr → Option Loc
  | d, [] => some d
  | d, x :: xs => match look d x with
    | some c => walkBy look (d ++ [c]) xs
    | none => none

/-- The volume. `look` is the short name of the entry a name means in a folder; dots mean no entry.
    `file` tells files apart. -/
structure Card where
  look : Loc → CStr → Option CStr
  file : Loc → ℕ
  plain : ∀ d x c, look d x = some c → c ≠ []
  dots : ∀ d x, x = ['.'] ∨ x = ['.', '.'] → look d x = none
  apart : ∀ xs ys l m, walkBy look [] xs = some l → walkBy look [] ys = some m → file l = file m → l = m

/-- What follows `/sd` in a path on the card. -/
def underSd (abs : CStr) : Option CStr :=
  if sdMountPoint.isPrefixOf abs &&
    ((abs.drop 3).isEmpty || (abs.drop 3).head? == some '/') then some (abs.drop 3)
  else none

/-- The names in a path, as FatFs takes it apart. -/
def fatPieces (path : CStr) : List CStr := components (path.map fun c => if c = '\\' then '/' else c)

/-- Names with slashes between. -/
def joinSlash : Loc → CStr
  | [] => []
  | [x] => x
  | x :: y :: l => x ++ '/' :: joinSlash (y :: l)

namespace Card

variable (card : Card)

def walk : Loc → List CStr → Option Loc := walkBy card.look

/-- What an absolute path names. -/
def find (abs : CStr) : Option Loc := (underSd abs).bind fun rest => card.walk [] (fatPieces rest)

/-- Some path leads here. -/
def Has (l : Loc) : Prop := ∃ xs, card.walk [] xs = some l

/-- The length of the FatFs path `"N:/…"` of a place. -/
def fpathLen (l : Loc) : ℕ := 2 + (l.map fun c => c.length + 1).sum

/-- The size of the buffer for it. -/
def fpathCap : ℕ := 300

/-- The loop of `sd_canonical`: the short names so far, and the pieces to come. -/
def canonLoop (cap : ℕ) : Loc → List CStr → Option Loc
  | acc, [] => some acc
  | acc, seg :: rest =>
    if seg = ['.'] then canonLoop cap acc rest
    else if seg = ['.', '.'] then canonLoop cap acc.dropLast rest
    else if fpathCap ≤ fpathLen acc + 1 + seg.length then none
    else match (card.walk acc (fatPieces seg)).bind List.getLast? with   -- f_stat
      | none => none
      | some nm =>
        let olen := (joinSlash acc).length
        if fpathCap ≤ fpathLen acc + 1 + nm.length || cap ≤ olen +
          (if olen = 0 then 0 else 1) + nm.length then none
        else canonLoop cap (acc ++ [nm]) rest

/-- `sd_canonical` into a buffer of `cap` bytes; `mem` is whether its working memory could be had. -/
def sdCanonical (mem : Bool) (abs : CStr) (cap : ℕ) : Option CStr :=
  match underSd abs with
  | none => none
  | some rest => if mem then (card.canonLoop cap [] (components rest)).map joinSlash else none

/-- The entries a call takes away: what it deletes, or renames with all that is under it. FatFs deletes
    a folder only when it is empty. -/
def Removed : SysCall → Loc → Prop
  | .unlink p, l | .rmdir p, l => card.find p = some l ∧ ∀ m, card.Has m → l <+: m → m = l
  | .rename old _, l => ∃ l₀, card.find old = some l₀ ∧ l₀ <+: l
  | _, _ => False

end Card

/-- What a call does to the names on the card: nothing to those of the entries it does not take away,
    and a name that is new leads to an entry that is new. `rmdir` is FatFs' `f_unlink`. -/
structure Change (c : SysCall) where
  after : Card → Card
  stay : ∀ card xs l, card.walk [] xs = some l →
    ((after card).walk [] xs = some l ∧ (after card).file l = card.file l) ∨ card.Removed c l
  fresh : ∀ card xs l, (after card).walk [] xs = some l →
    card.walk [] xs = some l ∨ ¬ card.Has l ∨ card.Removed c l

/-- No name changes. -/
def Change.none (c : SysCall) : Change c := ⟨id, fun _ _ _ h => .inl ⟨h, rfl⟩, fun _ _ _ h => .inl h⟩

/-- The canonical name is the image's, or that of a folder that holds it. -/
def covers (canon image : CStr) : Bool :=
  canon.isEmpty || ((image.take canon.length).map Char.toLower == canon.map Char.toLower &&
    ((image.drop canon.length).isEmpty || (image.drop canon.length).head? == some '/'))

/-- The loop of `disk_change_begin`: the first drive whose image is in the way. -/
def Disk.inTheWay (w : Disk) (canon : CStr) : Option ℕ :=
  (List.range diskMaxDrive).find? fun d =>
    (w.drv d).mounted && !(w.drv d).remote && !(w.drv d).canon.isEmpty && covers canon (w.drv d).canon

/-- What `disk_change_begin` finds; a path that names nothing on the card is in nobody's way. -/
def Disk.changeBegin (w : Disk) (canon : Option CStr) : Option ℕ := canon.bind w.inTheWay

/-! ### Places -/

theorem walkBy_append (look : Loc → CStr → Option CStr) (d : Loc) (xs ys : List CStr) :
    walkBy look d (xs ++ ys) = (walkBy look d xs).bind fun d => walkBy look d ys := by
  induction xs generalizing d with
  | nil => rfl
  | cons x xs ih =>
    simp only [List.cons_append, walkBy]
    cases look d x with
    | none => rfl
    | some c => exact ih _

namespace Card

variable {card : Card} {acc l m : Loc} {xs : List CStr}

/-- A walk adds one short name for each name. -/
theorem walk_extends (h : card.walk acc xs = some l) :
    ∃ m, l = acc ++ m ∧ m.length = xs.length ∧ ∀ c ∈ m, c ≠ [] := by
  induction xs generalizing acc with
  | nil =>
    cases h
    exact ⟨[], by simp, rfl, by rintro c ⟨⟩⟩
  | cons x xs ih =>
    simp only [walk, walkBy] at h
    split at h
    · next c hc =>
      obtain ⟨m, rfl, hlen, hne⟩ := ih h
      refine ⟨c :: m, by simp, by simp [hlen], ?_⟩
      rintro y (_ | ⟨_, hy⟩)
      · exact card.plain _ _ _ hc
      · exact hne y hy
    · cases h

theorem walk_length (h : card.walk [] xs = some l) : l.length = xs.length := by
  obtain ⟨m, rfl, hlen, -⟩ := walk_extends h
  exact hlen

/-- The folders on the way to a place are places. -/
theorem Has.above (h : card.Has m) (hl : l <+: m) : card.Has l := by
  obtain ⟨ys, hys⟩ := h
  obtain ⟨r, rfl⟩ := hl
  have hlen := walk_length hys
  rw [← List.take_append_drop l.length ys, walk, walkBy_append, Option.bind_eq_some_iff] at hys
  obtain ⟨d, hd, hrest⟩ := hys
  obtain ⟨r', hr', -, -⟩ := @walk_extends card _ _ _ hrest
  have hd' := @walk_length card _ _ hd
  have hsame : d.length = l.length := by
    rw [List.length_append] at hlen
    rw [hd', List.length_take]
    omega
  have heq : d = l := (List.append_inj hr'.symm hsame).1
  exact ⟨_, by rw [← heq]; exact hd⟩

theorem joinSlash_append {a b : Loc} (ha : a ≠ []) (hb : b ≠ []) :
    joinSlash (a ++ b) = joinSlash a ++ '/' :: joinSlash b := by
  induction a with
  | nil => exact absurd rfl ha
  | cons x a ih =>
    cases a with
    | nil =>
      cases b with
      | nil => exact absurd rfl hb
      | cons y b => rfl
    | cons y a =>
      have hrest := ih (List.cons_ne_nil _ _)
      simp only [List.cons_append] at hrest ⊢
      simp [joinSlash, hrest]

/-- Only the root has no name. -/
theorem joinSlash_ne_nil (hl : l ≠ []) (hne : ∀ c ∈ l, c ≠ []) : joinSlash l ≠ [] := by
  match l with
  | [x] => exact hne x List.mem_cons_self
  | x :: y :: l =>
    intro h
    exact absurd h (by simp [joinSlash])

/-! ### `sd_canonical` -/

/-- A name without separators is a single piece. -/
theorem fatPieces_single {x : CStr} (hne : x ≠ []) (hslash : '/' ∉ x) (hback : '\\' ∉ x) :
    fatPieces x = [x] := by
  have hmap : (x.map fun c => if c = '\\' then '/' else c) = x := by
    conv_rhs => rw [← List.map_id x]
    refine List.map_congr_left fun c hc => if_neg ?_
    rintro rfl
    exact hback hc
  rw [fatPieces, hmap, components, segments_of_no_slash hslash]
  simp [hne]

/-- One turn of the loop, for a name that is looked up. -/
theorem canonLoop_cons {cap : ℕ} {x c : CStr} (hdot : x ≠ ['.']) (hdots : x ≠ ['.', '.'])
    (hstat : (card.walk acc (fatPieces x)).bind List.getLast? = some c)
    (h : card.canonLoop cap acc (x :: xs) = some l) :
    (joinSlash acc).length + (if (joinSlash acc).length = 0 then 0 else 1) + c.length < cap ∧
      card.canonLoop cap (acc ++ [c]) xs = some l := by
  rw [canonLoop, if_neg hdot, if_neg hdots, hstat] at h
  by_cases hpath : fpathCap ≤ fpathLen acc + 1 + x.length
  · rw [if_pos hpath] at h
    cases h
  · rw [if_neg hpath] at h
    dsimp only at h
    by_cases hroom : (fpathCap ≤ fpathLen acc + 1 + c.length ∨
        cap ≤ (joinSlash acc).length + (if (joinSlash acc).length = 0 then 0 else 1) + c.length)
    · rw [if_pos (by simpa only [Bool.or_eq_true, decide_eq_true_eq] using hroom)] at h
      cases h
    · rw [if_neg (by simpa only [Bool.or_eq_true, decide_eq_true_eq] using hroom)] at h
      exact ⟨not_le.mp (not_or.mp hroom).2, h⟩

/-- A name more. -/
theorem joinSlash_snoc (hacc : ∀ c ∈ acc, c ≠ []) (c : CStr) : (joinSlash (acc ++ [c])).length =
    (joinSlash acc).length + (if (joinSlash acc).length = 0 then 0 else 1) + c.length := by
  by_cases hnil : acc = []
  · subst hnil
    simp [joinSlash]
  · have hlen : (joinSlash acc).length ≠ 0 := by simpa using joinSlash_ne_nil hnil hacc
    rw [joinSlash_append hnil (List.cons_ne_nil _ _), if_neg hlen, List.length_append, List.length_cons]
    simp only [joinSlash]
    omega

/-- What the loop finds is where the names lead, and its name fits. -/
theorem canonLoop_walk {cap : ℕ} (hxs : ∀ x ∈ xs, x ≠ [] ∧ '/' ∉ x ∧ '\\' ∉ x)
    (hacc : ∀ c ∈ acc, c ≠ []) (hfit : (joinSlash acc).length < cap)
    (h : card.canonLoop cap acc xs = some l) (hwalk : card.walk acc xs = some m) :
    l = m ∧ (joinSlash l).length < cap := by
  induction xs generalizing acc with
  | nil =>
    cases h
    cases hwalk
    exact ⟨rfl, hfit⟩
  | cons x xs ih =>
    obtain ⟨hne, hslash, hback⟩ := hxs x List.mem_cons_self
    simp only [walk, walkBy] at hwalk
    split at hwalk
    · next c hc =>
      -- dots lead nowhere on the volume
      have hdot : x ≠ ['.'] := fun hx => by
        rw [card.dots _ _ (.inl hx)] at hc
        cases hc
      have hdots : x ≠ ['.', '.'] := fun hx => by
        rw [card.dots _ _ (.inr hx)] at hc
        cases hc
      have hstat : (card.walk acc (fatPieces x)).bind List.getLast? = some c := by
        rw [fatPieces_single hne hslash hback]
        simp [walk, walkBy, hc]
      obtain ⟨hroom, hrest⟩ := canonLoop_cons hdot hdots hstat h
      refine ih (fun y hy => hxs y (List.mem_cons_of_mem _ hy)) ?_ (by rwa [joinSlash_snoc hacc]) hrest hwalk
      intro y hy
      rcases List.mem_append.mp hy with hy | hy
      · exact hacc y hy
      · rw [List.mem_singleton.mp hy]
        exact card.plain _ _ _ hc
    · cases hwalk

/-- A piece has no slash, and only what the whole has. -/
theorem segments_plain {s x : CStr} (hx : x ∈ segments s) : '/' ∉ x ∧ ∀ c ∈ x, c ∈ s := by
  induction s generalizing x with
  | nil =>
    rw [List.mem_singleton.mp hx]
    exact ⟨List.not_mem_nil, by rintro c ⟨⟩⟩
  | cons c s ih =>
    simp only [segments] at hx
    split at hx
    · rcases List.mem_cons.mp hx with rfl | hx
      · exact ⟨List.not_mem_nil, by rintro c ⟨⟩⟩
      · obtain ⟨hslash, hin⟩ := ih hx
        exact ⟨hslash, fun d hd => List.mem_cons_of_mem _ (hin d hd)⟩
    · next hc =>
      cases hs : segments s with
      | nil => exact absurd hs (segments_ne_nil s)
      | cons y ys =>
        rw [hs, List.modifyHead_cons] at hx
        rcases List.mem_cons.mp hx with rfl | hx
        · obtain ⟨hslash, hin⟩ := ih (x := y) (by rw [hs]; exact List.mem_cons_self)
          refine ⟨?_, fun d hd => ?_⟩
          · rw [List.mem_cons, not_or]
            exact ⟨Ne.symm hc, hslash⟩
          · rcases List.mem_cons.mp hd with rfl | hd
            · exact List.mem_cons_self
            · exact List.mem_cons_of_mem _ (hin d hd)
        · obtain ⟨hslash, hin⟩ := ih (x := x) (by rw [hs]; exact List.mem_cons_of_mem _ hx)
          exact ⟨hslash, fun d hd => List.mem_cons_of_mem _ (hin d hd)⟩

theorem components_plain {s x : CStr} (hx : x ∈ components s) : x ≠ [] ∧ '/' ∉ x ∧ ∀ c ∈ x, c ∈ s := by
  rw [components, List.mem_filter] at hx
  obtain ⟨hslash, hin⟩ := segments_plain hx.1
  exact ⟨by simpa using hx.2, hslash, hin⟩

/-- Without backslashes, FatFs takes a path apart as `sd_canonical` does. -/
theorem fatPieces_eq {path : CStr} (hback : '\\' ∉ path) : fatPieces path = components path := by
  have hmap : (path.map fun c => if c = '\\' then '/' else c) = path := by
    conv_rhs => rw [← List.map_id path]
    refine List.map_congr_left fun c hc => if_neg ?_
    rintro rfl
    exact hback hc
  rw [fatPieces, hmap]

/-- The canonical name of a path without backslashes is that of the place it names. -/
theorem sdCanonical_eq {mem : Bool} {abs canon : CStr} {cap : ℕ} (hcap : 0 < cap) (hback : '\\' ∉ abs)
    (h : card.sdCanonical mem abs cap = some canon) (hfind : card.find abs = some l) :
    canon = joinSlash l ∧ canon.length < cap := by
  unfold find at hfind
  unfold sdCanonical at h
  cases hrest : underSd abs with
  | none =>
    rw [hrest] at hfind
    cases hfind
  | some rest =>
    have hsub : ∀ c ∈ rest, c ∈ abs := by
      unfold underSd at hrest
      split at hrest
      · cases hrest
        exact fun c hc => List.mem_of_mem_drop hc
      · cases hrest
    have hback' : '\\' ∉ rest := fun hmem => hback (hsub _ hmem)
    simp only [hrest, Option.bind_some] at hfind h
    rw [fatPieces_eq hback'] at hfind
    split at h
    · obtain ⟨l', hl', rfl⟩ := Option.map_eq_some_iff.mp h
      have hpieces : ∀ x ∈ components rest, x ≠ [] ∧ '/' ∉ x ∧ '\\' ∉ x := by
        intro x hx
        obtain ⟨hne, hslash, hin⟩ := components_plain hx
        exact ⟨hne, hslash, fun hmem => hback' (hin _ hmem)⟩
      obtain ⟨rfl, hlen⟩ := canonLoop_walk hpieces (by rintro c ⟨⟩)
        (by simpa [joinSlash] using hcap) hl' hfind
      exact ⟨rfl, hlen⟩
    · cases h

end Card

/-! ### A card given by its places -/

/-- The places, folders before what they hold, each under its short name. -/
structure Listing where
  places : List Loc
  proper : ∀ l ∈ places, ∀ c ∈ l, c ≠ [] ∧ c ≠ ['.'] ∧ c ≠ ['.', '.']

namespace Listing

variable (t : Listing)

def look (d : Loc) (x : CStr) : Option CStr := if d ++ [x] ∈ t.places then some x else none

theorem look_eq {t : Listing} {d : Loc} {x c : CStr} (h : t.look d x = some c) :
    c = x ∧ d ++ [x] ∈ t.places := by
  unfold look at h
  split at h
  · next hmem =>
    cases h
    exact ⟨rfl, hmem⟩
  · cases h

theorem walk_listed {t : Listing} {d l : Loc} {xs : List CStr} (hd : d ∈ [] :: t.places)
    (h : walkBy t.look d xs = some l) : l ∈ [] :: t.places := by
  induction xs generalizing d with
  | nil =>
    cases h
    exact hd
  | cons x xs ih =>
    simp only [walkBy] at h
    split at h
    · next c hc =>
      obtain ⟨rfl, hmem⟩ := look_eq hc
      exact ih (List.mem_cons_of_mem _ hmem) h
    · cases h

def card : Card where
  look := t.look
  file l := ([] :: t.places).idxOf l
  plain d x c h := by
    obtain ⟨rfl, hmem⟩ := look_eq h
    exact (t.proper _ hmem c (by simp)).1
  dots d x hx := by
    cases h : t.look d x with
    | none => rfl
    | some c =>
      obtain ⟨rfl, hmem⟩ := look_eq h
      obtain ⟨-, hdot, hdots⟩ := t.proper _ hmem c (by simp)
      exact absurd hx (not_or.mpr ⟨hdot, hdots⟩)
  apart xs ys l m hl hm heq :=
    (List.idxOf_inj (walk_listed List.mem_cons_self hl)).mp heq

end Listing

/-! ### `disk_change_begin` -/

/-- The canonical name of a place covers that of every place at or under it. -/
theorem covers_prefix {l m : Loc} (h : l <+: m) : covers (joinSlash l) (joinSlash m) = true := by
  obtain ⟨r, rfl⟩ := h
  unfold covers
  by_cases hl : l = []
  · subst hl
    rfl
  · by_cases hr : r = []
    · subst hr
      simp
    · rw [Card.joinSlash_append hl hr]
      simp

/-- Nothing in the way: no drive has its image at or under this place. -/
theorem Disk.clear_of_inTheWay {w : Disk} {l m : Loc} {d : ℕ} (h : w.inTheWay (joinSlash l) = none)
    (hd : d < diskMaxDrive) (hmounted : (w.drv d).mounted = true) (hlocal : (w.drv d).remote = false)
    (hcanon : (w.drv d).canon = joinSlash m) (hne : joinSlash m ≠ []) : ¬ l <+: m := by
  intro hunder
  have hno := List.find?_eq_none.mp h d (List.mem_range.mpr hd)
  simp [hmounted, hlocal, hcanon, hne, covers_prefix hunder] at hno

end FdcSds
