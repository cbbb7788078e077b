import FdcSds.Sd.Card

/-! A card's directory tree, and how its places are spelled (`f_stat`, `sd_canonical`).

    An entry has a long and a short name, and either of them in any case means it. A path with dots goes
    up and down the tree; `sd_canonical` follows it, a piece between slashes at a time, as far as its
    buffers reach. Two canonical names compare piece by piece.

        "/sd/Games/../games//LongName.dsk"  ──▶  [GAMES, LONGNA~1.DSK]        -/

namespace FdcSds

/-- What `strcasecmp` compares. -/
def foldCase (s : CStr) : CStr := s.map Char.toLower

/-- A directory entry. -/
structure CardEntry where
  long : CStr
  short : CStr
  deriving DecidableEq

/-- The name means this entry. -/
def CardEntry.named (e : CardEntry) (x : CStr) : Bool :=
  foldCase x == foldCase e.long || foldCase x == foldCase e.short

/-- The short name of the entry a name means. -/
def shortOf (es : List CardEntry) (x : CStr) : Option CStr := (es.find? (·.named x)).map (·.short)

/-- The tree: the entries of each folder. A name means one entry; `file` tells files apart, and `regular`
    says which places are files. -/
structure Volume where
  entries : Loc → List CardEntry
  file : Loc → ℕ
  regular : Loc → Bool
  plain : ∀ d, ∀ e ∈ entries d, EntryName e.short
  dots : ∀ d, ∀ e ∈ entries d, e.named ['.'] = false ∧ e.named ['.', '.'] = false
  one : ∀ d, ∀ e ∈ entries d, ∀ f ∈ entries d, ∀ x, e.named x = true → f.named x = true → e = f
  apart : ∀ xs ys l m, walkBy (fun d => shortOf (entries d)) [] xs = some l →
    walkBy (fun d => shortOf (entries d)) [] ys = some m → file l = file m → l = m
  root : regular [] = false

theorem shortOf_some {es : List CardEntry} {x c : CStr} (h : shortOf es x = some c) :
    ∃ e ∈ es, e.named x = true ∧ e.short = c := by
  obtain ⟨e, he, rfl⟩ := Option.map_eq_some_iff.mp h
  have hnamed := List.find?_some he
  exact ⟨e, List.mem_of_find?_eq_some he, hnamed, rfl⟩

/-- A walk begins with one name. -/
theorem Card.walk_cons (card : Card) (d : Loc) (x : CStr) (xs : List CStr) :
    card.walk d (x :: xs) = (card.look d x).bind fun c => card.walk (d ++ [c]) xs := by
  simp only [walk, walkBy]
  cases card.look d x <;> rfl

namespace Volume

def card (v : Volume) : Card where
  look d := shortOf (v.entries d)
  file := v.file
  plain d x c h := by
    obtain ⟨e, he, -, rfl⟩ := shortOf_some h
    exact (v.plain d e he).ne_nil
  dots d x hx := by
    cases h : shortOf (v.entries d) x with
    | none => rfl
    | some c =>
      obtain ⟨e, he, hnamed, -⟩ := shortOf_some h
      obtain ⟨hdot, hdots⟩ := v.dots d e he
      rcases hx with rfl | rfl
      · rw [hdot] at hnamed
        cases hnamed
      · rw [hdots] at hnamed
        cases hnamed
  apart := v.apart

variable {v : Volume} {d l m : Loc} {x y c : CStr}

theorem look_plain (h : v.card.look d x = some c) : EntryName c := by
  obtain ⟨e, he, -, rfl⟩ := shortOf_some h
  exact v.plain d e he

/-- An entry's short name means the entry. -/
theorem look_short (h : v.card.look d x = some c) : v.card.look d c = some c := by
  obtain ⟨e, he, -, rfl⟩ := shortOf_some h
  have hself : e.named e.short = true := by simp [CardEntry.named]
  change ((v.entries d).find? fun f => f.named e.short).map (·.short) = some e.short
  cases hf : (v.entries d).find? fun f => f.named e.short with
  | none => exact absurd hself (List.find?_eq_none.mp hf e he)
  | some f =>
    have hnamed := List.find?_some hf
    rw [v.one d f (List.mem_of_find?_eq_some hf) e he _ hnamed hself]
    rfl

theorem look_fold (h : foldCase x = foldCase y) : v.card.look d x = v.card.look d y := by
  change shortOf (v.entries d) x = shortOf (v.entries d) y
  simp only [shortOf, CardEntry.named, h]

/-- A place is where its own short names lead. -/
theorem walk_short {xs : List CStr} (h : v.card.walk d xs = some (d ++ m)) :
    v.card.walk d m = some (d ++ m) ∧ ∀ c ∈ m, EntryName c := by
  induction xs generalizing d m with
  | nil =>
    have hm : m = [] := by
      have hsame : d = d ++ m := Option.some.inj h
      simpa using hsame
    subst hm
    exact ⟨h, by rintro c ⟨⟩⟩
  | cons x xs ih =>
    rw [Card.walk_cons, Option.bind_eq_some_iff] at h
    obtain ⟨c, hc, hrest⟩ := h
    obtain ⟨r, hr, -, -⟩ := Card.walk_extends hrest
    have hm : m = c :: r := by simpa using hr
    subst hm
    obtain ⟨hwalk, hplain⟩ := ih (d := d ++ [c]) (m := r) (by simpa using hrest)
    refine ⟨?_, ?_⟩
    · rw [Card.walk_cons, look_short hc, Option.bind_some, hwalk]
      simp
    · rintro y (_ | ⟨_, hy⟩)
      · exact look_plain hc
      · exact hplain y hy

/-- A place whose names spell the beginning of the way to another is on that way. -/
theorem walk_prefix {ys : List CStr} (hl : v.card.walk d l = some (d ++ l))
    (hm : v.card.walk d ys = some (d ++ m)) (hspell : l.map foldCase <+: ys.map foldCase) : l <+: m := by
  induction l generalizing d m ys with
  | nil => exact List.nil_prefix
  | cons c l ih =>
    obtain _ | ⟨y, ys⟩ := ys
    · simp at hspell
    · rw [List.map_cons, List.map_cons, List.cons_prefix_cons] at hspell
      rw [Card.walk_cons, Option.bind_eq_some_iff] at hl hm
      obtain ⟨b, hb, hl⟩ := hl
      obtain ⟨b', hb', hm⟩ := hm
      obtain ⟨r, hr, -, -⟩ := Card.walk_extends hl
      obtain ⟨r', hr', -, -⟩ := Card.walk_extends hm
      have hcb : c = b ∧ l = r := by simpa using hr
      have hmr : m = b' :: r' := by simpa using hr'
      rw [look_fold hspell.1, hb'] at hb
      obtain ⟨rfl, rfl⟩ := hcb
      cases hb
      subst hmr
      exact List.cons_prefix_cons.mpr
        ⟨rfl, ih (d := d ++ [c]) (by simpa using hl) (by simpa using hm) hspell.2⟩

/-- A place on the card. -/
theorem has_iff : v.card.Has l ↔ v.card.walk [] l = some l := by
  constructor
  · rintro ⟨xs, hxs⟩
    exact (walk_short (d := []) hxs).1
  · exact fun h => ⟨l, h⟩

end Volume

/-! ### A tree given by its entries -/

/-- Entries with the folders they are in, folders before what they hold. -/
structure Contents where
  entries : List (Loc × CardEntry)
  regular : Loc → Bool
  plain : ∀ p ∈ entries, p.2.short ≠ [] ∧ '/' ∉ p.2.short ∧ '\\' ∉ p.2.short
  dots : ∀ p ∈ entries, p.2.named ['.'] = false ∧ p.2.named ['.', '.'] = false
  one : ∀ p ∈ entries, ∀ q ∈ entries, p.1 = q.1 → p.2.named q.2.long = true ∨
    p.2.named q.2.short = true → p.2 = q.2
  root : regular [] = false

namespace Contents

variable (t : Contents)

def inFolder (d : Loc) : List CardEntry := (t.entries.filter fun p => p.1 == d).map (·.2)

def places : List Loc := [] :: t.entries.map fun p => p.1 ++ [p.2.short]

variable {t}

theorem mem_inFolder {d : Loc} {e : CardEntry} (h : e ∈ t.inFolder d) : (d, e) ∈ t.entries := by
  obtain ⟨p, hp, rfl⟩ := List.mem_map.mp h
  obtain ⟨hmem, hd⟩ := List.mem_filter.mp hp
  rw [← beq_iff_eq.mp hd]
  exact hmem

theorem named_of_named {e f : CardEntry} {x : CStr} (he : e.named x = true) (hf : f.named x = true) :
    e.named f.long = true ∨ e.named f.short = true := by
  simp only [CardEntry.named, Bool.or_eq_true, beq_iff_eq] at he hf ⊢
  rcases hf with hf | hf
  · exact .inl (by rwa [← hf])
  · exact .inr (by rwa [← hf])

theorem walk_places {d l : Loc} {xs : List CStr} (hd : d ∈ t.places)
    (h : walkBy (fun d => shortOf (t.inFolder d)) d xs = some l) : l ∈ t.places := by
  induction xs generalizing d with
  | nil =>
    cases h
    exact hd
  | cons x xs ih =>
    simp only [walkBy] at h
    split at h
    · next c hc =>
      obtain ⟨e, he, -, rfl⟩ := shortOf_some hc
      exact ih (List.mem_cons_of_mem _ (List.mem_map_of_mem (mem_inFolder he))) h
    · cases h

def volume (t : Contents) : Volume where
  entries := t.inFolder
  file l := t.places.idxOf l
  regular := t.regular
  plain d e he := by
    obtain ⟨hne, hslash, hback⟩ := t.plain _ (mem_inFolder he)
    exact ⟨hne, hslash, hback⟩
  dots d e he := t.dots _ (mem_inFolder he)
  one d e he f hf x hex hfx := t.one _ (mem_inFolder he) _ (mem_inFolder hf) rfl (named_of_named hex hfx)
  apart xs ys l m hl hm heq :=
    (List.idxOf_inj (walk_places List.mem_cons_self hl)).mp heq
  root := t.root

end Contents

/-! ### Names and their pieces -/

theorem toLower_slash {c : Char} : c.toLower = '/' ↔ c = '/' := by
  constructor
  · exact eq_of_toLower (by decide)
  · rintro rfl
    decide

/-- The case of a name is that of its pieces. -/
theorem segments_fold (s : CStr) : segments (foldCase s) = (segments s).map foldCase := by
  induction s with
  | nil => rfl
  | cons c s ih =>
    have hcons : foldCase (c :: s) = c.toLower :: foldCase s := rfl
    rw [hcons]
    simp only [segments, ih, toLower_slash]
    split
    · rfl
    · cases segments s <;> rfl

/-- A name is its pieces with slashes between. -/
theorem joinSlash_segments (s : CStr) : joinSlash (segments s) = s := by
  induction s with
  | nil => rfl
  | cons c s ih =>
    simp only [segments]
    obtain ⟨x, xs, hs⟩ := List.exists_cons_of_ne_nil (segments_ne_nil s)
    rw [hs] at ih ⊢
    split
    · next hc =>
      rw [hc, joinSlash, ih]
      rfl
    · rw [List.modifyHead_cons]
      cases xs with
      | nil => rw [← ih]; rfl
      | cons y ys => rw [← ih]; rfl

theorem segments_joinSlash {l : Loc} (hne : l ≠ []) (h : ∀ x ∈ l, '/' ∉ x) : segments (joinSlash l) = l := by
  induction l with
  | nil => exact absurd rfl hne
  | cons x l ih =>
    cases l with
    | nil => exact segments_of_no_slash (h x List.mem_cons_self)
    | cons y l =>
      rw [joinSlash, segments_append, segments_of_no_slash (h x List.mem_cons_self),
        ih (List.cons_ne_nil _ _) fun z hz => h z (List.mem_cons_of_mem _ hz)]
      rfl

theorem joinSlash_fold (l : Loc) : foldCase (joinSlash l) = joinSlash (l.map foldCase) := by
  induction l with
  | nil => rfl
  | cons x l ih =>
    cases l with
    | nil => rfl
    | cons y l =>
      have hslash : Char.toLower '/' = '/' := by decide
      simp only [List.map_cons, joinSlash] at ih ⊢
      simp only [foldCase, List.map_append, List.map_cons, hslash] at ih ⊢
      rw [ih]

/-- The recorded name begins with the pieces of this place. -/
def Spells (record : CStr) (l : Loc) : Prop := l.map foldCase <+: (segments record).map foldCase

instance (record : CStr) (l : Loc) : Decidable (Spells record l) := inferInstanceAs (Decidable (_ <+: _))

/-- `disk_change_begin` compares on the boundaries of pieces. -/
theorem covers_iff {l : Loc} (h : ∀ x ∈ l, x ≠ [] ∧ '/' ∉ x) (record : CStr) :
    covers (joinSlash l) record = true ↔ Spells record l := by
  by_cases hnil : l = []
  · subst hnil
    exact iff_of_true rfl List.nil_prefix
  have hlen : joinSlash l ≠ [] := Card.joinSlash_ne_nil hnil fun x hx => (h x hx).1
  have hsplit := segments_joinSlash hnil fun x hx => (h x hx).2
  constructor
  · intro hcov
    simp only [covers, Bool.or_eq_true, Bool.and_eq_true, List.isEmpty_iff, beq_iff_eq] at hcov
    obtain ⟨hsame, hend⟩ := hcov.resolve_left hlen
    have hpieces : (segments (record.take (joinSlash l).length)).map foldCase = l.map foldCase := by
      rw [← segments_fold]
      conv_rhs => rw [← hsplit, ← segments_fold]
      exact congrArg segments hsame
    rw [Spells, ← hpieces]
    rcases hend with hend | hend
    · rw [List.take_of_length_le (List.drop_eq_nil_iff.mp hend)]
    · obtain ⟨rest, hrest⟩ := List.head?_eq_some_iff.mp hend
      conv_rhs => rw [← List.take_append_drop (joinSlash l).length record, hrest, segments_append]
      rw [List.map_append]
      exact List.prefix_append _ _
  · rintro ⟨r, hr⟩
    obtain ⟨a, b, hab, ha, -⟩ := List.map_eq_append_iff.mp hr.symm
    have hane : a ≠ [] := by
      rintro rfl
      exact hnil (by simpa using ha.symm)
    have hfold : foldCase (joinSlash a) = foldCase (joinSlash l) := by rw [joinSlash_fold, joinSlash_fold, ha]
    have hlength : (joinSlash a).length = (joinSlash l).length := by
      have hlens := congrArg List.length hfold
      simpa [foldCase] using hlens
    have hrecord : record = joinSlash a ++ (if b = [] then [] else '/' :: joinSlash b) := by
      rw [← joinSlash_segments record, hab]
      split
      · next hb => rw [hb, List.append_nil, List.append_nil]
      · next hb => rw [Card.joinSlash_append hane hb]
    simp only [covers, Bool.or_eq_true, Bool.and_eq_true, List.isEmpty_iff, beq_iff_eq]
    refine .inr ⟨?_, ?_⟩
    · rw [hrecord, ← hlength, List.take_left']
      · exact hfold
      · rfl
    · rw [hrecord, ← hlength, List.drop_left' rfl]
      split
      · exact .inl rfl
      · exact .inr rfl

/-! ### Paths with dots -/

/-- Between slashes there is one name: a backslash stands at its ends only. -/
def SinglePiece (seg : CStr) : Prop := ∃ y, fatPieces seg = [y] ∧ (y = ['.'] ∨ y = ['.', '.'] → seg = y)

instance (seg : CStr) : Decidable (SinglePiece seg) :=
  match h : fatPieces seg with
  | [y] =>
    decidable_of_iff (y = ['.'] ∨ y = ['.', '.'] → seg = y) ⟨fun hy => ⟨y, h, hy⟩, fun ⟨z, hz, hp⟩ => by
      rw [h] at hz
      cases hz
      exact hp⟩
  | [] | _ :: _ :: _ => isFalse fun ⟨z, hz, _⟩ => by
      rw [h] at hz
      cases hz

namespace Card

variable (card : Card)

/-- Where names lead that may go up. -/
def resolve : Loc → List CStr → Option Loc
  | d, [] => some d
  | d, x :: xs =>
    if x = ['.'] then resolve d xs
    else if x = ['.', '.'] then resolve d.dropLast xs
    else match card.look d x with
      | none => none
      | some c => resolve (d ++ [c]) xs

/-- What an absolute path denotes; a backslash is as good as a slash to FatFs. -/
def denotes (abs : CStr) : Option Loc :=
  (underSd abs).bind fun rest => card.resolve [] ((components rest).flatMap fatPieces)

/-- The buffers of `sd_canonical` hold this component of a path, and its short name, behind a folder. -/
def holds (cap : ℕ) (d : Loc) (seg c : CStr) : Bool :=
  fpathLen d + 1 + seg.length < fpathCap && fpathLen d + 1 + c.length < fpathCap &&
    (joinSlash d).length + (if (joinSlash d).length = 0 then 0 else 1) + c.length < cap

/-- Every component that is met on the way is one name, and the buffers of `sd_canonical` hold it. -/
def roomy (cap : ℕ) : Loc → List CStr → Bool
  | _, [] => true
  | d, seg :: segs =>
    if seg = ['.'] then roomy cap d segs
    else if seg = ['.', '.'] then roomy cap d.dropLast segs
    else decide (SinglePiece seg) && match (fatPieces seg).head?.bind (card.look d) with
      | none => true
      | some c => holds cap d seg c && roomy cap (d ++ [c]) segs

/-- The path is one whose way `sd_canonical` can go. -/
def Roomy (cap : ℕ) (abs : CStr) : Prop := ∀ rest ∈ underSd abs, card.roomy cap [] (components rest) = true

instance (cap : ℕ) (abs : CStr) : Decidable (card.Roomy cap abs) :=
  inferInstanceAs (Decidable (∀ rest ∈ _, _))

/-- Of the components that `sd_canonical` finds and its buffers hold, none is of several names. -/
def straight (cap : ℕ) : Loc → List CStr → Bool
  | _, [] => true
  | d, seg :: segs =>
    if seg = ['.'] then straight cap d segs
    else if seg = ['.', '.'] then straight cap d.dropLast segs
    else match (card.walk d (fatPieces seg)).bind List.getLast? with
      | none => true
      | some c => !holds cap d seg c || (decide (SinglePiece seg) && straight cap (d ++ [c]) segs)

/-- `sd_canonical` does not lose its folder on this path. -/
def Straight (cap : ℕ) (abs : CStr) : Prop :=
  ∀ rest ∈ underSd abs, card.straight cap [] (components rest) = true

instance (cap : ℕ) (abs : CStr) : Decidable (card.Straight cap abs) :=
  inferInstanceAs (Decidable (∀ rest ∈ _, _))

variable {card} {cap : ℕ} {d : Loc} {seg : CStr} {segs : List CStr}

/-- A turn of the loop. -/
theorem canonLoop_name (hdot : seg ≠ ['.']) (hdots : seg ≠ ['.', '.']) : card.canonLoop cap d (seg :: segs) =
    match (card.walk d (fatPieces seg)).bind List.getLast? with
    | none => none
    | some c => if holds cap d seg c then card.canonLoop cap (d ++ [c]) segs else none := by
  rw [canonLoop, if_neg hdot, if_neg hdots]
  cases hstat : (card.walk d (fatPieces seg)).bind List.getLast? with
  | none => simp
  | some c =>
    by_cases hseg : fpathCap ≤ fpathLen d + 1 + seg.length
    · simp [holds, hseg, Nat.not_lt.mpr hseg]
    · by_cases hshort : fpathCap ≤ fpathLen d + 1 + c.length
      · simp [holds, hshort, Nat.not_lt.mpr hshort]
      · by_cases hcap : cap ≤ (joinSlash d).length + (if (joinSlash d).length = 0 then 0 else 1) + c.length
        · simp only [holds, hseg, hcap, Nat.not_lt.mpr hcap]
          simp
        · simp only [not_le] at hseg hshort hcap
          simp only [holds, hseg, hshort, hcap, Nat.not_le.mpr hseg,
            Nat.not_le.mpr hshort, Nat.not_le.mpr hcap]
          simp

/-- One name is looked up as it is. -/
theorem single_stat {y : CStr} (hy : fatPieces seg = [y]) :
    (card.walk d (fatPieces seg)).bind List.getLast? = card.look d y := by
  rw [hy, walk_cons]
  cases card.look d y with
  | none => rfl
  | some c => simp [walk, walkBy]

theorem canonLoop_resolve (h : card.straight cap d segs = true) :
    card.canonLoop cap d segs = if card.roomy cap d segs then card.resolve d
      (segs.flatMap fatPieces) else none := by
  induction segs generalizing d with
  | nil => rfl
  | cons seg segs ih =>
    rw [List.flatMap_cons]
    by_cases hdot : seg = ['.']
    · subst hdot
      have hpieces : fatPieces ['.'] = [['.']] := by decide
      rw [straight, if_pos rfl] at h
      rw [canonLoop, if_pos rfl, roomy, if_pos rfl, hpieces, List.singleton_append, resolve, if_pos rfl]
      exact ih h
    by_cases hdots : seg = ['.', '.']
    · subst hdots
      have hpieces : fatPieces ['.', '.'] = [['.', '.']] := by decide
      have hne : (['.', '.'] : CStr) ≠ ['.'] := by decide
      rw [straight, if_neg hne, if_pos rfl] at h
      rw [canonLoop, if_neg hne, if_pos rfl, roomy, if_neg hne, if_pos rfl, hpieces,
        List.singleton_append, resolve,
        if_neg hne, if_pos rfl]
      exact ih h
    rw [straight, if_neg hdot, if_neg hdots] at h
    rw [canonLoop_name hdot hdots, roomy, if_neg hdot, if_neg hdots]
    by_cases hone : SinglePiece seg
    · obtain ⟨y, hy, hplain⟩ := hone
      have hydot : y ≠ ['.'] := fun hyd => hdot (by rw [hplain (.inl hyd), hyd])
      have hydots : y ≠ ['.', '.'] := fun hyd => hdots (by rw [hplain (.inr hyd), hyd])
      have hpiece : (fatPieces seg).head?.bind (card.look d) = card.look d y := by rw [hy]; rfl
      rw [single_stat hy] at h
      rw [single_stat hy, hpiece, decide_eq_true (show SinglePiece seg from ⟨y, hy, hplain⟩),
        Bool.true_and, hy,
        List.singleton_append, resolve, if_neg hydot, if_neg hydots]
      cases hlook : card.look d y with
      | none => simp
      | some c =>
        rw [hlook] at h
        cases hholds : holds cap d seg c with
        | false => simp [hholds]
        | true =>
          simp only [hholds, Bool.not_true, Bool.false_or, Bool.and_eq_true] at h
          simp [hholds, ih h.2]
    · -- a component of several names is not found, or does not fit
      rw [decide_eq_false hone, Bool.false_and, if_neg Bool.false_ne_true]
      cases hstat : (card.walk d (fatPieces seg)).bind List.getLast? with
      | none => rfl
      | some c =>
        rw [hstat] at h
        simp only [decide_eq_false hone, Bool.false_and, Bool.or_false, Bool.not_eq_true'] at h
        simp [h]

/-- `sd_canonical` names the place the path denotes, as far as memory and its buffers reach. -/
theorem sdCanonical_denotes {abs : CStr} {mem : Bool} (h : mem = true → card.Straight cap abs) :
    card.sdCanonical mem abs cap =
      if mem = true ∧ card.Roomy cap abs then (card.denotes abs).map joinSlash else none := by
  cases mem with
  | false =>
    rw [if_neg (by simp), sdCanonical]
    cases underSd abs <;> rfl
  | true =>
    have hloop (rest : CStr) (hrest : underSd abs = some rest) := canonLoop_resolve (h rfl rest hrest)
    by_cases hroomy : card.Roomy cap abs
    · rw [if_pos ⟨rfl, hroomy⟩, sdCanonical, denotes]
      cases hrest : underSd abs with
      | none => rfl
      | some rest => simp only [if_true, hloop rest hrest, hroomy rest hrest, Option.bind_some]
    · rw [if_neg (fun hboth => hroomy hboth.2), sdCanonical]
      cases hrest : underSd abs with
      | none => rfl
      | some rest =>
        have hfull : card.roomy cap [] (components rest) = false := by
          by_contra hfits
          refine hroomy fun r hr => ?_
          rw [hrest] at hr
          cases hr
          simpa using hfits
        simp only [if_true, hloop rest hrest, hfull]
        rfl

end Card

end FdcSds
