import FdcSds.Disk.Machine
import Mathlib.Data.List.TakeWhile

/-! `tnfs_url_parse` (`src/net/tnfs.c`), with the caller's buffers.

    The first slash behind the scheme ends the host and the port, the first colon before it ends the host,
    so colons and further slashes of the path are never looked at. The numeral is tested after every digit,
    which keeps it far from the end of its 32 bits however long it is.

        TNFS://host:16385/dir/a:b.dsk ──▶ "host", 16385, "/dir/a:b.dsk"                          -/

namespace FdcSds

/-- The scheme of a TNFS URL, in lower case. -/
def tnfsScheme : CStr := ['t', 'n', 'f', 's', ':', '/', '/']

/-- `TNFS_DEFAULT_PORT`. -/
def tnfsDefaultPort : UInt32 := 16384

/-! ### The parser -/

/-- Where `tnfs_url_parse` stores what it finds: NULL, or what the buffer and the port held before. -/
structure UrlOut where
  host : Option (List Char)
  port : Option UInt16
  path : Option (List Char)

/-- Characters written from the start of a buffer on; `none` when they do not fit. -/
def putChars (buf : List Char) (cs : CStr) : Option (List Char) :=
  if cs.length ≤ buf.length then some (cs ++ buf.drop cs.length) else none

/-- The host, the colon and what is behind it, and the first slash and what is behind it. -/
def urlCut (p : CStr) : CStr × CStr × CStr :=
  let authority := p.takeWhile (· != '/')
  (authority.takeWhile (· != ':'), authority.dropWhile (· != ':'), p.dropWhile (· != '/'))

/-- The loop over the digits of the port. -/
def portLoop : UInt32 → CStr → Option UInt32
  | pn, [] => some pn
  | pn, d :: ds =>
    if d < '0' || '9' < d then none
    else
      let pn := pn * 10 + (d.val - '0'.val)
      if 65535 < pn then none else portLoop pn ds

/-- The port, from the colon on if there is one. -/
def urlPort : CStr → Option UInt32
  | [] => some tnfsDefaultPort
  | _ :: ds => (portLoop 0 ds).bind fun pn => if pn == 0 then none else some pn

/-- `tnfs_url_parse`; `none` when it writes past the end of a buffer. -/
def tnfsUrlParse (url : Option CStr) (out : UrlOut) : Option (Except EspErr Unit × UrlOut) :=
  match url, out with
  | some url, ⟨some host, some port, some path⟩ =>
    if !tnfsIsUrl url then some (.error .invalidArg, out)
    else
      let (name, colon, slash) := urlCut (url.drop 7)
      if slash.isEmpty then some (.error .invalidArg, out)
      else if name.isEmpty || decide (host.length ≤ name.length) then some (.error .invalidArg, out)
      else (putChars host (name ++ ['\x00'])).bind fun host =>
        match urlPort colon with
        | none => some (.error .invalidArg, ⟨some host, some port, some path⟩)
        | some pn =>
          if slash.isEmpty || decide (path.length ≤ slash.length) then
            some (.error .invalidArg, ⟨some host, some pn.toUInt16, some path⟩)
          else (putChars path (slash ++ ['\x00'])).map fun path =>
            (.ok (), ⟨some host, some pn.toUInt16, some path⟩)
  | _, _ => some (.error .invalidArg, out)

/-! ### The grammar -/

/-- A host, a port and a path as a URL can name them. -/
structure RemoteName where
  host : CStr
  port : UInt16
  path : CStr
  host_ne : host ≠ []
  host_chars : ∀ x ∈ host, x ≠ '/' ∧ x ≠ ':'
  port_ne : port ≠ 0
  path_head : path.head? = some '/'

namespace RemoteName

/-- What stands for the port between host and path. -/
inductive PortText (port : UInt16) : CStr → Prop
  | absent : port.toUInt32 = tnfsDefaultPort → PortText port []
  | numeral {ds : CStr} : ds ≠ [] → (∀ x ∈ ds, x.isDigit) → Nat.ofDigitChars 10 ds 0 = port.toNat →
      PortText port (':' :: ds)

/-- The URL spells the name: the scheme in any case, the host, perhaps the port, and the path. -/
def Spelled (r : RemoteName) (url : CStr) : Prop :=
  ∃ scheme text, scheme.map Char.toLower = tnfsScheme ∧ PortText r.port text ∧
    url = scheme ++ (r.host ++ (text ++ r.path))

/-- The URL of a name; the default port is only written on request. -/
def format (r : RemoteName) (always : Bool) : CStr :=
  let port := if always || r.port.toUInt32 != tnfsDefaultPort then ':' :: Nat.toDigits 10 r.port.toNat else []
  tnfsScheme ++ (r.host ++ (port ++ r.path))

/-- Host and path are shorter than their buffers. -/
def Fits (r : RemoteName) (host path : List Char) : Prop :=
  r.host.length < host.length ∧ r.path.length < path.length

/-- The buffers with the three parts in them, each text with its NUL. -/
def stored (r : RemoteName) (host path : List Char) : UrlOut where
  host := some (r.host ++ '\x00' :: host.drop (r.host.length + 1))
  port := some r.port
  path := some (r.path ++ '\x00' :: path.drop (r.path.length + 1))

end RemoteName

/-! ### The port -/

variable {s h text q ds : CStr} {c : Char} {pn v : UInt32} {port : UInt16}

theorem isDigit_iff : c.isDigit = true ↔ ¬(c < '0' || '9' < c) = true := by
  simp only [Char.isDigit, Bool.and_eq_true, decide_eq_true_eq, Bool.or_eq_true, not_or,
    Char.lt_def, UInt32.not_lt]

/-- A digit more, in 32 bits. -/
theorem shift_digit (hpn : pn.toNat ≤ 65535) (hd : c.isDigit = true) :
    (pn * 10 + (c.val - '0'.val)).toNat = 10 * pn.toNat + (c.toNat - '0'.toNat) := by
  have hbounds := Char.isDigit_iff_toNat.mp hd
  have hle : '0'.val ≤ c.val := hbounds.1
  have hsub : (c.val - '0'.val).toNat = c.toNat - '0'.toNat := UInt32.toNat_sub_of_le _ _ hle
  have hzero : '0'.toNat = 48 := rfl
  have hnine : '9'.toNat = 57 := rfl
  have hten : (10 : UInt32).toNat = 10 := rfl
  rw [UInt32.toNat_add, UInt32.toNat_mul, hsub, hzero, hten]
  omega

/-- Digits never make a number smaller. -/
theorem ofDigitChars_ge (ds : CStr) (n : ℕ) : n ≤ Nat.ofDigitChars 10 ds n := by
  rw [Nat.ofDigitChars_eq_ofDigitChars_zero]
  calc n ≤ 10 ^ ds.length * n := Nat.le_mul_of_pos_left n (Nat.pow_pos (by decide))
    _ ≤ 10 ^ ds.length * n + Nat.ofDigitChars 10 ds 0 := Nat.le_add_right _ _

/-- The loop reads a numeral of at most 65535. -/
theorem portLoop_iff (hpn : pn.toNat ≤ 65535) : portLoop pn ds = some v ↔
    (∀ x ∈ ds, x.isDigit) ∧ Nat.ofDigitChars 10 ds pn.toNat = v.toNat ∧ v.toNat ≤ 65535 := by
  induction ds generalizing pn with
  | nil =>
    simp only [portLoop, Option.some.injEq, Nat.ofDigitChars_nil, List.not_mem_nil, false_implies,
      implies_true, true_and]
    constructor
    · rintro rfl
      exact ⟨rfl, hpn⟩
    · exact fun hv => UInt32.toNat_inj.mp hv.1
  | cons d ds ih =>
    rw [portLoop, List.forall_mem_cons, Nat.ofDigitChars_cons]
    by_cases hd : d.isDigit = true
    · rw [if_neg (isDigit_iff.mp hd), ← shift_digit hpn hd]
      generalize pn * 10 + (d.val - '0'.val) = pn'
      by_cases hbig : 65535 < pn'
      · have hge := ofDigitChars_ge ds pn'.toNat
        have hlt : 65535 < pn'.toNat := UInt32.lt_iff_toNat_lt.mp hbig
        refine iff_of_false (by simp [hbig]) fun hv => ?_
        omega
      · have hle : pn'.toNat ≤ 65535 := UInt32.le_iff_toNat_le.mp (UInt32.not_lt.mp hbig)
        simp only [if_neg hbig, ih hle, hd, true_and]
    · rw [if_pos (not_not.mp (mt isDigit_iff.mpr hd))]
      exact iff_of_false (by simp) fun hv => hd hv.1.1

theorem urlPort_absent : urlPort [] = some tnfsDefaultPort := rfl

theorem urlPort_numeral : urlPort (':' :: ds) = some pn ↔ pn ≠ 0 ∧ portLoop 0 ds = some pn := by
  rw [urlPort, Option.bind_eq_some_iff]
  constructor
  · rintro ⟨v, hv, hpn⟩
    split at hpn
    · cases hpn
    · next hne =>
      cases hpn
      exact ⟨by simpa using hne, hv⟩
  · rintro ⟨hne, hv⟩
    exact ⟨pn, hv, if_neg (by simpa using hne)⟩

theorem toUInt16_toNat (hpn : pn.toNat ≤ 65535) : pn.toUInt16.toNat = pn.toNat := by
  simp
  omega

/-- What `urlPort` makes of the text between host and path. -/
theorem urlPort_iff (htext : text = [] ∨ text.head? = some ':') : urlPort text = some pn ↔
    pn ≠ 0 ∧ pn.toNat ≤ 65535 ∧ RemoteName.PortText pn.toUInt16 text := by
  rcases htext with rfl | hhead
  · rw [urlPort_absent, Option.some.injEq]
    constructor
    · rintro rfl
      exact ⟨by decide, by decide, .absent (by decide)⟩
    · rintro ⟨-, hpn, hport⟩
      cases hport with
      | absent hdef =>
        rw [← hdef]
        exact UInt32.toNat_inj.mp (toUInt16_toNat hpn)
  · obtain ⟨ds, rfl⟩ := List.head?_eq_some_iff.mp hhead
    rw [urlPort_numeral, portLoop_iff (by decide)]
    constructor
    · rintro ⟨hne, hdigits, hvalue, hpn⟩
      refine ⟨hne, hpn, .numeral ?_ hdigits (hvalue.trans (toUInt16_toNat hpn).symm)⟩
      rintro rfl
      exact hne (UInt32.toNat_inj.mp hvalue.symm)
    · rintro ⟨hne, hpn, hport⟩
      cases hport with
      | numeral _ hdigits hvalue => exact ⟨hne, hdigits, hvalue.trans (toUInt16_toNat hpn), hpn⟩

/-! ### Where the URL is cut -/

/-- The first `c`, and nothing of it before. -/
theorem span_at (hs : c ∉ s) (hq : q = [] ∨ q.head? = some c) :
    (s ++ q).takeWhile (· != c) = s ∧ (s ++ q).dropWhile (· != c) = q := by
  have hall : ∀ x ∈ s, (x != c) = true := fun x hx => bne_iff_ne.mpr (by rintro rfl; exact hs hx)
  rw [List.takeWhile_append_of_pos hall, List.dropWhile_append_of_pos hall]
  rcases hq with rfl | hq
  · simp
  · obtain ⟨rest, rfl⟩ := List.head?_eq_some_iff.mp hq
    simp

/-- What `dropWhile` leaves starts with `c`, when it leaves anything. -/
theorem dropWhile_head : s.dropWhile (· != c) = [] ∨ (s.dropWhile (· != c)).head? = some c := by
  cases hd : s.dropWhile (· != c) with
  | nil => exact .inl rfl
  | cons x xs =>
    have hx := List.head?_dropWhile_not (· != c) s
    rw [hd] at hx
    exact .inr (by simpa using hx)

theorem not_mem_takeWhile : c ∉ s.takeWhile (· != c) := fun hc => by simpa using List.mem_takeWhile_imp hc

theorem urlCut_iff {p : CStr} : urlCut p = (h, text, q) ↔
    p = h ++ (text ++ q) ∧ (∀ x ∈ h, x ≠ '/' ∧ x ≠ ':') ∧ '/' ∉ text ∧
      (text = [] ∨ text.head? = some ':') ∧ (q = [] ∨ q.head? = some '/') := by
  constructor
  · rintro hcut
    obtain ⟨rfl, rfl, rfl⟩ : _ = h ∧ _ = text ∧ _ = q := by simpa [urlCut] using hcut
    have hparts : p.takeWhile (· != '/') = (p.takeWhile (· != '/')).takeWhile (· != ':') ++
        (p.takeWhile (· != '/')).dropWhile (· != ':') := List.takeWhile_append_dropWhile.symm
    have hslash : '/' ∉ p.takeWhile (· != '/') := not_mem_takeWhile
    refine ⟨?_, fun x hx => ⟨?_, ?_⟩, fun hx => ?_, dropWhile_head, dropWhile_head⟩
    · rw [← List.append_assoc, ← hparts, List.takeWhile_append_dropWhile]
    · rintro rfl
      exact hslash ((List.takeWhile_sublist _).subset hx)
    · rintro rfl
      exact not_mem_takeWhile hx
    · exact hslash ((List.dropWhile_sublist _).subset hx)
  · rintro ⟨rfl, hhost, hslash, htext, hq⟩
    have hfront : '/' ∉ h ++ text := by
      rw [List.mem_append]
      rintro (hx | hx)
      · exact (hhost _ hx).1 rfl
      · exact hslash hx
    have hcolon : ':' ∉ h := fun hx => (hhost _ hx).2 rfl
    have hcut := span_at hfront hq
    rw [← List.append_assoc, urlCut, hcut.1, hcut.2, (span_at hcolon htext).1, (span_at hcolon htext).2]

/-! ### What is accepted -/

theorem tnfsIsUrl_iff {url : CStr} :
    tnfsIsUrl url = true ↔ (url.take 7).map Char.toLower = tnfsScheme := beq_iff_eq

namespace RemoteName

variable {r r' : RemoteName} {url : CStr} {host path : List Char}

theorem PortText.shape (h : PortText port text) : (text = [] ∨ text.head? = some ':') ∧ '/' ∉ text := by
  cases h with
  | absent _ => exact ⟨.inl rfl, List.not_mem_nil⟩
  | numeral _ hdigits _ =>
    refine ⟨.inr rfl, fun hx => ?_⟩
    rcases List.mem_cons.mp hx with hx | hx
    · exact absurd hx (by decide)
    · exact absurd (hdigits _ hx) (by decide)

/-- The grammar is what the code looks for. -/
theorem spelled_iff : r.Spelled url ↔ tnfsIsUrl url = true ∧
    ∃ text, urlCut (url.drop 7) = (r.host, text, r.path) ∧ urlPort text = some r.port.toUInt32 := by
  have hport : r.port.toUInt32 ≠ 0 ∧ r.port.toUInt32.toNat ≤ 65535 := by
    refine ⟨fun h0 => r.port_ne ?_, ?_⟩
    · simpa using congrArg UInt32.toUInt16 h0
    · have hlt := r.port.toNat_lt
      rw [UInt16.toNat_toUInt32]
      omega
  constructor
  · rintro ⟨scheme, text, hscheme, htext, rfl⟩
    obtain ⟨hshape, hslash⟩ := htext.shape
    have hlen : scheme.length = 7 := by simpa [tnfsScheme] using congrArg List.length hscheme
    refine ⟨tnfsIsUrl_iff.mpr ?_, text, ?_, ?_⟩
    · rw [List.take_left' hlen, hscheme]
    · rw [List.drop_left' hlen]
      exact urlCut_iff.mpr ⟨rfl, r.host_chars, hslash, hshape, .inr r.path_head⟩
    · exact (urlPort_iff hshape).mpr ⟨hport.1, hport.2, by simpa using htext⟩
  · rintro ⟨hurl, text, hcut, hpn⟩
    obtain ⟨hrest, -, -, hshape, -⟩ := urlCut_iff.mp hcut
    have htext := ((urlPort_iff hshape).mp hpn).2.2
    refine ⟨url.take 7, text, tnfsIsUrl_iff.mp hurl, by simpa using htext, ?_⟩
    rw [← hrest, List.take_append_drop]

/-- A URL spells one name at most. -/
theorem Spelled.unique (h : r.Spelled url) (h' : r'.Spelled url) : r = r' := by
  obtain ⟨-, text, hcut, hpn⟩ := spelled_iff.mp h
  obtain ⟨-, text', hcut', hpn'⟩ := spelled_iff.mp h'
  obtain ⟨hhost, rfl, hpath⟩ : r.host = r'.host ∧ text = text' ∧ r.path = r'.path := by
    simpa using hcut.symm.trans hcut'
  have hport : r.port = r'.port := by
    simpa using congrArg UInt32.toUInt16 (Option.some.inj (hpn.symm.trans hpn'))
  cases r
  cases r'
  simp_all

theorem putChars_fits {buf : List Char} (h : s.length < buf.length) :
    putChars buf (s ++ ['\x00']) = some (s ++ '\x00' :: buf.drop (s.length + 1)) := by
  have hlen : (s ++ ['\x00']).length = s.length + 1 := by simp
  rw [putChars, hlen, if_pos (Nat.succ_le_of_lt h), List.append_assoc]
  rfl

/-- The answer, and what is stored with it: the parts, or `ESP_ERR_INVALID_ARG`. -/
theorem tnfsUrlParse_cases (url : CStr) (host path : List Char) (port : UInt16) :
    (∃ r : RemoteName, (r.Spelled url ∧ r.Fits host path) ∧
        tnfsUrlParse (some url) ⟨some host, some port, some path⟩ = some (.ok (), r.stored host path)) ∨
      (¬∃ r : RemoteName, r.Spelled url ∧ r.Fits host path) ∧
        ∃ out, tnfsUrlParse (some url) ⟨some host, some port, some path⟩ =
          some (.error .invalidArg, out) := by
  obtain ⟨⟨name, colon, slash⟩, hcut⟩ : ∃ cut, cut = urlCut (url.drop 7) := ⟨_, rfl⟩
  have hspelled : ∀ r : RemoteName, r.Spelled url → tnfsIsUrl url = true ∧ r.host = name ∧ r.path = slash ∧
      urlPort colon = some r.port.toUInt32 := by
    intro r hr
    obtain ⟨hurl, text, hcut', hpn⟩ := spelled_iff.mp hr
    obtain ⟨hhost, rfl, hpath⟩ : r.host = name ∧ text = colon ∧ r.path = slash := by
      simpa using hcut'.symm.trans hcut.symm
    exact ⟨hurl, hhost, hpath, hpn⟩
  by_cases hurl : tnfsIsUrl url = true
  swap
  · refine .inr ⟨?_, _, by simp [tnfsUrlParse, hurl]; rfl⟩
    rintro ⟨r, hr, -⟩
    exact hurl (hspelled r hr).1
  by_cases hslash : slash = []
  · refine .inr ⟨?_, _, by simp [tnfsUrlParse, hurl, ← hcut, hslash]; rfl⟩
    rintro ⟨r, hr, -⟩
    have hhead := r.path_head
    rw [(hspelled r hr).2.2.1, hslash] at hhead
    cases hhead
  by_cases hname : name = [] ∨ host.length ≤ name.length
  · refine .inr ⟨?_, _, by simp [tnfsUrlParse, hurl, ← hcut, hslash, hname]; rfl⟩
    rintro ⟨r, hr, hfits⟩
    rcases hname with hempty | hlong
    · exact r.host_ne ((hspelled r hr).2.1.trans hempty)
    · exact absurd hfits.1 (by rw [(hspelled r hr).2.1]; omega)
  obtain ⟨hne, hshort⟩ : name ≠ [] ∧ name.length < host.length := by simpa using hname
  have hput := putChars_fits hshort
  cases hpn : urlPort colon with
  | none =>
    refine .inr ⟨?_, _, by simp [tnfsUrlParse, hurl, ← hcut, hslash, hname, hput, hpn]; rfl⟩
    rintro ⟨r, hr, -⟩
    have hsome := (hspelled r hr).2.2.2
    rw [hpn] at hsome
    cases hsome
  | some pn =>
    by_cases hpath : path.length ≤ slash.length
    · refine .inr ⟨?_, _, by simp [tnfsUrlParse, hurl, ← hcut, hslash, hname, hput, hpn, hpath]; rfl⟩
      rintro ⟨r, hr, hfits⟩
      exact absurd hfits.2 (by rw [(hspelled r hr).2.2.1]; omega)
    · obtain ⟨hrest, hchars, -, hshape, hq⟩ := urlCut_iff.mp hcut.symm
      obtain ⟨hpn0, hpnle, htext⟩ := (urlPort_iff hshape).mp hpn
      have hport : pn.toUInt16.toUInt32 = pn := UInt32.toNat_inj.mp (toUInt16_toNat hpnle)
      have hput' := putChars_fits (not_le.mp hpath)
      let r : RemoteName := ⟨name, pn.toUInt16, slash, hne, hchars, fun h0 =>
        hpn0 (by rw [← hport, h0]; rfl), hq.resolve_left hslash⟩
      refine .inl ⟨r, ⟨spelled_iff.mpr ⟨hurl, colon, hcut.symm, ?_⟩, hshort, not_le.mp hpath⟩, ?_⟩
      · rw [hpn]
        exact congrArg some hport.symm
      · simp [tnfsUrlParse, hurl, ← hcut, hslash, hname, hput, hpn, hpath, hput']
        rfl

theorem spelled_format (r : RemoteName) (always : Bool) : r.Spelled (r.format always) := by
  refine ⟨tnfsScheme, _, by decide, ?_, rfl⟩
  split
  · exact .numeral Nat.toDigits_ne_nil (fun x hx => Nat.isDigit_of_mem_toDigits (by decide) (by decide) hx)
      (Nat.ofDigitChars_toDigits (by decide) (by decide))
  · next hdef =>
    have hboth : always = false ∧ r.port.toUInt32 = tnfsDefaultPort := by simpa using hdef
    exact .absent hboth.2

/-- A URL that spells a name that fits is taken apart into it. -/
theorem Spelled.parsed (h : r.Spelled url) (hfits : r.Fits host path) (port : UInt16) :
    tnfsUrlParse (some url) ⟨some host, some port, some path⟩ = some (.ok (), r.stored host path) := by
  rcases tnfsUrlParse_cases url host path port with ⟨r', ⟨hr', -⟩, hparse⟩ | ⟨hno, -⟩
  · rw [hparse, hr'.unique h]
  · exact absurd ⟨r, h, hfits⟩ hno

end RemoteName

/-- `tnfs_url_parse` stays within its buffers, accepts its grammar and no more, stores the parts, and takes
    apart what the parts were put together to. -/
theorem tnfsUrlParse_exact (url : CStr) (host path : List Char) (port : UInt16) :
    ∃ result out, tnfsUrlParse (some url) ⟨some host, some port, some path⟩ = some (result, out) ∧
      (result = .ok () ↔ ∃ r : RemoteName, r.Spelled url ∧ r.Fits host path) ∧
      (result ≠ .ok () → result = .error .invalidArg) ∧
      ∀ r : RemoteName, r.Fits host path →
        (r.Spelled url → out = r.stored host path) ∧
        ∀ always, tnfsUrlParse (some (r.format always)) ⟨some host, some port, some path⟩ =
          some (.ok (), r.stored host path) := by
  have hformat : ∀ r : RemoteName, r.Fits host path → ∀ always,
      tnfsUrlParse (some (r.format always)) ⟨some host, some port, some path⟩ =
        some (.ok (), r.stored host path) :=
    fun r hfits always => (r.spelled_format always).parsed hfits port
  rcases RemoteName.tnfsUrlParse_cases url host path port with ⟨r, hr, hparse⟩ | ⟨hno, out, hparse⟩
  · refine ⟨_, _, hparse, iff_of_true rfl ⟨r, hr⟩, fun hne => absurd rfl hne,
      fun r' hfits => ⟨fun hr' => ?_, hformat r' hfits⟩⟩
    rw [hr'.unique hr.1]
  · refine ⟨_, _, hparse, iff_of_false (by simp) hno, fun _ => rfl, fun r' hfits =>
      ⟨fun hr' => ?_, hformat r' hfits⟩⟩
    exact absurd ⟨r', hr', hfits⟩ hno

/-- A colon and a slash of the path are the path's own. -/
example : (tnfsUrlParse (some ['T', 'n', 'f', 's', ':', '/', '/', 'h', ':', '0', '7',
      '/', 'a', ':', '1', '/'])
    ⟨some (List.replicate 2 'x'), some 0, some (List.replicate 6 'x')⟩).map
      (fun r => (r.2.host, r.2.port, r.2.path)) =
    some (some ['h', '\x00'], some 7, some ['/', 'a', ':', '1', '/', '\x00']) := by decide

end FdcSds
