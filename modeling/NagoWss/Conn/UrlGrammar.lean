import NagoWss.Conn.Authority

/-!
# The URLs that are accepted

A grammar for the URLs of the two schemes, which does not mention how they are taken apart.
A text is parsed to a URL exactly if the grammar spells the URL with it.
-/

namespace NagoWss

/-! ## The grammar -/

/-- Digits for a number of sixteen bits. -/
structure SmallNumber (digits : List Char) : Prop where
  /-- There is a digit. -/
  ne_nil : digits ≠ []
  /-- There is nothing else. -/
  digit : ∀ c ∈ digits, c.isDigit = true
  /-- The number is small enough. -/
  small : Text.decimal digits < 65536

/-- A port: a number, with or without a plus sign in front. -/
inductive PortText : List Char → UInt16 → Prop
  | digits {text : List Char} (h : SmallNumber text) : PortText text (.ofNat (Text.decimal text))
  | plus {text : List Char} (h : SmallNumber text) :
      PortText ('+' :: text) (.ofNat (Text.decimal text))

/-- An authority: an address in brackets or a name, and a port, that of the scheme if there
is none. -/
inductive AuthorityText (secure : Bool) : List Char → List Char → UInt16 → Prop
  | address {host : List Char} (hhost : ']' ∉ host) :
      AuthorityText secure ('[' :: (host ++ [']'])) host (defaultPort secure)
  | addressPort {host text : List Char} {port : UInt16} (hhost : ']' ∉ host)
      (hport : PortText text port) :
      AuthorityText secure ('[' :: (host ++ ']' :: ':' :: text)) host port
  | name {host : List Char} (hbracket : host.head? ≠ some '[') (hcolon : ':' ∉ host) :
      AuthorityText secure host host (defaultPort secure)
  | namePort {host text : List Char} {port : UInt16} (hbracket : host.head? ≠ some '[')
      (hport : PortText text port) : AuthorityText secure (host ++ ':' :: text) host port

/-- A URL: a scheme, an authority without credentials, and a path from the first slash on,
which may be left out. -/
inductive UrlText : List Char → Url → Prop
  | path {url : Url} {authority rest : List Char} (hne : authority ≠ []) (hslash : '/' ∉ authority)
      (hat : '@' ∉ authority) (hauthority : AuthorityText url.secure authority url.host url.port)
      (hpath : url.path = '/' :: rest) :
      UrlText (url.scheme ++ ("://".toList ++ (authority ++ url.path))) url
  | root {url : Url} {authority : List Char} (hne : authority ≠ []) (hslash : '/' ∉ authority)
      (hat : '@' ∉ authority) (hauthority : AuthorityText url.secure authority url.host url.port)
      (hpath : url.path = "/".toList) :
      UrlText (url.scheme ++ ("://".toList ++ authority)) url

/-! ## Parsing decides the grammar -/

/-- A port is read exactly if it is spelled. -/
theorem parseU16_iff {text : List Char} {port : UInt16} :
    Text.parseU16 text = some port ↔ PortText text port := by
  have hread {digits : List Char} (h : (if digits.isEmpty || !digits.all Char.isDigit ||
      decide (65536 ≤ Text.decimal digits) then none
      else some (UInt16.ofNat (Text.decimal digits))) = some port) :
      SmallNumber digits ∧ port = .ofNat (Text.decimal digits) := by
    split at h
    · cases h
    · next hnot =>
      simp only [Bool.or_eq_true, not_or, List.isEmpty_iff, Bool.not_eq_true', Bool.not_eq_false,
        List.all_eq_true, decide_eq_true_eq, Nat.not_le] at hnot
      exact ⟨⟨hnot.1.1, hnot.1.2, hnot.2⟩, (Option.some.inj h).symm⟩
  constructor
  · intro h
    simp only [Text.parseU16] at h
    split at h
    · obtain ⟨hnumber, rfl⟩ := hread h
      exact .plus hnumber
    · obtain ⟨hnumber, rfl⟩ := hread h
      exact .digits hnumber
  · intro h
    cases h with
    | digits h => exact Text.parseU16_of_digits h.ne_nil h.digit h.small
    | @plus digits h =>
      have hplain := Text.parseU16_of_digits h.ne_nil h.digit h.small
      have hempty : digits.isEmpty = false := List.isEmpty_eq_false_iff.mpr h.ne_nil
      have hdigits : digits.all Char.isDigit = true := List.all_eq_true.mpr h.digit
      have hlarge : ¬65536 ≤ Text.decimal digits := Nat.not_le.mpr h.small
      simp only [Text.parseU16, hempty, hdigits, hlarge]
      rfl

/-- A port has no colon. -/
theorem PortText.colon {text : List Char} {port : UInt16} (h : PortText text port) :
    ':' ∉ text := by
  intro hmem
  cases h with
  | digits h => exact absurd (h.digit ':' hmem) (by decide)
  | plus h =>
    rcases List.mem_cons.mp hmem with heq | hmem
    · exact absurd heq (by decide)
    · exact absurd (h.digit ':' hmem) (by decide)

/-- An authority is taken apart exactly if it is spelled. -/
theorem parseAuthority_iff {authority host : List Char} {secure : Bool} {port : UInt16} :
    Url.parseAuthority authority secure = .ok (host, port) ↔
      AuthorityText secure authority host port := by
  constructor
  · intro h
    by_cases hbracket : authority.head? = some '['
    · obtain ⟨rest, rfl⟩ := List.head?_eq_some_iff.mp hbracket
      rw [Url.parseAuthority_bracket] at h
      rcases hsplit : Text.splitOnce ']' rest with _ | ⟨before, after⟩
      · rw [hsplit] at h
        cases h
      · obtain ⟨rfl, hbefore⟩ := Text.splitOnce_eq_some_iff.mp hsplit
        rw [hsplit] at h
        simp only at h
        split at h
        · obtain ⟨rfl, hport⟩ := Url.map_parsePort_eq_ok_iff.mp h
          exact .addressPort hbefore (parseU16_iff.mp hport)
        · cases h
          exact .address hbefore
        · cases h
    · rw [Url.parseAuthority_plain hbracket] at h
      rcases hsplit : Text.rsplitOnce ':' authority with _ | ⟨before, text⟩
      · rw [hsplit] at h
        cases h
        exact .name hbracket (Text.rsplitOnce_eq_none_iff.mp hsplit)
      · obtain ⟨rfl, -⟩ := Text.rsplitOnce_eq_some_iff.mp hsplit
        rw [hsplit] at h
        obtain ⟨rfl, hport⟩ := Url.map_parsePort_eq_ok_iff.mp h
        refine .namePort (fun hhead => hbracket ?_) (parseU16_iff.mp hport)
        rw [List.head?_append, hhead]
        rfl
  · intro h
    cases h with
    | address hhost =>
      rw [Url.parseAuthority_bracket, Text.splitOnce_append hhost]
    | addressPort hhost hport =>
      rw [Url.parseAuthority_bracket, Text.splitOnce_append hhost]
      exact Url.map_parsePort_eq_ok_iff.mpr ⟨rfl, parseU16_iff.mpr hport⟩
    | name hbracket hcolon =>
      rw [Url.parseAuthority_plain hbracket, Text.rsplitOnce_eq_none_iff.mpr hcolon]
    | @namePort host text port hbracket hport =>
      have hhead : (host ++ ':' :: text).head? ≠ some '[' := by
        cases host with
        | nil => exact fun h => absurd (Option.some.inj h) (by decide)
        | cons c rest => exact hbracket
      rw [Url.parseAuthority_plain hhead,
        Text.rsplitOnce_eq_some_iff.mpr ⟨rfl, hport.colon⟩]
      exact Url.map_parsePort_eq_ok_iff.mpr ⟨rfl, parseU16_iff.mpr hport⟩

/-- The parts behind and before a pattern make up the text with it. -/
theorem eq_of_splitOncePattern {pattern text before behind : List Char}
    (h : Text.splitOncePattern pattern text = some (before, behind)) :
    text = before ++ (pattern ++ behind) := by
  obtain ⟨i, hindex, hparts⟩ := Option.map_eq_some_iff.mp h
  obtain ⟨rfl, rfl⟩ := Prod.mk.inj hparts
  obtain ⟨q, hq⟩ := Search.prefix_drop_firstIndex hindex
  rw [← List.drop_drop, ← hq, List.drop_left, hq, List.take_append_drop]

/-- The scheme that is read is the one of the URL. -/
theorem parseScheme_iff {text : List Char} {url : Url} :
    Url.parseScheme text = .ok url.secure ↔ text = url.scheme := by
  constructor
  · intro h
    rw [Url.parseScheme] at h
    rw [Url.scheme]
    split at h
    · next hplain =>
      rw [← Except.ok.inj h]
      exact hplain
    · split at h
      · next hsecure =>
        rw [← Except.ok.inj h]
        exact hsecure
      · cases h
  · rintro rfl
    exact Url.parseScheme_scheme url

/-- Parsing decides the grammar: a text is parsed to a URL exactly if the grammar spells the
URL with it. -/
theorem url_parse_iff (text : List Char) (url : Url) :
    Url.parse text = .ok url ↔ UrlText text url := by
  constructor
  · intro h
    obtain ⟨scheme, rest, hsplit, hscheme, hne, hat, hauthority, hpath⟩ := Url.parse_ok h
    obtain rfl := eq_of_splitOncePattern hsplit
    obtain rfl := parseScheme_iff.mp hscheme
    have hspelled := parseAuthority_iff.mp hauthority
    have hslash := Url.slash_not_mem_splitPath rest
    by_cases hmem : '/' ∈ rest
    · obtain ⟨before, behind, rfl, hbefore⟩ := List.eq_append_cons_of_mem hmem
      rw [Url.splitPath_append hbefore] at hne hat hspelled hpath
      rw [← show url.path = '/' :: behind from hpath]
      exact .path hne hbefore hat hspelled hpath
    · rw [Url.splitPath, if_neg hmem] at hne hat hspelled hpath
      exact .root hne hmem hat hspelled hpath
  · intro h
    have hparse {authority rest : List Char} (hne : authority ≠ []) (hat : '@' ∉ authority)
        (hauthority : AuthorityText url.secure authority url.host url.port)
        (hparts : Url.splitPath rest = (authority, url.path)) :
        Url.parse (url.scheme ++ ("://".toList ++ rest)) = .ok url := by
      rw [Url.parse, Url.splitOncePattern_scheme]
      simp only [bind, Except.bind, Url.parseScheme_scheme, hparts, List.isEmpty_iff, if_neg hat,
        if_neg hne, parseAuthority_iff.mpr hauthority]
    cases h with
    | path hne hslash hat hauthority hpath =>
      refine hparse hne hat hauthority ?_
      rw [hpath]
      exact Url.splitPath_append hslash
    | root hne hslash hat hauthority hpath =>
      refine hparse hne hat hauthority ?_
      rw [hpath, Url.splitPath, if_neg hslash]

/-- A port with a plus sign and leading zeros, behind an address in brackets. -/
example : Url.parse "wss://[::1]:+0443/chat?room=1".toList =
    .ok ⟨true, "::1".toList, 443, "/chat?room=1".toList⟩ := by decide +kernel

end NagoWss
