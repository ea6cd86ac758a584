import NagoWss.Conn.Client

/-!
# A URL written back

A URL that was taken apart is written back with the value of its `Host` header as the
authority. The brackets of an address are gone by then, so that a colon of the host may
be taken for the one in front of a port.
-/

namespace NagoWss

/-! ## The text of an authority -/

/-- The text of the host: what is in the brackets, or in front of the last colon. -/
def hostText (authority : List Char) : List Char :=
  match authority with
  | '[' :: rest => rest.takeWhile (· != ']')
  | _ => ((Text.rsplitOnce ':' authority).map Prod.fst).getD authority

/-- The text of the port, if there is one. -/
def portText (authority : List Char) : Option (List Char) :=
  match authority with
  | '[' :: rest =>
    match rest.dropWhile (· != ']') with
    | ']' :: ':' :: port => some port
    | _ => none
  | _ => (Text.rsplitOnce ':' authority).map Prod.snd

/-- An authority whose host and port can be written back without brackets: the host is not
empty, does not start with a bracket, and has colons only if a port will stand behind it. -/
structure ReadsBack (authority : List Char) (secure : Bool) : Prop where
  /-- There is a host. -/
  host : hostText authority ≠ []
  /-- It does not start with a bracket. -/
  bracket : (hostText authority).head? ≠ some '['
  /-- Behind a colon the port is written. -/
  colon : ':' ∈ hostText authority →
    ∃ port, (portText authority).bind Text.parseU16 = some port ∧ port ≠ defaultPort secure

namespace Url

/-- The authority in a URL. -/
def authorityOf (input : List Char) : List Char :=
  ((Text.splitOncePattern "://".toList input).map fun parts => (splitPath parts.2).1).getD []

/-- Whether the scheme of a URL is the one with TLS. -/
def isSecure (input : List Char) : Bool :=
  (Text.splitOncePattern "://".toList input).any fun parts => parts.1 == "wss".toList

/-- The scheme of a URL. -/
def scheme (url : Url) : List Char := if url.secure then "wss".toList else "ws".toList

/-- A URL written back. -/
def render (url : Url) : List Char := url.scheme ++ "://".toList ++ url.hostHeader ++ url.path

/-- A URL that names its server: it has a host and a path, and what is written back is the
same URL. -/
structure NamesServer (url : Url) : Prop where
  /-- There is a host. -/
  host : url.host ≠ []
  /-- The path starts with a slash. -/
  path : ∃ rest, url.path = '/' :: rest
  /-- Written back it is the same URL. -/
  again : Url.parse url.render = .ok url

/-! ## Reading an authority -/

/-- An authority with brackets. -/
theorem parseAuthority_bracket (rest : List Char) (secure : Bool) :
    parseAuthority ('[' :: rest) secure =
      match Text.splitOnce ']' rest with
      | none => .error (.url "unclosed bracket in host".toList)
      | some (host, after) =>
        match after with
        | ':' :: port => (parsePort port).map (host, ·)
        | [] => .ok (host, defaultPort secure)
        | _ => .error (.url "unexpected text after host".toList) := rfl

/-- An authority without brackets. -/
theorem parseAuthority_plain {authority : List Char} (h : authority.head? ≠ some '[')
    (secure : Bool) :
    parseAuthority authority secure =
      match Text.rsplitOnce ':' authority with
      | some (host, port) => (parsePort port).map (host, ·)
      | none => .ok (authority, defaultPort secure) := by
  unfold parseAuthority
  split
  · exact absurd rfl h
  · rfl

/-- A port that is read is the number of its text. -/
theorem parsePort_eq_ok_iff {text : List Char} {port : UInt16} :
    parsePort text = .ok port ↔ Text.parseU16 text = some port := by
  rw [parsePort]
  cases Text.parseU16 text with
  | none => simp
  | some n => simp

/-- A host and the port behind it. -/
theorem map_parsePort_eq_ok_iff {text host host' : List Char} {port : UInt16} :
    (parsePort text).map (host, ·) = .ok (host', port) ↔
      host = host' ∧ Text.parseU16 text = some port := by
  rw [← parsePort_eq_ok_iff]
  cases parsePort text with
  | error e => simp [Except.map]
  | ok n => simp [Except.map]

/-- What is read of an authority is the text of the host, and the number of the text of
the port or the port of the scheme. -/
theorem parseAuthority_ok {authority host : List Char} {secure : Bool} {port : UInt16}
    (h : parseAuthority authority secure = .ok (host, port)) :
    host = hostText authority ∧
      ((portText authority).bind Text.parseU16 = some port ∨
        portText authority = none ∧ port = defaultPort secure) := by
  by_cases hbracket : authority.head? = some '['
  · obtain ⟨rest, rfl⟩ := List.head?_eq_some_iff.mp hbracket
    rw [parseAuthority_bracket] at h
    split at h
    · cases h
    · next before after hsplit =>
      obtain ⟨rfl, hbefore⟩ := Text.splitOnce_eq_some_iff.mp hsplit
      have hother : ∀ c ∈ before, (c != ']') = true := fun c hc =>
        bne_iff_ne.mpr fun heq => hbefore (heq ▸ hc)
      have hhost : hostText ('[' :: (before ++ ']' :: after)) = before := by
        rw [hostText, List.takeWhile_append_of_pos hother]
        exact List.append_nil before
      have hdrop : (before ++ ']' :: after).dropWhile (· != ']') = ']' :: after := by
        rw [List.dropWhile_append_of_pos hother]
        rfl
      rw [hhost, portText, hdrop]
      split at h
      · obtain ⟨rfl, hport⟩ := map_parsePort_eq_ok_iff.mp h
        exact ⟨rfl, .inl hport⟩
      · cases h
        exact ⟨rfl, .inr ⟨rfl, rfl⟩⟩
      · cases h
  · have hhost : hostText authority =
        ((Text.rsplitOnce ':' authority).map Prod.fst).getD authority := by
      rw [hostText]
      rintro rest rfl
      exact hbracket rfl
    have hport : portText authority = (Text.rsplitOnce ':' authority).map Prod.snd := by
      rw [portText]
      rintro rest rfl
      exact hbracket rfl
    rw [parseAuthority_plain hbracket] at h
    rw [hhost, hport]
    split at h
    · next before behind hsplit =>
      obtain ⟨rfl, hnumber⟩ := map_parsePort_eq_ok_iff.mp h
      rw [hsplit]
      exact ⟨rfl, .inl hnumber⟩
    · next hsplit =>
      cases h
      rw [hsplit]
      exact ⟨rfl, .inr ⟨rfl, rfl⟩⟩

/-- The port is another than that of the scheme exactly if the text of another one was read. -/
theorem port_ne_iff_of_parseAuthority {authority host : List Char} {secure : Bool}
    {port : UInt16} (h : parseAuthority authority secure = .ok (host, port)) :
    port ≠ defaultPort secure ↔
      ∃ port, (portText authority).bind Text.parseU16 = some port ∧ port ≠ defaultPort secure := by
  obtain ⟨-, hport | ⟨hnone, hdefault⟩⟩ := parseAuthority_ok h
  · rw [hport]
    constructor
    · exact fun hne => ⟨port, rfl, hne⟩
    · rintro ⟨port', heq, hne⟩
      rw [Option.some_inj.mp heq]
      exact hne
  · refine iff_of_false (fun hne => hne hdefault) ?_
    rintro ⟨port', heq, -⟩
    rw [hnone] at heq
    cases heq

/-- A host that starts with a bracket stood in brackets, and has none that closes. -/
theorem not_mem_of_bracket {authority host : List Char} {secure : Bool} {port : UInt16}
    (h : parseAuthority authority secure = .ok (host, port)) (hhost : host.head? = some '[') :
    ']' ∉ host := by
  by_cases hbracket : authority.head? = some '['
  · obtain ⟨rest, rfl⟩ := List.head?_eq_some_iff.mp hbracket
    obtain ⟨rfl, -⟩ := parseAuthority_ok h
    intro hmem
    have hne := List.mem_takeWhile_imp hmem
    exact absurd hne (by decide)
  · rw [parseAuthority_plain hbracket] at h
    split at h
    · next before behind hsplit =>
      obtain ⟨hbefore, -⟩ := map_parsePort_eq_ok_iff.mp h
      obtain ⟨hauthority, -⟩ := Text.rsplitOnce_eq_some_iff.mp hsplit
      rw [← hbefore] at hhost
      refine absurd ?_ hbracket
      rw [hauthority, List.head?_append, hhost]
      rfl
    · cases h
      exact absurd hhost hbracket

/-- The host has characters of the authority only. -/
theorem hostText_subset (authority : List Char) : hostText authority ⊆ authority := by
  unfold hostText
  split
  · next rest => exact List.subset_cons_of_subset _ (List.takeWhile_subset _)
  · cases hsplit : Text.rsplitOnce ':' authority with
    | none => exact List.Subset.refl _
    | some parts =>
      obtain ⟨hauthority, -⟩ := Text.rsplitOnce_eq_some_iff.mp hsplit
      intro c hc
      rw [hauthority]
      exact List.mem_append_left _ hc

/-- The value of the `Host` header is read as the host and the port exactly if the host
does not start with a bracket, and has no colon if the port is left out. -/
theorem parseAuthority_hostHeader_iff {url : Url}
    (hclosed : url.host.head? = some '[' → ']' ∉ url.host) :
    parseAuthority url.hostHeader url.secure = .ok (url.host, url.port) ↔
      url.host.head? ≠ some '[' ∧ (':' ∈ url.host → url.port ≠ defaultPort url.secure) := by
  have hdigits : ∀ c ∈ Nat.toDigits 10 url.port.toNat, c.isDigit = true := fun c hc =>
    Nat.isDigit_of_mem_toDigits (by decide) (by decide) hc
  have hother {c : Char} (hc : c.isDigit = false) : c ∉ Nat.toDigits 10 url.port.toNat := by
    intro hmem
    rw [hdigits c hmem] at hc
    cases hc
  by_cases hbracket : url.host.head? = some '['
  · -- The bracket is never closed.
    refine iff_of_false ?_ fun h => h.1 hbracket
    obtain ⟨rest, hrest⟩ := List.head?_eq_some_iff.mp hbracket
    have hopen := hclosed hbracket
    rw [hrest, List.mem_cons, not_or] at hopen
    have hheader : ∃ more, url.hostHeader = '[' :: (rest ++ more) ∧ ']' ∉ more := by
      rw [hostHeader, hrest]
      split
      · exact ⟨[], (List.append_nil _).symm ▸ rfl, List.not_mem_nil⟩
      · refine ⟨_, rfl, ?_⟩
        rw [List.mem_cons, not_or]
        exact ⟨by decide, hother (by decide)⟩
    obtain ⟨more, hmore, hnot⟩ := hheader
    have hsplit : Text.splitOnce ']' (rest ++ more) = none := by
      rw [Text.splitOnce, if_neg]
      rw [List.mem_append, not_or]
      exact ⟨hopen.2, hnot⟩
    rw [hmore, parseAuthority_bracket, hsplit]
    intro h
    cases h
  · rw [and_iff_right hbracket]
    by_cases hdefault : url.port = defaultPort url.secure
    · rw [hostHeader, if_pos hdefault, parseAuthority_plain hbracket]
      cases hsplit : Text.rsplitOnce ':' url.host with
      | none =>
        refine iff_of_true ?_ fun hcolon => absurd hcolon (Text.rsplitOnce_eq_none_iff.mp hsplit)
        rw [hdefault]
      | some parts =>
        obtain ⟨before, behind⟩ := parts
        obtain ⟨hhost, -⟩ := Text.rsplitOnce_eq_some_iff.mp hsplit
        have hcolon : ':' ∈ url.host := by
          rw [hhost]
          exact List.mem_append_right _ List.mem_cons_self
        refine iff_of_false (fun h => ?_) fun h => h hcolon hdefault
        obtain ⟨hbefore, -⟩ := map_parsePort_eq_ok_iff.mp h
        -- The part in front of a colon is shorter than the host.
        have hlength := congrArg List.length hhost
        rw [hbefore, List.length_append, List.length_cons] at hlength
        omega
    · have hhead : (url.host ++ ':' :: Nat.toDigits 10 url.port.toNat).head? ≠ some '[' := by
        cases hhost : url.host with
        | nil => exact fun h => absurd (Option.some_inj.mp h) (by decide)
        | cons c host =>
          rw [hhost] at hbracket
          exact hbracket
      have hsplit : Text.rsplitOnce ':' (url.host ++ ':' :: Nat.toDigits 10 url.port.toNat) =
          some (url.host, Nat.toDigits 10 url.port.toNat) :=
        Text.rsplitOnce_eq_some_iff.mpr ⟨rfl, hother (by decide)⟩
      refine iff_of_true ?_ fun _ => hdefault
      rw [hostHeader, if_neg hdefault, parseAuthority_plain hhead, hsplit]
      exact map_parsePort_eq_ok_iff.mpr ⟨rfl, Text.parseU16_toDigits url.port⟩

/-! ## Reading what was written back -/

/-- There is no slash in the part in front of the path. -/
theorem slash_not_mem_splitPath (rest : List Char) : '/' ∉ (splitPath rest).1 := by
  rw [splitPath]
  split
  · intro hmem
    exact absurd (List.mem_takeWhile_imp hmem) (by decide)
  · next hslash => exact hslash

/-- The path starts at the first slash. -/
theorem splitPath_append {authority rest : List Char} (h : '/' ∉ authority) :
    splitPath (authority ++ '/' :: rest) = (authority, '/' :: rest) := by
  have hmem : '/' ∈ authority ++ '/' :: rest := List.mem_append_right _ List.mem_cons_self
  have hother : ∀ c ∈ authority, (c != '/') = true := fun c hc =>
    bne_iff_ne.mpr fun heq => h (heq ▸ hc)
  rw [splitPath, if_pos hmem, List.takeWhile_append_of_pos hother,
    List.dropWhile_append_of_pos hother]
  exact congrArg (·, '/' :: rest) (List.append_nil authority)

/-- The scheme ends at the first colon. -/
theorem splitOncePattern_scheme (url : Url) (rest : List Char) :
    Text.splitOncePattern "://".toList (url.scheme ++ ("://".toList ++ rest)) =
      some (url.scheme, rest) := by
  have hcolon : ':' ∉ url.scheme := by
    rw [scheme]
    split <;> decide
  have hfront : Search.firstIndex "://".toList ("://".toList ++ rest) = some 0 :=
    Search.firstIndex_of_isPrefix (List.prefix_append _ _)
  have hindex : Search.firstIndex "://".toList (url.scheme ++ ("://".toList ++ rest)) =
      some url.scheme.length := by
    refine (Search.firstIndex_append_of_not_mem hcolon _).trans ?_
    exact (congrArg (Option.map (· + url.scheme.length)) hfront).trans
      (congrArg some (Nat.zero_add _))
  rw [Text.splitOncePattern, hindex, Option.map_some, List.take_left, ← List.drop_drop,
    List.drop_left, List.drop_left]

/-- A scheme that is read is the one with TLS or the one without. -/
theorem parseScheme_ok {text : List Char} {secure : Bool} (h : parseScheme text = .ok secure) :
    (text == "wss".toList) = secure := by
  rw [parseScheme] at h
  split at h
  · next hws =>
    rw [hws, ← Except.ok.inj h]
    rfl
  · split at h
    · next hwss =>
      rw [hwss, ← Except.ok.inj h]
      rfl
    · cases h

/-- The scheme is read back. -/
theorem parseScheme_scheme (url : Url) : parseScheme url.scheme = .ok url.secure := by
  rw [scheme]
  cases url.secure with
  | false => rfl
  | true => rfl

/-- What was written back is the same URL exactly if its authority is read as the host and
the port. -/
theorem parse_render_iff {url : Url} (hpath : ∃ rest, url.path = '/' :: rest)
    (hslash : '/' ∉ url.hostHeader) (hat : '@' ∉ url.hostHeader) :
    Url.parse url.render = .ok url ↔ url.hostHeader ≠ [] ∧
      parseAuthority url.hostHeader url.secure = .ok (url.host, url.port) := by
  obtain ⟨rest, hrest⟩ := hpath
  have hsplit := splitOncePattern_scheme url (url.hostHeader ++ url.path)
  have hparts : splitPath (url.hostHeader ++ url.path) = (url.hostHeader, url.path) := by
    rw [hrest]
    exact splitPath_append hslash
  rw [render, List.append_assoc, List.append_assoc, Url.parse, hsplit]
  simp only [bind, Except.bind, parseScheme_scheme, hparts, List.isEmpty_iff, if_neg hat]
  by_cases hempty : url.hostHeader = []
  · rw [if_pos hempty]
    exact iff_of_false (fun h => by cases h) fun h => h.1 hempty
  · rw [if_neg hempty, and_iff_right hempty]
    cases parseAuthority url.hostHeader url.secure with
    | error e => exact iff_of_false (fun h => by cases h) fun h => by cases h
    | ok parts =>
      constructor
      · intro h
        rw [← Except.ok.inj h]
      · intro h
        cases h
        rfl

/-- The value of the `Host` header has characters of the host, digits and a colon only. -/
theorem not_mem_hostHeader {url : Url} {c : Char} (hhost : c ∉ url.host)
    (hdigit : c.isDigit = false) (hcolon : c ≠ ':') : c ∉ url.hostHeader := by
  rw [hostHeader]
  split
  · exact hhost
  · rw [List.mem_append, List.mem_cons, not_or, not_or]
    refine ⟨hhost, hcolon, fun hmem => ?_⟩
    rw [Nat.isDigit_of_mem_toDigits (by decide) (by decide) hmem] at hdigit
    cases hdigit

/-- Where there is a host, the `Host` header has a value. -/
theorem hostHeader_ne_nil {url : Url} (h : url.host ≠ []) : url.hostHeader ≠ [] := by
  rw [hostHeader]
  split
  · exact h
  · exact List.append_ne_nil_of_left_ne_nil h _

/-- A URL that is accepted names its server exactly if its authority can be written back
without brackets. -/
theorem namesServer_iff {input : List Char} {url : Url} (h : Url.parse input = .ok url) :
    url.NamesServer ↔ ReadsBack (authorityOf input) (isSecure input) := by
  have hpath := parse_path h
  obtain ⟨scheme, rest, hsplit, hscheme, -, hat, hauthority, -⟩ := parse_ok h
  have hslash := slash_not_mem_splitPath rest
  have hread : authorityOf input = (splitPath rest).1 := by
    rw [authorityOf, hsplit]
    rfl
  have hsecure : isSecure input = url.secure := by
    rw [isSecure, hsplit, Option.any_some]
    exact parseScheme_ok hscheme
  obtain ⟨hhost, -⟩ := parseAuthority_ok hauthority
  have hsub := hostText_subset (splitPath rest).1
  rw [← hhost] at hsub
  have hslash' : '/' ∉ url.hostHeader :=
    not_mem_hostHeader (fun hmem => hslash (hsub hmem)) (by decide) (by decide)
  have hat' : '@' ∉ url.hostHeader :=
    not_mem_hostHeader (fun hmem => hat (hsub hmem)) (by decide) (by decide)
  have hagain := parse_render_iff hpath hslash' hat'
  rw [parseAuthority_hostHeader_iff (not_mem_of_bracket hauthority)] at hagain
  rw [hread, hsecure]
  have hwritten := port_ne_iff_of_parseAuthority hauthority
  constructor
  · intro hnames
    obtain ⟨-, hbracket, hport⟩ := hagain.mp hnames.again
    rw [hhost] at hbracket hport
    exact ⟨hhost ▸ hnames.host, hbracket, fun hcolon => hwritten.mp (hport hcolon)⟩
  · rintro ⟨hne, hbracket, hport⟩
    rw [← hhost] at hne hbracket hport
    exact ⟨hne, hpath, hagain.mpr
      ⟨hostHeader_ne_nil hne, hbracket, fun hcolon => hwritten.mpr (hport hcolon)⟩⟩

/-- An address with a port of its own. -/
theorem namesServer_iff_address :
    ∃ url, Url.parse "wss://[::1]:9000/chat".toList = .ok url ∧ url.NamesServer := by
  have hparse : Url.parse "wss://[::1]:9000/chat".toList =
      .ok ⟨true, "::1".toList, 9000, "/chat".toList⟩ := by decide +kernel
  refine ⟨_, hparse, (namesServer_iff hparse).mpr ⟨by decide +kernel, by decide +kernel, ?_⟩⟩
  exact fun _ => ⟨9000, by decide +kernel, by decide⟩

/-- An address whose port is left out is taken for another host and a port; a host that is
empty is accepted in front of a port, and one that starts with a bracket is not read back. -/
theorem address_misread :
    (∃ url, Url.parse "ws://[::1]/".toList = .ok url ∧
      Url.parse url.render = .ok ⟨false, ":".toList, 1, "/".toList⟩ ∧ ¬url.NamesServer) ∧
    (∃ url, Url.parse "ws://:81/".toList = .ok url ∧ url.host = [] ∧ ¬url.NamesServer) ∧
    ∃ url, Url.parse "ws://[[a]/".toList = .ok url ∧ ¬url.NamesServer := by
  have hother {url url' : Url} (h : Url.parse url.render = .ok url') (hne : url' ≠ url) :
      ¬url.NamesServer := by
    intro hnames
    have hagain := hnames.again
    rw [h] at hagain
    exact hne (Except.ok.inj hagain)
  refine ⟨⟨⟨false, "::1".toList, 80, "/".toList⟩, by decide +kernel, by decide +kernel,
      @hother _ ⟨false, ":".toList, 1, "/".toList⟩ (by decide +kernel) (by decide)⟩,
    ⟨⟨false, [], 81, "/".toList⟩, by decide +kernel, rfl, fun hnames => hnames.host rfl⟩,
    ⟨⟨false, "[a".toList, 80, "/".toList⟩, by decide +kernel, fun hnames => ?_⟩⟩
  have hrefused : Url.parse (Url.render ⟨false, "[a".toList, 80, "/".toList⟩) =
      .error (.url "unclosed bracket in host".toList) := by decide +kernel
  rw [hnames.again] at hrefused
  cases hrefused

end Url

end NagoWss
