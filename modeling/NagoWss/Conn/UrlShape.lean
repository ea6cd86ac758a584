import NagoWss.Conn.Authority

/-!
# What the text of a URL does to its request

The path and the host go into the request as they stand in the text of the URL. The text
tells which requests are read back as they were meant.
-/

namespace NagoWss

namespace Url

/-- The path in a URL, from the first slash behind the authority on, if there is one. -/
def pathOf (input : List Char) : List Char :=
  ((Text.splitOncePattern "://".toList input).map fun parts =>
    parts.2.dropWhile (· != '/')).getD []

/-- A text of a URL whose path fits between two spaces of a request line, and whose host and
port fit on a header line and are all of its value. -/
structure CleanText (input : List Char) : Prop where
  /-- The path has no space. -/
  pathSpace : ' ' ∉ pathOf input
  /-- The path has no line feed. -/
  pathLine : '\n' ∉ pathOf input
  /-- The host has no line feed. -/
  hostLine : '\n' ∉ hostText (authorityOf input)
  /-- The host does not start with white space. -/
  hostStart : ∀ c ∈ (hostText (authorityOf input)).head?, Text.isWhitespace c = false
  /-- It does not end with white space, unless a port is written behind it. -/
  hostEnd : (∀ c ∈ (hostText (authorityOf input)).getLast?, Text.isWhitespace c = false) ∨
    ∃ port, (portText (authorityOf input)).bind Text.parseU16 = some port ∧
      port ≠ defaultPort (isSecure input)

/-- The path of a URL that is accepted stood in its text, or is a slash. -/
theorem path_mem_iff {input : List Char} {url : Url} (h : Url.parse input = .ok url) {c : Char}
    (hc : c ≠ '/') : c ∈ url.path ↔ c ∈ pathOf input := by
  obtain ⟨scheme, rest, hsplit, -, -, -, -, hpath⟩ := parse_ok h
  rw [hpath, pathOf, hsplit, splitPath]
  split
  · rfl
  · next hslash =>
    have hother : ∀ x ∈ rest, (x != '/') = true := fun x hx =>
      bne_iff_ne.mpr fun heq => hslash (heq ▸ hx)
    have hnone : rest.dropWhile (· != '/') = [] := List.dropWhile_eq_nil_iff.mpr hother
    refine iff_of_false (fun hmem => hc (List.mem_singleton.mp hmem)) ?_
    rw [Option.map_some, Option.getD_some, hnone]
    exact List.not_mem_nil

/-- The value of the `Host` header is all of what is read back exactly if the host starts
with another character than white space, and ends with one or has the port behind it. -/
theorem trim_hostHeader_iff (url : Url) : Text.trim url.hostHeader = url.hostHeader ↔
    (∀ c ∈ url.host.head?, Text.isWhitespace c = false) ∧
      ((∀ c ∈ url.host.getLast?, Text.isWhitespace c = false) ∨
        url.port ≠ defaultPort url.secure) := by
  rw [Text.trim_eq_self_iff, hostHeader]
  by_cases hdefault : url.port = defaultPort url.secure
  · rw [if_pos hdefault, or_iff_left (not_not.mpr hdefault)]
  · -- Behind the colon stands a number, which ends in a digit.
    have hlast : ∀ c ∈ (url.host ++ ':' :: Nat.toDigits 10 url.port.toNat).getLast?,
        Text.isWhitespace c = false := by
      intro c hc
      have hne : Nat.toDigits 10 url.port.toNat ≠ [] := Nat.toDigits_ne_nil
      rw [List.getLast?_append_of_ne_nil _ (List.cons_ne_nil _ _), List.getLast?_cons_of_ne_nil hne]
        at hc
      exact Text.isWhitespace_of_isDigit
        (Nat.isDigit_of_mem_toDigits (by decide) (by decide) (List.mem_of_getLast? hc))
    rw [if_neg hdefault, and_iff_left hlast, and_iff_left (.inr hdefault)]
    cases url.host with
    | nil => exact iff_of_true (fun c hc => by cases hc; decide) fun c hc => by cases hc
    | cons x host => exact Iff.rfl

/-- The host is part of the value of the `Host` header. -/
theorem host_subset_hostHeader (url : Url) : url.host ⊆ url.hostHeader := by
  rw [hostHeader]
  split
  · exact List.Subset.refl _
  · exact List.subset_append_left _ _

/-- A URL that is accepted is clean exactly if its text is. -/
theorem clean_iff {input : List Char} {url : Url} (h : Url.parse input = .ok url) :
    url.Clean ↔ CleanText input := by
  obtain ⟨scheme, rest, hsplit, hscheme, -, -, hauthority, -⟩ := parse_ok h
  have hread : authorityOf input = (splitPath rest).1 := by
    rw [authorityOf, hsplit]
    rfl
  have hsecure : isSecure input = url.secure := by
    rw [isSecure, hsplit, Option.any_some]
    exact parseScheme_ok hscheme
  obtain ⟨hhost, -⟩ := parseAuthority_ok hauthority
  have hport := port_ne_iff_of_parseAuthority hauthority
  rw [← hread] at hhost hport
  have hspace : ' ' ∈ url.path ↔ ' ' ∈ pathOf input := path_mem_iff h (by decide)
  have hline : '\n' ∈ url.path ↔ '\n' ∈ pathOf input := path_mem_iff h (by decide)
  constructor
  · intro hclean
    obtain ⟨hstart, hend⟩ := url.trim_hostHeader_iff.mp hclean.hostTrimmed
    rw [hport, hhost, ← hsecure] at hend
    rw [hhost] at hstart
    refine ⟨mt hspace.mpr hclean.pathSpace, mt hline.mpr hclean.pathLine, ?_, hstart, hend⟩
    rw [← hhost]
    exact fun hmem => hclean.hostLine (url.host_subset_hostHeader hmem)
  · intro htext
    obtain ⟨hstart, hend⟩ := And.intro htext.hostStart htext.hostEnd
    rw [hsecure, ← hport, ← hhost] at hend
    rw [← hhost] at hstart
    refine ⟨mt hspace.mp htext.pathSpace, mt hline.mp htext.pathLine, ?_,
      url.trim_hostHeader_iff.mpr ⟨hstart, hend⟩⟩
    exact not_mem_hostHeader (hhost ▸ htext.hostLine) (by decide) (by decide)

end Url

/-- The request of a URL that is accepted is read back as what it was built from exactly if
the text of the URL is clean. -/
theorem url_keepsShape_iff {s : List Char} {url : Url} (h : Url.parse s = .ok url)
    (options : ClientOptions) (hoptions : options.WellFormed) :
    url.KeepsShape options ↔ Url.CleanText s := by
  rw [← Url.clean_iff h]
  exact ⟨fun hkeeps => hkeeps.clean, fun hclean => hclean.keepsShape hoptions⟩

/-- Options with a subprotocol and a header. -/
def mcpOptions : ClientOptions where
  protocols := ["mcp".toList]
  headers := [("Origin".toList, "https://app.example.com".toList)]
  entropy := .replicate 16 11
  limits := .default

/-- They are well formed. -/
theorem mcpOptions_wellFormed : mcpOptions.WellFormed where
  tokens := by decide
  writable := by decide
  other := by decide
  count := by decide

/-- A URL with a query keeps it. -/
theorem url_keepsShape_iff_query :
    ∃ url, Url.parse "ws://[::1]:9000/chat?room=1".toList = .ok url ∧
      url.path = "/chat?room=1".toList ∧ url.KeepsShape mcpOptions := by
  have hparse : Url.parse "ws://[::1]:9000/chat?room=1".toList =
      .ok ⟨false, "::1".toList, 9000, "/chat?room=1".toList⟩ := by decide +kernel
  have hhost : hostText (Url.authorityOf "ws://[::1]:9000/chat?room=1".toList) =
      "::1".toList := by decide +kernel
  refine ⟨_, hparse, rfl, (url_keepsShape_iff hparse mcpOptions mcpOptions_wellFormed).mpr
    ⟨by decide +kernel, by decide +kernel, by decide +kernel, ?_, .inl ?_⟩⟩
  · rw [hhost]
    rintro _ ⟨⟩
    decide
  · rw [hhost]
    rintro _ ⟨⟩
    decide

/-- A caller who adds nothing adds nothing wrong. -/
theorem default_wellFormed : ClientOptions.default.WellFormed :=
  ⟨List.forall_mem_nil _, List.forall_mem_nil _, List.forall_mem_nil _, by decide⟩

/-- A path with a space in it, one that goes on to a header line of its own, and a host that
does. -/
theorem url_changes_shape :
    ClientOptions.default.WellFormed ∧
    (∃ url, Url.parse "ws://a/chat room".toList = .ok url ∧ url.path = "/chat room".toList ∧
      ¬url.KeepsShape .default) ∧
    (∃ url, Url.parse "ws://a/ HTTP/1.1\r\nCookie: b".toList = .ok url ∧
      ¬url.KeepsShape .default) ∧
    ∃ url, Url.parse "ws://a\r\nCookie: b:80".toList = .ok url ∧ ¬url.KeepsShape .default := by
  refine ⟨default_wellFormed, ⟨⟨false, "a".toList, 80, "/chat room".toList⟩, by decide +kernel,
      rfl, fun h => ?_⟩,
    ⟨⟨false, "a".toList, 80, "/ HTTP/1.1\r\nCookie: b".toList⟩, by decide +kernel, fun h => ?_⟩,
    ⟨⟨false, "a\r\nCookie: b".toList, 80, "/".toList⟩, by decide +kernel, fun h => ?_⟩⟩
  · exact absurd h.clean.pathSpace (by decide)
  · exact absurd h.clean.pathLine (by decide)
  · exact absurd h.clean.hostLine (by decide)

end NagoWss
