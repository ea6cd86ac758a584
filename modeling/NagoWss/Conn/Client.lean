import NagoWss.Conn.Gathering
import NagoWss.Proto.Agreement

/-!
# Opening a connection from a URL

The URL is taken apart into what the connection and the request need of it. What it
holds is not looked at: a path or a host with a line feed in it, or a path with a space,
makes another request than it should.
-/

namespace NagoWss

/-- A parsed `ws://` or `wss://` URL. -/
structure Url where
  /-- Whether TLS applies. -/
  secure : Bool
  /-- The host. -/
  host : List Char
  /-- The port, that of the scheme if there is none. -/
  port : UInt16
  /-- The path and the query, `/` if there is none. -/
  path : List Char
  deriving DecidableEq, Repr

/-- The port of a scheme. -/
def defaultPort (secure : Bool) : UInt16 := if secure then 443 else 80

/-- The port that a text names. -/
def Url.parsePort (text : List Char) : Except Error UInt16 :=
  match Text.parseU16 text with
  | none => .error (.url "port is not a number".toList)
  | some port => .ok port

/-- The host and the port that an authority names. -/
def Url.parseAuthority (authority : List Char) (secure : Bool) : Except Error (List Char × UInt16) :=
  match authority with
  | '[' :: rest =>
    match Text.splitOnce ']' rest with
    | none => .error (.url "unclosed bracket in host".toList)
    | some (host, after) =>
      match after with
      | ':' :: port => (parsePort port).map (host, ·)
      | [] => .ok (host, defaultPort secure)
      | _ => .error (.url "unexpected text after host".toList)
  | _ =>
    match Text.rsplitOnce ':' authority with
    | some (host, port) => (parsePort port).map (host, ·)
    | none => .ok (authority, defaultPort secure)

/-- Whether the scheme is the one with TLS. -/
def Url.parseScheme (scheme : List Char) : Except Error Bool :=
  if scheme = "ws".toList then .ok false
  else if scheme = "wss".toList then .ok true
  else .error (.url "scheme is not ws or wss".toList)

/-- The authority and the path, which starts at the first slash after it. -/
def Url.splitPath (rest : List Char) : List Char × List Char :=
  if '/' ∈ rest then (rest.takeWhile (· != '/'), rest.dropWhile (· != '/')) else (rest, "/".toList)

/-- Parse a WebSocket URL. -/
def Url.parse (input : List Char) : Except Error Url :=
  match Text.splitOncePattern "://".toList input with
  | none => .error (.url "missing scheme".toList)
  | some (scheme, rest) => do
    let secure ← parseScheme scheme
    let (authority, path) := splitPath rest
    if authority.isEmpty then .error (.url "missing host".toList)
    else if '@' ∈ authority then .error (.url "credentials are not supported".toList)
    else
      let (host, port) ← parseAuthority authority secure
      .ok ⟨secure, host, port, path⟩

/-- The value of the `Host` header: the port is left out if it is that of the scheme. -/
def Url.hostHeader (url : Url) : List Char :=
  if url.port = defaultPort url.secure then url.host
  else url.host ++ ':' :: (Nat.toDigits 10 url.port.toNat)

/-- How to open a connection. -/
structure ClientOptions where
  /-- Subprotocols to offer, in order of preference. -/
  protocols : List (List Char)
  /-- Extra request headers. -/
  headers : List HeaderLine
  /-- Sixteen random bytes for the handshake key. -/
  entropy : Vector UInt8 16
  /-- Message size limits. -/
  limits : Limits

/-- The options of a caller who has none. -/
def ClientOptions.default : ClientOptions where
  protocols := []
  headers := []
  entropy := ⟨(Utf8.encode "nago-wss-default".toList).toArray, by decide +kernel⟩
  limits := .default

/-- Connect to a `ws://` URL. To resolve the host and to connect to one of its addresses
is what `dial` does. -/
def connectPlain (dial : List Char → UInt16 → Except Error ByteStream) (endian : Endian)
    (seed : UInt64) (url : Url) (options : ClientOptions) :
    Except Error (Connection × Option (List Char)) :=
  match dial url.host url.port with
  | .error e => .error e
  | .ok stream =>
    (connect endian seed stream url.path url.hostHeader options.protocols options.headers
      options.entropy options.limits).1

/-- What a URL that is accepted is made of. -/
theorem Url.parse_ok {input : List Char} {url : Url} (h : Url.parse input = .ok url) :
    ∃ scheme rest, Text.splitOncePattern "://".toList input = some (scheme, rest) ∧
      parseScheme scheme = .ok url.secure ∧ (splitPath rest).1 ≠ [] ∧ '@' ∉ (splitPath rest).1 ∧
        parseAuthority (splitPath rest).1 url.secure = .ok (url.host, url.port) ∧
          url.path = (splitPath rest).2 := by
  rw [Url.parse] at h
  split at h
  · cases h
  · next scheme rest hsplit =>
    refine ⟨scheme, rest, hsplit, ?_⟩
    simp only [bind, Except.bind] at h
    split at h
    · cases h
    · next secure hscheme =>
      split at h
      · cases h
      · next hne =>
        split at h
        · cases h
        · next hat =>
          split at h
          · cases h
          · next authority hauthority =>
            cases h
            rw [List.isEmpty_iff] at hne
            exact ⟨hscheme, hne, hat, hauthority, rfl⟩

/-- The path of a URL starts with a slash. -/
theorem Url.parse_path {input : List Char} {url : Url} (h : Url.parse input = .ok url) :
    ∃ rest, url.path = '/' :: rest := by
  obtain ⟨scheme, rest, -, -, -, -, -, hpath⟩ := Url.parse_ok h
  rw [hpath, splitPath]
  split
  · next hslash =>
    obtain ⟨before, behind, rfl, hbefore⟩ := List.eq_append_cons_of_mem hslash
    have hother : ∀ c ∈ before, (c != '/') = true := fun c hc =>
      bne_iff_ne.mpr fun heq => hbefore (heq ▸ hc)
    refine ⟨behind, ?_⟩
    simp only
    rw [List.dropWhile_append_of_pos hother]
    rfl
  · exact ⟨[], rfl⟩

/-! ## The request of a URL -/

/-- Reading a head writes nothing. -/
theorem readHead_sent (stream : ByteStream) (maxHead : Nat) :
    (readHead stream maxHead).2.sent = stream.sent := by
  rcases headArrives_or maxHead stream.incoming with
    ⟨head, harrives⟩ | hover | hhang | ⟨e, hfails⟩
  · obtain ⟨rest, later, hread⟩ := harrives.readHead_eq
    rw [hread]
  · obtain ⟨later, hread⟩ := hover.readHead_eq
    rw [hread]
  · obtain ⟨later, hread⟩ := hhang.readHead_eq
    rw [hread]
  · obtain ⟨later, hread⟩ := hfails.readHead_eq
    rw [hread]

section Request

variable (url : Url) (options : ClientOptions)

/-- The key of the request. -/
def ClientOptions.key : List Char := newKey options.entropy

/-- The request that `connect` sends for a URL. -/
def Url.request : Bytes :=
  buildRequest url.path url.hostHeader options.key options.protocols options.headers

/-- A client that is connected has sent the request of its URL, and nothing else. -/
theorem connectPlain_sent {dial : List Char → UInt16 → Except Error ByteStream} {endian : Endian}
    {seed : UInt64} {stream : ByteStream} {conn : Connection} {protocol : Option (List Char)}
    (hdial : dial url.host url.port = .ok stream)
    (h : connectPlain dial endian seed url options = .ok (conn, protocol)) :
    conn.stream.sent = stream.sent ++ url.request options := by
  rw [connectPlain, hdial] at h
  simp only [connect] at h
  rcases hw : stream.writeAll (buildRequest url.path url.hostHeader (newKey options.entropy)
    options.protocols options.headers) with ⟨e | u, asked⟩
  · simp only [hw] at h
    cases h
  · simp only [hw] at h
    have hread := readHead_sent asked DEFAULT_MAX_HEAD
    rcases hr : readHead asked DEFAULT_MAX_HEAD with ⟨e | ⟨head, rest⟩, left⟩
    · simp only [hr] at h
      cases h
    · simp only [hr] at h hread
      rcases hc : checkResponse head (newKey options.entropy) with e | p
      · simp only [hc] at h
        cases h
      · simp only [hc] at h
        cases h
        exact hread.trans (ByteStream.writeAll_ok hw).1

/-- What a caller may add to a request: tokens, and headers that can be written, are none
of those that are interpreted, and are not more than a parser admits. -/
structure ClientOptions.WellFormed : Prop where
  /-- The subprotocols are tokens. -/
  tokens : ∀ p ∈ options.protocols, Text.IsToken p
  /-- The headers can be written. -/
  writable : ∀ header ∈ options.headers, header.Writable
  /-- The headers are none of those that are interpreted. -/
  other : ∀ header ∈ options.headers, ∀ name ∈ interpretedNames,
    Text.eqIgnoreAsciiCase header.1 name = false
  /-- There are not more header lines than a parser admits. -/
  count : (requestHeaders [] [] options.protocols options.headers).length ≤ MAX_HEADERS

/-- The request of a URL is read back as an upgrade of its path, whose headers are the
host, those of the handshake and those that the caller added. -/
def Url.KeepsShape : Prop :=
  ∀ maxHead, (url.request options).length ≤ maxHead → ∃ request,
    parseRequest (url.request options) maxHead = .ok (.upgrade request) ∧
      request.path = url.path ∧ request.headers = requestHeaders url.hostHeader options.key
        options.protocols (options.headers.map HeaderLine.trimmed)

/-- A URL whose path fits between two spaces of a request line, and whose host fits on a
header line and is all of its value. -/
structure Url.Clean : Prop where
  /-- The path has no space. -/
  pathSpace : ' ' ∉ url.path
  /-- The path has no line feed. -/
  pathLine : '\n' ∉ url.path
  /-- The host has no line feed. -/
  hostLine : '\n' ∉ url.hostHeader
  /-- The host has no white space at its ends. -/
  hostTrimmed : Text.trim url.hostHeader = url.hostHeader

end Request

/-- The number of header lines depends on what the caller adds only. -/
theorem length_requestHeaders (host key : List Char) (protocols : List (List Char))
    (extra : List HeaderLine) : (requestHeaders host key protocols extra).length =
      (requestHeaders [] [] protocols extra).length := by
  rw [requestHeaders, requestHeaders, List.length_append, List.length_append, List.length_append,
    List.length_append]
  rfl

/-- Of the headers of a request only the host and those of the caller change when they
are trimmed. -/
theorem trimmed_requestHeaders {host key : List Char} {protocols : List (List Char)}
    (hkey : ∀ c ∈ key, Text.isWhitespace c = false)
    (hprotocols : ∀ p ∈ protocols, Text.IsToken p) (extra : List HeaderLine) :
    (requestHeaders host key protocols extra).map HeaderLine.trimmed =
      requestHeaders (Text.trim host) key protocols (extra.map HeaderLine.trimmed) := by
  have hjoin : HeaderLine.trimmed ("Sec-WebSocket-Protocol".toList, Text.join protocols) =
      ("Sec-WebSocket-Protocol".toList, Text.join protocols) := by
    rw [HeaderLine.trimmed, Text.trim_join hprotocols]
  have hkey' : HeaderLine.trimmed ("Sec-WebSocket-Key".toList, key) =
      ("Sec-WebSocket-Key".toList, key) := by
    rw [HeaderLine.trimmed, Text.trim_eq_self hkey]
  rw [requestHeaders, List.map_append, List.map_append, requestHeaders]
  congr 2
  · rw [List.map_cons, List.map_cons, List.map_cons, List.map_cons, hkey']
    rfl
  · split
    · rfl
    · rw [List.map_singleton, hjoin]

section Shape

variable {url : Url} {options : ClientOptions}

/-- The lines of the request of a clean URL are read back. -/
theorem Url.Clean.isTextLine (h : url.Clean) (hoptions : options.WellFormed) :
    ∀ line ∈ requestLine url.path :: (requestHeaders url.hostHeader options.key options.protocols
      options.headers).map HeaderLine.text, IsTextLine line := by
  have hkey : ∀ c ∈ options.key, Text.isWhitespace c = false := isWhitespace_base64Encode _
  refine List.forall_mem_cons.mpr ⟨?_, List.forall_mem_map.mpr fun header hheader => ?_⟩
  · have hline : requestLine url.path =
        ("GET".toList ++ ' ' :: url.path) ++ " HTTP/1.1".toList := by
      rw [requestLine, List.append_assoc]
      rfl
    have hfront : '\n' ∉ "GET".toList ++ ' ' :: url.path := by
      simp [h.pathLine]
    rw [hline]
    exact .append hfront ⟨by decide, by decide⟩ (by decide)
  · rcases mem_requestHeaders hkey hoptions.tokens hoptions.writable hheader with rfl | hwritable
    · by_cases hempty : url.hostHeader = []
      · rw [hempty]
        exact ⟨by decide, by decide⟩
      · have hlast : url.hostHeader.getLast? ≠ some '\r' := by
          intro hcr
          rw [← h.hostTrimmed] at hcr
          exact absurd (Text.isWhitespace_getLast?_trim _ hcr) (by decide)
        have hname : '\n' ∉ "Host".toList ++ ": ".toList := by decide
        exact .append hname ⟨h.hostLine, hlast⟩ hempty
    · exact hwritable.onOneLine.isTextLine

/-- The request of a clean URL is read back as what it was built from. -/
theorem Url.Clean.keepsShape (h : url.Clean) (hoptions : options.WellFormed) :
    url.KeepsShape options := by
  intro maxHead hmax
  have hkey : ∀ c ∈ options.key, Text.isWhitespace c = false := isWhitespace_base64Encode _
  have hnames : ∀ header ∈ requestHeaders url.hostHeader options.key options.protocols
      options.headers, ':' ∉ header.1 := by
    intro header hheader
    rcases mem_requestHeaders hkey hoptions.tokens hoptions.writable hheader with rfl | hwritable
    · exact (show ':' ∉ "Host".toList by decide)
    · exact hwritable.colon
  have hcount := hoptions.count
  rw [← length_requestHeaders url.hostHeader options.key] at hcount
  refine ⟨_, parseRequest_buildRequest h.pathSpace (h.isTextLine hoptions) hnames hkey
    (isValidKey_newKey options.entropy) hoptions.tokens hoptions.other hcount hmax, rfl, ?_⟩
  simp only
  rw [trimmed_requestHeaders hkey hoptions.tokens, h.hostTrimmed]

/-- What a header says was on a line, and is trimmed. -/
theorem value_of_mem_headersOf {lines : List (List Char)} {header : HeaderLine}
    (h : header ∈ headersOf lines) :
    Text.trim header.2 = header.2 ∧ ∃ line ∈ lines, header.2 ⊆ line := by
  obtain ⟨line, hline, hheader⟩ := List.mem_filterMap.mp h
  obtain ⟨parts, hparts, rfl⟩ := Option.map_eq_some_iff.mp hheader
  refine ⟨Text.trim_trim _, line, hline, fun c hc => ?_⟩
  exact Text.mem_of_splitOnce hparts (Text.mem_of_mem_trim hc)

/-- A URL whose request is read back as what it was built from is clean. -/
theorem Url.KeepsShape.clean (h : url.KeepsShape options) : url.Clean := by
  obtain ⟨request, hparse, hpath, hheaders⟩ := h _ (Nat.le_refl _)
  obtain ⟨start, lines, method, path, rest, hhead, hwords, -, hverdict⟩ := parseRequest_ok hparse
  obtain ⟨hpath', hheaders', -⟩ := Fields.conclude_ok hverdict
  have hlf : ∀ line ∈ start :: lines, '\n' ∉ line := by
    obtain ⟨text, -, htext⟩ := Option.bind_eq_some_iff.mp hhead
    split at htext
    · cases htext
    · next hlines =>
      cases htext
      exact fun line hline => Text.lf_not_mem_of_mem_lines (hlines ▸ hline)
  have hword : path ∈ start.splitOn ' ' := by
    rw [hwords]
    exact List.mem_cons_of_mem _ List.mem_cons_self
  have hhost : ("Host".toList, url.hostHeader) ∈ headersOf lines := by
    change request.headers = headersOf lines at hheaders'
    rw [← hheaders', hheaders]
    exact List.mem_cons_self
  obtain ⟨htrim, line, hline, hsub⟩ := value_of_mem_headersOf hhost
  obtain ⟨hspace, hpathSub⟩ := Text.of_mem_splitOn hword
  change request.path = path at hpath'
  rw [← hpath', hpath] at hspace hpathSub
  exact ⟨hspace, fun hmem => hlf start List.mem_cons_self (hpathSub hmem),
    fun hmem => hlf line (List.mem_cons_of_mem start hline) (hsub hmem), htrim⟩

end Shape

end NagoWss
