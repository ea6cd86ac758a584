import NagoWss.Proto.Base64
import NagoWss.Proto.Fields
import NagoWss.Proto.Head

/-!
# Builders and parsers

What one side of the handshake writes the other side reads: the header lines of a
head that was built come back in order with their values trimmed, and the fields
that a parser interprets are those that the builder was given.
-/

namespace NagoWss

/-! ## Heads as lines of text -/

/-- The end of a line of text. -/
def lineEnd : List Char := "\r\n".toList

/-- Lines of text and the blank line behind them. -/
def headText (lines : List (List Char)) : List Char := lines.flatMap (· ++ lineEnd) ++ lineEnd

/-- A text that fits on a line. -/
structure OnOneLine (text : List Char) : Prop where
  /-- No carriage return. -/
  cr : '\r' ∉ text
  /-- No line feed. -/
  lf : '\n' ∉ text

instance (text : List Char) : Decidable (OnOneLine text) :=
  decidable_of_iff ('\r' ∉ text ∧ '\n' ∉ text) ⟨fun h => ⟨h.1, h.2⟩, fun h => ⟨h.cr, h.lf⟩⟩

theorem OnOneLine.append {s t : List Char} (hs : OnOneLine s) (ht : OnOneLine t) :
    OnOneLine (s ++ t) := by
  constructor
  · rw [List.mem_append]
    exact not_or.mpr ⟨hs.cr, ht.cr⟩
  · rw [List.mem_append]
    exact not_or.mpr ⟨hs.lf, ht.lf⟩

/-- A text without white space fits on a line. -/
theorem OnOneLine.of_no_whitespace {t : List Char} (h : ∀ x ∈ t, Text.isWhitespace x = false) :
    OnOneLine t :=
  ⟨fun hmem => absurd (h _ hmem) (by decide), fun hmem => absurd (h _ hmem) (by decide)⟩

/-- A text that fits on a line is a line of bytes. -/
theorem OnOneLine.isLine {line : List Char} (h : OnOneLine line) (hne : line ≠ []) :
    IsLine (Utf8.encode line) := by
  have habsent {b : UInt8} {c : Char} (hb : b.toNat < 128) (hc : c.toNat = b.toNat)
      (hmem : c ∉ line) : b ∉ Utf8.encode line := by
    intro hin
    obtain ⟨d, hd, heq⟩ := Utf8.mem_of_mem_encode hb hin
    have hcd : d = c := Char.ext (UInt32.toNat_inj.mp (heq.trans hc.symm))
    exact hmem (hcd ▸ hd)
  refine ⟨?_, habsent (by decide) rfl h.cr, habsent (by decide) rfl h.lf⟩
  obtain ⟨c, rest, rfl⟩ := List.exists_cons_of_ne_nil hne
  rw [Utf8.encode_cons]
  intro hnil
  exact String.utf8EncodeChar_ne_nil (List.append_eq_nil_iff.mp hnil).1

/-- The bytes of a head are the bytes of its lines. -/
theorem encode_headText (lines : List (List Char)) :
    Utf8.encode (headText lines) = headBytes (lines.map Utf8.encode) := by
  induction lines with
  | nil => rfl
  | cons line lines ih =>
    have hcons : headText (line :: lines) = line ++ lineEnd ++ headText lines := by
      rw [headText, List.flatMap_cons, List.append_assoc, ← headText]
    rw [hcons, Utf8.encode_append, Utf8.encode_append, ih, List.map_cons, headBytes_cons]
    rfl

/-- Lines of text are a head of bytes. -/
theorem isHead_headText {start : List Char} {lines : List (List Char)}
    (h : ∀ line ∈ start :: lines, OnOneLine line) (hne : ∀ line ∈ start :: lines, line ≠ []) :
    IsHead (Utf8.encode (headText (start :: lines))) := by
  refine ⟨Utf8.encode start, lines.map Utf8.encode, ?_, ?_⟩
  · rw [← List.map_cons]
    exact List.forall_mem_map.mpr fun line hline => (h line hline).isLine (hne line hline)
  · rw [encode_headText, List.map_cons]

/-- A text that is read back as it was written on a line. -/
structure IsTextLine (text : List Char) : Prop where
  /-- No line feed. -/
  lf : '\n' ∉ text
  /-- No carriage return at the end. -/
  last : text.getLast? ≠ some '\r'

/-- A text that fits on a line is read back. -/
theorem OnOneLine.isTextLine {text : List Char} (h : OnOneLine text) : IsTextLine text :=
  ⟨h.lf, fun hlast => h.cr (List.mem_of_getLast? hlast)⟩

/-- What stands in front of a text line may have a carriage return anywhere. -/
theorem IsTextLine.append {s t : List Char} (hs : '\n' ∉ s) (ht : IsTextLine t) (hne : t ≠ []) :
    IsTextLine (s ++ t) := by
  constructor
  · rw [List.mem_append]
    exact not_or.mpr ⟨hs, ht.lf⟩
  · rw [List.getLast?_append_of_ne_nil _ hne]
    exact ht.last

/-- A head is read back as its lines, and two empty ones behind them. -/
theorem lines_headText {lines : List (List Char)} (h : ∀ line ∈ lines, IsTextLine line) :
    Text.lines (headText lines) = lines ++ [[], []] := by
  induction lines with
  | nil => rfl
  | cons line lines ih =>
    obtain ⟨hline, hlines⟩ := List.forall_mem_cons.mp h
    have hcons : headText (line :: lines) = line ++ '\r' :: '\n' :: headText lines := by
      rw [headText, List.flatMap_cons, List.append_assoc, ← headText, List.append_assoc]
      rfl
    rw [hcons, Text.lines_append hline.last hline.lf, ih hlines]
    rfl

/-- The bytes of a head are read back as its first line and the lines behind it. -/
theorem headLines_headText {start : List Char} {lines : List (List Char)}
    (h : ∀ line ∈ start :: lines, IsTextLine line) :
    headLines (Utf8.encode (headText (start :: lines))) = some (start, lines ++ [[], []]) := by
  rw [headLines, Utf8.decode_encode, Option.bind_some, lines_headText h]
  rfl

/-- A header as a line of text. -/
def HeaderLine.text (header : HeaderLine) : List Char := header.1 ++ ": ".toList ++ header.2

/-- A header that can be written: its name has no colon, and it fits on a line. -/
structure HeaderLine.Writable (header : HeaderLine) : Prop where
  /-- The name fits on a line. -/
  name : OnOneLine header.1
  /-- The name has no colon. -/
  colon : ':' ∉ header.1
  /-- The value fits on a line. -/
  value : OnOneLine header.2

instance (header : HeaderLine) : Decidable header.Writable :=
  decidable_of_iff (OnOneLine header.1 ∧ ':' ∉ header.1 ∧ OnOneLine header.2)
    ⟨fun h => ⟨h.1, h.2.1, h.2.2⟩, fun h => ⟨h.name, h.colon, h.value⟩⟩

/-- A header can be written if its name, which is fixed, and its value can. -/
theorem HeaderLine.Writable.of_name {name value : List Char} (hname : OnOneLine name ∧ ':' ∉ name)
    (hvalue : OnOneLine value) : HeaderLine.Writable (name, value) :=
  ⟨hname.1, hname.2, hvalue⟩

theorem HeaderLine.Writable.onOneLine {header : HeaderLine} (h : header.Writable) :
    OnOneLine header.text :=
  (h.name.append (by decide)).append h.value

theorem HeaderLine.text_ne_nil (header : HeaderLine) : header.text ≠ [] := by
  simp [HeaderLine.text]

/-- A header is read back as its name and, behind a space, its value. -/
theorem HeaderLine.splitOnce_text {header : HeaderLine} (h : ':' ∉ header.1) :
    Text.splitOnce ':' header.text = some (header.1, ' ' :: header.2) := by
  have htext : header.text = header.1 ++ ':' :: ' ' :: header.2 := by
    rw [HeaderLine.text, List.append_assoc]
    rfl
  rw [htext, Text.splitOnce_append h]

/-- The headers of a head that was written are read back, trimmed. -/
theorem headersOf_text {headers : List HeaderLine} (h : ∀ header ∈ headers, ':' ∉ header.1) :
    headersOf (headers.map HeaderLine.text ++ [[], []]) = headers.map HeaderLine.trimmed := by
  induction headers with
  | nil => rfl
  | cons header headers ih =>
    obtain ⟨hheader, hheaders⟩ := List.forall_mem_cons.mp h
    have hof : headerOf header.text = some header.trimmed := by
      rw [headerOf, HeaderLine.splitOnce_text hheader, Option.map_some, HeaderLine.trimmed,
        Text.trim_cons rfl, HeaderLine.trimmed]
    rw [List.map_cons, List.cons_append, List.map_cons, headersOf, List.filterMap_cons_some hof,
      ← headersOf, ih hheaders]

theorem writeHeaders_eq (headers : List HeaderLine) :
    writeHeaders headers = (headers.map HeaderLine.text).flatMap (· ++ lineEnd) := by
  rw [List.flatMap_map]
  rfl

/-- Header lines are written one behind the other. -/
theorem writeHeaders_cons (name value : List Char) (headers : List HeaderLine) :
    writeHeaders ((name, value) :: headers) =
      name ++ (": ".toList ++ (value ++ (lineEnd ++ writeHeaders headers))) := by
  rw [writeHeaders, List.flatMap_cons, List.append_assoc, List.append_assoc, List.append_assoc]
  rfl

/-- A head with header lines. -/
theorem headText_headers (start : List Char) (headers : List HeaderLine) :
    headText (start :: headers.map HeaderLine.text) =
      start ++ lineEnd ++ writeHeaders headers ++ lineEnd := by
  rw [headText, List.flatMap_cons, ← writeHeaders_eq]

/-! ## The key -/

/-- Base64 has no white space. -/
theorem isWhitespace_base64Encode (bytes : Bytes) :
    ∀ c ∈ base64Encode bytes, Text.isWhitespace c = false := by
  have halphabet : Rfc4648.alphabet.all (fun c => !Text.isWhitespace c) = true := by
    decide +kernel
  obtain ⟨chars, k, heq, hchars⟩ := base64Encode_chars bytes
  rw [heq]
  intro c hc
  rcases List.mem_append.mp hc with hc | hc
  · have hfree := List.all_eq_true.mp halphabet c (hchars.2 c hc)
    rwa [Bool.not_eq_true'] at hfree
  · rw [List.eq_of_mem_replicate hc]
    decide

/-! ## The request -/

/-- The header lines of a request. -/
def requestHeaders (host key : List Char) (protocols : List (List Char))
    (extra : List HeaderLine) : List HeaderLine :=
  [("Host".toList, host), ("Upgrade".toList, "websocket".toList),
    ("Connection".toList, "Upgrade".toList), ("Sec-WebSocket-Key".toList, key),
    ("Sec-WebSocket-Version".toList, "13".toList)] ++
  (if protocols.isEmpty then [] else [("Sec-WebSocket-Protocol".toList, Text.join protocols)]) ++
  extra

/-- Joined subprotocols fit on a line. -/
theorem OnOneLine.join {protocols : List (List Char)} (h : ∀ p ∈ protocols, Text.IsToken p) :
    OnOneLine (Text.join protocols) := by
  have habsent {c : Char} (hc : Text.isWhitespace c = true) (hne : c ≠ ',' ∧ c ≠ ' ') :
      c ∉ Text.join protocols := by
    intro hmem
    rcases Text.mem_join hmem with ⟨t, ht, hx⟩ | hcomma | hspace
    · rw [(h t ht).whitespace c hx] at hc
      cases hc
    · exact hne.1 hcomma
    · exact hne.2 hspace
  exact ⟨habsent (by decide) (by decide), habsent (by decide) (by decide)⟩

/-- The header lines of a request are that of the host and others that can be written. -/
theorem mem_requestHeaders {host key : List Char} {protocols : List (List Char)}
    {extra : List HeaderLine} (hkey : ∀ c ∈ key, Text.isWhitespace c = false)
    (hprotocols : ∀ p ∈ protocols, Text.IsToken p) (hextra : ∀ header ∈ extra, header.Writable)
    {header : HeaderLine} (hmem : header ∈ requestHeaders host key protocols extra) :
    header = ("Host".toList, host) ∨ header.Writable := by
  rw [requestHeaders] at hmem
  rcases List.mem_append.mp hmem with hmem | hmem
  · rcases List.mem_append.mp hmem with hmem | hmem
    · simp only [List.mem_cons, List.not_mem_nil, or_false] at hmem
      rcases hmem with rfl | rfl | rfl | rfl | rfl
      · exact .inl rfl
      · exact .inr (.of_name (by decide) (by decide))
      · exact .inr (.of_name (by decide) (by decide))
      · exact .inr (.of_name (by decide) (.of_no_whitespace hkey))
      · exact .inr (.of_name (by decide) (by decide))
    · split at hmem
      · cases hmem
      · rw [List.mem_singleton.mp hmem]
        exact .inr (.of_name (by decide) (.join hprotocols))
  · exact .inr (hextra header hmem)

/-- The request line. -/
def requestLine (path : List Char) : List Char :=
  "GET".toList ++ ' ' :: (path ++ ' ' :: "HTTP/1.1".toList)

/-- A request is its request line and its header lines. -/
theorem buildRequest_eq (path host key : List Char) (protocols : List (List Char))
    (extra : List HeaderLine) : buildRequest path host key protocols extra =
      Utf8.encode (headText
        (requestLine path :: (requestHeaders host key protocols extra).map HeaderLine.text)) := by
  rw [headText_headers, buildRequest]
  congr 1
  cases protocols with
  | nil =>
    simp [requestLine, requestHeaders, lineEnd, writeHeaders]
  | cons p ps =>
    simp [requestLine, requestHeaders, lineEnd, writeHeaders, Text.join]

/-- The fields behind one more header line. -/
def Fields.add (f : Fields) (header : HeaderLine) : Fields :=
  { f.interpret header.1 header.trimmed.2 with headers := f.headers ++ [header.trimmed] }

/-- A header line that was written is one more header. -/
theorem Fields.line_text {f : Fields} {header : HeaderLine} (h : ':' ∉ header.1)
    (hroom : f.headers.length < MAX_HEADERS) : f.line header.text = .ok (f.add header) := by
  have hne : header.text.isEmpty = false := List.isEmpty_eq_false_iff.mpr header.text_ne_nil
  have htrim : Text.trim (' ' :: header.2) = Text.trim header.2 := Text.trim_cons rfl
  rw [line, hne, HeaderLine.splitOnce_text h]
  simp only [Bool.false_eq_true, if_false, htrim, interpret_headers, if_neg (Nat.ne_of_lt hroom)]
  rfl

/-- The header lines of a head that was written, and the empty lines behind them. -/
theorem Fields.foldlM_line {f : Fields} {headers : List HeaderLine}
    (h : ∀ header ∈ headers, ':' ∉ header.1)
    (hroom : f.headers.length + headers.length ≤ MAX_HEADERS) :
    (headers.map HeaderLine.text ++ [[], []]).foldlM Fields.line f =
      .ok (headers.foldl Fields.add f) := by
  induction headers generalizing f with
  | nil => rfl
  | cons header headers ih =>
    obtain ⟨hheader, hheaders⟩ := List.forall_mem_cons.mp h
    rw [List.length_cons] at hroom
    have hlen : (f.add header).headers.length = f.headers.length + 1 := by
      rw [add, List.length_append, List.length_singleton]
    rw [List.map_cons, List.cons_append, List.foldlM_cons, line_text hheader (by omega)]
    exact ih hheaders (by rw [hlen]; omega)

/-- A header of another name is kept and not interpreted. -/
theorem Fields.add_other {f : Fields} {header : HeaderLine}
    (h : ∀ name ∈ interpretedNames, Text.eqIgnoreAsciiCase header.1 name = false) :
    f.add header = { f with headers := f.headers ++ [header.trimmed] } := by
  simp only [interpretedNames, List.forall_mem_cons] at h
  obtain ⟨hupgrade, hconnection, hversion, hkey, hprotocol, -⟩ := h
  simp only [add, interpret, hupgrade, hconnection, hversion, hkey, hprotocol, Bool.false_eq_true,
    if_false]

theorem Fields.foldl_add_other {f : Fields} {headers : List HeaderLine}
    (h : ∀ header ∈ headers, ∀ name ∈ interpretedNames,
      Text.eqIgnoreAsciiCase header.1 name = false) :
    headers.foldl Fields.add f =
      { f with headers := f.headers ++ headers.map HeaderLine.trimmed } := by
  induction headers generalizing f with
  | nil => simp
  | cons header headers ih =>
    obtain ⟨hheader, hheaders⟩ := List.forall_mem_cons.mp h
    rw [List.foldl_cons, ih hheaders, add_other hheader, List.map_cons, List.append_assoc]
    rfl

/-- The header that asks for a WebSocket. -/
theorem Fields.add_upgrade (f : Fields) : f.add ("Upgrade".toList, "websocket".toList) =
    { f with
      upgradeSeen := true
      headers := f.headers ++ [HeaderLine.trimmed ("Upgrade".toList, "websocket".toList)] } := rfl

/-- The header that asks for an upgrade. -/
theorem Fields.add_connection (f : Fields) : f.add ("Connection".toList, "Upgrade".toList) =
    { f with
      connectionSeen := true
      headers := f.headers ++ [HeaderLine.trimmed ("Connection".toList, "Upgrade".toList)] } := rfl

/-- The header that names the version. -/
theorem Fields.add_version (f : Fields) : f.add ("Sec-WebSocket-Version".toList, "13".toList) =
    { f with
      versionOk := true
      headers := f.headers ++
        [HeaderLine.trimmed ("Sec-WebSocket-Version".toList, "13".toList)] } := rfl

/-- The header that carries the key. -/
theorem Fields.add_key (f : Fields) {key : List Char}
    (hkey : ∀ c ∈ key, Text.isWhitespace c = false) : f.add ("Sec-WebSocket-Key".toList, key) =
      { f with
        key := some (Utf8.encode key)
        headers := f.headers ++ [HeaderLine.trimmed ("Sec-WebSocket-Key".toList, key)] } := by
  have htrim : (HeaderLine.trimmed ("Sec-WebSocket-Key".toList, key)).2 = key :=
    Text.trim_eq_self hkey
  rw [add, htrim]
  rfl

/-- The header that offers subprotocols. -/
theorem Fields.add_protocols (f : Fields) {protocols : List (List Char)} (hne : protocols ≠ [])
    (hprotocols : ∀ p ∈ protocols, Text.IsToken p) :
    f.add ("Sec-WebSocket-Protocol".toList, Text.join protocols) =
      { f with
        protocols := f.protocols ++ protocols
        headers := f.headers ++
          [HeaderLine.trimmed ("Sec-WebSocket-Protocol".toList, Text.join protocols)] } := by
  have htrim : (HeaderLine.trimmed ("Sec-WebSocket-Protocol".toList, Text.join protocols)).2 =
      Text.join protocols := Text.trim_join hprotocols
  have hfilter : protocols.filter (!·.isEmpty) = protocols := by
    refine List.filter_eq_self.mpr fun p hp => ?_
    rw [List.isEmpty_eq_false_iff.mpr (hprotocols p hp).ne_nil]
    rfl
  have htokens : tokens (Text.join protocols) = protocols := by
    rw [tokens, Text.map_trim_splitOn_join hprotocols hne, hfilter]
  rw [add, htrim]
  change { f with protocols := f.protocols ++ tokens (Text.join protocols), headers := _ } = _
  rw [htokens]

/-- The fields of a request that was built. -/
theorem Fields.foldl_requestHeaders {host key : List Char} {protocols : List (List Char)}
    {extra : List HeaderLine} (hkey : ∀ c ∈ key, Text.isWhitespace c = false)
    (hprotocols : ∀ p ∈ protocols, Text.IsToken p)
    (hextra : ∀ header ∈ extra, ∀ name ∈ interpretedNames,
      Text.eqIgnoreAsciiCase header.1 name = false) :
    (requestHeaders host key protocols extra).foldl Fields.add {} =
      { upgradeSeen := true
        connectionSeen := true
        versionOk := true
        key := some (Utf8.encode key)
        protocols := protocols
        headers := (requestHeaders host key protocols extra).map HeaderLine.trimmed } := by
  have hname : ∀ name ∈ interpretedNames,
      Text.eqIgnoreAsciiCase "Host".toList name = false := by decide
  have hhost (f : Fields) : f.add ("Host".toList, host) =
      { f with headers := f.headers ++ [HeaderLine.trimmed ("Host".toList, host)] } :=
    add_other hname
  rw [requestHeaders, List.foldl_append, List.foldl_append, foldl_add_other hextra]
  simp only [List.foldl_cons, List.foldl_nil, hhost, add_upgrade, add_connection, add_key _ hkey,
    add_version]
  cases protocols with
  | nil =>
    simp
  | cons p ps =>
    have hp (f : Fields) := f.add_protocols (List.cons_ne_nil p ps) hprotocols
    simp only [List.isEmpty_cons, Bool.false_eq_true, if_false, List.foldl_cons, List.foldl_nil, hp,
      List.map_append]
    rfl

/-- The request line is read back as its words. -/
theorem splitOn_requestLine {path : List Char} (h : ' ' ∉ path) :
    (requestLine path).splitOn ' ' = ["GET".toList, path, "HTTP/1.1".toList] := by
  have hget : ' ' ∉ "GET".toList := by decide
  rw [requestLine, List.splitOn_append_cons_self_of_not_mem hget,
    List.splitOn_append_cons_self_of_not_mem h]
  rfl

/-- A request is parsed as the upgrade that it was built from, if it is read back line by
line. -/
theorem parseRequest_buildRequest {path host key : List Char} {protocols : List (List Char)}
    {extra : List HeaderLine} (hspace : ' ' ∉ path)
    (hlines : ∀ line ∈ requestLine path ::
      (requestHeaders host key protocols extra).map HeaderLine.text, IsTextLine line)
    (hnames : ∀ header ∈ requestHeaders host key protocols extra, ':' ∉ header.1)
    (hkey : ∀ c ∈ key, Text.isWhitespace c = false) (hvalid : isValidKey (Utf8.encode key) = true)
    (hprotocols : ∀ p ∈ protocols, Text.IsToken p)
    (hother : ∀ header ∈ extra, ∀ name ∈ interpretedNames,
      Text.eqIgnoreAsciiCase header.1 name = false)
    (hcount : (requestHeaders host key protocols extra).length ≤ MAX_HEADERS) {maxHead : Nat}
    (hmax : (buildRequest path host key protocols extra).length ≤ maxHead) :
    parseRequest (buildRequest path host key protocols extra) maxHead =
      .ok (.upgrade ⟨.get, path, Utf8.encode key, protocols,
        (requestHeaders host key protocols extra).map HeaderLine.trimmed⟩) := by
  have hroom : 0 + (requestHeaders host key protocols extra).length ≤ MAX_HEADERS := by
    rwa [Nat.zero_add]
  have hfold := @Fields.foldlM_line (Fields.of []) _ hnames hroom
  have hfields := @Fields.foldl_requestHeaders host _ _ _ hkey hprotocols hother
  change List.foldl Fields.add (Fields.of []) _ = _ at hfields
  rw [hfields] at hfold
  rw [parseRequest_eq hmax, buildRequest_eq, headLines_headText hlines]
  simp only [splitOn_requestLine hspace, hfold]
  simp only [Except.bind, Fields.conclude, hvalid]
  rfl

/-- What a request may be built from. -/
structure Offer where
  /-- The path. -/
  path : List Char
  /-- The host. -/
  host : List Char
  /-- The subprotocols offered. -/
  protocols : List (List Char)
  /-- The headers behind those of the handshake. -/
  headers : List HeaderLine
  /-- The path is not empty. -/
  path_ne_nil : path ≠ []
  /-- The path has no spaces. -/
  path_space : ' ' ∉ path
  /-- The path fits on a line. -/
  path_line : OnOneLine path
  /-- The host fits on a line. -/
  host_line : OnOneLine host
  /-- The subprotocols are tokens. -/
  tokens : ∀ p ∈ protocols, Text.IsToken p
  /-- The headers can be written. -/
  writable : ∀ header ∈ headers, header.Writable
  /-- The headers are none of those that are interpreted. -/
  other : ∀ header ∈ headers, ∀ name ∈ interpretedNames,
    Text.eqIgnoreAsciiCase header.1 name = false
  /-- There are not more header lines than a parser admits. -/
  count : 5 + (if protocols.isEmpty then 0 else 1) + headers.length ≤ MAX_HEADERS

namespace Offer

variable (offer : Offer)

/-- The request that is built from an offer. -/
def request (key : List Char) : Bytes :=
  buildRequest offer.path offer.host key offer.protocols offer.headers

/-- The header lines of the request. -/
def headerLines (key : List Char) : List HeaderLine :=
  requestHeaders offer.host key offer.protocols offer.headers

/-- The request as a server sees it. -/
def seen (key : List Char) : Request where
  method := .get
  path := offer.path
  key := Utf8.encode key
  protocols := offer.protocols
  headers := (offer.headerLines key).map HeaderLine.trimmed

theorem length_headerLines (key : List Char) : (offer.headerLines key).length ≤ MAX_HEADERS := by
  have hcount := offer.count
  rw [headerLines, requestHeaders]
  cases hp : offer.protocols.isEmpty <;> simp [hp] at hcount ⊢ <;> omega

/-- Every header line of the request can be written. -/
theorem headerLines_writable {key : List Char} (hkey : ∀ c ∈ key, Text.isWhitespace c = false) :
    ∀ header ∈ offer.headerLines key, header.Writable := by
  intro header hmem
  rcases mem_requestHeaders hkey offer.tokens offer.writable hmem with rfl | hwritable
  · exact .of_name (by decide) offer.host_line
  · exact hwritable

/-- The lines of the request fit on a line each. -/
theorem lines_onOneLine {key : List Char} (hkey : ∀ c ∈ key, Text.isWhitespace c = false) :
    ∀ line ∈ requestLine offer.path :: (offer.headerLines key).map HeaderLine.text,
      OnOneLine line := by
  refine List.forall_mem_cons.mpr ⟨?_, List.forall_mem_map.mpr fun header hheader =>
    (offer.headerLines_writable hkey header hheader).onOneLine⟩
  have hspace : OnOneLine [' '] := by decide
  exact .append (by decide) (hspace.append (offer.path_line.append (by decide)))

/-- A request that was built is parsed as the upgrade that was offered. -/
theorem parseRequest_request (entropy : Vector UInt8 16) {maxHead : Nat}
    (hmax : (offer.request (newKey entropy)).length ≤ maxHead) :
    parseRequest (offer.request (newKey entropy)) maxHead =
      .ok (.upgrade (offer.seen (newKey entropy))) := by
  have hkey : ∀ c ∈ newKey entropy, Text.isWhitespace c = false := isWhitespace_base64Encode _
  exact parseRequest_buildRequest offer.path_space
    (fun line hline => (offer.lines_onOneLine hkey line hline).isTextLine)
    (fun header hheader => (offer.headerLines_writable hkey header hheader).colon) hkey
    (isValidKey_newKey entropy) offer.tokens offer.other (offer.length_headerLines _) hmax

/-- The request is a head. -/
theorem isHead_request {key : List Char} (hkey : ∀ c ∈ key, Text.isWhitespace c = false) :
    IsHead (offer.request key) := by
  have htext := buildRequest_eq offer.path offer.host key offer.protocols offer.headers
  rw [← headerLines] at htext
  rw [request, htext]
  refine isHead_headText (offer.lines_onOneLine hkey) (List.forall_mem_cons.mpr ⟨?_, ?_⟩)
  · simp [requestLine]
  · exact List.forall_mem_map.mpr fun header _ => header.text_ne_nil

end Offer

/-! ## The response -/

/-- The status line of the response. -/
def statusLine : List Char := "HTTP/1.1 101 Switching Protocols".toList

/-- The header lines of a response. -/
def responseHeaders (accept : List Char) (protocol : Option (List Char))
    (extra : List HeaderLine) : List HeaderLine :=
  [("Upgrade".toList, "websocket".toList), ("Connection".toList, "Upgrade".toList),
    ("Sec-WebSocket-Accept".toList, accept)] ++
  (protocol.map fun p => ("Sec-WebSocket-Protocol".toList, p)).toList ++ extra

/-- A response is its status line and its header lines. -/
theorem buildResponse_eq (key : Bytes) (protocol : Option (List Char)) (extra : List HeaderLine) :
    buildResponse key protocol extra = Utf8.encode (headText
      (statusLine :: (responseHeaders (acceptFor key) protocol extra).map HeaderLine.text)) := by
  have hstatus : "HTTP/1.1 101 Switching Protocols\r\n".toList = statusLine ++ lineEnd := by decide
  have hupgrade : "Upgrade: websocket\r\n".toList =
      "Upgrade".toList ++ (": ".toList ++ ("websocket".toList ++ lineEnd)) := by decide
  have hconnection : "Connection: Upgrade\r\n".toList =
      "Connection".toList ++ (": ".toList ++ ("Upgrade".toList ++ lineEnd)) := by decide
  have haccept : "Sec-WebSocket-Accept: ".toList =
      "Sec-WebSocket-Accept".toList ++ ": ".toList := by decide
  have hprotocol : "Sec-WebSocket-Protocol: ".toList =
      "Sec-WebSocket-Protocol".toList ++ ": ".toList := by decide
  rw [headText_headers]
  unfold buildResponse
  rw [← lineEnd, hstatus, hupgrade, hconnection, haccept, hprotocol]
  cases protocol with
  | none =>
    simp only [responseHeaders, Option.map_none, Option.toList_none, List.append_nil,
      List.cons_append, List.nil_append, writeHeaders_cons, List.append_assoc]
  | some p =>
    simp only [responseHeaders, Option.map_some, Option.toList_some, List.cons_append,
      List.nil_append, writeHeaders_cons, List.append_assoc]

/-- What a response has said behind one more header line. -/
def Answer.add (expected : List Char) (a : Answer) (header : HeaderLine) : Answer :=
  if Text.eqIgnoreAsciiCase header.1 "sec-websocket-accept".toList then
    { a with acceptOk := header.trimmed.2 == expected }
  else if Text.eqIgnoreAsciiCase header.1 "sec-websocket-protocol".toList then
    { a with protocol := some header.trimmed.2 }
  else a

/-- A header line that was written is one more header. -/
theorem Answer.line_text (expected : List Char) (a : Answer) {header : HeaderLine}
    (h : ':' ∉ header.1) : Answer.line expected a header.text = a.add expected header := by
  have hne : header.text.isEmpty = false := List.isEmpty_eq_false_iff.mpr header.text_ne_nil
  have htrim : Text.trim (' ' :: header.2) = Text.trim header.2 := Text.trim_cons rfl
  rw [line, hne, HeaderLine.splitOnce_text h]
  simp only [Bool.false_eq_true, if_false, htrim]
  rfl

/-- The header lines of a response that was written, and the empty lines behind them. -/
theorem Answer.foldl_line (expected : List Char) (a : Answer) {headers : List HeaderLine}
    (h : ∀ header ∈ headers, ':' ∉ header.1) :
    (headers.map HeaderLine.text ++ [[], []]).foldl (Answer.line expected) a =
      headers.foldl (Answer.add expected) a := by
  induction headers generalizing a with
  | nil => rfl
  | cons header headers ih =>
    obtain ⟨hheader, hheaders⟩ := List.forall_mem_cons.mp h
    rw [List.map_cons, List.cons_append, List.foldl_cons, List.foldl_cons,
      line_text expected a hheader, ih _ hheaders]

/-- The names that a response parser interprets. -/
def answerNames : List (List Char) :=
  ["sec-websocket-accept".toList, "sec-websocket-protocol".toList]

/-- A header of another name is passed over. -/
theorem Answer.add_other (expected : List Char) (a : Answer) {header : HeaderLine}
    (h : ∀ name ∈ answerNames, Text.eqIgnoreAsciiCase header.1 name = false) :
    a.add expected header = a := by
  simp only [answerNames, List.forall_mem_cons] at h
  simp only [add, h.1, h.2.1, Bool.false_eq_true, if_false]

theorem Answer.foldl_add_other (expected : List Char) (a : Answer) {headers : List HeaderLine}
    (h : ∀ header ∈ headers, ∀ name ∈ answerNames,
      Text.eqIgnoreAsciiCase header.1 name = false) :
    headers.foldl (Answer.add expected) a = a := by
  induction headers with
  | nil => rfl
  | cons header headers ih =>
    obtain ⟨hheader, hheaders⟩ := List.forall_mem_cons.mp h
    rw [List.foldl_cons, add_other expected a hheader, ih hheaders]

/-- What a response may be built from, apart from the key. -/
structure Reply where
  /-- The subprotocol that was selected. -/
  protocol : Option (List Char)
  /-- The headers behind those of the handshake. -/
  headers : List HeaderLine
  /-- The subprotocol is a token. -/
  token : ∀ p ∈ protocol, Text.IsToken p
  /-- The headers can be written. -/
  writable : ∀ header ∈ headers, header.Writable
  /-- The headers are none of those that are interpreted. -/
  other : ∀ header ∈ headers, ∀ name ∈ answerNames,
    Text.eqIgnoreAsciiCase header.1 name = false

namespace Reply

variable (reply : Reply)

/-- The response that is built from a reply. -/
def response (key : Bytes) : Bytes := buildResponse key reply.protocol reply.headers

/-- The header lines of the response. -/
def headerLines (key : Bytes) : List HeaderLine :=
  responseHeaders (acceptFor key) reply.protocol reply.headers

/-- Every header line of the response can be written. -/
theorem headerLines_writable (key : Bytes) :
    ∀ header ∈ reply.headerLines key, header.Writable := by
  have haccept : OnOneLine (acceptFor key) := .of_no_whitespace (isWhitespace_base64Encode _)
  intro header hmem
  rw [headerLines, responseHeaders] at hmem
  rcases List.mem_append.mp hmem with hmem | hmem
  · rcases List.mem_append.mp hmem with hmem | hmem
    · simp only [List.mem_cons, List.not_mem_nil, or_false] at hmem
      rcases hmem with rfl | rfl | rfl
      · exact .of_name (by decide) (by decide)
      · exact .of_name (by decide) (by decide)
      · exact .of_name (by decide) haccept
    · obtain ⟨p, hp, rfl⟩ := Option.mem_map.mp (Option.mem_toList.mp hmem)
      exact .of_name (by decide) (.of_no_whitespace (reply.token p hp).whitespace)
  · exact reply.writable header hmem

/-- The lines of the response fit on a line each. -/
theorem lines_onOneLine (key : Bytes) :
    ∀ line ∈ statusLine :: (reply.headerLines key).map HeaderLine.text, OnOneLine line :=
  List.forall_mem_cons.mpr ⟨by decide, List.forall_mem_map.mpr fun header hheader =>
    (reply.headerLines_writable key header hheader).onOneLine⟩

/-- What a response that was built says. -/
theorem foldl_headerLines (key : Bytes) :
    (reply.headerLines key).foldl (Answer.add (acceptFor key)) {} =
      { acceptOk := true, protocol := reply.protocol } := by
  have hupgrade : ∀ header ∈
      [("Upgrade".toList, "websocket".toList), ("Connection".toList, "Upgrade".toList)],
      ∀ name ∈ answerNames, Text.eqIgnoreAsciiCase header.1 name = false := by decide
  have haccept : Answer.add (acceptFor key) {} ("Sec-WebSocket-Accept".toList, acceptFor key) =
      { acceptOk := Text.trim (acceptFor key) == acceptFor key } := rfl
  have hprotocol (a : Answer) (p : List Char) :
      a.add (acceptFor key) ("Sec-WebSocket-Protocol".toList, p) =
        { a with protocol := some (Text.trim p) } := rfl
  have htrim : Text.trim (acceptFor key) = acceptFor key :=
    Text.trim_eq_self (isWhitespace_base64Encode _)
  have hsplit : reply.headerLines key =
      [("Upgrade".toList, "websocket".toList), ("Connection".toList, "Upgrade".toList)] ++
        ("Sec-WebSocket-Accept".toList, acceptFor key) ::
          ((reply.protocol.map fun p => ("Sec-WebSocket-Protocol".toList, p)).toList ++
            reply.headers) := by
    rw [headerLines, responseHeaders, List.append_assoc]
    rfl
  rw [hsplit, List.foldl_append, Answer.foldl_add_other _ _ hupgrade, List.foldl_cons, haccept,
    htrim, beq_self_eq_true, List.foldl_append, Answer.foldl_add_other _ _ reply.other]
  cases hp : reply.protocol with
  | none => rfl
  | some p =>
    rw [Option.map_some, Option.toList_some, List.foldl_cons, List.foldl_nil, hprotocol,
      Text.trim_eq_self (reply.token p hp).whitespace]

/-- A response that was built is accepted by the client whose key it answers. -/
theorem checkResponse_response (key : List Char) :
    checkResponse (reply.response (Utf8.encode key)) key = .ok reply.protocol := by
  have hlines := lines_headText fun line hline =>
    (reply.lines_onOneLine (Utf8.encode key) line hline).isTextLine
  have htext := buildResponse_eq (Utf8.encode key) reply.protocol reply.headers
  have hfold := Answer.foldl_line (acceptFor (Utf8.encode key)) {} fun header hheader =>
    (reply.headerLines_writable (Utf8.encode key) header hheader).colon
  have hstatus : "101".toList <:+: statusLine := by decide
  rw [← headerLines] at htext
  rw [foldl_headerLines] at hfold
  rw [checkResponse, response, htext, Utf8.decode_encode]
  simp only [hlines, List.cons_append, hstatus, not_true, if_false, hfold]
  rfl

/-- The response is a head. -/
theorem isHead_response (key : Bytes) : IsHead (reply.response key) := by
  have htext := buildResponse_eq key reply.protocol reply.headers
  rw [← headerLines] at htext
  rw [response, htext]
  refine isHead_headText (reply.lines_onOneLine key) (List.forall_mem_cons.mpr ⟨by decide, ?_⟩)
  exact List.forall_mem_map.mpr fun header _ => header.text_ne_nil

end Reply

end NagoWss
