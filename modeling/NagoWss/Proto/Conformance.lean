import NagoWss.Proto.Fields

/-!
# Which requests are upgraded

A request may be upgraded if its request line is `GET`, a path and the version of HTTP,
1.1 or higher, and if its headers name the host and say what an upgrade has to say. The
parser reads the headers so, but for the host, and of the request line it only reads the
words.
-/

namespace NagoWss

/-! ## The request line -/

/-- The major and minor version of HTTP that a word names. -/
def httpVersion (word : List Char) : Option (Nat × Nat) :=
  match word with
  | ['H', 'T', 'T', 'P', '/', major, '.', minor] =>
    if major.isDigit && minor.isDigit then some (major.toNat - 48, minor.toNat - 48) else none
  | _ => none

/-- The method, the path and the version on a request line, with one space between them. -/
def readRequestLine (start : List Char) : Option (List Char × List Char × Nat × Nat) :=
  match start.splitOn ' ' with
  | [method, path, word] =>
    if method.isEmpty || path.isEmpty then none
    else (httpVersion word).map fun version => (method, path, version)
  | _ => none

/-- A request line is its words. -/
theorem readRequestLine_eq_some_iff {start method path : List Char} {version : Nat × Nat} :
    readRequestLine start = some (method, path, version) ↔ method ≠ [] ∧ path ≠ [] ∧
      ∃ word, start.splitOn ' ' = [method, path, word] ∧ httpVersion word = some version := by
  rw [readRequestLine]
  split
  · next method' path' word hwords =>
    rw [hwords]
    split
    · next hempty =>
      constructor
      · intro h
        cases h
      · rintro ⟨hmethod, hpath, word', heq, -⟩
        cases heq
        simp [hmethod, hpath] at hempty
    · next hne =>
      rw [Bool.or_eq_true, not_or, List.isEmpty_iff, List.isEmpty_iff] at hne
      rw [Option.map_eq_some_iff]
      constructor
      · rintro ⟨version', hversion, heq⟩
        cases heq
        exact ⟨hne.1, hne.2, word, rfl, hversion⟩
      · rintro ⟨-, -, word', heq, hversion⟩
        cases heq
        exact ⟨version, hversion, rfl⟩
  · next hother =>
    constructor
    · intro h
      cases h
    · rintro ⟨-, -, word, hwords, -⟩
      exact absurd hwords (hother method path word)

/-- HTTP 1.1 or higher. -/
def IsHttp11 (version : Nat × Nat) : Prop := 1 < version.1 ∨ version.1 = 1 ∧ 1 ≤ version.2

instance (version : Nat × Nat) : Decidable (IsHttp11 version) :=
  inferInstanceAs (Decidable (1 < version.1 ∨ version.1 = 1 ∧ 1 ≤ version.2))

/-! ## The headers -/

/-- The headers say what an upgrade has to say, and this is the key among them. -/
structure AskForUpgrade (headers : List HeaderLine) (key : Bytes) : Prop where
  /-- They ask for a WebSocket. -/
  upgrade : ∃ value ∈ valuesOf "upgrade".toList headers,
    Text.eqIgnoreAsciiCase value "websocket".toList = true
  /-- They ask for an upgrade. -/
  connection : ∃ value ∈ valuesOf "connection".toList headers, listsUpgrade value = true
  /-- They name the version 13. -/
  version : "13".toList ∈ valuesOf "sec-websocket-version".toList headers
  /-- The key is well formed. -/
  key : ∃ value ∈ valuesOf "sec-websocket-key".toList headers,
    Utf8.encode value = key ∧ isValidKey key = true

/-- What makes a request an upgrade, with this path and this key. -/
structure Upgradable (start : List Char) (lines : List (List Char)) (path : List Char)
    (key : Bytes) : Prop where
  /-- The request line is `GET`, the path and a version from 1.1 on. -/
  line : ∃ method version, readRequestLine start = some (method, path, version) ∧
    Method.named method = .get ∧ IsHttp11 version
  /-- Every header line has a colon. -/
  colons : AllColons lines
  /-- The host is named. -/
  host : valuesOf "host".toList (headersOf lines) ≠ []
  /-- The headers ask for an upgrade. -/
  headers : AskForUpgrade (headersOf lines) key

/-- The parser upgrades the requests that may be upgraded, and refuses a head without a
request line as malformed. -/
structure UpgradesUpgradable (input : Bytes) (maxHead : Nat) : Prop where
  /-- What is upgraded may be upgraded. -/
  sound : ∀ request, parseRequest input maxHead = .ok (.upgrade request) →
    ∃ start lines, headLines input = some (start, lines) ∧
      Upgradable start lines request.path request.key
  /-- What may be upgraded is upgraded. -/
  complete : ∀ start lines path key, headLines input = some (start, lines) →
    Upgradable start lines path key → ∃ request,
      parseRequest input maxHead = .ok (.upgrade request) ∧ request.path = path ∧
        request.key = key
  /-- What has no request line is refused. -/
  refuses : (∀ start lines, headLines input = some (start, lines) →
    readRequestLine start = none) → parseRequest input maxHead = .error .malformed

/-- A head whose first line has two words and whose header lines all have colons has a
request line, and one that the parser would upgrade names a version from 1.1 on, and the
host. -/
def RequestLineHolds (input : Bytes) : Prop :=
  ∀ start lines, headLines input = some (start, lines) → ' ' ∈ start → AllColons lines →
    ∃ method path version, readRequestLine start = some (method, path, version) ∧
      (Method.named method = .get → (∃ key, AskForUpgrade (headersOf lines) key) →
        IsHttp11 version ∧ valuesOf "host".toList (headersOf lines) ≠ [])

/-! ## The verdict -/

/-- The verdict on a request is an upgrade exactly if everything was seen. -/
theorem Fields.conclude_upgrade_iff {f : Fields} {method : Method} {path : List Char}
    {request : Request} : f.conclude method path = .ok (.upgrade request) ↔
      method = .get ∧ f.upgradeSeen = true ∧ f.connectionSeen = true ∧ f.versionOk = true ∧
        ∃ key, f.key = some key ∧ isValidKey key = true ∧
          request = ⟨method, path, key, f.protocols, f.headers⟩ := by
  simp only [conclude]
  split
  · next hplain =>
    constructor
    · intro h
      cases h
    · rintro ⟨rfl, hupgrade, hconnection, -⟩
      simp [hupgrade, hconnection] at hplain
  · next hget =>
    simp only [Bool.or_eq_true, not_or, decide_eq_true_eq, Bool.not_eq_true', not_not,
      Bool.not_eq_false] at hget
    obtain ⟨⟨hmethod, hupgrade⟩, hconnection⟩ := hget
    split
    · next hversion =>
      constructor
      · intro h
        cases h
      · rintro ⟨-, -, -, hok, -⟩
        rw [hok] at hversion
        cases hversion
    · next hversion =>
      rw [Bool.not_eq_true, Bool.not_eq_false'] at hversion
      split
      · next hnone =>
        constructor
        · intro h
          cases h
        · rintro ⟨-, -, -, -, key, hkey, -⟩
          rw [hkey] at hnone
          cases hnone
      · next key hkey =>
        split
        · next hbad =>
          constructor
          · intro h
            cases h
          · rintro ⟨-, -, -, -, key', hkey', hvalid, -⟩
            rw [hkey] at hkey'
            cases hkey'
            rw [hvalid] at hbad
            cases hbad
        · next hgood =>
          rw [Bool.not_eq_true, Bool.not_eq_false'] at hgood
          constructor
          · intro h
            cases h
            exact ⟨hmethod, hupgrade, hconnection, hversion, key, hkey, hgood, rfl⟩
          · rintro ⟨-, -, -, -, key', hkey', -, rfl⟩
            rw [hkey] at hkey'
            cases hkey'
            rfl

/-- The verdict is never that the head is malformed. -/
theorem Fields.conclude_ne_malformed (f : Fields) (method : Method) (path : List Char) :
    f.conclude method path ≠ .error .malformed := by
  intro h
  simp only [conclude] at h
  repeat' split at h
  all_goals cases h

/-- Of one value at most the last one is any. -/
theorem getLast?_eq_some_iff_mem {values : List (List Char)} (hone : values.length ≤ 1)
    (value : List Char) : values.getLast? = some value ↔ value ∈ values := by
  rcases values with _ | ⟨only, _ | ⟨next, rest⟩⟩
  · simp
  · simp [eq_comm]
  · simp at hone

/-- What holds of the last one holds of one. -/
theorem getLast?_any_iff {values : List (List Char)} (hone : values.length ≤ 1)
    (p : List Char → Bool) : values.getLast?.any p = true ↔ ∃ value ∈ values, p value = true := by
  rw [Option.any_eq_true]
  exact exists_congr fun value => and_congr_left fun _ => getLast?_eq_some_iff_mem hone value

/-- Headers that have each name at most once ask for an upgrade exactly if the parser
sees that they do. -/
theorem askForUpgrade_iff {headers : List HeaderLine}
    (hone : ∀ name ∈ interpretedNames, (valuesOf name headers).length ≤ 1) (key : Bytes) :
    AskForUpgrade headers key ↔ (Fields.of headers).upgradeSeen = true ∧
      (Fields.of headers).connectionSeen = true ∧ (Fields.of headers).versionOk = true ∧
        (Fields.of headers).key = some key ∧ isValidKey key = true := by
  simp only [interpretedNames, List.forall_mem_cons] at hone
  obtain ⟨hupgrade, hconnection, hversion, hkey, -, -⟩ := hone
  simp only [Fields.of, getLast?_any_iff hupgrade, getLast?_any_iff hconnection,
    getLast?_any_iff hversion, Option.map_eq_some_iff, getLast?_eq_some_iff_mem hkey]
  constructor
  · rintro ⟨hu, hc, hv, value, hvalue, hencode, hvalid⟩
    exact ⟨hu, hc, ⟨_, hv, beq_self_eq_true _⟩, ⟨value, hvalue, hencode⟩, hvalid⟩
  · rintro ⟨hu, hc, ⟨version, hv, hthirteen⟩, ⟨value, hvalue, hencode⟩, hvalid⟩
    exact ⟨hu, hc, beq_iff_eq.mp hthirteen ▸ hv, value, hvalue, hencode, hvalid⟩

/-- There are not more headers than lines that are not empty. -/
theorem length_headersOf_le (lines : List (List Char)) :
    (headersOf lines).length ≤ (lines.filter (· ≠ [])).length := by
  induction lines with
  | nil => exact Nat.le_refl 0
  | cons line lines ih =>
    cases hheader : headerOf line with
    | none =>
      have hcons : headersOf (line :: lines) = headersOf lines := List.filterMap_cons_none hheader
      rw [hcons, List.filter_cons]
      split
      · exact Nat.le_succ_of_le ih
      · exact ih
    | some header =>
      have hcons : headersOf (line :: lines) = header :: headersOf lines :=
        List.filterMap_cons_some hheader
      have hne : line ≠ [] := by
        rintro rfl
        cases hheader
      rw [hcons, List.filter_cons, if_pos (decide_eq_true hne), List.length_cons, List.length_cons]
      exact Nat.succ_le_succ ih

section Request

variable {input : Bytes} {maxHead : Nat} {start : List Char} {lines : List (List Char)}

/-- A first line of one word is refused. -/
theorem parseRequest_oneWord (hmax : input.length ≤ maxHead)
    (hhead : headLines input = some (start, lines)) (hspace : ' ' ∉ start) :
    parseRequest input maxHead = .error .malformed := by
  rw [parseRequest_eq hmax, hhead]
  simp only [List.splitOn_eq_singleton hspace]

/-- A first line of two words or more, and header lines that all have colons. -/
theorem parseRequest_words (hmax : input.length ≤ maxHead)
    (hhead : headLines input = some (start, lines)) {method path : List Char}
    {rest : List (List Char)} (hwords : start.splitOn ' ' = method :: path :: rest)
    (hcolons : AllColons lines) (hcount : (headersOf lines).length ≤ MAX_HEADERS) :
    parseRequest input maxHead =
      (Fields.of (headersOf lines)).conclude (Method.named method) path := by
  rw [parseRequest_eq hmax, hhead]
  simp only [hwords, Fields.foldlM_line_of hcolons hcount]
  rfl

/-- A header line without a colon is refused. -/
theorem parseRequest_noColon (hmax : input.length ≤ maxHead)
    (hhead : headLines input = some (start, lines)) (hcolons : ¬AllColons lines)
    (hcount : (lines.filter (· ≠ [])).length ≤ MAX_HEADERS) :
    parseRequest input maxHead = .error .malformed := by
  have hroom : 0 + (lines.filter (· ≠ [])).length ≤ MAX_HEADERS := by rwa [Nat.zero_add]
  rw [parseRequest_eq hmax, hhead]
  simp only [@Fields.foldlM_line_malformed [] lines hcolons hroom]
  split <;> rfl

/-- The words of a request line are the first words that the parser reads. -/
theorem words_of_readRequestLine {method path method' path' : List Char} {version : Nat × Nat}
    {rest : List (List Char)} (h : readRequestLine start = some (method, path, version))
    (hwords : start.splitOn ' ' = method' :: path' :: rest) : method = method' ∧ path = path' := by
  obtain ⟨-, -, word, hword, -⟩ := readRequestLine_eq_some_iff.mp h
  rw [hwords] at hword
  cases hword
  exact ⟨rfl, rfl⟩

/-- A head that may not be upgraded and is refused as malformed is parsed as it should. -/
theorem UpgradesUpgradable.of_malformed
    (h : parseRequest input maxHead = .error .malformed)
    (hnot : ∀ start lines path key, headLines input = some (start, lines) →
      ¬Upgradable start lines path key) : UpgradesUpgradable input maxHead where
  sound := by
    intro request hok
    rw [h] at hok
    cases hok
  complete := fun start lines path key hhead hup => absurd hup (hnot start lines path key hhead)
  refuses := fun _ => h

/-- A first line with a space in it has two words or more. -/
theorem exists_words (h : ' ' ∈ start) :
    ∃ method path rest, start.splitOn ' ' = method :: path :: rest := by
  obtain ⟨method, behind, rfl, hmethod⟩ := List.eq_append_cons_of_mem h
  obtain ⟨path, rest, hwords⟩ := List.exists_cons_of_ne_nil (List.splitOn_ne_nil ' ' behind)
  exact ⟨method, path, rest, by
    rw [List.splitOn_append_cons_self_of_not_mem hmethod, hwords]⟩

/-- The case of a head that is not refused as malformed. -/
theorem upgradesUpgradable_iff_of_words (hmax : input.length ≤ maxHead)
    (hhead : headLines input = some (start, lines)) (hspace : ' ' ∈ start)
    (hcolons : AllColons lines) (hcount : (lines.filter (· ≠ [])).length ≤ MAX_HEADERS)
    (hone : ∀ name ∈ interpretedNames, (valuesOf name (headersOf lines)).length ≤ 1) :
    UpgradesUpgradable input maxHead ↔ RequestLineHolds input := by
  obtain ⟨method, path, rest, hwords⟩ := exists_words hspace
  have hparse := parseRequest_words hmax hhead hwords hcolons
    ((length_headersOf_le lines).trans hcount)
  have hupgrade (request : Request) : parseRequest input maxHead = .ok (.upgrade request) ↔
      Method.named method = .get ∧ AskForUpgrade (headersOf lines) request.key ∧
        request = ⟨.get, path, request.key, (Fields.of (headersOf lines)).protocols,
          headersOf lines⟩ := by
    rw [hparse, Fields.conclude_upgrade_iff, askForUpgrade_iff hone]
    constructor
    · rintro ⟨hget, hu, hc, hv, key, hkey, hvalid, rfl⟩
      rw [hget]
      exact ⟨rfl, ⟨hu, hc, hv, hkey, hvalid⟩, rfl⟩
    · rintro ⟨hget, ⟨hu, hc, hv, hkey, hvalid⟩, hrequest⟩
      rw [hget]
      exact ⟨rfl, hu, hc, hv, request.key, hkey, hvalid, hrequest⟩
  have hsame {start' : List Char} {lines' : List (List Char)}
      (h : headLines input = some (start', lines')) : start = start' ∧ lines = lines' := by
    rw [hhead] at h
    cases h
    exact ⟨rfl, rfl⟩
  constructor
  · intro h start' lines' hhead' _ _
    obtain ⟨rfl, rfl⟩ := hsame hhead'
    cases hline : readRequestLine start with
    | none =>
      have hmalformed := h.refuses fun start' lines' hhead' => by
        obtain ⟨rfl, rfl⟩ := hsame hhead'
        exact hline
      rw [hparse] at hmalformed
      exact absurd hmalformed (Fields.conclude_ne_malformed _ _ _)
    | some words =>
      obtain ⟨method', path', version⟩ := words
      obtain ⟨rfl, rfl⟩ := words_of_readRequestLine hline hwords
      refine ⟨_, _, version, rfl, fun hget ⟨key, hask⟩ => ?_⟩
      obtain ⟨start', lines', hhead', hup⟩ := h.sound _ ((hupgrade
        ⟨.get, _, key, (Fields.of (headersOf lines)).protocols, headersOf lines⟩).mpr
          ⟨hget, hask, rfl⟩)
      obtain ⟨rfl, rfl⟩ := hsame hhead'
      obtain ⟨method', version', hline', -, hversion⟩ := hup.line
      rw [hline] at hline'
      cases hline'
      exact ⟨hversion, hup.host⟩
  · intro h
    obtain ⟨method', path', version, hline, hrest⟩ := h start lines hhead hspace hcolons
    obtain ⟨rfl, rfl⟩ := words_of_readRequestLine hline hwords
    refine ⟨fun request hok => ?_, fun start' lines' path key hhead' hup => ?_, fun hnone => ?_⟩
    · obtain ⟨hget, hask, hrequest⟩ := (hupgrade request).mp hok
      obtain ⟨hversion, hhost⟩ := hrest hget ⟨_, hask⟩
      refine ⟨start, lines, hhead, ⟨_, version, ?_, hget, hversion⟩, hcolons, hhost, hask⟩
      rw [hrequest]
      exact hline
    · obtain ⟨rfl, rfl⟩ := hsame hhead'
      obtain ⟨method', version', hline', hget, -⟩ := hup.line
      rw [hline] at hline'
      cases hline'
      exact ⟨⟨.get, _, key, _, _⟩, (hupgrade _).mpr ⟨hget, hup.headers, rfl⟩, rfl, rfl⟩
    · rw [hnone start lines hhead] at hline
      cases hline

/-- The parser upgrades exactly the requests that may be upgraded, and refuses what has
no request line, exactly if a head whose first line has two words and whose header lines
have colons has a request line, and one that it would upgrade names a version from 1.1 on,
and the host. -/
theorem upgradesUpgradable_iff (hmax : input.length ≤ maxHead)
    (hcount : ∀ start lines, headLines input = some (start, lines) →
      (lines.filter (· ≠ [])).length ≤ MAX_HEADERS)
    (hone : ∀ start lines, headLines input = some (start, lines) →
      ∀ name ∈ interpretedNames, (valuesOf name (headersOf lines)).length ≤ 1) :
    UpgradesUpgradable input maxHead ↔ RequestLineHolds input := by
  cases hhead : headLines input with
  | none =>
    have hparse : parseRequest input maxHead = .error .malformed := by
      rw [parseRequest_eq hmax, hhead]
    refine iff_of_true (.of_malformed hparse ?_) ?_
    · intro start lines path key hsome
      rw [hhead] at hsome
      cases hsome
    · intro start lines hsome
      rw [hhead] at hsome
      cases hsome
  | some head =>
    obtain ⟨start, lines⟩ := head
    have hcount := hcount start lines hhead
    have hone := hone start lines hhead
    have hsame {start' : List Char} {lines' : List (List Char)}
        (h : headLines input = some (start', lines')) : start = start' ∧ lines = lines' := by
      rw [hhead] at h
      cases h
      exact ⟨rfl, rfl⟩
    by_cases hspace : ' ' ∈ start
    · by_cases hcolons : AllColons lines
      · exact upgradesUpgradable_iff_of_words hmax hhead hspace hcolons hcount hone
      · refine iff_of_true (.of_malformed (parseRequest_noColon hmax hhead hcolons hcount) ?_) ?_
        · intro start' lines' path key hhead' hup
          obtain ⟨rfl, rfl⟩ := hsame hhead'
          exact hcolons hup.colons
        · intro start' lines' hhead' _ hcolons'
          obtain ⟨rfl, rfl⟩ := hsame hhead'
          exact absurd hcolons' hcolons
    · refine iff_of_true (.of_malformed (parseRequest_oneWord hmax hhead hspace) ?_) ?_
      · intro start' lines' path key hhead' hup
        obtain ⟨rfl, rfl⟩ := hsame hhead'
        obtain ⟨method, version, hline, -, -⟩ := hup.line
        obtain ⟨-, -, word, hwords, -⟩ := readRequestLine_eq_some_iff.mp hline
        rw [List.splitOn_eq_singleton hspace] at hwords
        cases hwords
      · intro start' lines' hhead' hspace'
        obtain ⟨rfl, rfl⟩ := hsame hhead'
        exact absurd hspace' hspace

end Request

/-- A request without a header that is asked for. -/
theorem upgradesUpgradable_iff_plain :
    UpgradesUpgradable (Utf8.encode "GET / HTTP/1.1\r\nHost: a\r\n\r\n".toList) 100 := by
  have hhead : headLines (Utf8.encode "GET / HTTP/1.1\r\nHost: a\r\n\r\n".toList) =
      some ("GET / HTTP/1.1".toList, ["Host: a".toList, [], []]) := by
    rw [headLines_encode]
    decide +kernel
  refine (upgradesUpgradable_iff (by decide +kernel) ?_ ?_).mpr ?_
  · intro start lines h
    rw [hhead] at h
    cases h
    decide +kernel
  · intro start lines h
    rw [hhead] at h
    cases h
    decide +kernel
  · intro start lines h _ _
    rw [hhead] at h
    cases h
    exact ⟨"GET".toList, "/".toList, (1, 1), by decide +kernel, fun _ _ => by decide +kernel⟩

/-- The header lines of an upgrade. -/
def upgradeLines : List (List Char) :=
  ["Upgrade: websocket".toList, "Connection: Upgrade".toList,
    "Sec-WebSocket-Version: 13".toList, "Sec-WebSocket-Key: dGhlIHNhbXBsZSBub25jZQ==".toList]

/-- A head of these lines, with bare line ends. -/
def bareHead (lines : List (List Char)) : Bytes :=
  Utf8.encode (lines.flatMap (· ++ ['\n']) ++ ['\n'])

/-- An upgrade without a version of HTTP, one of version 1.0 and one without a host are
upgraded, and a head that is not HTTP is a plain request. The first of them is within the
limits, and has each header once. -/
theorem not_upgradable_upgraded :
    (∀ line ∈ ["GET /".toList, "GET / HTTP/1.0".toList, "GET / HTTP/1.1".toList],
      (parseRequest (bareHead (line :: upgradeLines)) DEFAULT_MAX_HEAD).map
          Parsed.withoutHeaders =
        .ok (.upgrade ⟨.get, "/".toList, Utf8.encode "dGhlIHNhbXBsZSBub25jZQ==".toList, [], []⟩)) ∧
    parseRequest (bareHead ["not HTTP".toList]) DEFAULT_MAX_HEAD =
      .ok (.plain ⟨.other "not".toList, "HTTP".toList, [], [], []⟩) ∧
    (bareHead ("GET /".toList :: upgradeLines)).length ≤ DEFAULT_MAX_HEAD ∧
    headLines (bareHead ("GET /".toList :: upgradeLines)) =
      some ("GET /".toList, upgradeLines ++ [[], []]) ∧
    (∀ name ∈ interpretedNames,
      (valuesOf name (headersOf (upgradeLines ++ [[], []]))).length ≤ 1) ∧
    ¬UpgradesUpgradable (bareHead ("GET /".toList :: upgradeLines)) DEFAULT_MAX_HEAD := by
  have hhead (line : List Char) (hlines : Text.lines ((line :: upgradeLines).flatMap (· ++ ['\n']) ++
      ['\n']) = line :: upgradeLines ++ [[], []]) :
      headLines (bareHead (line :: upgradeLines)) = some (line, upgradeLines ++ [[], []]) := by
    rw [bareHead, headLines_encode, hlines]
    rfl
  have hbare := hhead "GET /".toList (by decide +kernel)
  have hparse (line : List Char) (hmax : (bareHead (line :: upgradeLines)).length ≤ DEFAULT_MAX_HEAD)
      (hsome : headLines (bareHead (line :: upgradeLines)) = some (line, upgradeLines ++ [[], []]))
      {rest : List (List Char)} (hwords : line.splitOn ' ' = "GET".toList :: "/".toList :: rest) :
      (parseRequest (bareHead (line :: upgradeLines)) DEFAULT_MAX_HEAD).map
          Parsed.withoutHeaders = .ok (.upgrade
            ⟨.get, "/".toList, Utf8.encode "dGhlIHNhbXBsZSBub25jZQ==".toList, [], []⟩) := by
    rw [parseRequest_words hmax hsome hwords (by decide +kernel) (by decide +kernel)]
    decide +kernel
  refine ⟨?_, ?_, by decide +kernel, hbare, by decide +kernel, ?_⟩
  · simp only [List.forall_mem_cons]
    exact ⟨hparse _ (by decide +kernel) hbare rfl,
      hparse _ (by decide +kernel) (hhead _ (by decide +kernel)) rfl,
      hparse _ (by decide +kernel) (hhead _ (by decide +kernel)) rfl, List.forall_mem_nil _⟩
  · rw [parseRequest_eq (by decide +kernel), bareHead, headLines_encode]
    decide +kernel
  · intro h
    have hmalformed := h.refuses fun start lines hsome => by
      rw [hbare] at hsome
      cases hsome
      decide +kernel
    have hupgrade := hparse "GET /".toList (by decide +kernel) hbare rfl
    rw [hmalformed] at hupgrade
    cases hupgrade

end NagoWss
