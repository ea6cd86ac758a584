import NagoWss.Proto.Handshake

/-!
# What the header lines say

The header lines of a head are interpreted one by one, and most of what they say is
overwritten by the next line of the same name. What is left in the end depends on the
values of the few names that are interpreted, each by itself, and on nothing else.
-/

namespace NagoWss

/-! ## Headers and their values -/

/-- A header as it is read: the value is trimmed. -/
def HeaderLine.trimmed (header : HeaderLine) : HeaderLine := (header.1, Text.trim header.2)

/-- The header on a line, if there is a colon on it. -/
def headerOf (line : List Char) : Option HeaderLine :=
  (Text.splitOnce ':' line).map HeaderLine.trimmed

/-- The headers on some lines, in order. -/
def headersOf (lines : List (List Char)) : List HeaderLine := lines.filterMap headerOf

/-- The values of the headers of this name, in whatever case the name is written. -/
def valuesOf (name : List Char) (headers : List HeaderLine) : List (List Char) :=
  headers.filterMap fun header =>
    if Text.eqIgnoreAsciiCase header.1 name then some header.2 else none

section Values

variable {name : List Char} (headers : List HeaderLine) {header : HeaderLine}

/-- One more header of the name is one more value. -/
theorem valuesOf_concat_same (h : Text.eqIgnoreAsciiCase header.1 name = true) :
    valuesOf name (headers ++ [header]) = valuesOf name headers ++ [header.2] := by
  simp [valuesOf, h]

/-- A header of another name changes nothing. -/
theorem valuesOf_concat_other (h : ¬Text.eqIgnoreAsciiCase header.1 name = true) :
    valuesOf name (headers ++ [header]) = valuesOf name headers := by
  simp [valuesOf, h]

end Values

/-- The names that a request parser interprets. -/
def interpretedNames : List (List Char) :=
  ["upgrade".toList, "connection".toList, "sec-websocket-version".toList,
    "sec-websocket-key".toList, "sec-websocket-protocol".toList]

theorem headerOf_eq_none_iff (line : List Char) : headerOf line = none ↔ ':' ∉ line := by
  rw [headerOf, Option.map_eq_none_iff, Text.splitOnce]
  split
  · next h => simp [h]
  · next h => simp [h]

/-! ## The fields of a request -/

/-- Whether a comma separated list has `upgrade` in it. -/
def listsUpgrade (value : List Char) : Bool :=
  (value.splitOn ',').any fun token =>
    Text.eqIgnoreAsciiCase (Text.trim token) "upgrade".toList

/-- What headers say together: the last value of a name counts, except that subprotocols
add up. -/
def Fields.of (headers : List HeaderLine) : Fields where
  upgradeSeen := (valuesOf "upgrade".toList headers).getLast?.any
    (Text.eqIgnoreAsciiCase · "websocket".toList)
  connectionSeen := (valuesOf "connection".toList headers).getLast?.any listsUpgrade
  versionOk := (valuesOf "sec-websocket-version".toList headers).getLast?.any (· == "13".toList)
  key := (valuesOf "sec-websocket-key".toList headers).getLast?.map Utf8.encode
  protocols := (valuesOf "sec-websocket-protocol".toList headers).flatMap tokens
  headers := headers

/-- A name is spelled one way only, up to case. -/
theorem eqIgnoreAsciiCase_ne {name a b : List Char} (h : Text.eqIgnoreAsciiCase name a = true)
    (hab : Text.eqIgnoreAsciiCase a b = false) : Text.eqIgnoreAsciiCase name b = false := by
  rw [Text.eqIgnoreAsciiCase] at h hab ⊢
  rw [beq_iff_eq.mp h]
  exact hab

/-- One more header is interpreted on top of what the others said. -/
theorem Fields.of_concat (headers : List HeaderLine) (header : HeaderLine) :
    { (Fields.of headers).interpret header.1 header.2 with headers := headers ++ [header] } =
      Fields.of (headers ++ [header]) := by
  have hsame {name : List Char} (h : Text.eqIgnoreAsciiCase header.1 name = true) :=
    valuesOf_concat_same headers h
  have hother {name : List Char} (h : ¬Text.eqIgnoreAsciiCase header.1 name = true) :=
    valuesOf_concat_other headers h
  -- A name that is one of the five is none of those that are asked for behind it.
  have hnext {name next : List Char} (h : Text.eqIgnoreAsciiCase header.1 name = true)
      (hne : Text.eqIgnoreAsciiCase name next = false) :
      valuesOf next (headers ++ [header]) = valuesOf next headers :=
    hother (Bool.not_eq_true _ ▸ eqIgnoreAsciiCase_ne h hne)
  by_cases hupgrade : Text.eqIgnoreAsciiCase header.1 "upgrade".toList = true
  · rw [interpret, if_pos hupgrade, Fields.of, Fields.of, hsame hupgrade, hnext hupgrade (by decide),
      hnext hupgrade (by decide), hnext hupgrade (by decide), hnext hupgrade (by decide),
      List.getLast?_concat]
    rfl
  by_cases hconnection : Text.eqIgnoreAsciiCase header.1 "connection".toList = true
  · rw [interpret, if_neg hupgrade, if_pos hconnection, Fields.of, Fields.of, hother hupgrade,
      hsame hconnection, hnext hconnection (by decide), hnext hconnection (by decide),
      hnext hconnection (by decide), List.getLast?_concat]
    rfl
  by_cases hversion : Text.eqIgnoreAsciiCase header.1 "sec-websocket-version".toList = true
  · rw [interpret, if_neg hupgrade, if_neg hconnection, if_pos hversion, Fields.of, Fields.of,
      hother hupgrade, hother hconnection, hsame hversion, hnext hversion (by decide),
      hnext hversion (by decide), List.getLast?_concat]
    rfl
  by_cases hkey : Text.eqIgnoreAsciiCase header.1 "sec-websocket-key".toList = true
  · rw [interpret, if_neg hupgrade, if_neg hconnection, if_neg hversion, if_pos hkey, Fields.of,
      Fields.of, hother hupgrade, hother hconnection, hother hversion, hsame hkey,
      hnext hkey (by decide), List.getLast?_concat]
    rfl
  by_cases hprotocol : Text.eqIgnoreAsciiCase header.1 "sec-websocket-protocol".toList = true
  · rw [interpret, if_neg hupgrade, if_neg hconnection, if_neg hversion, if_neg hkey,
      if_pos hprotocol, Fields.of, Fields.of, hother hupgrade, hother hconnection, hother hversion,
      hother hkey, hsame hprotocol, List.flatMap_append, List.flatMap_singleton]
  · rw [interpret, if_neg hupgrade, if_neg hconnection, if_neg hversion, if_neg hkey,
      if_neg hprotocol, Fields.of, Fields.of, hother hupgrade, hother hconnection, hother hversion,
      hother hkey, hother hprotocol]

/-- Interpreting a header does not keep it. -/
@[simp] theorem Fields.interpret_headers (f : Fields) (name value : List Char) :
    (f.interpret name value).headers = f.headers := by
  rw [interpret]
  repeat' split
  all_goals rfl

/-- Reading a line behind those that gave these headers. -/
theorem Fields.line_of (headers : List HeaderLine) (line : List Char) :
    (Fields.of headers).line line =
      if line.isEmpty then .ok (Fields.of headers)
      else
        match headerOf line with
        | none => .error .malformed
        | some header =>
          if headers.length = MAX_HEADERS then .error .headTooLarge
          else .ok (Fields.of (headers ++ [header])) := by
  rw [Fields.line]
  split
  · rfl
  · cases hsplit : Text.splitOnce ':' line with
    | none => simp only [headerOf, hsplit, Option.map_none]
    | some header =>
      simp only [headerOf, hsplit, Option.map_some, interpret_headers]
      rw [← Fields.of_concat]
      rfl

/-- All lines have a colon that are not empty. -/
def AllColons (lines : List (List Char)) : Prop := ∀ line ∈ lines, line ≠ [] → ':' ∈ line

instance (lines : List (List Char)) : Decidable (AllColons lines) :=
  inferInstanceAs (Decidable (∀ line ∈ lines, line ≠ [] → ':' ∈ line))

/-- Lines are read to the end exactly if they all have colons and there are not too many
headers, and then they say what their headers say together. -/
theorem Fields.foldlM_line_iff {headers : List HeaderLine} (lines : List (List Char))
    (hroom : headers.length ≤ MAX_HEADERS) (f : Fields) :
    lines.foldlM Fields.line (Fields.of headers) = .ok f ↔ AllColons lines ∧
      (headers ++ headersOf lines).length ≤ MAX_HEADERS ∧
        f = Fields.of (headers ++ headersOf lines) := by
  induction lines generalizing headers with
  | nil =>
    have hnil : headers ++ headersOf [] = headers := List.append_nil headers
    rw [hnil]
    exact ⟨fun h => ⟨List.forall_mem_nil _, hroom, (Except.ok.inj h).symm⟩,
      fun h => congrArg Except.ok h.2.2.symm⟩
  | cons line lines ih =>
    have hcolons : AllColons (line :: lines) ↔ (line ≠ [] → ':' ∈ line) ∧ AllColons lines :=
      List.forall_mem_cons
    rw [List.foldlM_cons, line_of, hcolons]
    cases line with
    | nil => exact (ih hroom).trans (by simp [headersOf, headerOf, Text.splitOnce])
    | cons c line =>
      cases hheader : headerOf (c :: line) with
      | none =>
        have hcolon := (headerOf_eq_none_iff _).mp hheader
        simp only [List.isEmpty_cons, Bool.false_eq_true, if_false]
        constructor
        · intro h
          cases h
        · exact fun h => absurd (h.1.1 (List.cons_ne_nil c line)) hcolon
      | some header =>
        have hcolon : ':' ∈ c :: line := by
          by_contra hnone
          rw [(headerOf_eq_none_iff _).mpr hnone] at hheader
          cases hheader
        have hall : headersOf ((c :: line) :: lines) = header :: headersOf lines :=
          List.filterMap_cons_some hheader
        have hassoc : headers ++ header :: headersOf lines =
            (headers ++ [header]) ++ headersOf lines := by
          rw [List.append_assoc]
          rfl
        simp only [List.isEmpty_cons, Bool.false_eq_true, if_false, hall, hassoc, hcolon]
        by_cases hfull : headers.length = MAX_HEADERS
        · rw [if_pos hfull]
          constructor
          · intro h
            cases h
          · rintro ⟨-, hle, -⟩
            rw [List.length_append, List.length_append, List.length_singleton] at hle
            omega
        · rw [if_neg hfull]
          have hnext : (headers ++ [header]).length ≤ MAX_HEADERS := by
            rw [List.length_append, List.length_singleton]
            omega
          exact (ih hnext).trans (by simp)

/-- What the lines of a head say, if they are as they should be. -/
theorem Fields.foldlM_line_of {lines : List (List Char)} (hcolons : AllColons lines)
    (hcount : (headersOf lines).length ≤ MAX_HEADERS) :
    lines.foldlM Fields.line (Fields.of []) = .ok (Fields.of (headersOf lines)) :=
  (foldlM_line_iff lines (Nat.zero_le _) _).mpr ⟨hcolons, hcount, rfl⟩

/-- A line without a colon is refused, if there are not too many lines in front of it. -/
theorem Fields.foldlM_line_malformed {headers : List HeaderLine} {lines : List (List Char)}
    (hcolons : ¬AllColons lines)
    (hroom : headers.length + (lines.filter (· ≠ [])).length ≤ MAX_HEADERS) :
    lines.foldlM Fields.line (Fields.of headers) = .error .malformed := by
  induction lines generalizing headers with
  | nil => exact absurd (List.forall_mem_nil _) hcolons
  | cons line lines ih =>
    rw [AllColons, List.forall_mem_cons, not_and_or] at hcolons
    rw [List.foldlM_cons, line_of]
    cases line with
    | nil =>
      refine ih (hcolons.resolve_left fun h => h fun hne => absurd rfl hne) ?_
      simpa using hroom
    | cons c line =>
      have hlen : (((c :: line) :: lines).filter (· ≠ [])).length =
          (lines.filter (· ≠ [])).length + 1 := by simp
      rw [hlen] at hroom
      simp only [List.isEmpty_cons, Bool.false_eq_true, if_false]
      cases hheader : headerOf (c :: line) with
      | none => rfl
      | some header =>
        have hcolon : ':' ∈ c :: line := by
          by_contra hnone
          rw [(headerOf_eq_none_iff _).mpr hnone] at hheader
          cases hheader
        have hfull : ¬headers.length = MAX_HEADERS := by omega
        simp only [if_neg hfull]
        refine ih (hcolons.resolve_left fun h => h fun _ => hcolon) ?_
        rw [List.length_append, List.length_singleton]
        omega

/-! ## The request -/

/-- The first line of a head and the lines behind it, if it is UTF-8. -/
def headLines (input : Bytes) : Option (List Char × List (List Char)) :=
  (Utf8.decode input).bind fun text =>
    match Text.lines text with
    | [] => none
    | start :: lines => some (start, lines)

/-- The lines of bytes that encode a text are those of the text. -/
theorem headLines_encode (text : List Char) : headLines (Utf8.encode text) =
    match Text.lines text with
    | [] => none
    | start :: lines => some (start, lines) := by
  rw [headLines, Utf8.decode_encode, Option.bind_some]

/-- A text has at least one line. -/
theorem lines_ne_nil (text : List Char) : Text.lines text ≠ [] := by
  rw [Text.lines, ne_eq, List.map_eq_nil_iff]
  exact List.splitOn_ne_nil _ _

/-- Parsing a request reads the lines behind the request line. -/
theorem parseRequest_eq {input : Bytes} {maxHead : Nat} (hmax : input.length ≤ maxHead) :
    parseRequest input maxHead =
      match headLines input with
      | none => .error .malformed
      | some (start, lines) =>
        match start.splitOn ' ' with
        | method :: path :: _ =>
          (lines.foldlM Fields.line (Fields.of [])).bind fun f =>
            f.conclude (Method.named method) path
        | _ => .error .malformed := by
  rw [parseRequest, if_neg (Nat.not_lt.mpr hmax), headLines]
  cases Utf8.decode input with
  | none => rfl
  | some text =>
    simp only [Option.bind_some]
    cases hlines : Text.lines text with
    | nil => exact absurd hlines (lines_ne_nil text)
    | cons start lines => rfl

/-- The request, whether it asked for an upgrade or not. -/
def Parsed.request : Parsed → Request
  | .upgrade request => request
  | .plain request => request

/-- A request with its headers left out. -/
def Parsed.withoutHeaders : Parsed → Parsed
  | .upgrade request => .upgrade { request with headers := [] }
  | .plain request => .plain { request with headers := [] }

/-- The verdict does not look at the headers that were kept. -/
theorem Fields.conclude_withoutHeaders (f : Fields) (method : Method) (path : List Char) :
    (f.conclude method path).map Parsed.withoutHeaders =
      { f with headers := [] }.conclude method path := by
  simp only [conclude]
  split
  · rfl
  · split
    · rfl
    · split
      · rfl
      · split <;> rfl

/-- What a verdict takes over: the path, all headers, and a key that is empty on a plain
request and well formed on an upgrade. -/
theorem Fields.conclude_ok {f : Fields} {method : Method} {path : List Char} {parsed : Parsed}
    (h : f.conclude method path = .ok parsed) : parsed.request.path = path ∧
      parsed.request.headers = f.headers ∧
      (∀ request, parsed = .plain request → request.key = []) ∧
      ∀ request, parsed = .upgrade request → isValidKey request.key = true := by
  simp only [conclude] at h
  split at h
  · cases h
    refine ⟨rfl, rfl, ?_, ?_⟩
    · intro request hplain
      cases hplain
      rfl
    · intro request hupgrade
      cases hupgrade
  · split at h
    · cases h
    · split at h
      · cases h
      · split at h
        · cases h
        · next hvalid =>
          cases h
          rw [Bool.not_eq_true, Bool.not_eq_false'] at hvalid
          refine ⟨rfl, rfl, ?_, ?_⟩
          · intro request hplain
            cases hplain
          · intro request hupgrade
            cases hupgrade
            exact hvalid

/-- What is parsed is the verdict on the words of the first line and on the headers of the
lines behind it. -/
theorem parseRequest_ok {input : Bytes} {maxHead : Nat} {parsed : Parsed}
    (h : parseRequest input maxHead = .ok parsed) :
    ∃ start lines method path rest, headLines input = some (start, lines) ∧
      start.splitOn ' ' = method :: path :: rest ∧ AllColons lines ∧
      (Fields.of (headersOf lines)).conclude (Method.named method) path = .ok parsed := by
  have hmax : input.length ≤ maxHead := by
    by_contra hlarge
    rw [parseRequest, if_pos (Nat.not_le.mp hlarge)] at h
    cases h
  rw [parseRequest_eq hmax] at h
  split at h
  · cases h
  · next start lines hhead =>
    split at h
    · next method path rest hwords =>
      cases hfold : lines.foldlM Fields.line (Fields.of []) with
      | error e =>
        rw [hfold] at h
        cases h
      | ok f =>
        rw [hfold] at h
        obtain ⟨hcolons, -, rfl⟩ := (Fields.foldlM_line_iff lines (Nat.zero_le _) f).mp hfold
        exact ⟨start, lines, method, path, rest, hhead, hwords, hcolons, h⟩
    · cases h

/-- Only the interpreted headers decide the verdict, and no header is lost. Two heads with
the same first line, within the limits, whose headers have the same values for each of the
five names, are judged alike but for the headers that are kept; those are the headers of
the head, in order. A head that is not UTF-8 is malformed, whatever its headers. -/
theorem interpreted_headers_decide {maxHead : Nat} {input input' : Bytes}
    (hmax : input.length ≤ maxHead) (hmax' : input'.length ≤ maxHead) {start : List Char}
    {lines lines' : List (List Char)} (hhead : headLines input = some (start, lines))
    (hhead' : headLines input' = some (start, lines')) (hcolons : AllColons lines)
    (hcolons' : AllColons lines') (hcount : (headersOf lines).length ≤ MAX_HEADERS)
    (hcount' : (headersOf lines').length ≤ MAX_HEADERS)
    (hvalues : ∀ name ∈ interpretedNames,
      valuesOf name (headersOf lines) = valuesOf name (headersOf lines')) :
    (parseRequest input maxHead).map Parsed.withoutHeaders =
        (parseRequest input' maxHead).map Parsed.withoutHeaders ∧
      (∀ parsed, parseRequest input maxHead = .ok parsed →
        parsed.request.headers = headersOf lines ∧
        (∀ request, parsed = .plain request → request.key = []) ∧
        ∀ request, parsed = .upgrade request → isValidKey request.key = true) ∧
      ∀ other : Bytes, other.length ≤ maxHead → Utf8.decode other = none →
        parseRequest other maxHead = .error .malformed := by
  have hfold := Fields.foldlM_line_of hcolons hcount
  have hfold' := Fields.foldlM_line_of hcolons' hcount'
  have hsame : ({ Fields.of (headersOf lines) with headers := [] } : Fields) =
      { Fields.of (headersOf lines') with headers := [] } := by
    simp only [interpretedNames, List.forall_mem_cons] at hvalues
    obtain ⟨hupgrade, hconnection, hversion, hkey, hprotocol, -⟩ := hvalues
    simp only [Fields.of, hupgrade, hconnection, hversion, hkey, hprotocol]
  refine ⟨?_, fun parsed hparsed => ?_, fun other hother hutf => ?_⟩
  · rw [parseRequest_eq hmax, parseRequest_eq hmax', hhead, hhead']
    simp only [hfold, hfold']
    split
    · simp only [Except.bind]
      rw [Fields.conclude_withoutHeaders, Fields.conclude_withoutHeaders, hsame]
    · rfl
  · obtain ⟨start', lines'', method, path, rest, hhead'', -, -, hverdict⟩ :=
      parseRequest_ok hparsed
    rw [hhead] at hhead''
    cases hhead''
    exact (Fields.conclude_ok hverdict).2
  · rw [parseRequest_eq hother, headLines, hutf]
    rfl

/-- Two heads that offer the same subprotocol, in another order, another case and with
other line ends. -/
theorem interpreted_headers_decide_shuffled :
    (parseRequest (Utf8.encode
      "GET / HTTP/1.1\r\nUpgrade: websocket\r\nSec-WebSocket-Protocol: mcp\r\n\r\n".toList)
      100).map Parsed.withoutHeaders =
    (parseRequest (Utf8.encode
      "GET / HTTP/1.1\nSEC-WEBSOCKET-PROTOCOL:mcp\nHost: a\nupgrade:  websocket \n\n".toList)
      100).map Parsed.withoutHeaders :=
  (@interpreted_headers_decide 100 _ _ (by decide +kernel) (by decide +kernel)
    "GET / HTTP/1.1".toList
    ["Upgrade: websocket".toList, "Sec-WebSocket-Protocol: mcp".toList, [], []]
    ["SEC-WEBSOCKET-PROTOCOL:mcp".toList, "Host: a".toList, "upgrade:  websocket ".toList, [], []]
    (by decide +kernel) (by decide +kernel) (by decide +kernel) (by decide +kernel)
    (by decide +kernel) (by decide +kernel) (by decide +kernel)).1

/-- A byte that is not UTF-8 in a header that is not interpreted. -/
theorem other_header_decides :
    parseRequest (Utf8.encode "GET / HTTP/1.1\r\nA: ".toList ++ [0xFF] ++
        Utf8.encode "\r\n\r\n".toList) 100 = .error .malformed ∧
      parseRequest (Utf8.encode "GET / HTTP/1.1\r\n\r\n".toList) 100 =
        .ok (.plain ⟨.get, "/".toList, [], [], []⟩) := by
  decide +kernel

/-! ## The response -/

/-- What headers say together to a client: the last value of a name counts. -/
def Answer.of (expected : List Char) (headers : List HeaderLine) : Answer where
  acceptOk := (valuesOf "sec-websocket-accept".toList headers).getLast?.any (· == expected)
  protocol := (valuesOf "sec-websocket-protocol".toList headers).getLast?

/-- The accept value is the expected one if the last one is. -/
theorem Answer.of_acceptOk_iff (expected : List Char) (headers : List HeaderLine) :
    (Answer.of expected headers).acceptOk = true ↔
      (valuesOf "sec-websocket-accept".toList headers).getLast? = some expected := by
  rw [Answer.of]
  cases (valuesOf "sec-websocket-accept".toList headers).getLast? with
  | none => simp
  | some value => simp

/-- Reading a line behind those that gave these headers. -/
theorem Answer.line_of (expected : List Char) (headers : List HeaderLine) (line : List Char) :
    Answer.line expected (Answer.of expected headers) line =
      Answer.of expected (headers ++ (headerOf line).toList) := by
  rw [Answer.line]
  split
  · next hempty =>
    rw [List.isEmpty_iff.mp hempty]
    exact congrArg (Answer.of expected) (List.append_nil headers).symm
  · cases hsplit : Text.splitOnce ':' line with
    | none =>
      simp only [headerOf, hsplit, Option.map_none, Option.toList_none, List.append_nil]
    | some header =>
      have hsame {name : List Char} (h : Text.eqIgnoreAsciiCase header.1 name = true) :=
        @valuesOf_concat_same name headers (HeaderLine.trimmed header) h
      have hother {name : List Char} (h : ¬Text.eqIgnoreAsciiCase header.1 name = true) :=
        @valuesOf_concat_other name headers (HeaderLine.trimmed header) h
      simp only [headerOf, hsplit, Option.map_some, Option.toList_some]
      split
      · next haccept =>
        have hprotocol : Text.eqIgnoreAsciiCase header.1 "sec-websocket-protocol".toList = false :=
          eqIgnoreAsciiCase_ne haccept (by decide)
        rw [Answer.of, Answer.of, hsame haccept, hother (Bool.not_eq_true _ ▸ hprotocol),
          List.getLast?_concat]
        rfl
      · next haccept =>
        split
        · next hprotocol =>
          rw [Answer.of, Answer.of, hother haccept, hsame hprotocol, List.getLast?_concat]
          rfl
        · next hprotocol =>
          rw [Answer.of, Answer.of, hother haccept, hother hprotocol]

/-- Lines say what their headers say together. -/
theorem Answer.foldl_line_of (expected : List Char) (headers : List HeaderLine)
    (lines : List (List Char)) : lines.foldl (Answer.line expected) (Answer.of expected headers) =
      Answer.of expected (headers ++ headersOf lines) := by
  induction lines generalizing headers with
  | nil => exact congrArg (Answer.of expected) (List.append_nil headers).symm
  | cons line lines ih =>
    rw [List.foldl_cons, line_of, ih, List.append_assoc]
    congr 2
    cases hheader : headerOf line with
    | none => exact (List.filterMap_cons_none hheader).symm
    | some header => exact (List.filterMap_cons_some hheader).symm

/-- Checking a response reads the lines behind the status line. -/
theorem checkResponse_eq (input : Bytes) (key : List Char) :
    checkResponse input key =
      match headLines input with
      | none => .error .malformed
      | some (status, lines) =>
        let a := Answer.of (acceptFor (Utf8.encode key)) (headersOf lines)
        if ¬"101".toList <:+: status then .error .notAnUpgrade
        else if !a.acceptOk then .error .badKey else .ok a.protocol := by
  rw [checkResponse, headLines]
  cases Utf8.decode input with
  | none => rfl
  | some text =>
    simp only [Option.bind_some]
    cases hlines : Text.lines text with
    | nil => exact absurd hlines (lines_ne_nil text)
    | cons status lines =>
      have hfold := Answer.foldl_line_of (acceptFor (Utf8.encode key)) [] lines
      exact congrArg (fun a : Answer => if ¬"101".toList <:+: status then _ else
        if !a.acceptOk then _ else Except.ok a.protocol) hfold

/-- A response is accepted exactly if `101` stands somewhere in its first line and its
last accept value is the expected one; the last subprotocol is the one that was selected. -/
theorem checkResponse_ok_iff {input : Bytes} {key : List Char} {protocol : Option (List Char)} :
    checkResponse input key = .ok protocol ↔ ∃ status lines,
      headLines input = some (status, lines) ∧ "101".toList <:+: status ∧
        (valuesOf "sec-websocket-accept".toList (headersOf lines)).getLast? =
          some (acceptFor (Utf8.encode key)) ∧
        (valuesOf "sec-websocket-protocol".toList (headersOf lines)).getLast? = protocol := by
  rw [checkResponse_eq]
  cases headLines input with
  | none =>
    constructor
    · intro h
      cases h
    · rintro ⟨status, lines, h, -⟩
      cases h
  | some head =>
    obtain ⟨status, lines⟩ := head
    have haccept := Answer.of_acceptOk_iff (acceptFor (Utf8.encode key)) (headersOf lines)
    simp only
    constructor
    · intro h
      split at h
      · cases h
      · next hstatus =>
        split at h
        · cases h
        · next hok =>
          rw [Bool.not_eq_true, Bool.not_eq_false'] at hok
          exact ⟨status, lines, rfl, not_not.mp hstatus, haccept.mp hok, Except.ok.inj h⟩
    · rintro ⟨status', lines', h, hstatus, hok, hprotocol⟩
      cases h
      simp only [hstatus, haccept.mpr hok, not_true, if_false, Bool.not_true, Bool.false_eq_true]
      rw [← hprotocol]
      rfl

end NagoWss
