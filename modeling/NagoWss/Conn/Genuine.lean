import NagoWss.Conn.Gathering
import NagoWss.Proto.Agreement
import NagoWss.Proto.Conformance

/-!
# What a client accepts

A client should accept a response with the status code 101 that proves that its key was
understood, and that selects one of the subprotocols that it offered or none. It checks
the proof, but it looks for the digits of the code anywhere in the status line, and it
does not compare the subprotocol with its offer.
-/

namespace NagoWss

/-- The status code on a status line: the word behind the version of HTTP. -/
def statusCode (status : List Char) : Option (List Char) :=
  match status.splitOn ' ' with
  | version :: code :: _ => if (httpVersion version).isSome then some code else none
  | _ => none

/-- The accept value that counts, the last one. -/
def acceptValue (lines : List (List Char)) : Option (List Char) :=
  (valuesOf "sec-websocket-accept".toList (headersOf lines)).getLast?

/-- The subprotocol that counts, the last one. -/
def selectedProtocol (lines : List (List Char)) : Option (List Char) :=
  (valuesOf "sec-websocket-protocol".toList (headersOf lines)).getLast?

/-- A response to a request with this key and these subprotocols. -/
structure GenuineResponse (head : Bytes) (key : List Char) (protocols : List (List Char))
    (protocol : Option (List Char)) : Prop where
  /-- The status code is 101. -/
  status : ∃ status lines, headLines head = some (status, lines) ∧
    statusCode status = some "101".toList ∧
      acceptValue lines = some (acceptFor (Utf8.encode key))
  /-- The subprotocol was offered. -/
  offered : ∀ p ∈ protocol, p ∈ protocols

/-- A response that proves that the key was understood and has the digits `101` in its
first line, but not as its status code, or that selects what was not offered. -/
def Misleading (head : Bytes) (key : List Char) (protocols : List (List Char)) : Prop :=
  ∃ status lines, headLines head = some (status, lines) ∧ "101".toList <:+: status ∧
    acceptValue lines = some (acceptFor (Utf8.encode key)) ∧
      (statusCode status ≠ some "101".toList ∨ ∃ p ∈ selectedProtocol lines, p ∉ protocols)

/-- The next write succeeds. -/
def ByteStream.TakesWrite (s : ByteStream) : Prop := s.writes.head?.join = none

/-- A write succeeds exactly if it is to succeed, and leaves the reads to come. -/
theorem ByteStream.writeAll_ok_iff (s : ByteStream) (bytes : Bytes) :
    (∃ out, s.writeAll bytes = (.ok (), out) ∧ out.incoming = s.incoming) ↔ s.TakesWrite := by
  rw [TakesWrite, writeAll]
  split
  · next h => simp [h]
  · next h => simp [h]
  · next h => simp [h]

section Connect

variable (endian : Endian) (seed : UInt64) {stream : ByteStream} (path host : List Char)
  (protocols : List (List Char)) (headers : List HeaderLine) (entropy : Vector UInt8 16)
  (limits : Limits)

/-- The client accepts a subprotocol exactly if its request is written and a head arrives
that it accepts. -/
theorem connect_ok_iff {protocol : Option (List Char)} :
    (∃ conn left, connect endian seed stream path host protocols headers entropy limits =
        (.ok (conn, protocol), left)) ↔
      stream.TakesWrite ∧ ∃ head, HeadArrives DEFAULT_MAX_HEAD stream.incoming head ∧
        checkResponse head (newKey entropy) = .ok protocol := by
  constructor
  · rintro ⟨conn, left, h⟩
    rw [connect] at h
    rcases hw : stream.writeAll (buildRequest path host (newKey entropy) protocols headers) with
      ⟨e | u, asked⟩
    · simp only [hw] at h
      cases h
    · simp only [hw] at h
      have hin := (ByteStream.writeAll_ok hw).2
      refine ⟨(stream.writeAll_ok_iff _).mp ⟨asked, hw, hin⟩, ?_⟩
      rcases hr : readHead asked DEFAULT_MAX_HEAD with ⟨e | ⟨head, rest⟩, left'⟩
      · simp only [hr] at h
        cases h
      · simp only [hr] at h
        refine ⟨head, hin ▸ headArrives_of_readHead hr, ?_⟩
        rcases hc : checkResponse head (newKey entropy) with e | p
        · simp only [hc] at h
          cases h
        · simp only [hc] at h
          cases h
          rfl
  · rintro ⟨htakes, head, harrives, hcheck⟩
    obtain ⟨asked, hw, hin⟩ := (stream.writeAll_ok_iff
      (buildRequest path host (newKey entropy) protocols headers)).mpr htakes
    rw [← hin] at harrives
    obtain ⟨rest, later, hread⟩ := harrives.readHead_eq
    simp only [connect, hw, hread, hcheck]
    exact ⟨_, _, rfl⟩

/-- The client accepts only what is genuine exactly if no misleading response arrives. -/
theorem connect_genuine_iff :
    (∀ conn protocol left, connect endian seed stream path host protocols headers entropy limits =
        (.ok (conn, protocol), left) → ∃ head, HeadArrives DEFAULT_MAX_HEAD stream.incoming head ∧
          GenuineResponse head (newKey entropy) protocols protocol) ↔
      (stream.TakesWrite → ∀ head, HeadArrives DEFAULT_MAX_HEAD stream.incoming head →
        ¬Misleading head (newKey entropy) protocols) := by
  constructor
  · rintro h htakes head harrives ⟨status, lines, hhead, hdigits, haccept, hbad⟩
    have hcheck : checkResponse head (newKey entropy) = .ok (selectedProtocol lines) :=
      checkResponse_ok_iff.mpr ⟨status, lines, hhead, hdigits, haccept, rfl⟩
    obtain ⟨conn, left, hconnect⟩ := (connect_ok_iff endian seed path host protocols headers
      entropy limits).mpr ⟨htakes, head, harrives, hcheck⟩
    obtain ⟨head', harrives', hgenuine⟩ := h conn _ left hconnect
    obtain rfl := harrives.unique harrives'
    obtain ⟨status', lines', hhead', hcode, -⟩ := hgenuine.status
    rw [hhead] at hhead'
    cases hhead'
    rcases hbad with hcode' | ⟨p, hp, hnot⟩
    · exact hcode' hcode
    · exact hnot (hgenuine.offered p hp)
  · intro h conn protocol left hconnect
    obtain ⟨htakes, head, harrives, hcheck⟩ := (connect_ok_iff endian seed path host protocols
      headers entropy limits).mp ⟨conn, left, hconnect⟩
    obtain ⟨status, lines, hhead, hdigits, haccept, rfl⟩ := checkResponse_ok_iff.mp hcheck
    have hnot := h htakes head harrives
    refine ⟨head, harrives, ⟨status, lines, hhead, ?_, haccept⟩, fun p hp => ?_⟩
    · by_contra hcode
      exact hnot ⟨status, lines, hhead, hdigits, haccept, .inl hcode⟩
    · by_contra hp'
      exact hnot ⟨status, lines, hhead, hdigits, haccept, .inr ⟨p, hp, hp'⟩⟩

end Connect

section Confused

/-- The header lines of a response with a subprotocol. -/
def confusedHeaders (accept : List Char) : List HeaderLine :=
  [("Sec-WebSocket-Accept".toList, accept), ("Sec-WebSocket-Protocol".toList, "mcp".toList)]

/-- A response with another status code, that has the digits of 101 behind it. -/
def confusedHead (accept : List Char) : Bytes :=
  Utf8.encode (headText
    ("HTTP/1.1 200 101".toList :: (confusedHeaders accept).map HeaderLine.text))

variable {accept : List Char}

/-- Its lines fit on a line each. -/
theorem confused_onOneLine (haccept : ∀ c ∈ accept, Text.isWhitespace c = false) :
    ∀ line ∈ "HTTP/1.1 200 101".toList :: (confusedHeaders accept).map HeaderLine.text,
      OnOneLine line := by
  refine List.forall_mem_cons.mpr ⟨by decide, List.forall_mem_map.mpr ?_⟩
  refine List.forall_mem_cons.mpr ⟨?_, List.forall_mem_singleton.mpr ?_⟩
  · exact (HeaderLine.Writable.of_name (by decide) (.of_no_whitespace haccept)).onOneLine
  · exact (HeaderLine.Writable.of_name (by decide) (by decide)).onOneLine

/-- It arrives. -/
theorem confused_arrives (haccept : ∀ c ∈ accept, Text.isWhitespace c = false) :
    HeadArrives DEFAULT_MAX_HEAD (ByteStream.ofChunks [confusedHead accept]).incoming
      (confusedHead accept) := by
  have hhead : IsHead (confusedHead accept) := by
    refine isHead_headText (confused_onOneLine haccept) (List.forall_mem_cons.mpr ⟨by decide, ?_⟩)
    exact List.forall_mem_map.mpr fun header _ => header.text_ne_nil
  have hend := hhead.headEnd_append []
  rw [List.append_nil] at hend
  have hne : confusedHead accept ≠ [] := by
    intro hnil
    rw [hnil] at hend
    cases hend
  exact ⟨_, [], _, .chunk ⟨rfl, Nat.zero_le _⟩ hne (.here _ _), hend, List.take_length.symm⟩

/-- It is read as what it says. -/
theorem headLines_confusedHead (haccept : ∀ c ∈ accept, Text.isWhitespace c = false) : ∃ lines,
    headLines (confusedHead accept) = some ("HTTP/1.1 200 101".toList, lines) ∧
      acceptValue lines = some accept ∧ selectedProtocol lines = some "mcp".toList := by
  have hheaders : headersOf ((confusedHeaders accept).map HeaderLine.text ++ [[], []]) =
      confusedHeaders accept := by
    have hcolon : ':' ∉ "Sec-WebSocket-Accept".toList := by decide
    have hnames : ∀ header ∈ confusedHeaders accept, ':' ∉ header.1 :=
      List.forall_mem_cons.mpr ⟨hcolon, List.forall_mem_singleton.mpr (by decide)⟩
    have htrim : HeaderLine.trimmed ("Sec-WebSocket-Accept".toList, accept) =
        ("Sec-WebSocket-Accept".toList, accept) := by
      rw [HeaderLine.trimmed, Text.trim_eq_self haccept]
    rw [headersOf_text hnames, confusedHeaders, List.map_cons, htrim]
    rfl
  refine ⟨_, headLines_headText fun line hline =>
    (confused_onOneLine haccept line hline).isTextLine, ?_, ?_⟩
  · rw [acceptValue, hheaders]
    rfl
  · rw [selectedProtocol, hheaders]
    rfl

end Confused

/-- A client that has offered no subprotocol takes it for what it asked for. -/
theorem connect_accepts_confused :
    let key := newKey (.replicate 16 9)
    let stream := ByteStream.ofChunks [confusedHead (acceptFor (Utf8.encode key))]
    (∃ conn left, connect .little 1 stream "/".toList "a".toList [] [] (.replicate 16 9) .default =
        (.ok (conn, some "mcp".toList), left)) ∧
      statusCode "HTTP/1.1 200 101".toList = some "200".toList ∧
      ¬∀ conn protocol left, connect .little 1 stream "/".toList "a".toList [] [] (.replicate 16 9)
        .default = (.ok (conn, protocol), left) → ∃ head,
          HeadArrives DEFAULT_MAX_HEAD stream.incoming head ∧
            GenuineResponse head key [] protocol := by
  intro key stream
  have haccept : ∀ c ∈ acceptFor (Utf8.encode key), Text.isWhitespace c = false :=
    isWhitespace_base64Encode _
  have harrives := confused_arrives haccept
  obtain ⟨lines, hhead, hvalue, hprotocol⟩ := headLines_confusedHead haccept
  have hcheck := checkResponse_ok_iff.mpr ⟨_, lines, hhead, by decide, hvalue, hprotocol⟩
  obtain ⟨conn, left, hconnect⟩ := (@connect_ok_iff .little 1 stream "/".toList "a".toList [] []
    (.replicate 16 9) .default _).mpr ⟨rfl, _, harrives, hcheck⟩
  refine ⟨⟨conn, left, hconnect⟩, by decide, fun h => ?_⟩
  obtain ⟨head, -, hgenuine⟩ := h conn _ left hconnect
  cases hgenuine.offered _ rfl

end NagoWss
