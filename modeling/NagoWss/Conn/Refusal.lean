import NagoWss.Conn.HeadBounds
import NagoWss.Conn.Opening

/-!
# A refusal and who reads it

A server that does not upgrade a request either writes nothing or writes a whole head that
says why. A client that asked reads the head, and gives up because it is no upgrade.
-/

namespace NagoWss

/-! ## The refusal as a head -/

/-- The first line of a refusal. -/
def rejectionLine (error : UpgradeError) : List Char :=
  "HTTP/1.1 ".toList ++ match error with
    | .wrongVersion => "426 Upgrade Required".toList
    | .headTooLarge => "431 Request Header Fields Too Large".toList
    | _ => "400 Bad Request".toList

/-- The headers of a refusal. -/
def rejectionHeaders (error : UpgradeError) (extra : List HeaderLine) : List HeaderLine :=
  (if error = .wrongVersion then [("Sec-WebSocket-Version".toList, "13".toList)] else []) ++
    [("Connection".toList, "close".toList), ("Content-Length".toList, "0".toList)] ++ extra

/-- A refusal is the text of its lines. -/
theorem buildRejection_eq (error : UpgradeError) (extra : List HeaderLine) :
    buildRejection error extra = Utf8.encode (headText
      (rejectionLine error :: (rejectionHeaders error extra).map HeaderLine.text)) := by
  have hwritten {reason : List Char} {fixed : List HeaderLine} (h : reason ++
      ("Connection: close\r\n".toList ++ "Content-Length: 0\r\n".toList) = writeHeaders fixed)
      (start : List Char) :
      start ++ "\r\n".toList ++ reason ++ "Connection: close\r\n".toList ++
          "Content-Length: 0\r\n".toList ++ writeHeaders extra ++ "\r\n".toList =
        start ++ lineEnd ++ writeHeaders (fixed ++ extra) ++ lineEnd := by
    have hboth : writeHeaders (fixed ++ extra) = writeHeaders fixed ++ writeHeaders extra :=
      List.flatMap_append
    rw [hboth, ← h]
    simp only [List.append_assoc]
    rfl
  rw [headText_headers]
  cases error with
  | wrongVersion => exact congrArg Utf8.encode (hwritten (by decide) _)
  | headTooLarge => exact congrArg Utf8.encode (hwritten (by decide) _)
  | malformed | notGet | notAnUpgrade | badKey =>
    exact congrArg Utf8.encode (hwritten (by decide) _)

/-- The lines of a refusal fit on a line each. -/
theorem rejection_onOneLine (error : UpgradeError) {extra : List HeaderLine}
    (hextra : ∀ header ∈ extra, header.Writable) :
    ∀ line ∈ rejectionLine error :: (rejectionHeaders error extra).map HeaderLine.text,
      OnOneLine line := by
  have hfixed : ∀ header ∈ rejectionHeaders error [], header.Writable := by
    cases error <;> decide
  refine List.forall_mem_cons.mpr ⟨by cases error <;> decide, List.forall_mem_map.mpr ?_⟩
  intro header hheader
  refine HeaderLine.Writable.onOneLine ?_
  rcases List.mem_append.mp hheader with hheader | hheader
  · exact hfixed header (List.mem_append_left _ hheader)
  · exact hextra header hheader

/-- A refusal is a head. -/
theorem isHead_buildRejection (error : UpgradeError) {extra : List HeaderLine}
    (hextra : ∀ header ∈ extra, header.Writable) : IsHead (buildRejection error extra) := by
  rw [buildRejection_eq]
  refine isHead_headText (rejection_onOneLine error hextra) (List.forall_mem_cons.mpr ⟨?_, ?_⟩)
  · cases error <;> decide
  · exact List.forall_mem_map.mpr fun header _ => header.text_ne_nil

/-- A refusal is not taken for an upgrade, whatever the key was. -/
theorem checkResponse_buildRejection (error : UpgradeError) {extra : List HeaderLine}
    (hextra : ∀ header ∈ extra, header.Writable) (key : List Char) :
    checkResponse (buildRejection error extra) key = .error .notAnUpgrade := by
  have hlines := lines_headText fun line hline =>
    (rejection_onOneLine error hextra line hline).isTextLine
  have hstatus : ¬"101".toList <:+: rejectionLine error := by cases error <;> decide
  rw [checkResponse, buildRejection_eq, Utf8.decode_encode]
  simp only [hlines, List.cons_append, hstatus, not_false_eq_true, if_true]

/-! ## The refusal on its way -/

/-- A client that reads a refusal has sent its request, and gives up. -/
theorem connect_buildRejection (error : UpgradeError) {extra : List HeaderLine}
    (hextra : ∀ header ∈ extra, header.Writable)
    (hmax : (buildRejection error extra).length ≤ DEFAULT_MAX_HEAD) {client : ByteStream}
    (hclient : client.Reliable) {behind : Bytes}
    (hin : client.Brings (buildRejection error extra ++ behind)) (endian : Endian) (seed : UInt64)
    (path host : List Char) (protocols : List (List Char)) (headers : List HeaderLine)
    (entropy : Vector UInt8 16) (limits : Limits) :
    ∃ left, connect endian seed client path host protocols headers entropy limits =
        (.error (.upgrade .notAnUpgrade), left) ∧
      left.sent = client.sent ++ buildRequest path host (newKey entropy) protocols headers := by
  obtain ⟨asked, hask, hasked, hincoming⟩ := ByteStream.SameSending.writeAll_ok ⟨rfl, rfl⟩
    hclient (buildRequest path host (newKey entropy) protocols headers)
  rw [ByteStream.Brings, ← hincoming] at hin
  obtain ⟨rest, left, hreply, -, hsame⟩ :=
    readHead_isHead (isHead_buildRejection error hextra) hmax hin
  have hcheck := checkResponse_buildRejection error hextra (newKey entropy)
  refine ⟨left, ?_, hsame.sent.symm.trans hasked⟩
  simp only [connect, hask, hreply, hcheck]

/-- Over reliable streams a refusal reaches the client. If a server does not accept, then it
has written nothing, because no head was read or because the request asked for no upgrade;
or it names an error and has written the refusal for that, and every client that reads the
refusal, in whatever pieces and whatever follows it, has sent its request and gives up with
the error that the answer is no upgrade. -/
theorem refusal_reaches_client (endian : Endian) (seed : UInt64) (server : ByteStream)
    (hserver : server.Reliable) (limits : Limits) (errorHeaders : List HeaderLine)
    (hheaders : ∀ header ∈ errorHeaders, header.Writable)
    (select : Request → Option (List Char) × List HeaderLine) :
    let r := accept endian seed server limits errorHeaders select
    (∀ conn request, r.1 ≠ .ok (.upgraded conn request)) →
    (r.2.sent = server.sent ∧
      ((∃ e left, r.1 = .error e ∧ readHead server DEFAULT_MAX_HEAD = (.error e, left)) ∨
        ∃ stream request buffered, r.1 = .ok (.plain stream request buffered))) ∨
    ∃ error, r.1 = .error (.upgrade error) ∧
      r.2.sent = server.sent ++ buildRejection error errorHeaders ∧
      ((buildRejection error errorHeaders).length ≤ DEFAULT_MAX_HEAD →
        ∀ (endian' : Endian) (seed' : UInt64) (client : ByteStream) (behind : Bytes)
          (path host : List Char) (protocols : List (List Char)) (headers : List HeaderLine)
          (entropy : Vector UInt8 16) (limits' : Limits), client.Reliable →
          client.Brings (buildRejection error errorHeaders ++ behind) →
          ∃ left, connect endian' seed' client path host protocols headers entropy limits' =
              (.error (.upgrade .notAnUpgrade), left) ∧
            left.sent =
              client.sent ++ buildRequest path host (newKey entropy) protocols headers) := by
  intro r hnot
  have hread := readHeadLoop_sameSending server DEFAULT_MAX_HEAD []
  rw [← readHead] at hread
  rcases accept_cases endian seed server limits errorHeaders select with
    ⟨e, left, hhead, hr⟩ | ⟨head, rest, left, hhead, ⟨error, -, hr⟩ | ⟨request, -, hr⟩ |
      ⟨request, result, out, -, hwrite, hr⟩⟩
  · rw [hhead] at hread
    refine .inl ⟨?_, .inl ⟨e, left, by rw [show r = _ from hr], hhead⟩⟩
    rw [show r = _ from hr]
    exact hread.sent.symm
  · -- The refusal of what was parsed.
    rw [hhead] at hread
    obtain ⟨out, hwrite, hsent, -⟩ := hread.writeAll_ok hserver (buildRejection error errorHeaders)
    refine .inr ⟨error, by rw [show r = _ from hr], ?_, ?_⟩
    · rw [show r = _ from hr, hwrite]
      exact hsent
    · intro hmax endian' seed' client behind path host protocols headers entropy limits' hclient hin
      exact connect_buildRejection error hheaders hmax hclient hin endian' seed' path host protocols
        headers entropy limits'
  · rw [hhead] at hread
    refine .inl ⟨?_, .inr ⟨left, request, rest, by rw [show r = _ from hr]⟩⟩
    rw [show r = _ from hr]
    exact hread.sent.symm
  · rw [hhead] at hread
    obtain ⟨out', hwrite', -, -⟩ := hread.writeAll_ok hserver
      (buildResponse request.key (select request).1 (select request).2)
    rw [hwrite] at hwrite'
    cases hwrite'
    exact absurd (congrArg Prod.fst hr) (hnot _ _)

/-- A request line without a path is refused, and the refusal says so to the client. -/
theorem refusal_reaches_client_malformed :
    let r := accept .little 7 (.ofChunks [Utf8.encode (headText ["GET".toList])]) .default []
      fun _ => (none, [])
    r.2.sent = [] ++ buildRejection .malformed [] ∧
      ∃ left, connect .little 7 (.ofChunks [buildRejection .malformed []]) "/".toList "a".toList []
        [] (.replicate 16 9) .default = (.error (.upgrade .notAnUpgrade), left) := by
  intro r
  have hbrings {bytes : Bytes} (h : bytes ≠ []) :
      (ByteStream.ofChunks [bytes]).Brings (bytes ++ []) :=
    ⟨[bytes], by simpa using h, rfl, by simp⟩
  have hhead : IsHead (Utf8.encode (headText ["GET".toList])) :=
    isHead_headText (by decide) (by decide)
  obtain ⟨rest, left, hread, -, -⟩ := readHead_isHead hhead
    (show _ ≤ DEFAULT_MAX_HEAD by decide +kernel) (hbrings (by decide +kernel))
  have hparse : parseRequest (Utf8.encode (headText ["GET".toList])) DEFAULT_MAX_HEAD =
      .error .malformed := by decide +kernel
  have hr : r.1 = .error (.upgrade .malformed) := by
    simp only [r, accept, hread, hparse]
  rcases refusal_reaches_client .little 7 (.ofChunks [Utf8.encode (headText ["GET".toList])])
    (fun _ h => by cases h) .default [] (List.forall_mem_nil _) (fun _ => (none, []))
    (fun conn request h => by rw [show _ = _ from hr] at h; cases h) with
    ⟨-, ⟨e, left', -, herror⟩ | ⟨stream, request, buffered, hplain⟩⟩ | ⟨error, he, hsent, hclient⟩
  · rw [hread] at herror
    cases herror
  · rw [show _ = _ from hr] at hplain
    cases hplain
  · rw [show _ = _ from hr] at he
    cases he
    obtain ⟨left', hconnect, -⟩ := hclient (by decide +kernel) .little 7 _ [] "/".toList "a".toList
      [] [] (.replicate 16 9) .default (fun _ h => by cases h) (hbrings (by decide +kernel))
    exact ⟨hsent, left', hconnect⟩

end NagoWss
