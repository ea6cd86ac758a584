import NagoWss.Conn.HeadArrival
import NagoWss.Proto.Agreement

/-!
# Opening a connection

The two sides of the handshake over streams: the server accepts what a client
offers, the client accepts what the server replies, they agree on the subprotocol,
and neither loses a byte that the other sends behind its head.
-/

namespace NagoWss

/-- A head within the limit is read as it was written, in whatever pieces it arrives,
and the bytes behind it are left over or not read yet. -/
theorem readHead_isHead {head : Bytes} (h : IsHead head) {maxHead : Nat}
    (hmax : head.length ≤ maxHead) {stream : ByteStream} {q : Bytes}
    (hin : stream.Brings (head ++ q)) :
    ∃ rest left, readHead stream maxHead = (.ok (head, rest), left) ∧ rest ++ left.unread = q ∧
      stream.SameSending left := by
  obtain ⟨hverdict, hsame⟩ := readHead_eq (h.standsOut hmax q) hin
  rw [headVerdict, h.headEnd_append q] at hverdict
  rcases hr : readHead stream maxHead with ⟨e | ⟨head', rest⟩, left⟩
  · rw [hr] at hverdict
    cases hverdict
  · rw [hr] at hverdict hsame
    obtain ⟨hhead, hrest⟩ := Prod.mk.inj (Except.ok.inj hverdict)
    simp only [List.take_left, List.drop_left] at hhead hrest
    exact ⟨rest, left, by rw [hhead], hrest, hsame⟩

/-- A stream that is reliable when another one is, and writes behind what that wrote. -/
theorem ByteStream.SameSending.writeAll_ok {s s' : ByteStream} (h : s.SameSending s')
    (hs : s.Reliable) (bytes : Bytes) :
    ∃ out, s'.writeAll bytes = (.ok (), out) ∧ out.sent = s.sent ++ bytes ∧
      out.incoming = s'.incoming := by
  have hs' : s'.Reliable := by
    rw [Reliable, ← h.writes]
    exact hs
  have hok := (hs'.writeAll bytes).1
  rcases hw : s'.writeAll bytes with ⟨result, out⟩
  rw [hw] at hok
  obtain rfl : result = .ok () := hok
  obtain ⟨hsent, hincoming⟩ := ByteStream.writeAll_ok hw
  rw [← h.sent] at hsent
  exact ⟨out, rfl, hsent, hincoming⟩

/-- The response to an offer, with what the server selects for it. -/
def Offer.response (offer : Offer) (key : List Char)
    (select : Request → Option (List Char) × List HeaderLine) : Bytes :=
  let (protocol, headers) := select (offer.seen key)
  buildResponse (Utf8.encode key) protocol headers

/-- A server accepts a request that was built, answers it, and keeps what follows it. -/
theorem accept_request (offer : Offer) (entropy : Vector UInt8 16)
    (hmax : (offer.request (newKey entropy)).length ≤ DEFAULT_MAX_HEAD) {server : ByteStream}
    (hserver : server.Reliable) {behind : Bytes}
    (hin : server.Brings (offer.request (newKey entropy) ++ behind)) (endian : Endian)
    (seed : UInt64) (limits : Limits) (errorHeaders : List HeaderLine)
    (select : Request → Option (List Char) × List HeaderLine) :
    ∃ rest out, accept endian seed server limits errorHeaders select =
        (.ok (.upgraded (.withBuffered endian seed out .server limits rest)
          (offer.seen (newKey entropy))), out) ∧
      out.sent = server.sent ++ offer.response (newKey entropy) select ∧
      rest ++ out.unread = behind := by
  have hkey : ∀ c ∈ newKey entropy, Text.isWhitespace c = false := isWhitespace_base64Encode _
  obtain ⟨rest, left, hread, hrest, hsame⟩ := readHead_isHead (offer.isHead_request hkey) hmax hin
  have hparse := offer.parseRequest_request entropy hmax
  obtain ⟨out, hwrite, hsent, hincoming⟩ :=
    hsame.writeAll_ok hserver (offer.response (newKey entropy) select)
  rw [Offer.response] at hwrite
  refine ⟨rest, out, ?_, hsent, ?_⟩
  · simp only [accept, hread, hparse]
    rw [show (offer.seen (newKey entropy)).key = Utf8.encode (newKey entropy) from rfl, hwrite]
  · rw [ByteStream.unread, hincoming, ← ByteStream.unread, hrest]

/-- A client accepts a response to its key, and keeps what follows it. -/
theorem connect_response (offer : Offer) (entropy : Vector UInt8 16) (reply : Reply)
    (hmax : (reply.response (Utf8.encode (newKey entropy))).length ≤ DEFAULT_MAX_HEAD)
    {client : ByteStream} (hclient : client.Reliable) {behind : Bytes}
    (hin : client.Brings (reply.response (Utf8.encode (newKey entropy)) ++ behind))
    (endian : Endian) (seed : UInt64) (limits : Limits) :
    ∃ rest out, connect endian seed client offer.path offer.host offer.protocols offer.headers
        entropy limits = (.ok (.withBuffered endian seed out .client limits rest,
          reply.protocol), out) ∧
      out.sent = client.sent ++ offer.request (newKey entropy) ∧ rest ++ out.unread = behind := by
  obtain ⟨asked, hwrite, hsent, hincoming⟩ :=
    ByteStream.SameSending.writeAll_ok ⟨rfl, rfl⟩ hclient (offer.request (newKey entropy))
  rw [ByteStream.Brings, ← hincoming] at hin
  obtain ⟨rest, out, hread, hrest, hsame⟩ := readHead_isHead (reply.isHead_response _) hmax hin
  have hcheck := reply.checkResponse_response (newKey entropy)
  rw [Offer.request] at hwrite
  refine ⟨rest, out, ?_, ?_, hrest⟩
  · simp only [connect, hwrite, hread, hcheck]
  · rw [← hsame.sent, hsent]

/-- What a server may select for an offer: one of its subprotocols or none, and headers
that can be written and are not those of the handshake. -/
structure Offer.Selected (offer : Offer) (choice : Option (List Char) × List HeaderLine) :
    Prop where
  /-- The subprotocol was offered. -/
  offered : ∀ p ∈ choice.1, p ∈ offer.protocols
  /-- The headers can be written. -/
  writable : ∀ header ∈ choice.2, header.Writable
  /-- The headers are none of those that a client interprets. -/
  other : ∀ header ∈ choice.2, ∀ name ∈ answerNames,
    Text.eqIgnoreAsciiCase header.1 name = false

/-- The reply with this choice. -/
def Offer.Selected.reply {offer : Offer} {choice : Option (List Char) × List HeaderLine}
    (h : offer.Selected choice) : Reply where
  protocol := choice.1
  headers := choice.2
  token := fun p hp => offer.tokens p (h.offered p hp)
  writable := h.writable
  other := h.other

/-- The two sides of the handshake agree. Over streams that do not fail, whatever the
client offers and the server selects, in whatever pieces the heads and the bytes behind
them arrive, the server sees the request that was offered, the client the subprotocol
that was selected, and what either side sends behind its head is what the connection of
the other has buffered and is still to read. -/
theorem handshake_agrees (offer : Offer) (entropy : Vector UInt8 16)
    (select : Request → Option (List Char) × List HeaderLine)
    (hselect : offer.Selected (select (offer.seen (newKey entropy))))
    (hrequest : (offer.request (newKey entropy)).length ≤ DEFAULT_MAX_HEAD)
    (hresponse : (offer.response (newKey entropy) select).length ≤ DEFAULT_MAX_HEAD)
    (client server : ByteStream) (hclient : client.Reliable) (hserver : server.Reliable)
    (behindRequest behindResponse : Bytes)
    (hserverIn : server.Brings (offer.request (newKey entropy) ++ behindRequest))
    (hclientIn : client.Brings (offer.response (newKey entropy) select ++ behindResponse))
    (endian : Endian) (serverSeed clientSeed : UInt64) (serverLimits clientLimits : Limits)
    (errorHeaders : List HeaderLine) :
    (∃ rest out, accept endian serverSeed server serverLimits errorHeaders select =
        (.ok (.upgraded (.withBuffered endian serverSeed out .server serverLimits rest)
          (offer.seen (newKey entropy))), out) ∧
      out.sent = server.sent ++ offer.response (newKey entropy) select ∧
      rest ++ out.unread = behindRequest) ∧
    (∃ rest out, connect endian clientSeed client offer.path offer.host offer.protocols
        offer.headers entropy clientLimits =
        (.ok (.withBuffered endian clientSeed out .client clientLimits rest,
          (select (offer.seen (newKey entropy))).1), out) ∧
      out.sent = client.sent ++ offer.request (newKey entropy) ∧
      rest ++ out.unread = behindResponse) ∧
    offer.request (newKey entropy) = Utf8.encode (headText
      (requestLine offer.path :: (offer.headerLines (newKey entropy)).map HeaderLine.text)) :=
  ⟨accept_request offer entropy hrequest hserver hserverIn endian serverSeed serverLimits
      errorHeaders select,
    connect_response offer entropy hselect.reply hresponse hclient hclientIn endian clientSeed
      clientLimits,
    buildRequest_eq _ _ _ _ _⟩

/-- An offer of two subprotocols with a header of the caller's. -/
def chatOffer : Offer where
  path := "/chat".toList
  host := "localhost".toList
  protocols := ["mcp".toList, "chat".toList]
  headers := [("Origin".toList, " https://app.example.com ".toList)]
  path_ne_nil := by decide
  path_space := by decide
  path_line := by decide
  host_line := by decide
  tokens := by decide
  writable := by decide
  other := by decide
  count := by decide

/-- A server that takes the first offer and says its name. -/
def takeFirst (request : Request) : Option (List Char) × List HeaderLine :=
  (request.protocols.head?, [("Server".toList, "nago-wss".toList)])

/-- The response to that offer is short. -/
theorem length_response_chat :
    (chatOffer.response (newKey (.replicate 16 9)) takeFirst).length ≤ DEFAULT_MAX_HEAD := by
  have haccept := length_acceptFor (Utf8.encode (newKey (.replicate 16 9)))
  have hchoice : takeFirst (chatOffer.seen (newKey (.replicate 16 9))) =
      (some "mcp".toList, [("Server".toList, "nago-wss".toList)]) := rfl
  simp only [Offer.response, hchoice, buildResponse]
  refine (Utf8.length_encode_le _).trans ?_
  simp only [List.length_append, haccept]
  decide

/-- A frame of either side is glued to its head. -/
theorem handshake_agrees_chat :
    (∃ rest out, accept .little 1
        (.ofChunks [chatOffer.request (newKey (.replicate 16 9)) ++ [0x81, 0x80, 0, 0, 0, 0]])
        .default [] takeFirst = (.ok (.upgraded (.withBuffered .little 1 out .server .default rest)
          (chatOffer.seen (newKey (.replicate 16 9)))), out) ∧
      out.sent = chatOffer.response (newKey (.replicate 16 9)) takeFirst ∧
      rest ++ out.unread = [0x81, 0x80, 0, 0, 0, 0]) ∧
    ∃ rest out, connect .little 2
        (.ofChunks [chatOffer.response (newKey (.replicate 16 9)) takeFirst ++ [0x81, 0x01, 104]])
        chatOffer.path chatOffer.host chatOffer.protocols chatOffer.headers (.replicate 16 9)
        .default = (.ok (.withBuffered .little 2 out .client .default rest, some "mcp".toList), out) ∧
      out.sent = chatOffer.request (newKey (.replicate 16 9)) ∧
      rest ++ out.unread = [0x81, 0x01, 104] := by
  have hselect : chatOffer.Selected (takeFirst (chatOffer.seen (newKey (.replicate 16 9)))) :=
    ⟨by decide, by decide, by decide⟩
  have hbrings (head : Bytes) (b : UInt8) (behind : Bytes) :
      (ByteStream.ofChunks [head ++ b :: behind]).Brings (head ++ b :: behind) :=
    ⟨[head ++ b :: behind], by simp, rfl, by simp⟩
  obtain ⟨⟨rest, out, hupgraded, hanswer, hleft⟩, ⟨rest', out', hopen, hrequest, hleft'⟩, -⟩ :=
    handshake_agrees chatOffer (.replicate 16 9) takeFirst hselect (by decide +kernel)
      length_response_chat _ _ (fun _ h => by cases h) (fun _ h => by cases h) _ _
      (hbrings _ 0x81 [0x80, 0, 0, 0, 0]) (hbrings _ 0x81 [0x01, 104]) .little 1 2 .default .default []
  exact ⟨⟨rest, out, hupgraded, hanswer.trans (List.nil_append _), hleft⟩,
    rest', out', hopen, hrequest.trans (List.nil_append _), hleft'⟩

end NagoWss
