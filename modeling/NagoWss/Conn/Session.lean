import Mathlib.Data.List.ReduceOption
import NagoWss.Conn.EchoPipes

/-!
# Whole sessions

From the first byte of the handshake to the last frame. Both ends perform the handshake and
then call and read in any order; the bytes of the frames may already stand behind a head
when it is read, in one chunk with it. Each end reads what the other was asked to send.
-/

namespace NagoWss

open Framing Responding

/-! ## Calling and reading in any order -/

namespace Connection

/-- Make these calls, and read where there is none. The first result is what the reads
returned. -/
def work (c : Connection) : List (Option Call) → List (Except Error (Option Message)) × Connection
  | [] => ([], c)
  | some call :: acts => work (c.call call).2 acts
  | none :: acts => (c.read.1 :: (work c.read.2 acts).1, (work c.read.2 acts).2)

/-- In whatever order calls and reads are made, the calls put the frames of their messages on
the wire, and the reads return what they return without the calls. -/
theorem work_eq {c : Connection} {a : Assembler} {s : Bytes} (hfacing : c.Facing a s)
    (hreliable : c.stream.Reliable) {acts : List (Option Call)}
    (hfits : ∀ call, some call ∈ acts → ∀ m ∈ call.handed, m.Fits) :
    (c.work acts).1 = (List.range (acts.countP Option.isNone)).map c.results ∧
      c.Puts (c.work acts).2 (Call.sentBy c.closeSent acts.reduceOption) := by
  induction acts generalizing c a s with
  | nil => exact ⟨rfl, rfl, [], .nil, by simp [work]⟩
  | cons act acts ih =>
    have hrest : ∀ call, some call ∈ acts → ∀ m ∈ call.handed, m.Fits := fun call hcall =>
      hfits call (List.mem_cons_of_mem _ hcall)
    cases act with
    | none =>
      obtain ⟨-, hnext, -⟩ := read_facing hfacing
      obtain ⟨-, hrole, hclose, hsent, hwrites⟩ := read_fixed hfacing
      have hread : c.Puts c.read.2 [] := ⟨hrole, [], .nil, by simp [hsent]⟩
      have hreliable' : c.read.2.stream.Reliable := by
        rw [ByteStream.Reliable, hwrites]
        exact hreliable
      obtain ⟨hresults, hputs⟩ := ih hnext hreliable' hrest
      rw [hclose] at hputs
      rw [List.countP_cons_of_pos rfl, results_succ, work, hresults]
      exact ⟨rfl, hread.trans hputs⟩
    | some call =>
      have hcall : ∀ m ∈ call.messages c.closeSent, m.Fits := fun m hm =>
        hfits call List.mem_cons_self m (call.messages_subset _ hm)
      obtain ⟨hok, hafter⟩ := call_ok hreliable hcall
      have hsends := call_sends hcall (Prod.ext hok rfl)
      obtain ⟨hfacing', hsame⟩ := hsends.keeps.results_eq hfacing
      obtain ⟨hresults, hputs⟩ := ih hfacing' hafter hrest
      rw [hsends.closeSent] at hputs
      rw [List.countP_cons_of_neg (by simp), work, hresults, hsame]
      exact ⟨rfl, hsends.puts.trans hputs⟩

end Connection

/-! ## Behind the handshake -/

/-- What a connection that was opened is to read has not been touched, and nothing keeps it
from writing. -/
theorem connect_facing {endian : Endian} {seed : UInt64} {stream : ByteStream}
    {path host : List Char} {protocols : List (List Char)} {headers : List HeaderLine}
    {entropy : Vector UInt8 16} {limits : Limits} (hreliable : stream.Reliable) {bytes : Bytes}
    (hin : stream.Brings bytes) {conn : Connection} {protocol : Option (List Char)}
    {left : ByteStream} (h : connect endian seed stream path host protocols headers entropy limits =
      (.ok (conn, protocol), left)) :
    conn.Facing (.new limits) (conn.readBuffer ++ conn.stream.unread) ∧
      conn.results = reference .client limits (conn.readBuffer ++ conn.stream.unread) ∧
      conn.stream.Reliable ∧ conn.closeSent = false := by
  obtain ⟨head, rest, hread, -, rfl⟩ := connect_opened _ _ _ _ _ _ _ _ _ h
  rw [ByteStream.Brings, ← stream.writeAll_incoming
    (buildRequest path host (newKey entropy) protocols headers)] at hin
  have hbrings := readHead_brings hin hread
  have hsame := readHeadLoop_sameSending
    (stream.writeAll (buildRequest path host (newKey entropy) protocols headers)).2
    DEFAULT_MAX_HEAD []
  rw [← readHead, hread] at hsame
  have hwritten := (hreliable.writeAll
    (buildRequest path host (newKey entropy) protocols headers)).2
  rw [ByteStream.Reliable, hsame.writes] at hwritten
  obtain ⟨hfacing, hresults⟩ := hbrings.facing endian seed .client limits rest
  exact ⟨hfacing, hresults, hwritten, rfl⟩

/-- A connection right behind the handshake, that is to read these bytes. -/
structure Connection.Opened (c : Connection) (role : Role) (limits : Limits) (s : Bytes) :
    Prop where
  /-- Its role. -/
  role_eq : c.role = role
  /-- No close message was sent. -/
  closeSent : c.closeSent = false
  /-- Its writes will succeed. -/
  reliable : c.stream.Reliable
  /-- It faces the bytes. -/
  facing : c.Facing (.new limits) s
  /-- What its reads return. -/
  results_eq : c.results = reference role limits s

/-- A server accepts a request that was built. -/
theorem accept_opens (offer : Offer) (entropy : Vector UInt8 16)
    (hmax : (offer.request (newKey entropy)).length ≤ DEFAULT_MAX_HEAD) {server : ByteStream}
    (hserver : server.Reliable) {behind : Bytes}
    (hin : server.Brings (offer.request (newKey entropy) ++ behind)) (endian : Endian)
    (seed : UInt64) (limits : Limits) (errorHeaders : List HeaderLine)
    (select : Request → Option (List Char) × List HeaderLine) :
    ∃ s : Connection, accept endian seed server limits errorHeaders select =
        (.ok (.upgraded s (offer.seen (newKey entropy))), s.stream) ∧
      s.Opened .server limits behind := by
  obtain ⟨rest, out, haccept, -, hrest⟩ := accept_request offer entropy hmax hserver hin endian
    seed limits errorHeaders select
  obtain ⟨hfacing, hresults⟩ := accept_facing hin haccept
  have hreliable := accept_reliable hserver haccept
  obtain ⟨-, -, hopen⟩ := accept_response haccept
  have hbehind : (Connection.withBuffered endian seed out .server limits rest).readBuffer ++
      out.unread = behind := hrest
  exact ⟨_, haccept, rfl, hopen, hreliable, hbehind ▸ hfacing, hbehind ▸ hresults⟩

/-- A client accepts a response to its key. -/
theorem connect_opens (offer : Offer) (entropy : Vector UInt8 16) (reply : Reply)
    (hmax : (reply.response (Utf8.encode (newKey entropy))).length ≤ DEFAULT_MAX_HEAD)
    {client : ByteStream} (hclient : client.Reliable) {behind : Bytes}
    (hin : client.Brings (reply.response (Utf8.encode (newKey entropy)) ++ behind))
    (endian : Endian) (seed : UInt64) (limits : Limits) :
    ∃ c : Connection, connect endian seed client offer.path offer.host offer.protocols
        offer.headers entropy limits = (.ok (c, reply.protocol), c.stream) ∧
      c.Opened .client limits behind := by
  obtain ⟨rest, out, hconnect, -, hrest⟩ := connect_response offer entropy reply hmax hclient hin
    endian seed limits
  obtain ⟨hfacing, hresults, hreliable, hopen⟩ := connect_facing hclient hin hconnect
  have hbehind : (Connection.withBuffered endian seed out .client limits rest).readBuffer ++
      out.unread = behind := hrest
  exact ⟨_, hconnect, rfl, hopen, hreliable, hbehind ▸ hfacing, hbehind ▸ hresults⟩

/-- An open connection that is to read the frames of messages that suit it. -/
theorem Connection.Opened.results {c : Connection} {role : Role} {limits : Limits}
    {ms : List Message} {ws : List WireFrame}
    (h : c.Opened role limits (ws.flatMap WireFrame.bytes))
    (hws : List.Forall₂ (Carries role.opposite) ms ws) (hsuits : ∀ m ∈ ms, m.Suits limits) :
    c.results = readAs ms := by
  have hcarried := reference_carried (p := []) hws hsuits rfl
  rw [Role.opposite_opposite, List.append_nil] at hcarried
  rw [h.results_eq]
  exact funext hcarried

/-- It puts its own messages on the wire and reads those of its peer, in whatever order it
works. -/
theorem Connection.Opened.work {c : Connection} {role : Role} {limits : Limits}
    {ms : List Message} {ws : List WireFrame}
    (h : c.Opened role limits (ws.flatMap WireFrame.bytes))
    (hws : List.Forall₂ (Carries role.opposite) ms ws) (hsuits : ∀ m ∈ ms, m.Suits limits)
    {acts : List (Option Call)} (hfits : ∀ call, some call ∈ acts → ∀ m ∈ call.handed, m.Fits) :
    c.Puts (c.work acts).2 (Call.sentBy false acts.reduceOption) ∧
      (c.work acts).1 = (List.range (acts.countP Option.isNone)).map (readAs ms) := by
  obtain ⟨hread, hputs⟩ := Connection.work_eq h.facing h.reliable hfits
  rw [h.closeSent] at hputs
  rw [hread, h.results hws hsuits]
  exact ⟨hputs, rfl⟩

/-- What is sent was asked for. -/
theorem exists_call_of_mem {closeSent : Bool} {acts : List (Option Call)} {m : Message}
    (h : m ∈ Call.sentBy closeSent acts.reduceOption) :
    ∃ call, some call ∈ acts ∧ m ∈ call.handed := by
  obtain ⟨call, hcall, hm⟩ := Call.exists_of_mem_sentBy h
  exact ⟨call, List.reduceOption_mem_iff.mp hcall, hm⟩

/-- From the handshake to the last frame. Over streams that do not fail, whatever the client
offers and the server selects, and whatever legal messages within the limits of the other
end either end is asked to send: if the frames of those messages follow the heads, in chunks
of any size, then the handshake succeeds, and either end, in whatever order it calls and
reads, puts the frames of its own messages on the wire and reads what the other end was
asked to send, with the close codes that may not be sent replaced, up to and including the
first close message. -/
theorem session_delivers (offer : Offer) (entropy : Vector UInt8 16)
    (select : Request → Option (List Char) × List HeaderLine)
    (hselect : offer.Selected (select (offer.seen (newKey entropy))))
    (hrequest : (offer.request (newKey entropy)).length ≤ DEFAULT_MAX_HEAD)
    (hresponse : (offer.response (newKey entropy) select).length ≤ DEFAULT_MAX_HEAD)
    (limits : Role → Limits) (acts : Role → List (Option Call))
    (hsuits : ∀ r call, some call ∈ acts r → ∀ m ∈ call.handed, m.Suits (limits r.opposite))
    (ws : Role → List WireFrame)
    (hws : ∀ r, List.Forall₂ (Carries r) (Call.sentBy false (acts r).reduceOption) (ws r))
    (client server : ByteStream) (hclient : client.Reliable) (hserver : server.Reliable)
    (hserverIn : server.Brings
      (offer.request (newKey entropy) ++ (ws .client).flatMap WireFrame.bytes))
    (hclientIn : client.Brings
      (offer.response (newKey entropy) select ++ (ws .server).flatMap WireFrame.bytes))
    (endian : Endian) (serverSeed clientSeed : UInt64) (errorHeaders : List HeaderLine) :
    ∃ conn : Role → Connection,
      accept endian serverSeed server (limits .server) errorHeaders select =
        (.ok (.upgraded (conn .server) (offer.seen (newKey entropy))), (conn .server).stream) ∧
      connect endian clientSeed client offer.path offer.host offer.protocols offer.headers entropy
          (limits .client) =
        (.ok (conn .client, (select (offer.seen (newKey entropy))).1), (conn .client).stream) ∧
      ∀ r, (conn r).Puts ((conn r).work (acts r)).2 (Call.sentBy false (acts r).reduceOption) ∧
        ((conn r).work (acts r)).1 = (List.range ((acts r).countP Option.isNone)).map
          (readAs (Call.sentBy false (acts r.opposite).reduceOption)) := by
  obtain ⟨s, haccept, hs⟩ := accept_opens offer entropy hrequest hserver hserverIn endian
    serverSeed (limits .server) errorHeaders select
  obtain ⟨c, hconnect, hc⟩ := connect_opens offer entropy hselect.reply hresponse hclient
    hclientIn endian clientSeed (limits .client)
  have hsent (r : Role) : ∀ m ∈ Call.sentBy false (acts r).reduceOption,
      m.Suits (limits r.opposite) := fun m hm =>
    let ⟨call, hcall, hmem⟩ := exists_call_of_mem hm
    hsuits r call hcall m hmem
  have hfits (r : Role) : ∀ call, some call ∈ acts r → ∀ m ∈ call.handed, m.Fits :=
    fun call hcall m hm => (hsuits r call hcall m hm).fits
  refine ⟨@Role.rec (fun _ => Connection) c s, haccept, hconnect, fun r => ?_⟩
  cases r with
  | client => exact hc.work (hws .server) (hsent .server) (hfits .client)
  | server => exact hs.work (hws .client) (hsent .client) (hfits .server)

/-- A head with something glued to it, in one chunk. -/
theorem brings_glued {head behind : Bytes} (h : behind ≠ []) :
    (ByteStream.ofChunks [head ++ behind]).Brings (head ++ behind) :=
  ⟨[head ++ behind], by simp [h], rfl, by simp⟩

/-- The client says a word and reads, the server reads and closes. -/
def chatActs : Role → List (Option Call)
  | .client => [some (.write (.text [0x68])), none]
  | .server => [none, some (.close (some ⟨⟨1000⟩, []⟩))]

/-- The frames of that, the one of the client under a mask. -/
def chatFrames : Role → List WireFrame
  | .client => [⟨true, .text, some (.replicate 4 1), [0x69], by decide⟩]
  | .server => [⟨true, .close, none, [0x03, 0xe8], by decide⟩]

theorem chatFrames_carry (r : Role) :
    List.Forall₂ (Carries r) (Call.sentBy false (chatActs r).reduceOption) (chatFrames r) := by
  cases r with
  | client => exact .cons ⟨rfl, rfl, by decide, by decide⟩ .nil
  | server => exact .cons ⟨rfl, rfl, by decide, by decide⟩ .nil

theorem chatActs_suit (r : Role) :
    ∀ call, some call ∈ chatActs r → ∀ m ∈ call.handed, m.Suits .default := by
  intro call hcall m hm
  cases r with
  | client =>
    obtain rfl : call = .write (.text [0x68]) := by simpa [chatActs] using hcall
    rw [List.mem_singleton.mp hm]
    exact ⟨⟨['h'], rfl⟩, by decide, by decide, by decide⟩
  | server =>
    obtain rfl : call = .close (some ⟨⟨1000⟩, []⟩) := by simpa [chatActs] using hcall
    rw [List.mem_singleton.mp hm]
    exact ⟨⟨by decide, [], rfl⟩, by decide, by decide, by decide⟩

/-- Either frame is glued to the head before it. -/
theorem session_delivers_chat : ∃ conn : Role → Connection,
    connect .little 2 (.ofChunks [chatOffer.response (newKey (.replicate 16 9)) takeFirst ++
        (chatFrames .server).flatMap WireFrame.bytes])
      chatOffer.path chatOffer.host chatOffer.protocols chatOffer.headers (.replicate 16 9)
      .default = (.ok (conn .client, some "mcp".toList), (conn .client).stream) ∧
    ((conn .client).work (chatActs .client)).1 =
      [.ok (some (.close (some ⟨⟨1000⟩, []⟩)))] ∧
    ((conn .server).work (chatActs .server)).1 = [.ok (some (.text [0x68]))] := by
  obtain ⟨conn, -, hconnect, hwork⟩ := session_delivers chatOffer (.replicate 16 9) takeFirst
    ⟨by decide, by decide, by decide⟩ (by decide +kernel) length_response_chat (fun _ => .default)
    chatActs (fun r => chatActs_suit r) chatFrames chatFrames_carry _ _ (fun _ h => by cases h)
    (fun _ h => by cases h) (brings_glued (by decide)) (brings_glued (by decide)) .little 1 2 []
  exact ⟨conn, hconnect, (hwork .client).2, (hwork .server).2⟩

/-! ## A session with the echo server -/

/-- What an echo answers to messages and what follows them, if it stops there. -/
theorem echo_readAs {ms : List Message} {last : Except Error (Option Message)}
    (hlast : echo.answer last = []) {v : Except Error Unit} (hstops : echo.verdict last = some v)
    {n : Nat} {verdict : Except Error Unit} {results : Nat → Except Error (Option Message)}
    (hresults : ∀ i, results i = match ms[i]? with
      | some m => .ok (some m)
      | none => last)
    (h : echo.outcome ((List.range n).map results) = some verdict) :
    echo.answers ((List.range n).map results) = echoed ms ∧
      verdict = if ms.any Message.isClose then .ok () else v := by
  induction ms generalizing n results with
  | nil =>
    have hfirst : results 0 = last := hresults 0
    cases n with
    | zero => cases h
    | succ n =>
      rw [List.range_succ_eq_map, List.map_cons, hfirst] at h ⊢
      obtain ⟨hanswers, houtcome⟩ := Responder.answers_cons_some hstops
        (((List.range n).map Nat.succ).map results)
      rw [houtcome] at h
      cases h
      exact ⟨hanswers.trans hlast, rfl⟩
  | cons m ms ih =>
    have hfirst : results 0 = .ok (some m) := hresults 0
    cases n with
    | zero => cases h
    | succ n =>
      rw [List.range_succ_eq_map, List.map_cons, hfirst, List.map_map] at h ⊢
      have hverdict := verdict_message m
      rw [echoed_cons, List.any_cons]
      cases hclose : m.isClose with
      | true =>
        rw [hclose] at hverdict
        obtain ⟨hanswers, houtcome⟩ := Responder.answers_cons_some hverdict
          ((List.range n).map (results ∘ Nat.succ))
        rw [houtcome] at h
        cases h
        exact ⟨hanswers.trans (List.append_nil _).symm, rfl⟩
      | false =>
        rw [hclose] at hverdict
        obtain ⟨hanswers, houtcome⟩ := Responder.answers_cons_none hverdict
          ((List.range n).map (results ∘ Nat.succ))
        rw [houtcome] at h
        obtain ⟨hrest, hend⟩ := @ih n (results ∘ Nat.succ) (fun i => hresults (i + 1)) h
        rw [hanswers, hrest]
        exact ⟨rfl, hend⟩

/-- An echo has no answer to the end of the file, and stops there. -/
theorem echo_hangUp (ms : List Message) : ∃ v, echo.answer (hangUp ms) = [] ∧
    echo.verdict (hangUp ms) = some v ∧
      (if ms.any Message.isClose then .ok () else v) =
        if ms.any Message.isClose then .ok () else .error .unexpectedEof := by
  rw [hangUp]
  cases ms.any Message.isClose with
  | true => exact ⟨.ok (), rfl, rfl, rfl⟩
  | false => exact ⟨.error .unexpectedEof, rfl, rfl, rfl⟩

/-- What comes back suits where the messages do. -/
theorem suits_echoed {limits : Limits} {ms : List Message} (h : ∀ m ∈ ms, m.Suits limits) :
    ∀ m ∈ echoed ms, m.Suits limits := by
  intro m hm
  obtain ⟨result, hresult, hanswer⟩ := Responder.exists_of_mem_answers hm
  obtain ⟨x, hx, rfl⟩ := List.mem_map.mp hresult
  exact suits_answer (h x hx) m hanswer

/-- There is a close message up to the first one if there is one. -/
theorem any_isClose_upToClose (ms : List Message) :
    (upToClose (ms.map Message.normalised)).any Message.isClose = ms.any Message.isClose := by
  induction ms with
  | nil => rfl
  | cons m ms ih =>
    rw [List.map_cons, upToClose, Message.isClose_normalised, List.any_cons, ← ih]
    cases hclose : m.isClose with
    | true => simp [hclose]
    | false => simp [hclose]

/-- A whole session with the echo server. If the frames of what the client is asked to send,
legal messages within the limits of both ends, follow its request, the server sends the
response and the frames of what comes back, with the close codes that may not be sent
replaced, and it ends well if and only if the client was asked to close; and a client that
faces these bytes opens a connection that sends what it is asked to and reads what comes
back, in whatever order it calls and reads. -/
theorem echo_session (offer : Offer) (entropy : Vector UInt8 16)
    (hrequest : (offer.request (newKey entropy)).length ≤ DEFAULT_MAX_HEAD)
    (hresponse : (offer.response (newKey entropy) fun _ => (none, [])).length ≤ DEFAULT_MAX_HEAD)
    (limits : Limits) (acts : List (Option Call))
    (hsuits : ∀ call, some call ∈ acts → ∀ m ∈ call.handed, m.Suits serveLimits ∧ m.Suits limits)
    (ws : List WireFrame)
    (hws : List.Forall₂ (Carries .client) (Call.sentBy false acts.reduceOption) ws)
    (server : ByteStream) (hserver : server.Reliable)
    (hserverIn : server.Brings (offer.request (newKey entropy) ++ ws.flatMap WireFrame.bytes))
    (endian : Endian) (seed : UInt64) :
    let asked := Call.sentBy false acts.reduceOption
    let back := echoed (upToClose (asked.map Message.normalised))
    let response := offer.response (newKey entropy) fun _ => (none, [])
    (serve endian seed server).1 =
      (if asked.any Message.isClose then .ok () else .error .unexpectedEof) ∧
    ∃ vs : List WireFrame, List.Forall₂ (Carries .server) back vs ∧
      (serve endian seed server).2.sent = server.sent ++ response ++ vs.flatMap WireFrame.bytes ∧
      ∀ client : ByteStream, client.Reliable →
        client.Brings (response ++ vs.flatMap WireFrame.bytes) → ∀ clientSeed,
        ∃ c : Connection, connect endian clientSeed client offer.path offer.host offer.protocols
            offer.headers entropy limits = (.ok (c, none), c.stream) ∧
          c.Puts (c.work acts).2 asked ∧
          (c.work acts).1 = (List.range (acts.countP Option.isNone)).map (readAs back) := by
  intro asked back response
  have hasked : ∀ m ∈ asked, m.Suits serveLimits ∧ m.Suits limits := fun m hm =>
    let ⟨call, hcall, hmem⟩ := exists_call_of_mem hm
    hsuits call hcall m hmem
  obtain ⟨s, haccept, hs⟩ := accept_opens offer entropy hrequest hserver hserverIn endian seed
    serveLimits [] fun _ => (none, [])
  obtain ⟨n, c', hserve, hsent, -, hverdict, hrole, -, vs, hvs, hout⟩ :=
    serve_run endian seed hserver hserverIn haccept
  -- The server reads what was asked, and stops behind it at the latest.
  have hread := congrFun (hs.results hws fun m hm => (hasked m hm).1)
  obtain ⟨v, hanswer, hstops, hv⟩ := echo_hangUp asked
  obtain ⟨hanswers, hend⟩ := echo_readAs hanswer hstops hread hverdict
  rw [any_isClose_upToClose] at hend
  rw [hanswers, hrole] at hvs
  have hback : ∀ m ∈ back, m.Suits limits := suits_echoed fun m hm => by
    obtain ⟨x, hx, rfl⟩ := List.mem_map.mp ((upToClose_isPrefix _).subset hm)
    exact (hasked x hx).2.normalised
  refine ⟨?_, vs, hvs, ?_, fun client hclient hclientIn clientSeed => ?_⟩
  · rw [hserve, hend]
    exact hv
  · rw [hserve, hout, hsent]
    rfl
  · have hselect : offer.Selected (none, []) :=
      ⟨(fun _ h => by cases h), List.forall_mem_nil _, List.forall_mem_nil _⟩
    obtain ⟨c, hconnect, hc⟩ := connect_opens offer entropy hselect.reply hresponse hclient
      hclientIn endian clientSeed limits
    exact ⟨c, hconnect, hc.work hvs hback fun call hcall m hm => (hsuits call hcall m hm).1.fits⟩

/-- The client says its word, and reads it back. -/
theorem echo_session_chat : ∃ vs : List WireFrame,
    (serve .little 1 (.ofChunks [chatOffer.request (newKey (.replicate 16 9)) ++
      (chatFrames .client).flatMap WireFrame.bytes])).2.sent =
      [] ++ chatOffer.response (newKey (.replicate 16 9)) (fun _ => (none, [])) ++
        vs.flatMap WireFrame.bytes ∧
    List.Forall₂ (Carries .server) [.text [0x68]] vs := by
  have hsuits : ∀ call, some call ∈ chatActs .client → ∀ m ∈ call.handed,
      m.Suits serveLimits ∧ m.Suits .default := by
    intro call hcall m hm
    have hdefault := chatActs_suit .client call hcall m hm
    exact ⟨⟨hdefault.legal, hdefault.fits, hdefault.frame.trans (by decide),
      hdefault.message.trans (by decide)⟩, hdefault⟩
  have hresponse : (chatOffer.response (newKey (.replicate 16 9)) fun _ => (none, [])).length ≤
      DEFAULT_MAX_HEAD := by
    have haccept := length_acceptFor (Utf8.encode (newKey (.replicate 16 9)))
    simp only [Offer.response, buildResponse]
    refine (Utf8.length_encode_le _).trans ?_
    simp only [List.length_append, haccept]
    decide
  obtain ⟨-, vs, hvs, hsent, -⟩ := echo_session chatOffer (.replicate 16 9) (by decide +kernel)
    hresponse .default (chatActs .client) hsuits (chatFrames .client) (chatFrames_carry .client) _
    (fun _ h => by cases h) (brings_glued (by decide)) .little 1
  exact ⟨vs, hsent, hvs⟩

end NagoWss
