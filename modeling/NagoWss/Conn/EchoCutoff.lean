import NagoWss.Conn.Cutoff
import NagoWss.Conn.Echo

/-!
# The echo server when a write fails

Without a reliable stream the server stops at the first write that fails. Up to there it is
the echo; of the answer that failed a first part is on the wire. So a client that reads what
is there reads the answers one by one, each of them whole, and then the end of the file.
-/

namespace NagoWss

open Framing Responding

namespace Connection

/-- A write that fails reports the failure of the stream. -/
theorem write_outcome (c : Connection) {m : Message} (hfits : m.Fits) :
    (c.write m).1 = .ok () ∨ ∃ e, (c.write m).1 = .error (.io e) := by
  obtain ⟨hresult, -, -⟩ := (c.noteClose m).writeFrame_eq m hfits
  change (c.write m).1 = _ at hresult
  rw [hresult]
  cases ((c.noteClose m).stream.writeAll ((c.noteClose m).wireFrame m hfits).bytes).1 with
  | ok => exact .inl rfl
  | error e => exact .inr ⟨e, rfl⟩

/-- Nothing has gone out where there was nothing to send. -/
theorem putsPart_nil (c : Connection) (result : Except Error Unit) : c.PutsPart (result, c) [] :=
  ⟨[], [], .nil, List.nil_prefix, (List.append_nil _).symm, fun _ => rfl⟩

/-- What has gone out is as it was when another error is returned. -/
theorem PutsPart.of_error {c : Connection} {r : Except Error Unit × Connection}
    {ms : List Message} (h : c.PutsPart r ms) (e : Error) : c.PutsPart (.error e, r.2) ms := by
  obtain ⟨ws, cut, hws, hcut, hsent, -⟩ := h
  exact ⟨ws, cut, hws, hcut, hsent, fun hok => by cases hok⟩

end Connection

/-! ## Turn after turn -/

/-- How a service ends that was to end with a verdict, if at all: with it, or with a failure
of the stream. -/
def EndsWith (verdict : Option (Except Error Unit)) (result : Except Error Unit) : Prop :=
  verdict = some result ∨ ∃ e, result = .error (.io e)

/-- What a turn comes to over any stream: the server goes on and has sent its answer, or it
stops and has sent a first part of it. -/
inductive Turned (c : Connection) (result : Except Error (Option Message)) :
    Option (Except Error Unit) × Connection → Prop
  | goes {c' : Connection} (hgo : echo.verdict result = none)
      (hsends : c.Sends c' (echo.answer result)) : Turned c result (none, c')
  | stops {verdict : Except Error Unit} {c' : Connection}
      (hends : EndsWith (echo.verdict result) verdict)
      (hputs : c.PutsPart (verdict, c') (echo.answer result)) : Turned c result (some verdict, c')

/-- A turn that writes one message, and goes on if that succeeds. -/
theorem turned_goesOn {c : Connection} {result : Except Error (Option Message)} {m : Message}
    (hgo : echo.verdict result = none) (hanswer : echo.answer result = [m]) (hfits : m.Fits) :
    Turned c result (goesOn (c.write m)) := by
  have hputs := c.write_putsPart hfits
  have hwritten := c.write_outcome hfits
  rcases hr : c.write m with ⟨e | u, c'⟩
  · rw [hr] at hputs hwritten
    obtain ⟨errno, rfl⟩ : ∃ errno, e = .io errno := by
      rcases hwritten with h | ⟨errno, h⟩
      · cases h
      · cases h
        exact ⟨errno, rfl⟩
    exact .stops (.inr ⟨errno, rfl⟩) (hanswer ▸ hputs)
  · exact .goes hgo (hanswer ▸ Connection.write_sends hfits hr)

/-- Every turn. -/
theorem serveTurn_turned {c : Connection} (hopen : c.closeSent = false)
    {result : Except Error (Option Message)} (hfits : ∀ m ∈ echo.answer result, m.Fits) :
    Turned c result (serveTurn c result) := by
  have hclose (frame : Option CloseFrame) : c.close frame = c.write (.close frame) := by
    rw [Connection.close, hopen]
    rfl
  rcases result with error | _ | m
  · rw [serveTurn]
    cases hcode : error.closeCode with
    | none =>
      have hanswer : echo.answer (.error error) = [] := by simp only [echo, hcode]; rfl
      exact .stops (.inl rfl) (hanswer ▸ c.putsPart_nil (.error error))
    | some code =>
      have hanswer : echo.answer (.error error) = [.close (some ⟨code, []⟩)] := by
        simp only [echo, hcode]
        rfl
      rw [hanswer] at hfits
      have hputs := (c.write_putsPart (hfits _ List.mem_cons_self)).of_error error
      simp only [hclose]
      exact .stops (.inl rfl) (hanswer ▸ hputs)
  · exact .stops (.inl rfl) (c.putsPart_nil (.ok ()))
  · cases m with
    | text payload => exact turned_goesOn rfl rfl (hfits _ List.mem_cons_self)
    | binary payload => exact turned_goesOn rfl rfl (hfits _ List.mem_cons_self)
    | ping payload =>
      exact @turned_goesOn c (.ok (some (.ping payload))) (.pong payload) rfl rfl
        (hfits _ List.mem_cons_self)
    | pong payload =>
      exact .goes rfl ⟨.refl c, (Bool.or_false _).symm, [], .nil, (List.append_nil _).symm⟩
    | close frame =>
      have hputs := c.write_putsPart (hfits _ List.mem_cons_self)
      simp only [serveTurn, hclose]
      refine .stops ?_ hputs
      rcases c.write_outcome (hfits _ List.mem_cons_self) with h | h
      · exact .inl (congrArg some h.symm)
      · exact .inr h

/-- The loop over any stream, for a connection that would come to a verdict over a reliable
one: it is the echo of a number of results of reading, and of the next one a first part of
the answer is sent. -/
theorem serveLoop_breaks_off {c : Connection} {a : Assembler} {s : Bytes}
    (hfacing : c.Facing a s) (hopen : c.closeSent = false) {n : Nat} {verdict : Except Error Unit}
    (hverdict : echo.outcome ((List.range n).map c.results) = some verdict)
    (hfits : ∀ m ∈ echo.answers ((List.range n).map c.results), m.Fits) :
    ∃ k c', echo.outcome ((List.range k).map c.results) = none ∧
      c.Puts c' (echo.answers ((List.range k).map c.results)) ∧
      c'.PutsPart (serveLoop c) (echo.answer (c.results k)) ∧
      EndsWith (echo.verdict (c.results k)) (serveLoop c).1 := by
  induction n generalizing c a s with
  | zero => cases hverdict
  | succ n ih =>
    rw [c.results_succ] at hverdict hfits
    obtain ⟨-, hnext, -⟩ := Connection.read_facing hfacing
    obtain ⟨-, hrole, hclose, hsent, -⟩ := Connection.read_fixed hfacing
    have hread : c.Puts c.read.2 [] := ⟨hrole, [], .nil, by simp [hsent]⟩
    have hanswer : ∀ m ∈ echo.answer c.read.1, m.Fits := fun m hm =>
      hfits m (List.mem_append_left _ hm)
    have hturned := serveTurn_turned (hclose.trans hopen) hanswer
    generalize hturn : serveTurn c.read.2 c.read.1 = turn at hturned
    cases hturned with
    | stops hends hputs =>
      rw [serveLoop_some hturn]
      exact ⟨0, c.read.2, rfl, hread, hputs, hends⟩
    | @goes next hgo hsends =>
      obtain ⟨hanswers, houtcome⟩ := Responder.answers_cons_none hgo
        ((List.range n).map c.read.2.results)
      rw [houtcome] at hverdict
      obtain ⟨hfacing', hresults⟩ := hsends.keeps.results_eq hnext
      have hopen' := hsends.stays_open hgo (hclose.trans hopen)
      rw [← hresults] at hverdict
      obtain ⟨k, c', hnone, hputs, hpart, hends⟩ := ih hfacing' hopen' hverdict fun m hm =>
        hfits m (by
          rw [hanswers, ← hresults]
          exact List.mem_append_right _ hm)
      obtain ⟨hanswers', houtcome'⟩ := Responder.answers_cons_none hgo
        ((List.range k).map c.read.2.results)
      rw [hresults] at hnone hputs hpart hends
      refine ⟨k + 1, c', ?_, ?_, ?_, ?_⟩
      · rw [c.results_succ, houtcome', hnone]
      · rw [c.results_succ, hanswers']
        exact hread.trans (hsends.puts.trans hputs)
      · rw [serveLoop_none hturn]
        exact hpart
      · rw [serveLoop_none hturn]
        exact hends

/-! ## What the client reads -/

/-- A message that may be passed on suits a reader whose limits are no smaller. -/
theorem Message.Passable.suits {limits limits' : Limits} {m : Message} (h : m.Passable limits)
    (hfits : max limits.maxMessage 125 < 2 ^ 63)
    (hframe : max limits.maxMessage 125 ≤ limits'.maxFrame.toNat)
    (hmessage : max limits.maxMessage 125 ≤ limits'.maxMessage) : m.Suits limits' :=
  ⟨h.legal, Nat.lt_of_le_of_lt h.length hfits, h.length.trans hframe, h.length.trans hmessage⟩

/-- Whatever writes fail behind the response, and however much of them goes out, the server
has answered the results of a number of reads and sent a first part of the answer to the
next; it ends with the verdict of the echo on that one, or with the failure. A client with
limits no smaller that reads what is on the wire, in whatever pieces, reads these answers,
each of them whole, and then the end of the file. -/
theorem serve_breaks_off (endian : Endian) (seed : UInt64) (stream : ByteStream) (bytes : Bytes)
    (hin : stream.Brings bytes) (conn : Connection) (request : Request) (left : ByteStream)
    (h : accept endian seed stream serveLimits [] (fun _ => (none, [])) =
      (.ok (.upgraded conn request), left)) (limits : Limits)
    (hframe : serveLimits.maxFrame ≤ limits.maxFrame)
    (hmessage : serveLimits.maxMessage ≤ limits.maxMessage) :
    let results := reference .server serveLimits (conn.readBuffer ++ conn.stream.unread)
    ∃ n wire j,
      let answered := echo.answers ((List.range n).map results)
      let last := echo.answer (results n)
      (serve endian seed stream).2.sent =
        stream.sent ++ buildResponse request.key none [] ++ wire ∧
      echo.outcome ((List.range n).map results) = none ∧
      EndsWith (echo.verdict (results n)) (serve endian seed stream).1 ∧
      ((serve endian seed stream).1 = .ok () → last.take j = last) ∧
      ∀ (endian' : Endian) (seed' : UInt64) (buffered sent : Bytes)
        (writes : List (Option (Errno × Nat))) (chunks : List Bytes),
        (∀ chunk ∈ chunks, chunk ≠ []) → buffered ++ chunks.flatten = wire →
        ∀ i, (Connection.withBuffered endian' seed' ⟨chunks.map .ok, sent, writes⟩ .client limits
          buffered).results i = readAs (answered ++ last.take j) i := by
  intro results
  obtain ⟨hfacing, hresults⟩ := accept_facing hin h
  obtain ⟨hsent, hrole, hopen⟩ := accept_response h
  obtain ⟨n, verdict, hverdict, hfits⟩ :=
    exists_serve_outcome (conn.readBuffer ++ conn.stream.unread)
  rw [← hresults] at hverdict hfits
  obtain ⟨k, c', hnone, hputs, hpart, hends⟩ := serveLoop_breaks_off hfacing hopen hverdict hfits
  have hserve : serve endian seed stream = ((serveLoop conn).1, (serveLoop conn).2.stream) := by
    simp only [serve, h]
  rw [hresults] at hnone hputs hpart hends
  obtain ⟨ws, hws, hout⟩ := hputs.frames
  obtain ⟨ws', cut, hws', hcut, hout', hall⟩ := hpart
  rw [hputs.role, hrole] at hws'
  rw [hrole] at hws
  have hsuits : ∀ m ∈ echo.answers ((List.range k).map results) ++ echo.answer (results k),
      m.Suits limits := by
    intro m hm
    have hpassable : m.Passable serveLimits := by
      rcases List.mem_append.mp hm with hm | hm
      · exact answers_passable _ _ _ k m hm
      · exact answer_passable (fun m => reference_passable) m hm
    exact hpassable.suits (by decide) (UInt64.le_iff_toNat_le.mp hframe) hmessage
  obtain ⟨j, hfull, hreads⟩ := exists_reads_of_isPrefix hws hws' hsuits hcut
  refine ⟨k, ws.flatMap WireFrame.bytes ++ cut, j, ?_, hnone, ?_, fun hok => hfull (hall ?_), ?_⟩
  · rw [hserve, hout', hout, hsent]
    simp only [List.append_assoc]
  · rw [hserve]
    exact hends
  · rw [hserve] at hok
    exact hok
  · intro endian' seed' buffered sent writes chunks hne hwire i
    rw [Connection.results_eq endian' seed' _ limits buffered sent writes chunks hne, hwire]
    exact hreads i

/-- A request is accepted if the response goes out, whatever becomes of the writes behind
it. -/
theorem accept_request_once (offer : Offer) (entropy : Vector UInt8 16)
    (hmax : (offer.request (newKey entropy)).length ≤ DEFAULT_MAX_HEAD) {server : ByteStream}
    {later : List (Option (Errno × Nat))} (hwrites : server.writes = none :: later)
    {behind : Bytes} (hin : server.Brings (offer.request (newKey entropy) ++ behind))
    (endian : Endian) (seed : UInt64) (limits : Limits) (errorHeaders : List HeaderLine)
    (select : Request → Option (List Char) × List HeaderLine) :
    ∃ rest out, accept endian seed server limits errorHeaders select =
        (.ok (.upgraded (.withBuffered endian seed out .server limits rest)
          (offer.seen (newKey entropy))), out) ∧
      rest ++ out.unread = behind := by
  have hkey : ∀ c ∈ newKey entropy, Text.isWhitespace c = false := isWhitespace_base64Encode _
  obtain ⟨rest, read, hread, hrest, hsame⟩ := readHead_isHead (offer.isHead_request hkey) hmax hin
  have hparse := offer.parseRequest_request entropy hmax
  obtain ⟨out, hwrite, hincoming⟩ : ∃ out,
      read.writeAll (offer.response (newKey entropy) select) = (.ok (), out) ∧
        out.incoming = read.incoming := by
    rw [ByteStream.writeAll, ← hsame.writes, hwrites]
    exact ⟨_, rfl, rfl⟩
  rw [Offer.response] at hwrite
  refine ⟨rest, out, ?_, ?_⟩
  · simp only [accept, hread, hparse]
    rw [show (offer.seen (newKey entropy)).key = Utf8.encode (newKey entropy) from rfl, hwrite]
  · rw [ByteStream.unread, hincoming, ← ByteStream.unread, hrest]

/-- The response goes out, and of the answer to the ping one byte. -/
theorem serve_breaks_off_ping :
    let stream : ByteStream := { chatClient with writes := [none, some (⟨32⟩, 1)] }
    ∃ n wire, (serve .little 1 stream).2.sent =
        [] ++ buildResponse (Utf8.encode (newKey (.replicate 16 9))) none [] ++ wire ∧
      EndsWith (echo.verdict (reference .server serveLimits [0x89, 0x81, 0, 0, 0, 0, 0x68] n))
        (serve .little 1 stream).1 := by
  intro stream
  have hin : stream.Brings _ := chatClient_brings
  obtain ⟨rest, out, haccept, hrest⟩ := accept_request_once chatOffer (.replicate 16 9)
    (by decide +kernel) rfl hin .little 1 serveLimits [] fun _ => (none, [])
  obtain ⟨n, wire, j, hsent, -, hends, -⟩ := serve_breaks_off .little 1 stream _ hin _ _ _ haccept
    serveLimits (by decide) (by decide)
  rw [← hrest]
  exact ⟨n, wire, hsent, hends⟩

end NagoWss
