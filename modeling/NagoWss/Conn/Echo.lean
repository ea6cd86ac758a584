import NagoWss.Conn.Finality
import NagoWss.Conn.HeadBounds
import NagoWss.Conn.Opening
import NagoWss.Core.Responder

/-!
# An echo server

The server that the conformance suite drives: data comes back as it was, a ping comes
back as a pong, and a failure of the peer is answered with the code for it. What its loop
puts on the wire is what a responder answers to the results of reading, so whatever the
peer does, every frame is one that peers accept and nothing follows the close frame.
-/

namespace NagoWss

open Framing Responding

/-! ## Reading uses up the stream -/

namespace Connection

/-- The bytes that are buffered or still to be read. -/
def pending (c : Connection) : Nat := c.readBuffer.length + c.stream.unread.length

/-- A message is taken off the buffer. -/
theorem parseBuffered_lt {c : Connection} {m : Message} (h : c.parseBuffered.1 = .ok (some m)) :
    c.parseBuffered.2.readBuffer.length < c.readBuffer.length := by
  fun_induction parseBuffered c with
  | case1 | case2 | case3 | case4 => cases h
  | case5 c header headerLen hdecode total hshort hmask payload c' message a haccept =>
    obtain ⟨hvalid, -, rfl, -⟩ := Header.decode_iff.mp hdecode
    have htotal : total = _ := frameTotal_eq hvalid
    have hmin := header.encodedLen_bounds.1
    change (c.readBuffer.drop total).length < c.readBuffer.length
    rw [List.length_drop]
    omega
  | case6 c header headerLen hdecode total hshort hmask payload c' a haccept ih =>
    exact Nat.lt_of_lt_of_le (ih h) (List.drop_suffix _ _).length_le
  | case7 => cases h

/-- Parsing leaves the stream alone. -/
theorem parseBuffered_stream (c : Connection) : c.parseBuffered.2.stream = c.stream := by
  rw [c.parseBuffered_fixed]

/-- What a read buffers was to be read. -/
theorem readBuf_pending {s s' : ByteStream} {buffer buffer' : Bytes} {n : Nat}
    (h : s.readBuf buffer = (.ok n, buffer', s')) :
    buffer'.length + s'.unread.length = buffer.length + s.unread.length := by
  rw [ByteStream.unread, ByteStream.unread]
  rcases hin : s.incoming with _ | ⟨e | chunk, rest⟩
  · rw [ByteStream.readBuf, hin] at h
    cases h
    rw [hin]
  · rw [ByteStream.readBuf, hin] at h
    cases h
  · rw [ByteStream.readBuf, hin] at h
    cases h
    change _ = buffer.length + (chunk ++ (rest.filterMap Except.toOption).flatten).length
    rw [List.length_append, List.length_append, Nat.add_assoc]

/-- A read that delivers a message uses up some of what is pending. -/
theorem read_lt {c c' : Connection} {m : Message} (h : c.read = (.ok (some m), c')) :
    c'.pending < c.pending := by
  fun_induction read c with
  | case1 c e parsed hparse => cases h
  | case2 c message parsed hparse =>
    cases h
    have hlt := parseBuffered_lt (congrArg Prod.fst hparse)
    have hstream := c.parseBuffered_stream
    rw [hparse] at hlt hstream
    rw [pending, pending, hstream]
    exact Nat.add_lt_add_right hlt _
  | case3 => cases h
  | case4 => cases h
  | case5 => cases h
  | case6 c parsed hparse n buffer stream hread next hn ih =>
    have hshrinks := c.parseBuffered_shrinks.2
    have hstream := c.parseBuffered_stream
    rw [hparse] at hshrinks hstream
    have hpending := readBuf_pending hread
    refine Nat.lt_of_lt_of_le (ih h) ?_
    rw [pending, pending, ← hstream]
    exact Nat.le_trans (Nat.le_of_eq hpending) (Nat.add_le_add_right hshrinks _)

/-- A call leaves alone what is pending. -/
theorem KeepsReceiving.pending_eq {c c' : Connection} (h : c.KeepsReceiving c') :
    c'.pending = c.pending := by
  rw [pending, pending, ByteStream.unread, ByteStream.unread, h.readBuffer, h.incoming]

end Connection

/-! ## The loop -/

/-- Go on where a call succeeded, and end with its error where it failed. -/
def goesOn : Except Error Unit × Connection → Option (Except Error Unit) × Connection
  | (.ok (), c) => (none, c)
  | (.error e, c) => (some (.error e), c)

/-- What the server does with the result of a read, and the verdict if it ends there. -/
def serveTurn (c : Connection) :
    Except Error (Option Message) → Option (Except Error Unit) × Connection
  | .ok (some message) =>
    match message with
    | .text _ | .binary _ => goesOn (c.write message)
    | .ping payload => goesOn (c.pong payload)
    | .pong _ => (none, c)
    | .close frame => (some (c.close frame).1, (c.close frame).2)
  | .ok none => (some (.ok ()), c)
  | .error error =>
    match error.closeCode with
    -- Whether the code goes out or not, the error stands.
    | some code => (some (.error error), (c.close (some ⟨code, []⟩)).2)
    | none => (some (.error error), c)

theorem goesOn_keeps {c : Connection} {r : Except Error Unit × Connection}
    (h : c.KeepsReceiving r.2) : c.KeepsReceiving (goesOn r).2 := by
  rcases r with ⟨e | u, c'⟩
  · exact h
  · exact h

/-- Only a message lets the server go on, and what it does leaves receiving alone. -/
theorem serveTurn_keeps (c : Connection) (result : Except Error (Option Message)) :
    c.KeepsReceiving (serveTurn c result).2 ∧
      ((serveTurn c result).1 = none → ∃ m, result = .ok (some m)) := by
  rcases result with error | _ | m
  · rw [serveTurn]
    cases error.closeCode with
    | some code => exact ⟨c.call_keepsReceiving (.close (some ⟨code, []⟩)), fun h => by cases h⟩
    | none => exact ⟨.refl c, fun h => by cases h⟩
  · exact ⟨.refl c, fun h => by cases h⟩
  · refine ⟨?_, fun _ => ⟨m, rfl⟩⟩
    cases m with
    | text payload => exact goesOn_keeps (c.call_keepsReceiving (.write (.text payload)))
    | binary payload => exact goesOn_keeps (c.call_keepsReceiving (.write (.binary payload)))
    | ping payload => exact goesOn_keeps (c.call_keepsReceiving (.pong payload))
    | pong payload => exact .refl c
    | close frame => exact c.call_keepsReceiving (.close frame)

/-- Echo until the peer closes or breaks the protocol. -/
def serveLoop (c : Connection) : Except Error Unit × Connection :=
  match _hturn : serveTurn c.read.2 c.read.1 with
  | (some verdict, next) => (verdict, next)
  | (none, next) => serveLoop next
termination_by c.pending
decreasing_by
  obtain ⟨hkeeps, hmessage⟩ := serveTurn_keeps c.read.2 c.read.1
  rw [_hturn] at hkeeps hmessage
  obtain ⟨m, hm⟩ := hmessage rfl
  rw [hkeeps.pending_eq]
  exact Connection.read_lt (Prod.ext hm rfl)

/-- The limits of the server: the suite sends messages far larger than the default. -/
def serveLimits : Limits := ⟨32 * 1024 * 1024, 32 * 1024 * 1024⟩

/-- Serve one client. The second result is the stream as it was left. -/
def serve (endian : Endian) (seed : UInt64) (stream : ByteStream) :
    Except Error Unit × ByteStream :=
  match accept endian seed stream serveLimits [] fun _ => (none, []) with
  | (.error e, stream) => (.error e, stream)
  -- A plain request is handed back, and this server has nothing to say to it.
  | (.ok (.plain stream _ _), _) => (.ok (), stream)
  | (.ok (.upgraded conn _), _) =>
    let (result, conn) := serveLoop conn
    (result, conn.stream)

/-! ## The responder -/

/-- What an echo server answers to the result of a read, and when it stops. -/
def echo : Responder (Except Error (Option Message)) Message (Except Error Unit) where
  answer
    | .ok none => []
    | .ok (some (.ping payload)) => [.pong payload]
    | .ok (some (.pong _)) => []
    | .ok (some m) => [m]
    | .error e => (e.closeCode.map fun code => .close (some ⟨code, []⟩)).toList
  verdict
    | .ok none | .ok (some (.close _)) => some (.ok ())
    | .ok (some _) => none
    | .error e => some (.error e)

/-- A message ends the service if it is a close message. -/
theorem verdict_message (m : Message) :
    echo.verdict (.ok (some m)) = if m.isClose then some (.ok ()) else none := by
  cases m <;> rfl

/-- A result that is no message ends the service. -/
theorem exists_verdict {result : Except Error (Option Message)}
    (h : ∀ m, result ≠ .ok (some m)) : ∃ verdict, echo.verdict result = some verdict := by
  rcases result with e | _ | m
  · exact ⟨_, rfl⟩
  · exact ⟨_, rfl⟩
  · exact absurd rfl (h m)

namespace Connection

/-- Frames for these messages have gone out. -/
structure Puts (c c' : Connection) (ms : List Message) : Prop where
  /-- The role is as it was. -/
  role : c'.role = c.role
  /-- The frames on the wire. -/
  frames : ∃ ws : List WireFrame, List.Forall₂ (Carries c.role) ms ws ∧
    c'.stream.sent = c.stream.sent ++ ws.flatMap WireFrame.bytes

theorem Sends.puts {c c' : Connection} {ms : List Message} (h : c.Sends c' ms) : c.Puts c' ms :=
  ⟨h.keeps.role, h.frames⟩

theorem Puts.trans {c₁ c₂ c₃ : Connection} {ms ms' : List Message} (h : c₁.Puts c₂ ms)
    (h' : c₂.Puts c₃ ms') : c₁.Puts c₃ (ms ++ ms') := by
  obtain ⟨ws, hws, hsent⟩ := h.frames
  obtain ⟨ws', hws', hsent'⟩ := h'.frames
  rw [h.role] at hws'
  refine ⟨h'.role.trans h.role, ws ++ ws', List.rel_append hws hws', ?_⟩
  rw [hsent', hsent, List.flatMap_append, List.append_assoc]

end Connection

/-- Over a reliable stream a call goes through. -/
theorem call_goes {c : Connection} (hreliable : c.stream.Reliable) {call : Call}
    (h : ∀ m ∈ call.messages c.closeSent, m.Fits) :
    (c.call call).1 = .ok () ∧ c.Sends (c.call call).2 (call.messages c.closeSent) ∧
      (c.call call).2.stream.Reliable := by
  obtain ⟨hok, hafter⟩ := Connection.call_ok hreliable h
  exact ⟨hok, Connection.call_sends h (Prod.ext hok rfl), hafter⟩

/-- Over a reliable stream the server goes on behind a call. -/
theorem goesOn_call {c : Connection} (hreliable : c.stream.Reliable) {call : Call}
    (h : ∀ m ∈ call.messages c.closeSent, m.Fits) :
    (goesOn (c.call call)).1 = none ∧
      c.Sends (goesOn (c.call call)).2 (call.messages c.closeSent) ∧
        (goesOn (c.call call)).2.stream.Reliable := by
  have hgoes := call_goes hreliable h
  rcases hr : c.call call with ⟨result, c'⟩
  rw [hr] at hgoes
  obtain rfl : result = .ok () := hgoes.1
  exact ⟨rfl, hgoes.2⟩

/-- A turn over a reliable stream gives the verdict of the responder and sends its answer. -/
theorem serveTurn_echo {c : Connection} (hreliable : c.stream.Reliable)
    (hopen : c.closeSent = false) {result : Except Error (Option Message)}
    (hfits : ∀ m ∈ echo.answer result, m.Fits) :
    (serveTurn c result).1 = echo.verdict result ∧
      c.Sends (serveTurn c result).2 (echo.answer result) ∧
        (serveTurn c result).2.stream.Reliable := by
  have hsilent : c.Sends c [] := ⟨.refl c, (Bool.or_false _).symm, [], .nil, by simp⟩
  have hclose {frame : Option CloseFrame} (h : (Message.close frame).Fits) :
      (c.close frame).1 = .ok () ∧ c.Sends (c.close frame).2 [.close frame] ∧
        (c.close frame).2.stream.Reliable := by
    have hmessages : Call.messages c.closeSent (.close frame) = [.close frame] := by
      rw [hopen]
      rfl
    rw [← hmessages]
    exact @call_goes c hreliable (.close frame)
      (by rw [hmessages]; exact List.forall_mem_singleton.mpr h)
  rcases result with error | _ | m
  · rw [serveTurn]
    simp only [echo] at hfits ⊢
    cases hcode : error.closeCode with
    | none => exact ⟨rfl, hsilent, hreliable⟩
    | some code =>
      rw [hcode] at hfits
      exact ⟨rfl, (hclose (hfits _ List.mem_cons_self)).2⟩
  · exact ⟨rfl, hsilent, hreliable⟩
  · cases m with
    | text payload => exact @goesOn_call c hreliable (.write (.text payload)) hfits
    | binary payload => exact @goesOn_call c hreliable (.write (.binary payload)) hfits
    | ping payload => exact @goesOn_call c hreliable (.pong payload) hfits
    | pong payload => exact ⟨rfl, hsilent, hreliable⟩
    | close frame =>
      have hsent := hclose (hfits _ List.mem_cons_self)
      exact ⟨congrArg some hsent.1, hsent.2⟩

/-! ## The whole service -/

/-- A turn that ends the service. -/
theorem serveLoop_some {c next : Connection} {verdict : Except Error Unit}
    (h : serveTurn c.read.2 c.read.1 = (some verdict, next)) : serveLoop c = (verdict, next) := by
  rw [serveLoop]
  split
  · next h' =>
    rw [h] at h'
    cases h'
    rfl
  · next h' =>
    rw [h] at h'
    cases h'

/-- A turn behind which the server goes on. -/
theorem serveLoop_none {c next : Connection} (h : serveTurn c.read.2 c.read.1 = (none, next)) :
    serveLoop c = serveLoop next := by
  rw [serveLoop]
  split
  · next h' =>
    rw [h] at h'
    cases h'
  · next h' =>
    rw [h] at h'
    cases h'
    rfl

/-- Connections that receive alike read alike. -/
theorem Connection.KeepsReceiving.results_eq {c c' : Connection} (h : c.KeepsReceiving c')
    {a : Assembler} {s : Bytes} (hfacing : c.Facing a s) :
    c'.Facing a s ∧ c'.results = c.results := by
  obtain ⟨ha, chunks, hne, hin, hs⟩ := hfacing
  have hfacing' : c'.Facing a s :=
    ⟨h.assembler.trans ha, chunks, hne, h.incoming.trans hin, by rw [h.readBuffer, hs]⟩
  refine ⟨hfacing', funext fun n => ?_⟩
  have hcutter : c'.cutter = c.cutter := by
    rw [Connection.cutter, Connection.cutter, h.role, h.assembler]
  rw [Connection.results, Connection.results, Connection.result_eq hfacing',
    Connection.result_eq ⟨ha, chunks, hne, hin, hs⟩, hcutter]

/-- The results of reading are the first one and those that follow. -/
theorem Connection.results_succ (c : Connection) (n : Nat) : (List.range (n + 1)).map c.results =
    c.read.1 :: (List.range n).map c.read.2.results := by
  rw [List.range_succ_eq_map, List.map_cons, List.map_map]
  rfl

/-- As long as the server goes on it has sent no close message. -/
theorem isClose_of_mem_answer {result : Except Error (Option Message)}
    (h : echo.verdict result = none) : ∀ m ∈ echo.answer result, m.isClose = false := by
  intro m hm
  rcases result with e | _ | msg
  · cases h
  · cases h
  · cases msg with
    | text payload | binary payload | ping payload =>
      rw [List.mem_singleton.mp hm]
      rfl
    | pong payload => cases hm
    | close frame => cases h

/-- A server that goes on behind its answer has sent no close message yet. -/
theorem Connection.Sends.stays_open {c c' : Connection}
    {result : Except Error (Option Message)} (h : c.Sends c' (echo.answer result))
    (hgo : echo.verdict result = none) (hopen : c.closeSent = false) : c'.closeSent = false := by
  rw [h.closeSent, hopen, Bool.false_or, List.any_eq_false]
  intro m hm
  rw [isClose_of_mem_answer hgo m hm]
  exact Bool.false_ne_true

/-- Over a reliable stream the loop is the responder on the results of reading: it comes
to the same verdict, and it sends the same messages. -/
theorem serveLoop_echo {c : Connection} {a : Assembler} {s : Bytes} (hfacing : c.Facing a s)
    (hreliable : c.stream.Reliable) (hopen : c.closeSent = false) {n : Nat}
    {verdict : Except Error Unit}
    (hverdict : echo.outcome ((List.range n).map c.results) = some verdict)
    (hfits : ∀ m ∈ echo.answers ((List.range n).map c.results), m.Fits) :
    (serveLoop c).1 = verdict ∧
      c.Puts (serveLoop c).2 (echo.answers ((List.range n).map c.results)) := by
  induction n generalizing c a s with
  | zero => cases hverdict
  | succ n ih =>
    rw [c.results_succ] at hverdict hfits ⊢
    obtain ⟨-, hnext, -⟩ := Connection.read_facing hfacing
    obtain ⟨-, hrole, hclose, hsent, hwrites⟩ := Connection.read_fixed hfacing
    have hread : c.Puts c.read.2 [] := ⟨hrole, [], .nil, by simp [hsent]⟩
    have hanswer : ∀ m ∈ echo.answer c.read.1, m.Fits := fun m hm =>
      hfits m (List.mem_append_left _ hm)
    have hreliable' : c.read.2.stream.Reliable := by
      rw [ByteStream.Reliable, hwrites]
      exact hreliable
    obtain ⟨hturn, hsends, hafter⟩ := serveTurn_echo hreliable' (hclose.trans hopen) hanswer
    cases hv : echo.verdict c.read.1 with
    | some v =>
      obtain ⟨hanswers, houtcome⟩ := Responder.answers_cons_some hv
        ((List.range n).map c.read.2.results)
      rw [houtcome, Option.some.injEq] at hverdict
      rw [hv] at hturn
      rw [serveLoop_some (Prod.ext hturn rfl), hanswers]
      exact ⟨hverdict, hread.trans hsends.puts⟩
    | none =>
      obtain ⟨hanswers, houtcome⟩ := Responder.answers_cons_none hv
        ((List.range n).map c.read.2.results)
      rw [houtcome] at hverdict
      rw [hv] at hturn
      obtain ⟨hfacing', hresults⟩ := hsends.keeps.results_eq hnext
      have hopen' := hsends.stays_open hv (hclose.trans hopen)
      rw [serveLoop_none (Prod.ext hturn rfl), hanswers, ← hresults]
      rw [← hresults] at hverdict
      obtain ⟨hloop, hputs⟩ := ih hfacing' hafter hopen' hverdict fun m hm => hfits m (by
        rw [hanswers, ← hresults]
        exact List.mem_append_right _ hm)
      exact ⟨hloop, hread.trans (hsends.puts.trans hputs)⟩

/-! ## Safety -/

/-- An error has a code to be reported with if and only if the peer caused it, and the
code may be sent. -/
theorem Error.closeCode_isSome_iff (e : Error) : e.closeCode.isSome = true ↔ e.FromPeer := by
  rcases e with _ | f | p | _ | _ | _ | _
  · simp [closeCode, FromPeer]
  · cases f <;> simp [closeCode, FromPeer]
  · cases p <;> simp [closeCode, FromPeer]
  all_goals simp [closeCode, FromPeer]

theorem Error.isSendable_closeCode {e : Error} {code : CloseCode} (h : e.closeCode = some code) :
    code.isSendable = true := by
  rcases e with _ | f | p | _ | _ | _ | _
  · cases h
  · cases f <;> cases h <;> decide
  · cases p <;> cases h <;> decide
  · cases h
    decide
  all_goals cases h

/-- What is answered to a message that was read may be sent. -/
theorem answer_passable {limits : Limits} {result : Except Error (Option Message)}
    (h : ∀ m, result = .ok (some m) → m.Passable limits) :
    ∀ m ∈ echo.answer result, m.Passable limits := by
  intro m hm
  rcases result with e | _ | msg
  · obtain ⟨code, hcode, rfl⟩ := Option.map_eq_some_iff.mp (Option.mem_toList.mp hm)
    have hsend := Error.isSendable_closeCode hcode
    have hbody : parseCloseBody (CloseFrame.body (some ⟨code, []⟩)) = .ok (some ⟨code, []⟩) :=
      parseCloseBody_iff.mpr ⟨rfl, hsend, [], rfl⟩
    refine passable_of_close hbody ?_
    rw [CloseFrame.body, List.length_append, BigEndian.length_encode]
    change 2 + 0 ≤ 125
    decide
  · cases hm
  · have hmsg := h msg rfl
    cases msg with
    | text payload | binary payload | close frame =>
      rw [List.mem_singleton.mp hm]
      exact hmsg
    | ping payload =>
      rw [List.mem_singleton.mp hm]
      exact ⟨hmsg.legal, rfl, hmsg.length⟩
    | pong payload => cases hm

section Reference

variable {role : Role} {limits : Limits} {s : Bytes}

/-- An error of reading was caused by the peer, or it is the end of the file. -/
theorem fromPeer_of_reference {n : Nat} {e : Error} (h : reference role limits s n = .error e) :
    e.FromPeer ∨ e = .unexpectedEof := by
  cases hout : (Cutter.outputs feed (.new limits) (framesOf role limits s)).1[n]? with
  | some result =>
    rw [reference_output hout] at h
    cases result with
    | ok m => cases h
    | error e' =>
      cases h
      obtain ⟨rule, rfl⟩ := outputs_error (List.mem_of_getElem? hout)
      exact .inl trivial
  | none =>
    rw [framesOf] at hout
    simp only [reference, hout, ending] at h
    split at h
    · next hfault =>
      cases h
      exact .inl (fault_fromPeer hfault)
    · split at h
      · cases h
      · cases h
        exact .inr rfl

/-- Before a clean end of the file there is the close message or an error. -/
theorem exists_stop_of_clean {n : Nat} (h : reference role limits s n = .ok none) :
    ∃ m < n, (echo.verdict (reference role limits s m)).isSome = true := by
  obtain ⟨-, hlen, hclean⟩ := at_end (.inl h)
  rw [h] at hclean
  cases hfirst : firstClose (framesOf role limits s) with
  | none =>
    rw [hfirst] at hclean
    cases hclean
  | some body =>
    rw [hfirst] at hlen
    refine ⟨(dataOutputs role limits s).length, hlen, ?_⟩
    rcases @reference_cases role limits s (dataOutputs role limits s).length with
      ⟨r, hr, hm⟩ | ⟨hover, -⟩
    · rw [hfirst, List.getElem?_append_right (Nat.le_refl _), Nat.sub_self] at hr
      cases hr
      rw [hm, closeOutcome]
      cases parseCloseBody body with
      | error e => rfl
      | ok content => rfl
    · rw [hfirst, List.length_append] at hover
      exact absurd hover (Nat.not_le.mpr (Nat.lt_succ_self _))

/-- How the echo of what a peer sends stops: with the close message of the peer given back,
with the code for what the peer did wrong, or with nothing where the peer has hung up. -/
inductive EchoStop (role : Role) (limits : Limits) (s : Bytes) :
    Except Error Unit → List Message → Prop
  | closed {n : Nat} {frame : Option CloseFrame}
      (hread : reference role limits s n = .ok (some (.close frame))) :
      EchoStop role limits s (.ok ()) [.close frame]
  | refused {e : Error} {code : CloseCode} (hpeer : e.FromPeer) (hcode : e.closeCode = some code) :
      EchoStop role limits s (.error e) [.close (some ⟨code, []⟩)]
  | hungUp : EchoStop role limits s (.error .unexpectedEof) []

/-- At most one message goes out where the echo stops. -/
theorem EchoStop.pairwise {verdict : Except Error Unit} {last : List Message}
    (h : EchoStop role limits s verdict last) : last.Pairwise fun m _ => m.isClose = false := by
  cases h with
  | closed | refused => exact List.pairwise_singleton _ _
  | hungUp => exact .nil

/-- The thing that an echo stops with. -/
theorem echoStop_of_verdict {n : Nat} {verdict : Except Error Unit}
    (h : echo.verdict (reference role limits s n) = some verdict)
    (hbefore : ∀ m < n, echo.verdict (reference role limits s m) = none) :
    EchoStop role limits s verdict (echo.answer (reference role limits s n)) := by
  rcases hr : reference role limits s n with e | _ | msg
  · rw [hr] at h
    cases h
    rcases fromPeer_of_reference hr with hpeer | rfl
    · obtain ⟨code, hcode⟩ := Option.isSome_iff_exists.mp (e.closeCode_isSome_iff.mpr hpeer)
      simp only [echo, hcode]
      exact .refused hpeer hcode
    · exact .hungUp
  · obtain ⟨m, hm, hstops⟩ := exists_stop_of_clean hr
    rw [hbefore m hm] at hstops
    cases hstops
  · cases msg with
    | close frame =>
      rw [hr] at h
      cases h
      exact .closed hr
    | text | binary | ping | pong =>
      rw [hr] at h
      cases h

/-- Everything that is answered may be sent. -/
theorem answers_passable (role : Role) (limits : Limits) (s : Bytes) (n : Nat) :
    ∀ m ∈ echo.answers ((List.range n).map (reference role limits s)), m.Passable limits := by
  intro m hm
  obtain ⟨result, hmem, hanswer⟩ := Responder.exists_of_mem_answers hm
  obtain ⟨i, -, rfl⟩ := List.mem_map.mp hmem
  exact answer_passable (fun m => reference_passable) m hanswer

/-- An echo stops: no later than where reading settles. -/
theorem exists_echo_outcome (role : Role) (limits : Limits) (s : Bytes) : ∃ n verdict,
    echo.outcome ((List.range n).map (reference role limits s)) = some verdict := by
  obtain ⟨last, hlast, hsettles⟩ := @reference_settles role limits s
  obtain ⟨verdict, hstops⟩ := exists_verdict hlast
  let n := s.length / minFrame role
  have hmem : reference role limits s n ∈ (List.range (n + 1)).map (reference role limits s) :=
    List.mem_map.mpr ⟨n, List.mem_range.mpr (Nat.lt_succ_self n), rfl⟩
  rw [hsettles n (Nat.le_refl n)] at hmem
  exact ⟨n + 1, Responder.exists_outcome hmem hstops⟩

/-- The answers of an echo that has stopped: messages that may be sent, with no close message
but the last. -/
theorem echo_stops {n : Nat} {verdict : Except Error Unit}
    (h : echo.outcome ((List.range n).map (reference role limits s)) = some verdict) :
    ∃ before last, echo.answers ((List.range n).map (reference role limits s)) = before ++ last ∧
      (∀ m ∈ before ++ last, m.Passable limits) ∧ (∀ m ∈ before, m.isClose = false) ∧
      EchoStop role limits s verdict last := by
  obtain ⟨before, x, after, hsplit, hgo, hx, hanswers⟩ := Responder.exists_last_of_outcome h
  -- The one that stops it is the result of the read with that number.
  have hlen : before.length < n := by
    have hlength := congrArg List.length hsplit
    rw [List.length_map, List.length_range, List.length_append, List.length_cons] at hlength
    omega
  have hget (i : Nat) (hi : i < n) :
      (before ++ x :: after)[i]? = some (reference role limits s i) := by
    rw [← hsplit, List.getElem?_map, List.getElem?_range hi, Option.map_some]
  have hlast := hget before.length hlen
  rw [List.getElem?_append_right (Nat.le_refl _), Nat.sub_self] at hlast
  obtain rfl : x = _ := Option.some.inj hlast
  have hbefore (i : Nat) (hi : i < before.length) :
      echo.verdict (reference role limits s i) = none := by
    have hmem := hget i (hi.trans hlen)
    rw [List.getElem?_append_left hi] at hmem
    exact hgo _ (List.mem_of_getElem? hmem)
  refine ⟨before.flatMap echo.answer, _, hanswers, ?_, ?_, echoStop_of_verdict hx hbefore⟩
  · rw [← hanswers]
    exact answers_passable role limits s n
  · intro m hm
    obtain ⟨y, hy, hanswer⟩ := List.mem_flatMap.mp hm
    exact isClose_of_mem_answer (hgo y hy) m hanswer

end Reference

/-! ## From the handshake to the end -/

/-- A connection over a stream that was read in part faces what has not been read. -/
theorem ByteStream.Brings.facing {stream : ByteStream} {bytes : Bytes} (h : stream.Brings bytes)
    (endian : Endian) (seed : UInt64) (role : Role) (limits : Limits) (buffered : Bytes) :
    let c := Connection.withBuffered endian seed stream role limits buffered
    c.Facing (.new limits) (buffered ++ bytes) ∧
      c.results = reference role limits (buffered ++ bytes) := by
  obtain ⟨chunks, hne, hin, rfl⟩ := h
  obtain ⟨incoming, sent, writes⟩ := stream
  obtain rfl : incoming = chunks.map .ok := hin
  exact ⟨Connection.withBuffered_facing endian seed role limits buffered sent writes hne,
    Connection.results_eq endian seed role limits buffered sent writes chunks hne⟩

/-- What a connection that was accepted is to read has not been touched. -/
theorem accept_facing {endian : Endian} {seed : UInt64} {stream : ByteStream} {limits : Limits}
    {errorHeaders : List HeaderLine} {select : Request → Option (List Char) × List HeaderLine}
    {bytes : Bytes} (hin : stream.Brings bytes) {conn : Connection} {request : Request}
    {left : ByteStream} (h : accept endian seed stream limits errorHeaders select =
      (.ok (.upgraded conn request), left)) :
    conn.Facing (.new limits) (conn.readBuffer ++ conn.stream.unread) ∧
      conn.results = reference .server limits (conn.readBuffer ++ conn.stream.unread) := by
  obtain ⟨head, rest, read, hread, -, hwrite, rfl⟩ := accept_upgraded _ _ _ _ _ _ h
  have hbrings := readHead_brings hin hread
  have hsame : left.unread = read.unread := by
    rw [ByteStream.unread, (ByteStream.writeAll_ok hwrite).2, ← ByteStream.unread]
  rw [ByteStream.Brings, ← (ByteStream.writeAll_ok hwrite).2, ← hsame] at hbrings
  exact ByteStream.Brings.facing hbrings endian seed .server limits rest

/-- A connection that was accepted has written the response and nothing else. -/
theorem accept_response {endian : Endian} {seed : UInt64} {stream : ByteStream} {limits : Limits}
    {errorHeaders : List HeaderLine} {select : Request → Option (List Char) × List HeaderLine}
    {conn : Connection} {request : Request} {left : ByteStream}
    (h : accept endian seed stream limits errorHeaders select =
      (.ok (.upgraded conn request), left)) :
    conn.stream.sent = stream.sent ++ buildResponse request.key (select request).1
        (select request).2 ∧
      conn.role = .server ∧ conn.closeSent = false := by
  obtain ⟨head, rest, read, hread, -, hwrite, rfl⟩ := accept_upgraded _ _ _ _ _ _ h
  have hkept := readHeadLoop_sameSending stream DEFAULT_MAX_HEAD []
  rw [← readHead, hread] at hkept
  refine ⟨?_, rfl, rfl⟩
  rw [hkept.sent]
  exact (ByteStream.writeAll_ok hwrite).1

/-- Over a reliable stream nothing keeps it from writing more. -/
theorem accept_reliable {endian : Endian} {seed : UInt64} {stream : ByteStream} {limits : Limits}
    {errorHeaders : List HeaderLine} {select : Request → Option (List Char) × List HeaderLine}
    (hreliable : stream.Reliable) {conn : Connection} {request : Request} {left : ByteStream}
    (h : accept endian seed stream limits errorHeaders select =
      (.ok (.upgraded conn request), left)) : conn.stream.Reliable := by
  obtain ⟨head, rest, read, hread, -, hwrite, rfl⟩ := accept_upgraded _ _ _ _ _ _ h
  have hkept := readHeadLoop_sameSending stream DEFAULT_MAX_HEAD []
  rw [← readHead, hread] at hkept
  have hread' : read.Reliable := by
    rw [ByteStream.Reliable, ← hkept.writes]
    exact hreliable
  have hafter := (hread'.writeAll (buildResponse request.key (select request).1
    (select request).2)).2
  rw [hwrite] at hafter
  exact hafter

/-- The echo of the server stops, and what it answers fits in memory. -/
theorem exists_serve_outcome (s : Bytes) : ∃ n verdict,
    echo.outcome ((List.range n).map (reference .server serveLimits s)) = some verdict ∧
      ∀ m ∈ echo.answers ((List.range n).map (reference .server serveLimits s)), m.Fits := by
  obtain ⟨n, verdict, hverdict⟩ := exists_echo_outcome .server serveLimits s
  refine ⟨n, verdict, hverdict, fun m hm => ?_⟩
  have hlength := (answers_passable _ _ _ _ m hm).length
  exact Nat.lt_of_le_of_lt hlength (by decide)

/-- Serving a request over a reliable stream: the response has gone out, and the echo stops
within some number of results of reading, with its answers behind the response. -/
theorem serve_run (endian : Endian) (seed : UInt64) {stream : ByteStream}
    (hreliable : stream.Reliable) {bytes : Bytes} (hin : stream.Brings bytes) {conn : Connection}
    {request : Request} {left : ByteStream}
    (h : accept endian seed stream serveLimits [] (fun _ => (none, [])) =
      (.ok (.upgraded conn request), left)) :
    ∃ n c', serve endian seed stream = ((serveLoop conn).1, c'.stream) ∧
      conn.stream.sent = stream.sent ++ buildResponse request.key none [] ∧
      (∀ i, conn.results i =
        reference .server serveLimits (conn.readBuffer ++ conn.stream.unread) i) ∧
      echo.outcome ((List.range n).map conn.results) = some (serveLoop conn).1 ∧
      conn.role = .server ∧ conn.Puts c' (echo.answers ((List.range n).map conn.results)) := by
  obtain ⟨hfacing, hresults⟩ := accept_facing hin h
  obtain ⟨hsent, hrole, hopen⟩ := accept_response h
  obtain ⟨n, verdict, hverdict, hfits⟩ :=
    exists_serve_outcome (conn.readBuffer ++ conn.stream.unread)
  rw [← hresults] at hverdict hfits
  obtain ⟨hloop, hputs⟩ := serveLoop_echo hfacing (accept_reliable hreliable h) hopen hverdict hfits
  refine ⟨n, (serveLoop conn).2, ?_, hsent, congrFun hresults, ?_, hrole, hputs⟩
  · simp only [serve, h]
  · rw [hverdict, hloop]

/-- A client that asks for a subprotocol, and pings behind its request. -/
def chatClient : ByteStream :=
  .ofChunks [chatOffer.request (newKey (.replicate 16 9)) ++ [0x89, 0x81, 0, 0, 0, 0, 0x68]]

theorem chatClient_brings : chatClient.Brings
    (chatOffer.request (newKey (.replicate 16 9)) ++ [0x89, 0x81, 0, 0, 0, 0, 0x68]) :=
  ⟨[_], by simp, rfl, by simp⟩

/-- It is accepted, with no subprotocol. -/
theorem accept_chatClient : ∃ rest out, accept .little 1 chatClient serveLimits []
      (fun _ => (none, [])) = (.ok (.upgraded (.withBuffered .little 1 out .server serveLimits rest)
        (chatOffer.seen (newKey (.replicate 16 9)))), out) ∧
    rest ++ out.unread = [0x89, 0x81, 0, 0, 0, 0, 0x68] := by
  obtain ⟨rest, out, haccept, -, hrest⟩ := accept_request chatOffer (.replicate 16 9)
    (by decide +kernel) (fun _ h => by cases h) chatClient_brings .little 1 serveLimits []
    fun _ => (none, [])
  exact ⟨rest, out, haccept, hrest⟩

/-- Over a reliable stream the server answers what is read behind the head of a request like
an echo: there is a number of results of reading that the echo stops in, with the verdict
that the server returns, and what the server has sent is the response to the request and
the frames of the echo's answers. -/
theorem serve_echoes (endian : Endian) (seed : UInt64) (stream : ByteStream)
    (hreliable : stream.Reliable) (bytes : Bytes) (hin : stream.Brings bytes) (conn : Connection)
    (request : Request) (left : ByteStream)
    (h : accept endian seed stream serveLimits [] (fun _ => (none, [])) =
      (.ok (.upgraded conn request), left)) :
    ∃ n ws,
      let results := (List.range n).map
        (reference .server serveLimits (conn.readBuffer ++ conn.stream.unread))
      echo.outcome results = some (serve endian seed stream).1 ∧
      List.Forall₂ (Carries .server) (echo.answers results) ws ∧
      (serve endian seed stream).2.sent =
        stream.sent ++ buildResponse request.key none [] ++ ws.flatMap WireFrame.bytes := by
  obtain ⟨n, c', hserve, hsent, hresults, hverdict, hrole, -, ws, hws, hout⟩ :=
    serve_run endian seed hreliable hin h
  rw [funext hresults] at hverdict hws
  rw [hrole] at hws
  refine ⟨n, ws, ?_, hws, ?_⟩
  · rw [hserve]
    exact hverdict
  · rw [hserve, ← hsent]
    exact hout

/-- The ping behind the request is answered. -/
theorem serve_echoes_ping : ∃ n ws,
    let results := (List.range n).map
      (reference .server serveLimits [0x89, 0x81, 0, 0, 0, 0, 0x68])
    echo.outcome results = some (serve .little 1 chatClient).1 ∧
    List.Forall₂ (Carries .server) (echo.answers results) ws ∧
    (serve .little 1 chatClient).2.sent =
      [] ++ buildResponse (Utf8.encode (newKey (.replicate 16 9))) none [] ++
        ws.flatMap WireFrame.bytes := by
  obtain ⟨rest, out, haccept, hrest⟩ := accept_chatClient
  have h := serve_echoes .little 1 chatClient (fun _ h => by cases h) _ chatClient_brings _ _ _
    haccept
  rw [← hrest]
  exact h

/-- The frame of the last message is the last frame. -/
theorem carries_last {role : Role} {ms : List Message} {m : Message} {ws : List WireFrame}
    (h : List.Forall₂ (Carries role) (ms ++ [m]) ws) :
    ∃ before w, ws = before ++ [w] ∧ Carries role m w := by
  induction ms generalizing ws with
  | nil =>
    cases h with
    | cons hw hrest =>
      cases hrest
      exact ⟨[], _, rfl, hw⟩
  | cons m' ms ih =>
    cases h with
    | cons hw hrest =>
      obtain ⟨before, w, rfl, hlast⟩ := ih hrest
      exact ⟨_ :: before, w, rfl, hlast⟩

/-- The frames of messages that do not close do not close. -/
theorem opcode_ne_close {role : Role} {ms : List Message} {ws : List WireFrame}
    (h : List.Forall₂ (Carries role) ms ws) (hopen : ∀ m ∈ ms, m.isClose = false) :
    ∀ w ∈ ws, w.opcode ≠ .close := by
  induction h with
  | nil => exact List.forall_mem_nil _
  | cons hw _ ih =>
    obtain ⟨hm, hrest⟩ := List.forall_mem_cons.mp hopen
    refine List.forall_mem_cons.mpr ⟨?_, ih hrest⟩
    rw [hw.opcode, ne_eq, Message.opcode_eq_close_iff, hm]
    exact Bool.false_ne_true

/-- Whatever the peer sends behind a request, and in whatever pieces, over a reliable stream
the server sends frames that every peer accepts, and nothing behind a close frame. If the
service ends well, the last frame gives back the close message of the peer. If it ends with
an error, either the peer has hung up and there is no close frame, or the peer has broken a
rule and the last frame closes with the code for that. -/
theorem serve_safe (endian : Endian) (seed : UInt64) (stream : ByteStream)
    (hreliable : stream.Reliable) (bytes : Bytes) (hin : stream.Brings bytes) (conn : Connection)
    (request : Request) (left : ByteStream)
    (h : accept endian seed stream serveLimits [] (fun _ => (none, [])) =
      (.ok (.upgraded conn request), left)) :
    ∃ ws : List WireFrame,
      (serve endian seed stream).2.sent =
        stream.sent ++ buildResponse request.key none [] ++ ws.flatMap WireFrame.bytes ∧
      (∀ w ∈ ws, w.AcceptedByPeers .server) ∧ ClosesLast ws ∧
      match (serve endian seed stream).1 with
      | .ok () => ∃ n frame before w, ws = before ++ [w] ∧ Carries .server (.close frame) w ∧
          reference .server serveLimits (conn.readBuffer ++ conn.stream.unread) n =
            .ok (some (.close frame))
      | .error e => (e = .unexpectedEof ∧ ∀ w ∈ ws, w.opcode ≠ .close) ∨
          e.FromPeer ∧ ∃ code before w, e.closeCode = some code ∧ ws = before ++ [w] ∧
            Carries .server (.close (some ⟨code, []⟩)) w := by
  obtain ⟨n, c', hserve, hsent, hresults, hverdict, hrole, -, ws, hws, hout⟩ :=
    serve_run endian seed hreliable hin h
  rw [funext hresults] at hverdict hws
  rw [hrole] at hws
  obtain ⟨before, last, hanswers, hpassable, hopen, hstop⟩ := echo_stops hverdict
  rw [hanswers] at hws
  refine ⟨ws, ?_, ?_, ?_, ?_⟩
  · rw [hserve, ← hsent]
    exact hout
  · exact (Carries.forall_acceptedByPeers_iff hws).mpr fun m hm => (hpassable m hm).legal
  · refine (closesLast_iff hws).mpr (List.pairwise_append.mpr ⟨?_, ?_, fun m hm _ _ => hopen m hm⟩)
    · exact List.pairwise_of_forall_mem_list fun m hm _ _ => hopen m hm
    · exact hstop.pairwise
  · rw [hserve]
    clear hserve hverdict
    generalize (serveLoop conn).1 = verdict at hstop
    rcases hstop with hread | ⟨hpeer, hcode⟩ | _
    · obtain ⟨front, w, rfl, hw⟩ := carries_last hws
      exact ⟨_, _, front, w, rfl, hw, hread⟩
    · obtain ⟨front, w, rfl, hw⟩ := carries_last hws
      exact .inr ⟨hpeer, _, front, w, hcode, rfl, hw⟩
    · rw [List.append_nil] at hws
      exact .inl ⟨rfl, opcode_ne_close hws hopen⟩

/-- The client that pings goes away without closing. -/
theorem serve_safe_ping : ∃ ws : List WireFrame,
    (serve .little 1 chatClient).2.sent =
      [] ++ buildResponse (Utf8.encode (newKey (.replicate 16 9))) none [] ++
        ws.flatMap WireFrame.bytes ∧
      (∀ w ∈ ws, w.AcceptedByPeers .server) ∧ ClosesLast ws := by
  obtain ⟨rest, out, haccept, -⟩ := accept_chatClient
  obtain ⟨ws, hsent, hws, hlast, -⟩ :=
    serve_safe .little 1 chatClient (fun _ h => by cases h) _ chatClient_brings _ _ _ haccept
  exact ⟨ws, hsent, hws, hlast⟩

end NagoWss
