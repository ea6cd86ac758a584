import NagoWss.Conn.Duplex
import NagoWss.Conn.Echo

/-!
# A client and the echo server

The echo server at one end of the two pipes. Each of its turns is a read and at most one
call, so its runs are runs of two connections that send and receive, and what holds of those
holds here: whatever the client asks to be sent, in whatever pieces the pipes hand it over
and in whatever order the two ends take their steps, the client gets back its own messages,
once and in order, with its pings as pongs, up to the first close message.
-/

namespace NagoWss

open Framing Responding Relation

/-! ## The turns of the server -/

/-- A turn of the server, as far as what has arrived allows: read, and act on the result. -/
def Endpoint.turn (e : Endpoint) : Endpoint :=
  match e.conn.readOpen with
  | (none, c) => { e with conn := c }
  | (some result, c) =>
    { conn := (serveTurn c result).2
      arrived := e.arrived
      asked := e.asked ++ echo.answer result
      results := e.results ++ [result] }

/-- The service has come to its verdict. -/
def Endpoint.Stopped (e : Endpoint) : Prop := (echo.outcome e.results).isSome = true

/-- One step of a client and the echo server. -/
inductive EchoStep : Duplex → Duplex → Prop
  /-- The client makes a sending call, with messages that suit both ends. -/
  | call (d : Duplex) (call : Call)
      (hsuits : ∀ m ∈ call.handed, ∀ r, m.Suits (d r).conn.assembler.limits) :
      EchoStep d (Function.update d .client ((d .client).call call))
  /-- A pipe hands over a non-empty chunk of what the other end has sent. -/
  | deliver (d : Duplex) (r : Role) (chunk : Bytes) (hne : chunk ≠ [])
      (hsent : (d r).arrived ++ chunk <+: (d r.opposite).conn.stream.sent) :
      EchoStep d (Function.update d r ((d r).deliver chunk))
  /-- The client reads. -/
  | read (d : Duplex) : EchoStep d (Function.update d .client (d .client).read)
  /-- The server takes a turn. -/
  | turn (d : Duplex) (hgoes : ¬(d .server).Stopped) :
      EchoStep d (Function.update d .server (d .server).turn)

/-- The messages that an echo gives back for these. -/
def echoed (ms : List Message) : List Message := echo.answers (ms.map fun m => .ok (some m))

/-- The call that answers a message, if one does. -/
def answeringCall : Message → Option Call
  | .text payload => some (.write (.text payload))
  | .binary payload => some (.write (.binary payload))
  | .ping payload => some (.pong payload)
  | .pong _ => none
  | .close frame => some (.close frame)

/-- A turn that reads nothing is a read. -/
theorem Endpoint.turn_none {e : Endpoint} (h : e.conn.readOpen.1 = none) : e.turn = e.read := by
  rw [turn, read]
  rcases hr : e.conn.readOpen with ⟨result, c⟩
  rw [hr] at h
  obtain rfl : result = none := h
  rw [Option.toList_none, List.append_nil]

/-- A turn that reads a message is a read and the call that answers the message. -/
theorem Endpoint.turn_message {e : Endpoint} {m : Message}
    (h : e.conn.readOpen.1 = some (.ok (some m))) (hopen : e.asked.any Message.isClose = false) :
    e.turn = match answeringCall m with
      | some call => e.read.call call
      | none => e.read := by
  have hgo (r : Except Error Unit × Connection) : (goesOn r).2 = r.2 := by
    rcases r with ⟨e | u, c⟩
    · rfl
    · rfl
  rw [turn]
  rcases hr : e.conn.readOpen with ⟨result, c⟩
  rw [hr] at h
  obtain rfl : result = some (.ok (some m)) := h
  cases m with
  | text | binary | ping =>
    simp only [answeringCall, call, read, hr, serveTurn, hgo]
    rfl
  | pong =>
    simp only [answeringCall, read, hr, serveTurn, echo, List.append_nil, Option.toList_some]
  | close frame =>
    simp only [answeringCall, call, read, hr, serveTurn, hopen]
    rfl

/-! ## What comes back -/

@[simp] theorem Message.normalised_normalised (m : Message) :
    m.normalised.normalised = m.normalised := by
  have hframe (f : CloseFrame) : f.normalised.normalised = f.normalised := by
    rw [CloseFrame.normalised, if_pos f.isSendable_normalised]
  cases m with
  | text | binary | ping | pong => rfl
  | close frame =>
    cases frame with
    | none => rfl
    | some f => exact congrArg (fun f => Message.close (some f)) (hframe f)

/-- A message and what it is sent as have the same frame. -/
theorem Message.frameOf_normalised (m : Message) :
    Connection.frameOf m.normalised = Connection.frameOf m := by
  cases m with
  | text | binary | ping | pong => rfl
  | close frame =>
    cases frame with
    | none => rfl
    | some f =>
      rw [normalised, Connection.frameOf, Connection.frameOf, encodeCloseBody_eq, encodeCloseBody_eq,
        Option.map_some, Option.map_some, CloseFrame.normalised, if_pos f.isSendable_normalised]

/-- What is sent for a message suits where the message does. -/
theorem Message.Suits.normalised {m : Message} {limits : Limits} (h : m.Suits limits) :
    m.normalised.Suits limits := by
  have hframe := m.frameOf_normalised
  refine ⟨?_, ?_, ?_, ?_⟩
  · cases m with
    | text | binary | ping | pong => exact h.legal
    | close frame =>
      cases frame with
      | none => trivial
      | some f => exact h.legal
  · rw [Fits, hframe]
    exact h.fits
  · rw [hframe]
    exact h.frame
  · rw [hframe]
    exact h.message

/-- The answer to a message suits where the message does. -/
theorem suits_answer {m : Message} {limits : Limits} (h : m.Suits limits) :
    ∀ x ∈ echo.answer (.ok (some m)), x.Suits limits := by
  cases m with
  | text | binary | close => exact List.forall_mem_singleton.mpr h
  | ping => exact List.forall_mem_singleton.mpr ⟨h.legal, h.fits, h.frame, h.message⟩
  | pong => exact List.forall_mem_nil _

/-- The call that answers a message hands over the answer. -/
theorem handed_answeringCall {m : Message} {call : Call} (h : answeringCall m = some call) :
    call.handed = echo.answer (.ok (some m)) := by
  cases m <;> cases h <;> rfl

/-- What comes back for a message, ahead of what comes back for the rest. -/
theorem echoed_cons (m : Message) (ms : List Message) : echoed (m :: ms) =
    echo.answer (.ok (some m)) ++ if m.isClose then [] else echoed ms := by
  rw [echoed, List.map_cons, Responder.answers]
  cases m <;> rfl

/-- A longer part of the messages is answered by a longer part of the answers. -/
theorem echoed_isPrefix {ms ms' : List Message} (h : ms <+: ms') : echoed ms <+: echoed ms' :=
  Responder.answers_isPrefix (h.map _)

/-- What comes back ends with its first close message, and none of its codes is replaced. -/
theorem upToClose_echoed {ms : List Message} (h : ∀ m ∈ ms, m.normalised = m) :
    upToClose ((echoed ms).map Message.normalised) = echoed ms := by
  induction ms with
  | nil => rfl
  | cons m ms ih =>
    obtain ⟨hm, hrest⟩ := List.forall_mem_cons.mp h
    rw [echoed_cons]
    cases m with
    | text | binary | ping => exact congrArg _ (ih hrest)
    | pong => exact ih hrest
    | close frame => exact congrArg (fun m => [m]) hm

/-- The messages up to the first close message are messages of the list. -/
theorem upToClose_isPrefix (ms : List Message) : upToClose ms <+: ms := by
  induction ms with
  | nil => exact List.prefix_refl _
  | cons m ms ih =>
    rw [upToClose]
    split
    · exact List.prefix_append [m] ms
    · exact List.cons_prefix_cons.mpr ⟨rfl, ih⟩

/-- Nothing follows the first close message. -/
theorem upToClose_pairwise (ms : List Message) :
    (upToClose ms).Pairwise fun m _ => m.isClose = false := by
  induction ms with
  | nil => exact .nil
  | cons m ms ih =>
    rw [upToClose]
    split
    · exact List.pairwise_singleton _ _
    · next hopen => exact List.pairwise_cons.mpr ⟨fun _ _ => Bool.not_eq_true _ ▸ hopen, ih⟩

/-! ## Every run -/

/-- What holds of a client and the echo server at any moment. -/
structure EchoInvariant (limits : Role → Limits) (d : Duplex) : Prop where
  /-- They are two ends of the pipes. -/
  pipes : d.Invariant limits
  /-- The server has answered what it has read. -/
  answered : (d .server).asked = echo.answers (d .server).results
  /-- What the client sent may be sent back. -/
  suits : ∀ m ∈ (d .client).asked, ∀ r, m.Suits (limits r)

namespace EchoInvariant

variable {limits : Role → Limits} {d d' : Duplex}

/-- A message that an end is to deliver is sent as it is, and suits both ends. -/
theorem of_mem_expected (h : EchoInvariant limits d) {m : Message}
    (hm : m ∈ (d .client).expected) : m.normalised = m ∧ ∀ r, m.Suits (limits r) := by
  obtain ⟨x, hx, rfl⟩ := List.mem_map.mp ((upToClose_isPrefix _).subset hm)
  exact ⟨x.normalised_normalised, fun r => (h.suits x hx r).normalised⟩

/-- The server has answered the messages that it has delivered. -/
theorem answered_delivered (h : EchoInvariant limits d) :
    (d .server).asked = echoed (d .server).delivered := by
  rw [h.answered, (h.pipes.receiving .server).results_eq, echoed]

/-- What the server reads next, it delivers. -/
theorem delivered_read (h : EchoInvariant limits d) {result : Except Error (Option Message)}
    (hread : (d .server).conn.readOpen.1 = some result) :
    ∃ m, result = .ok (some m) ∧ (d .server).delivered ++ [m] <+: (d .client).expected := by
  have hstep := h.pipes.step (.read d .server)
  have hresults := (hstep.receiving .server).results_eq
  have hfront := hstep.delivered_isPrefix .server
  rw [Function.update_self] at hresults hfront
  rw [Function.update_of_ne Role.server.opposite_ne] at hfront
  have hmem : result ∈ (d .server).read.results := by
    rw [Endpoint.read, hread, Option.toList_some]
    exact List.mem_append_right _ (List.mem_singleton_self _)
  rw [hresults] at hmem
  obtain ⟨m, -, rfl⟩ := List.mem_map.mp hmem
  rw [Endpoint.delivered_read hread] at hfront
  exact ⟨m, rfl, hfront⟩

/-- As long as the server goes on, it was not asked to close. -/
theorem open_of_goes (h : EchoInvariant limits d) (hgoes : ¬(d .server).Stopped) :
    echo.outcome (d .server).results = none ∧ (d .server).asked.any Message.isClose = false := by
  have hnone : echo.outcome (d .server).results = none := Option.not_isSome_iff_eq_none.mp hgoes
  refine ⟨hnone, List.any_eq_false.mpr fun m hm => ?_⟩
  rw [h.answered] at hm
  obtain ⟨result, hmem, hanswer⟩ := Responder.exists_of_mem_answers hm
  have hverdict : echo.verdict result = none := by
    by_contra hsome
    obtain ⟨v, hv⟩ := Option.ne_none_iff_exists'.mp hsome
    obtain ⟨w, hw⟩ := Responder.exists_outcome hmem hv
    rw [hw] at hnone
    cases hnone
  rw [isClose_of_mem_answer hverdict m hanswer]
  exact Bool.false_ne_true

/-- The results of a turn, and what was asked in it. -/
theorem turn_answered (h : EchoInvariant limits d) (hgoes : ¬(d .server).Stopped) :
    (d .server).turn.asked = echo.answers (d .server).turn.results := by
  obtain ⟨hnone, -⟩ := h.open_of_goes hgoes
  rw [Endpoint.turn]
  rcases hr : (d .server).conn.readOpen with ⟨_ | result, c⟩
  · exact h.answered
  · change (d .server).asked ++ _ = echo.answers ((d .server).results ++ [result])
    rw [(Responder.answers_append_none hnone [result]).1, h.answered, Responder.answers_singleton]

/-- The verdict that the server itself comes to in a turn is the one that its results have
then: it returns from its loop exactly where it counts as stopped. -/
theorem turn_verdict (h : EchoInvariant limits d) (hgoes : ¬(d .server).Stopped)
    {result : Except Error (Option Message)} (hread : (d .server).conn.readOpen.1 = some result) :
    (serveTurn (d .server).conn.readOpen.2 result).1 =
      echo.outcome (d .server).turn.results := by
  obtain ⟨hnone, hopen⟩ := h.open_of_goes hgoes
  obtain ⟨m, rfl, hfront⟩ := h.delivered_read hread
  have hsending := (h.pipes.step (.read d .server)).sending .server
  rw [Function.update_self] at hsending
  have hreliable : (d .server).conn.readOpen.2.stream.Reliable := hsending.reliable
  have hclose : (d .server).conn.readOpen.2.closeSent = false := hsending.closeSent.trans hopen
  have hsuits := (h.of_mem_expected (hfront.subset
    (List.mem_append_right _ (List.mem_singleton_self m)))).2 .server
  have hfits : ∀ x ∈ echo.answer (.ok (some m)), x.Fits := fun x hx =>
    (suits_answer hsuits x hx).fits
  have hresults : (d .server).turn.results = (d .server).results ++ [.ok (some m)] := by
    rw [Endpoint.turn]
    rcases hr : (d .server).conn.readOpen with ⟨result, c⟩
    rw [hr] at hread
    obtain rfl : result = some (.ok (some m)) := hread
    rfl
  rw [(serveTurn_echo hreliable hclose hfits).1, hresults,
    (Responder.answers_append_none hnone _).2, Responder.outcome, Responder.outcome,
    Option.or_none]

/-- Every step of a client and the echo server is a run of two ends of the pipes. -/
theorem simulated (h : EchoInvariant limits d) (hstep : EchoStep d d') :
    ReflTransGen Duplex.Step d d' := by
  cases hstep with
  | call call hsuits => exact .single (.call d .client call fun m hm => hsuits m hm .server)
  | deliver r chunk hne hsent => exact .single (.deliver d r chunk hne hsent)
  | read => exact .single (.read d .client)
  | turn hgoes =>
    obtain ⟨-, hopen⟩ := h.open_of_goes hgoes
    have hread : ReflTransGen Duplex.Step d (Function.update d .server (d .server).read) :=
      .single (.read d .server)
    cases hresult : (d .server).conn.readOpen.1 with
    | none =>
      rw [Endpoint.turn_none hresult]
      exact hread
    | some result =>
      obtain ⟨m, rfl, hfront⟩ := h.delivered_read hresult
      have hsuits := (h.of_mem_expected (hfront.subset
        (List.mem_append_right _ (List.mem_singleton_self m)))).2
      rw [Endpoint.turn_message hresult hopen]
      cases hcall : answeringCall m with
      | none => exact hread
      | some call =>
        refine hread.tail ?_
        have hlimits : (Function.update d .server (d .server).read .client).conn.assembler.limits =
            limits .client := by
          rw [Function.update_of_ne (by decide)]
          exact (h.pipes.receiving .client).limits_eq
        have hstep := Duplex.Step.call (Function.update d .server (d .server).read) .server call
          fun x hx => by
            rw [show Role.opposite .server = .client from rfl, hlimits]
            exact suits_answer (hsuits .client) x (handed_answeringCall hcall ▸ hx)
        rw [Function.update_idem, Function.update_self] at hstep
        exact hstep

/-- Every step keeps the invariant. -/
theorem step (h : EchoInvariant limits d) (hstep : EchoStep d d') : EchoInvariant limits d' := by
  have hpipes := h.pipes.run (h.simulated hstep)
  cases hstep with
  | call call hsuits =>
    refine ⟨hpipes, ?_, ?_⟩
    · rw [Function.update_of_ne (by decide)]
      exact h.answered
    · rw [Function.update_self]
      intro m hm r
      rcases List.mem_append.mp hm with hm | hm
      · exact h.suits m hm r
      · have hm' := hsuits m (call.messages_subset _ hm) r
        rwa [(h.pipes.receiving r).limits_eq] at hm'
  | deliver r chunk hne hsent =>
    cases r with
    | client => exact ⟨hpipes, h.answered, h.suits⟩
    | server => exact ⟨hpipes, h.answered, h.suits⟩
  | read => exact ⟨hpipes, h.answered, h.suits⟩
  | turn hgoes => exact ⟨hpipes, h.turn_answered hgoes, h.suits⟩

/-- Every run keeps the invariant. -/
theorem run (h : EchoInvariant limits d) (hrun : ReflTransGen EchoStep d d') :
    EchoInvariant limits d' := by
  induction hrun with
  | refl => exact h
  | tail _ hstep ih => exact ih.step hstep

/-- What the client is to deliver is what comes back for what the server has delivered. -/
theorem expected_eq (h : EchoInvariant limits d) :
    (d .server).expected = echoed (d .server).delivered := by
  rw [Endpoint.expected, h.answered_delivered]
  refine upToClose_echoed fun m hm => ?_
  exact (h.of_mem_expected ((h.pipes.delivered_isPrefix .server).subset hm)).1

/-- The client delivers nothing but a first part of what comes back for what it sent. -/
theorem delivered_isPrefix (h : EchoInvariant limits d) :
    (d .client).delivered <+: echoed (d .client).expected := by
  have hfront := h.pipes.delivered_isPrefix .client
  rw [show Role.opposite .client = .server from rfl, h.expected_eq] at hfront
  exact hfront.trans (echoed_isPrefix (h.pipes.delivered_isPrefix .server))

/-- Where both ends have delivered everything, everything has come back. -/
theorem delivered_eq (h : EchoInvariant limits d)
    (hserver : (d .server).delivered = (d .client).expected)
    (hclient : (d .client).delivered = (d .server).expected) :
    (d .client).delivered = echoed (d .client).expected := by
  rw [hclient, h.expected_eq, hserver]

end EchoInvariant

/-- Fresh ends satisfy the invariant. -/
theorem Duplex.Initial.echoInvariant {d : Duplex} (h : d.Initial) :
    ∃ limits, EchoInvariant limits d := by
  obtain ⟨limits, hpipes⟩ := h.invariant
  obtain ⟨endian, seed, writes, own, -, hserver⟩ := h .server
  obtain ⟨endian', seed', writes', own', -, hclient⟩ := h .client
  refine ⟨limits, hpipes, ?_, ?_⟩
  · rw [hserver]
    rfl
  · rw [hclient]
    exact List.forall_mem_nil _

/-! ## Progress -/

namespace EchoInvariant

variable {limits : Role → Limits} {d : Duplex}

/-- A server that has stopped has nothing more to read. -/
theorem readOpen_of_stopped (h : EchoInvariant limits d) (hstopped : (d .server).Stopped) :
    (d .server).conn.readOpen.1 = none := by
  by_contra hreads
  obtain ⟨result, hresult⟩ := Option.ne_none_iff_exists'.mp hreads
  obtain ⟨m, -, hfront⟩ := h.delivered_read hresult
  have hopen := (upToClose_pairwise _).sublist hfront.sublist
  obtain ⟨v, hv⟩ := Option.isSome_iff_exists.mp hstopped
  obtain ⟨before, x, after, hsplit, -, hx, -⟩ := Responder.exists_last_of_outcome hv
  have hmem : x ∈ (d .server).results := by
    rw [hsplit]
    exact List.mem_append_right _ List.mem_cons_self
  rw [(h.pipes.receiving .server).results_eq] at hmem
  obtain ⟨stop, hstop, rfl⟩ := List.mem_map.mp hmem
  -- It has stopped with a close message, so nothing can follow.
  have hclose : stop.isClose = false :=
    (List.pairwise_append.mp hopen).2.2 stop hstop m (List.mem_singleton_self m)
  rw [verdict_message, hclose] at hx
  cases hx

/-- An end whose read would not wait has a step that delivers one more message. -/
theorem advances (h : EchoInvariant limits d) {r : Role} (hreads : (d r).conn.readOpen.1 ≠ none) :
    ∃ e, EchoStep d (Function.update d r e) ∧ e.arrived = (d r).arrived ∧
      e.delivered.length = (d r).delivered.length + 1 ∧
      (Function.update d r e .client).asked = (d .client).asked := by
  cases r with
  | client => exact ⟨_, .read d, rfl, h.pipes.length_delivered_read hreads, rfl⟩
  | server =>
    refine ⟨_, .turn d fun hstopped => hreads (h.readOpen_of_stopped hstopped), ?_, ?_, rfl⟩
    · rw [Endpoint.turn]
      split <;> rfl
    · have hlonger := h.pipes.length_delivered_read hreads
      rw [Endpoint.delivered, Endpoint.read] at hlonger
      rw [Endpoint.delivered, Endpoint.turn]
      rcases hr : (d .server).conn.readOpen with ⟨_ | result, c⟩
      · rw [hr] at hreads
        exact absurd rfl hreads
      · rw [hr] at hlonger
        exact hlonger

/-- With everything arrived, an end catches up by its own steps. -/
theorem catches_up_arrived (h : EchoInvariant limits d) {r : Role}
    (harrived : (d r).arrived = (d r.opposite).conn.stream.sent) :
    ∃ d', ReflTransGen EchoStep d d' ∧ d'.CaughtUp r ∧ d' r.opposite = d r.opposite ∧
      (d' .client).asked = (d .client).asked := by
  induction hleft : (d r.opposite).expected.length - (d r).delivered.length generalizing d with
  | zero =>
    by_cases hwaits : (d r).conn.readOpen.1 = none
    · exact ⟨d, .refl, ⟨harrived, hwaits⟩, rfl, rfl⟩
    · obtain ⟨e, hstep, -, hlonger, -⟩ := h.advances hwaits
      have hfront := ((h.step hstep).pipes.delivered_isPrefix r).length_le
      rw [Function.update_self, Function.update_of_ne r.opposite_ne, hlonger] at hfront
      omega
  | succ n ih =>
    by_cases hwaits : (d r).conn.readOpen.1 = none
    · exact ⟨d, .refl, ⟨harrived, hwaits⟩, rfl, rfl⟩
    · obtain ⟨e, hstep, hsame, hlonger, hasked⟩ := h.advances hwaits
      have hself : Function.update d r e r = e := Function.update_self ..
      have hother : Function.update d r e r.opposite = d r.opposite :=
        Function.update_of_ne r.opposite_ne ..
      obtain ⟨d', hrun, hcaught, hpeer, hkept⟩ := ih (h.step hstep)
        (by rw [hself, hother, hsame]; exact harrived) (by rw [hself, hother, hlonger]; omega)
      exact ⟨d', hrun.head hstep, hcaught, hpeer.trans hother, hkept.trans hasked⟩

/-- The pipe hands over the rest, and an end catches up. -/
theorem catches_up (h : EchoInvariant limits d) (r : Role) :
    ∃ d', ReflTransGen EchoStep d d' ∧ d'.CaughtUp r ∧ d' r.opposite = d r.opposite ∧
      (d' .client).asked = (d .client).asked := by
  obtain ⟨chunk, hchunk⟩ := h.pipes.arrived r
  by_cases hne : chunk = []
  · rw [hne, List.append_nil] at hchunk
    exact h.catches_up_arrived hchunk
  · have hstep : EchoStep d (Function.update d r ((d r).deliver chunk)) :=
      .deliver d r chunk hne (by rw [hchunk])
    have hself : Function.update d r ((d r).deliver chunk) r = (d r).deliver chunk :=
      Function.update_self ..
    have hother : Function.update d r ((d r).deliver chunk) r.opposite = d r.opposite :=
      Function.update_of_ne r.opposite_ne ..
    obtain ⟨d', hrest, hcaught, hpeer, hkept⟩ := (h.step hstep).catches_up_arrived
      (show _ = _ by rw [hself, hother]; exact hchunk)
    refine ⟨d', hrest.head hstep, hcaught, hpeer.trans hother, hkept.trans ?_⟩
    cases r with
    | client => rfl
    | server => rfl

end EchoInvariant

/-- Whatever the client asks to be sent that suits both ends, and however the steps of the two
ends and the pipes fall, with no write that fails and no end that hangs up: the client has got
back a first part of what comes back for its messages, and all of it once both ends have
caught up; and no read of either end has returned anything but a message. -/
theorem echo_delivers (d₀ d : Duplex) (h₀ : d₀.Initial) (hrun : ReflTransGen EchoStep d₀ d) :
    (d .client).delivered <+: echoed (d .client).expected ∧
      (d.CaughtUp .server → d.CaughtUp .client →
        (d .client).delivered = echoed (d .client).expected) ∧
      ∀ r, ∀ result ∈ (d r).results, ∃ m, result = .ok (some m) := by
  obtain ⟨limits, hinitial⟩ := h₀.echoInvariant
  have h := hinitial.run hrun
  refine ⟨h.delivered_isPrefix, fun hserver hclient => ?_, fun r result hresult => ?_⟩
  · exact h.delivered_eq (h.pipes.delivered_eq hserver) (h.pipes.delivered_eq hclient)
  · rw [(h.pipes.receiving r).results_eq] at hresult
    obtain ⟨m, -, hm⟩ := List.mem_map.mp hresult
    exact ⟨m, hm.symm⟩

/-- In every state that is reached, a server that goes on comes to a verdict in its turn exactly
if it has stopped behind it. -/
theorem stopped_turn_iff {d₀ d : Duplex} (h₀ : d₀.Initial) (hrun : ReflTransGen EchoStep d₀ d)
    (hgoes : ¬(d .server).Stopped) {result : Except Error (Option Message)}
    (hread : (d .server).conn.readOpen.1 = some result) :
    (d .server).turn.Stopped ↔
      (serveTurn (d .server).conn.readOpen.2 result).1.isSome = true := by
  obtain ⟨limits, hinitial⟩ := h₀.echoInvariant
  rw [(hinitial.run hrun).turn_verdict hgoes hread]
  exact Iff.rfl

/-- Two fresh ends. -/
def freshEnds : Duplex := fun r => .fresh .little 7 [] r .default

theorem freshEnds_initial : freshEnds.Initial := fun _ =>
  ⟨.little, 7, [], .default, List.forall_mem_nil _, rfl⟩

/-- The client has sent a ping and a close message. -/
def pinged : Duplex :=
  Function.update freshEnds .client
    ((freshEnds .client).call (.writeAll [.ping [0x68], .close none]))

theorem pinged_step : EchoStep freshEnds pinged := by
  have hping : (Message.ping [0x68]).Suits .default :=
    ⟨show 1 ≤ 125 by decide, by decide, by decide, by decide⟩
  have hclose : (Message.close none).Suits .default := ⟨trivial, by decide, by decide, by decide⟩
  exact .call freshEnds (.writeAll [.ping [0x68], .close none])
    (List.forall_mem_cons.mpr ⟨fun _ => hping, List.forall_mem_singleton.mpr fun _ => hclose⟩)

/-- Both are answered in two turns, and the answers are read. -/
theorem echo_delivers_ping :
    let d₁ := Function.update pinged .server
      ((pinged .server).deliver (pinged .client).conn.stream.sent)
    let d₂ := Function.update d₁ .server (d₁ .server).turn
    let d₃ := Function.update d₂ .server (d₂ .server).turn
    let d₄ := Function.update d₃ .client ((d₃ .client).deliver [0x8a, 1, 0x68, 0x88, 0])
    let d₅ := Function.update d₄ .client (d₄ .client).read
    let d₆ := Function.update d₅ .client (d₅ .client).read
    (d₆ .client).delivered = echoed (d₆ .client).expected := by
  intro d₁ d₂ d₃ d₄ d₅ d₆
  have h₁ : EchoStep pinged d₁ := .deliver pinged .server _ (by decide) (by decide +kernel)
  have h₂ : EchoStep d₁ d₂ := .turn d₁ (by rw [Endpoint.Stopped]; decide +kernel)
  have h₃ : EchoStep d₂ d₃ := .turn d₂ (by rw [Endpoint.Stopped]; decide +kernel)
  have h₄ : EchoStep d₃ d₄ := .deliver d₃ .client _ (by decide) (by decide +kernel)
  have hrun := ((((ReflTransGen.single pinged_step).tail h₁).tail h₂).tail h₃).tail h₄
  exact (echo_delivers freshEnds d₆ freshEnds_initial ((hrun.tail (.read d₄)).tail (.read d₅))).2.1
    ⟨by decide +kernel, by decide +kernel⟩ ⟨by decide +kernel, by decide +kernel⟩

/-- Whatever has happened by such steps, everything the client has sent can still come back:
there is no state in which the client, the server and the pipes are stuck before. -/
theorem echo_answers_all (d₀ d : Duplex) (h₀ : d₀.Initial) (hrun : ReflTransGen EchoStep d₀ d) :
    ∃ d', ReflTransGen EchoStep d d' ∧ (d' .client).asked = (d .client).asked ∧
      (d' .client).delivered = echoed (d .client).expected := by
  obtain ⟨limits, hinitial⟩ := h₀.echoInvariant
  have h := hinitial.run hrun
  obtain ⟨d₁, hrun₁, hserver, -, hasked₁⟩ := h.catches_up .server
  have h₁ := h.run hrun₁
  obtain ⟨d₂, hrun₂, hclient, hpeer, hasked₂⟩ := h₁.catches_up .client
  have h₂ := h₁.run hrun₂
  have hexpected : (d₂ .client).expected = (d .client).expected := by
    rw [Endpoint.expected, Endpoint.expected, hasked₂, hasked₁]
  refine ⟨d₂, hrun₁.trans hrun₂, hasked₂.trans hasked₁, ?_⟩
  rw [← hexpected]
  refine h₂.delivered_eq ?_ (h₂.pipes.delivered_eq hclient)
  have hdelivered := h₁.pipes.delivered_eq hserver
  rw [show Role.opposite .server = .client from rfl, Endpoint.expected, hasked₁] at hdelivered
  rw [hexpected, ← show Role.opposite .client = .server from rfl, hpeer]
  exact hdelivered

/-- The ping and the close message that the client has sent can come back. -/
theorem echo_answers_all_ping : ∃ d', ReflTransGen EchoStep pinged d' ∧
    (d' .client).asked = (pinged .client).asked ∧
    (d' .client).delivered = echoed (pinged .client).expected :=
  echo_answers_all freshEnds pinged freshEnds_initial (.single pinged_step)

end NagoWss
