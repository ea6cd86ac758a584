import NagoWss.Conn.Gathering

/-!
# What the server answers

The server answers a request once: it completes the handshake, it leaves the answer
to its caller, or it writes the refusal that its result names. A client that sends too
much before its head ends is the one that is left without an answer.
-/

namespace NagoWss

/-- `accept` with a `select` that may keep a state of its own, and the state behind it. -/
def acceptCalling {σ : Type} (endian : Endian) (seed : UInt64) (stream : ByteStream)
    (limits : Limits) (errorHeaders : List HeaderLine)
    (select : Request → σ → (Option (List Char) × List HeaderLine) × σ) (state : σ) :
    (Except Error UpgradeOutcome × ByteStream) × σ :=
  match readHead stream DEFAULT_MAX_HEAD with
  | (.error e, stream) => ((.error e, stream), state)
  | (.ok (head, rest), stream) =>
    match parseRequest head DEFAULT_MAX_HEAD with
    | .ok (.plain request) => ((.ok (.plain stream request rest), stream), state)
    | .error error =>
      let (_, stream) := stream.writeAll (buildRejection error errorHeaders)
      ((.error (.upgrade error), stream), state)
    | .ok (.upgrade request) =>
      let ((protocol, headers), state) := select request state
      match stream.writeAll (buildResponse request.key protocol headers) with
      | (.error e, stream) => ((.error (.io e), stream), state)
      | (.ok (), stream) =>
        ((.ok (.upgraded (.withBuffered endian seed stream .server limits rest) request), stream),
          state)

/-- A `select` that keeps no state makes no difference. -/
theorem accept_eq_acceptCalling (endian : Endian) (seed : UInt64) (stream : ByteStream)
    (limits : Limits) (errorHeaders : List HeaderLine)
    (select : Request → Option (List Char) × List HeaderLine) :
    accept endian seed stream limits errorHeaders select =
      (acceptCalling endian seed stream limits errorHeaders
        (fun request state => (select request, state)) ()).1 := by
  rw [accept, acceptCalling]
  rcases readHead stream DEFAULT_MAX_HEAD with ⟨e | ⟨head, rest⟩, left⟩
  · rfl
  · simp only
    rcases parseRequest head DEFAULT_MAX_HEAD with error | request | request
    · rfl
    · simp only
      rcases left.writeAll (buildResponse request.key (select request).1 (select request).2) with
        ⟨e | u, out⟩
      · rfl
      · rfl
    · rfl

/-- What was written and whether `select` was called are what the result says. -/
structure AnswersOnce {σ : Type} (stream : ByteStream) (errorHeaders : List HeaderLine)
    (select : Request → σ → (Option (List Char) × List HeaderLine) × σ) (state : σ)
    (result : (Except Error UpgradeOutcome × ByteStream) × σ) : Prop where
  /-- The handshake was completed with what one call of `select` returned. -/
  upgraded : ∀ conn request, result.1.1 = .ok (.upgraded conn request) →
    conn.stream.sent = stream.sent ++ buildResponse request.key (select request state).1.1
      (select request state).1.2 ∧ result.2 = (select request state).2
  /-- Nothing was written, and `select` was not called. -/
  plain : ∀ left request buffered, result.1.1 = .ok (.plain left request buffered) →
    left.sent = stream.sent ∧ result.2 = state
  /-- The refusal was written, and `select` was not called. -/
  refused : ∀ e, result.1.1 = .error (.upgrade e) →
    ¬HangsUp DEFAULT_MAX_HEAD stream.incoming →
      result.1.2.sent = stream.sent ++ buildRejection e errorHeaders ∧ result.2 = state

section Answering

variable {σ : Type} (endian : Endian) (seed : UInt64) {stream : ByteStream} (limits : Limits)
  (errorHeaders : List HeaderLine)
  (select : Request → σ → (Option (List Char) × List HeaderLine) × σ) (state : σ)

/-- A refusal is never empty. -/
theorem buildRejection_ne_nil (e : UpgradeError) : buildRejection e errorHeaders ≠ [] := by
  have hencode (a b : List Char) : Utf8.encode ('H' :: a ++ b) ≠ [] := by
    rw [List.cons_append, Utf8.encode_cons]
    intro hnil
    exact String.utf8EncodeChar_ne_nil (List.append_eq_nil_iff.mp hnil).1
  cases e <;> exact hencode _ _

/-- An error is the right answer if its refusal was written, or the peer had hung up. -/
theorem AnswersOnce.of_error {e : Error} {left : ByteStream}
    (h : ∀ error, e = .upgrade error → ¬HangsUp DEFAULT_MAX_HEAD stream.incoming →
      left.sent = stream.sent ++ buildRejection error errorHeaders) :
    AnswersOnce stream errorHeaders select state ((.error e, left), state) where
  upgraded := by
    intro conn request hok
    cases hok
  plain := by
    intro left request buffered hok
    cases hok
  refused := by
    intro error he hopen
    cases he
    exact ⟨h error rfl hopen, rfl⟩

/-- A request whose head arrives is answered. -/
theorem HeadArrives.answersOnce (hreliable : stream.Reliable) {head : Bytes}
    (h : HeadArrives DEFAULT_MAX_HEAD stream.incoming head) :
    AnswersOnce stream errorHeaders select state
      (acceptCalling endian seed stream limits errorHeaders select state) := by
  obtain ⟨rest, later, hread⟩ := h.readHead_eq
  have hwrite (bytes : Bytes) :
      ∃ out, ({ stream with incoming := later } : ByteStream).writeAll bytes = (.ok (), out) ∧
        out.sent = stream.sent ++ bytes := by
    have hok := (@ByteStream.Reliable.writeAll { stream with incoming := later } hreliable bytes).1
    rcases hw : ({ stream with incoming := later } : ByteStream).writeAll bytes with ⟨result, out⟩
    rw [hw] at hok
    obtain rfl : result = .ok () := hok
    exact ⟨out, rfl, (ByteStream.writeAll_ok hw).1⟩
  rw [acceptCalling, hread]
  simp only
  rcases hparse : parseRequest head DEFAULT_MAX_HEAD with error | request | request
  · obtain ⟨out, hout, hsent⟩ := hwrite (buildRejection error errorHeaders)
    simp only [hout]
    refine .of_error errorHeaders select state fun e he _ => ?_
    cases he
    exact hsent
  · obtain ⟨out, hout, hsent⟩ := hwrite (buildResponse request.key (select request state).1.1
      (select request state).1.2)
    simp only [hout]
    constructor
    · intro conn r hok
      cases hok
      exact ⟨hsent, rfl⟩
    · intro left r buffered hok
      cases hok
    · intro e he
      cases he
  · constructor
    · intro conn r hok
      cases hok
    · intro left r buffered hok
      cases hok
      exact ⟨rfl, rfl⟩
    · intro e he
      cases he

/-- Where reading the head fails, that is the result, and nothing is written. -/
theorem acceptCalling_of_readHead {e : Error} {left : ByteStream}
    (h : readHead stream DEFAULT_MAX_HEAD = (.error e, left)) :
    acceptCalling endian seed stream limits errorHeaders select state =
      ((.error e, left), state) := by
  rw [acceptCalling, h]

/-- A client that sends too much is refused, and is not told. -/
theorem Overfull.not_answersOnce (h : Overfull DEFAULT_MAX_HEAD stream.incoming) :
    ¬AnswersOnce stream errorHeaders select state
      (acceptCalling endian seed stream limits errorHeaders select state) := by
  obtain ⟨later, hread⟩ := h.readHead_eq
  rw [acceptCalling_of_readHead endian seed limits errorHeaders select state hread]
  intro hanswers
  have hsent := (hanswers.refused .headTooLarge rfl h.not_hangsUp).1
  exact buildRejection_ne_nil errorHeaders _ (List.self_eq_append_right.mp hsent)

/-- The server answers each request once with the answer that its result names, exactly
if the client does not send more than the limit before its head ends. -/
theorem answersOnce_iff (hreliable : stream.Reliable) :
    AnswersOnce stream errorHeaders select state
        (acceptCalling endian seed stream limits errorHeaders select state) ↔
      ¬Overfull DEFAULT_MAX_HEAD stream.incoming := by
  constructor
  · exact fun hanswers hover =>
      hover.not_answersOnce endian seed limits errorHeaders select state hanswers
  · intro hover
    rcases headArrives_or DEFAULT_MAX_HEAD stream.incoming with
      ⟨head, harrives⟩ | hover' | hhang | ⟨e, hfails⟩
    · exact harrives.answersOnce endian seed limits errorHeaders select state hreliable
    · exact absurd hover' hover
    · obtain ⟨later, hread⟩ := hhang.readHead_eq
      rw [acceptCalling_of_readHead endian seed limits errorHeaders select state hread]
      exact .of_error errorHeaders select state fun _ _ hopen => absurd hhang hopen
    · obtain ⟨later, hread⟩ := hfails.readHead_eq
      rw [acceptCalling_of_readHead endian seed limits errorHeaders select state hread]
      refine .of_error errorHeaders select state fun error he => ?_
      cases he

end Answering

/-- A request line of one word is refused, and the client is told. -/
theorem answersOnce_iff_malformed :
    AnswersOnce (.ofChunks [Utf8.encode "GET\r\n\r\n".toList]) [("Server".toList, "a".toList)]
      (fun request calls => ((none, []), calls ++ [request])) []
      (acceptCalling .little 1 (.ofChunks [Utf8.encode "GET\r\n\r\n".toList]) .default
        [("Server".toList, "a".toList)] (fun request calls => ((none, []), calls ++ [request]))
        []) := by
  refine (answersOnce_iff .little 1 .default _ _ _ fun _ h => by cases h).mpr ?_
  rintro ⟨buffer, later, hgathers, -, hlarge⟩
  cases hgathers with
  | here => exact absurd hlarge (by decide)
  | chunk _ _ hgathers =>
    cases hgathers
    exact absurd hlarge (by decide +kernel)

/-- Bytes without a line feed, one more than the limit. -/
def flood : Bytes := .replicate (DEFAULT_MAX_HEAD + 1) 'x'.toUInt8

/-- There is no blank line in it. -/
theorem headEnd_flood : headEnd flood = none := by
  have hother {b : UInt8} (hb : b ≠ 'x'.toUInt8) : b ∉ flood :=
    fun hmem => hb (List.eq_of_mem_replicate hmem)
  have hnone {b : UInt8} (hb : b ≠ 'x'.toUInt8) (p : Bytes) :
      Search.firstIndex (b :: p) flood = none := by
    rw [← List.append_nil flood, Search.firstIndex_append_of_not_mem (hother hb)]
    rfl
  rw [headEnd, CRLFCRLF, hnone (by decide), LFLF, hnone (by decide)]
  rfl

/-- A client that sends that gets no answer, though it has not hung up. -/
theorem flood_not_answered :
    let select : Request → Unit → (Option (List Char) × List HeaderLine) × Unit :=
      fun _ state => ((none, []), state)
    let result := acceptCalling .little 1 (.ofChunks [flood]) .default [] select ()
    result.1.1 = .error (.upgrade .headTooLarge) ∧ result.1.2.sent = [] ∧
      ¬HangsUp DEFAULT_MAX_HEAD (ByteStream.ofChunks [flood]).incoming ∧
      ¬AnswersOnce (.ofChunks [flood]) [] select () result := by
  intro select result
  have hover : Overfull DEFAULT_MAX_HEAD (ByteStream.ofChunks [flood]).incoming := by
    refine ⟨flood, [], .chunk ⟨rfl, Nat.zero_le _⟩ ?_ (.here _ _), headEnd_flood, ?_⟩
    · exact List.ne_nil_of_length_pos (by rw [flood, List.length_replicate]; decide)
    · rw [flood, List.length_replicate]
      exact Nat.lt_succ_self _
  obtain ⟨later, hread⟩ := hover.readHead_eq
  have hresult : result = _ := acceptCalling_of_readHead .little 1 .default [] select () hread
  have hnot : ¬AnswersOnce (.ofChunks [flood]) [] select () result :=
    hover.not_answersOnce .little 1 .default [] select ()
  clear_value result
  subst hresult
  exact ⟨rfl, rfl, hover.not_hangsUp, hnot⟩

end NagoWss
