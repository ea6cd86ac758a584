import NagoWss.Conn.Bounds
import NagoWss.Conn.Duplex
import NagoWss.Core.Stability

/-!
# Passing on what was read

A message that a read delivers keeps every rule of sending, whatever the peer did to
bring it about. Written again, on any connection, it is read by the next peer as it was.
-/

namespace NagoWss

open Framing

/-! ## What frames may be delivered as -/

/-- A control frame is short enough for its header. -/
def Frame.ShortControl (f : Frame) : Prop :=
  f.opcode.isControl = true → f.payload.length ≤ 125

/-- A control frame that is cut from a stream is short. -/
theorem shortControl_of_mem_framesOf {role : Role} {limits : Limits} {s : Bytes} {f : Frame}
    (h : f ∈ framesOf role limits s) : f.ShortControl := by
  obtain ⟨t, n, hcut⟩ := (frameCutter role limits.maxFrame).exists_cut_of_mem_items h
  obtain ⟨hd, hdecode, -, -, -, rfl⟩ := frameCut_item hcut
  obtain ⟨hvalid, -, -, -⟩ := Header.decode_iff.mp hdecode
  intro hcontrol
  have hlen := (hvalid.control hcontrol).2
  rw [WireFrame.length_unmaskReference, List.length_take]
  exact (Nat.min_le_left _ _).trans hlen

/-- A message as a peer may send it: legal, with no code to be replaced, and of a size
that a reader with these limits lets through. -/
structure Message.Passable (limits : Limits) (m : Message) : Prop where
  /-- The message is legal. -/
  legal : m.Legal
  /-- It is sent as it is. -/
  normalised : m.normalised = m
  /-- Its payload is within the limit, or that of a control frame. -/
  length : (Connection.frameOf m).2.length ≤ max limits.maxMessage 125

/-- A data message within the limit may be passed on. -/
theorem passable_of_data {limits : Limits} {kind : DataKind} {payload : Bytes}
    (hlen : payload.length ≤ limits.maxMessage) {m : Message}
    (h : (Assembler.finishUnfragmented kind payload).map some = .ok (some m)) :
    m.Passable limits := by
  have hmax := hlen.trans (Nat.le_max_left _ 125)
  cases kind with
  | binary =>
    cases h
    exact ⟨trivial, rfl, hmax⟩
  | text =>
    rw [Assembler.finishUnfragmented] at h
    split at h
    · cases h
    · next hvalid =>
      cases h
      exact ⟨Utf8.valid_iff.mp (by simpa using hvalid), rfl, hmax⟩

/-- A close message that was read is sent as it is, with the body it came with. -/
theorem frameOf_close {body : Bytes} {content : Option CloseFrame}
    (h : parseCloseBody body = .ok content) :
    (Message.close content).normalised = .close content ∧
      (Connection.frameOf (.close content)).2 = body := by
  obtain ⟨rfl, hlegal⟩ := parseCloseBody_iff.mp h
  have hsame : content.map CloseFrame.normalised = content := by
    cases content with
    | none => rfl
    | some f => rw [Option.map_some, CloseFrame.normalised, if_pos hlegal.1]
  refine ⟨congrArg Message.close hsame, ?_⟩
  rw [Connection.frameOf, encodeCloseBody_eq, hsame]

/-- A short close body is that of a message that may be passed on. -/
theorem passable_of_close {limits : Limits} {body : Bytes} {content : Option CloseFrame}
    (h : parseCloseBody body = .ok content) (hlen : body.length ≤ 125) :
    (Message.close content).Passable limits := by
  obtain ⟨hsame, hbody⟩ := frameOf_close h
  obtain ⟨rfl, hlegal⟩ := parseCloseBody_iff.mp h
  refine ⟨?_, hsame, ?_⟩
  · cases content with
    | none => trivial
    | some f =>
      rw [CloseFrame.body, List.length_append, BigEndian.length_encode] at hlen
      exact ⟨by omega, hlegal.2⟩
  · rw [hbody]
    exact hlen.trans (Nat.le_max_right _ _)

namespace Assembler

variable {a : Assembler} {m : Message}

/-- What a data frame completes may be passed on. -/
theorem acceptData_passable {kind : DataKind} {fin : Bool} {payload : Bytes}
    (h : (a.acceptData kind fin payload).1 = .ok (some m)) : m.Passable a.limits := by
  rw [acceptData] at h
  split at h
  · cases h
  · split at h
    · cases h
    · next hlen =>
      split at h
      · exact passable_of_data (Nat.not_lt.mp hlen) h
      · cases h

/-- What a continuation frame completes may be passed on. -/
theorem acceptContinuation_passable {fin : Bool} {payload : Bytes}
    (h : (a.acceptContinuation fin payload).1 = .ok (some m)) : m.Passable a.limits := by
  rw [acceptContinuation] at h
  split at h
  · cases h
  · split at h
    · cases h
    · next hlen =>
      simp only at h
      split at h
      · cases h
      · refine passable_of_data ?_ h
        rw [List.length_append]
        exact Nat.not_lt.mp hlen

/-- Whatever state the assembler is in, a message that a frame off the wire completes
may be passed on. -/
theorem accept_passable {f : Frame} (hf : f.ShortControl) (h : (a.accept f).1 = .ok (some m)) :
    m.Passable a.limits := by
  obtain ⟨opcode, fin, payload⟩ := f
  cases hc : a.closed with
  | true =>
    rw [accept_closed _ hc] at h
    cases h
  | false =>
    cases opcode with
    | continuation =>
      rw [accept_continuation fin payload hc] at h
      exact acceptContinuation_passable h
    | text => exact acceptData_passable ((accept_data .text fin payload hc) ▸ h)
    | binary => exact acceptData_passable ((accept_data .binary fin payload hc) ▸ h)
    | ping =>
      rw [accept_ping fin payload hc] at h
      cases h
      exact ⟨hf rfl, rfl, (hf rfl).trans (Nat.le_max_right _ _)⟩
    | pong =>
      rw [accept_pong fin payload hc] at h
      cases h
      exact ⟨hf rfl, rfl, (hf rfl).trans (Nat.le_max_right _ _)⟩
    | close =>
      rw [accept_close fin payload hc] at h
      cases hparse : parseCloseBody payload with
      | error e =>
        rw [hparse] at h
        cases h
      | ok content =>
        rw [hparse] at h
        cases h
        exact passable_of_close hparse (hf rfl)

end Assembler

/-! ## What a read delivers -/

/-- The messages among the results of the first `n` reads. -/
def Connection.messagesRead (c : Connection) (n : Nat) : List Message :=
  (List.range n).filterMap fun i => (c.results i).toOption.join

theorem join_toOption_eq_some_iff {result : Except Error (Option Message)} {m : Message} :
    result.toOption.join = some m ↔ result = .ok (some m) := by
  rcases result with e | _ | m' <;> simp [Except.toOption]

/-- A message of a whole stream may be passed on. -/
theorem reference_passable {role : Role} {limits : Limits} {s : Bytes} {n : Nat} {m : Message}
    (h : reference role limits s n = .ok (some m)) : m.Passable limits := by
  cases hout : (Cutter.outputs feed (.new limits) (framesOf role limits s)).1[n]? with
  | none =>
    rw [framesOf] at hout
    simp only [reference, hout] at h
    exact absurd h (ending_ne_message _ _ _)
  | some result =>
    rw [reference_output hout] at h
    cases result with
    | error e => cases h
    | ok m' =>
      cases h
      obtain ⟨f, hf, a, rfl, hfeed⟩ := Cutter.exists_of_mem_outputs feed
        (fun a => a.limits = limits) (fun a f ha => (a.accept_limits f).trans ha) rfl
        (List.mem_of_getElem? hout)
      refine Assembler.accept_passable (shortControl_of_mem_framesOf hf) (a := a) ?_
      rw [feed] at hfeed
      rcases haccept : (a.accept f).1 with e | _ | m
      · rw [haccept] at hfeed
        cases hfeed
      · rw [haccept] at hfeed
        cases hfeed
      · rw [haccept] at hfeed
        cases hfeed
        rfl

/-- The close message is the last one: nothing is cut off behind it. -/
theorem upToClose_eq_self {ms : List Message} (h : ms.Pairwise fun m _ => m.isClose = false) :
    upToClose ms = ms := by
  induction ms with
  | nil => rfl
  | cons m ms ih =>
    obtain ⟨hm, hms⟩ := List.pairwise_cons.mp h
    rw [upToClose, ih hms]
    cases ms with
    | nil => cases m.isClose <;> rfl
    | cons m' ms => rw [hm m' List.mem_cons_self]; rfl

namespace Connection

variable {c : Connection} {role : Role} {limits : Limits} {s : Bytes}

/-- What was read may be passed on. -/
theorem messagesRead_passable (h : c.results = reference role limits s) (n : Nat) :
    ∀ m ∈ c.messagesRead n, m.Passable limits := by
  intro m hm
  obtain ⟨i, -, hi⟩ := List.mem_filterMap.mp hm
  rw [join_toOption_eq_some_iff, h] at hi
  exact reference_passable hi

/-- No message is read behind a close message. -/
theorem messagesRead_pairwise (h : c.results = reference role limits s) (n : Nat) :
    (c.messagesRead n).Pairwise fun m _ => m.isClose = false := by
  rw [messagesRead, List.pairwise_filterMap]
  refine List.pairwise_lt_range.imp ?_
  intro i j hij m hm m' hm'
  rw [join_toOption_eq_some_iff, h] at hm hm'
  cases m with
  | close content => exact absurd hm' (close_last i j content hij hm m')
  | text | binary | ping | pong => rfl

end Connection

/-! ## Reading what was passed on -/

/-- What a stream of messages ends with when the peer has hung up. -/
def hangUp (ms : List Message) : Except Error (Option Message) :=
  ending none (ms.any Message.isClose)

/-- What the reads of a connection return when the other end is asked to send these
messages and hangs up. -/
def readAs (ms : List Message) (n : Nat) : Except Error (Option Message) :=
  match (upToClose (ms.map Message.normalised))[n]? with
  | some m => .ok (some m)
  | none => hangUp ms

/-- The frames of messages that suit a reader are read as the messages, up to and
including the first close message, also where the last frame is cut short. -/
theorem reference_carried {role : Role} {limits : Limits} {ms : List Message}
    {ws : List WireFrame} (h : List.Forall₂ (Carries role) ms ws)
    (hsuits : ∀ m ∈ ms, m.Suits limits) {p : Bytes}
    (hp : (frameCutter role.opposite limits.maxFrame).cut p = .more) (n : Nat) :
    reference role.opposite limits (ws.flatMap WireFrame.bytes ++ p) n = readAs ms n := by
  obtain ⟨hadmissible, hframes⟩ := Carries.forall_admissible h hsuits
  have hparse := WireFrame.parse_bytes hadmissible p
  rw [Cutter.parse_more _ hp, List.append_nil, hframes] at hparse
  have houts := outputs_messages (a := .new limits) rfl rfl hsuits
  have hclosed := (outputs_split (a := .new limits) rfl (ms.map Message.frame)).2
  have hfirst : (firstClose (ms.map Message.frame)).isSome = ms.any Message.isClose := by
    rw [firstClose, Option.isSome_map, List.isSome_find?, List.any_map]
    refine congrArg ms.any (funext fun m => Bool.eq_iff_iff.mpr ?_)
    rw [Function.comp_apply, beq_iff_eq]
    exact m.opcode_eq_close_iff
  simp only [reference, readAs]
  rw [hparse.1, hparse.2, houts, hclosed, hfirst, List.getElem?_map]
  cases (upToClose (ms.map Message.normalised))[n]? with
  | none => rfl
  | some m => rfl

/-- Messages written one by one are sent one by one, also behind a close message. -/
theorem Call.sentBy_write (closeSent : Bool) (ms : List Message) :
    sentBy closeSent (ms.map .write) = ms := by
  induction ms generalizing closeSent with
  | nil => rfl
  | cons m ms ih =>
    rw [List.map_cons, sentBy, ih]
    rfl

/-- What is sent was asked for. -/
theorem Call.exists_of_mem_sentBy {closeSent : Bool} {calls : List Call} {m : Message}
    (h : m ∈ sentBy closeSent calls) : ∃ call ∈ calls, m ∈ call.handed := by
  induction calls generalizing closeSent with
  | nil => cases h
  | cons call calls ih =>
    rcases List.mem_append.mp h with h | h
    · exact ⟨call, List.mem_cons_self, call.messages_subset _ h⟩
    · obtain ⟨call, hcall, hm⟩ := ih h
      exact ⟨call, List.mem_cons_of_mem _ hcall, hm⟩

/-- What was read from one connection may be written to any other: no frame is one that
a peer refuses, and a peer reads the same messages in the same order, and a clean end
if and only if a close message was among them. -/
theorem passes_on (endian : Endian) (seed : UInt64) (role : Role) (limits : Limits)
    (buffered sent : Bytes) (writes : List (Option (Errno × Nat))) (chunks : List Bytes)
    (hne : ∀ chunk ∈ chunks, chunk ≠ []) (n : Nat) (d : Connection) (hd : d.stream.Reliable)
    (limits' : Limits) :
    let c := Connection.withBuffered endian seed ⟨chunks.map .ok, sent, writes⟩ role limits buffered
    let ms := c.messagesRead n
    (∀ m ∈ ms, m.Fits ∧ (Connection.frameOf m).2.length ≤ limits'.maxFrame.toNat ∧
      (Connection.frameOf m).2.length ≤ limits'.maxMessage) →
    ∃ ws : List WireFrame,
      (d.callAll (ms.map .write)).stream.sent = d.stream.sent ++ ws.flatMap WireFrame.bytes ∧
      (∀ w ∈ ws, w.AcceptedByPeers d.role) ∧
      ∀ (endian' : Endian) (seed' : UInt64) (buffered' sent' : Bytes)
        (writes' : List (Option (Errno × Nat))) (chunks' : List Bytes),
        (∀ chunk ∈ chunks', chunk ≠ []) → buffered' ++ chunks'.flatten = ws.flatMap WireFrame.bytes →
        ∀ i, (Connection.withBuffered endian' seed' ⟨chunks'.map .ok, sent', writes'⟩
          d.role.opposite limits' buffered').results i =
            match ms[i]? with
            | some m => .ok (some m)
            | none => hangUp ms := by
  intro c ms hsize
  have hresults := Connection.results_eq endian seed role limits buffered sent writes chunks hne
  have hpassable := Connection.messagesRead_passable hresults n
  have hnormal : ms.map Message.normalised = ms := by
    refine (List.map_congr_left fun m hm => ?_).trans ms.map_id
    exact (hpassable m hm).normalised
  have hlast := upToClose_eq_self (Connection.messagesRead_pairwise hresults n)
  have hfits : ∀ call ∈ ms.map Call.write, ∀ m ∈ call.handed, m.Fits := by
    intro call hcall m hm
    obtain ⟨m', hm', rfl⟩ := List.mem_map.mp hcall
    rw [List.mem_singleton.mp hm]
    exact (hsize m' hm').1
  obtain ⟨-, -, ws, hws, hsent⟩ := Connection.callAll_sends hd hfits
  rw [Call.sentBy_write] at hws
  refine ⟨ws, hsent, ?_, ?_⟩
  · exact (Carries.forall_acceptedByPeers_iff hws).mpr fun m hm => (hpassable m hm).legal
  · intro endian' seed' buffered' sent' writes' chunks' hne' hbytes i
    have hsuits : ∀ m ∈ ms, m.Suits limits' := fun m hm =>
      ⟨(hpassable m hm).legal, (hsize m hm).1, (hsize m hm).2.1, (hsize m hm).2.2⟩
    have hcarried := reference_carried (p := []) hws hsuits rfl i
    rw [List.append_nil, readAs, hnormal, hlast] at hcarried
    rw [Connection.results_eq endian' seed' _ limits' buffered' sent' writes' chunks' hne', hbytes,
      hcarried]

/-- A ping read by a client, cut inside its header, and written by another client. -/
theorem passes_on_ping :
    let c := Connection.withBuffered .little 7 ⟨[[0x01, 0x61]].map .ok, [], []⟩ .client .default
      [0x89]
    let d := Connection.new .little 7 ⟨[], [], []⟩ .client .default
    ∃ ws : List WireFrame,
      (d.callAll ((c.messagesRead 1).map .write)).stream.sent = ws.flatMap WireFrame.bytes ∧
        ∀ w ∈ ws, w.AcceptedByPeers .client := by
  obtain ⟨ws, hsent, haccepted, -⟩ := passes_on .little 7 .client .default [0x89] [] []
    [[0x01, 0x61]] (by decide) 1 (.new .little 7 ⟨[], [], []⟩ .client .default)
    (List.forall_mem_nil _) .default (by decide +kernel)
  exact ⟨ws, hsent, haccepted⟩

end NagoWss
