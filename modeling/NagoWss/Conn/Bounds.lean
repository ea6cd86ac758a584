import Mathlib.Logic.Relation
import NagoWss.Conn.Sending

/-!
# What a peer can make this side hold

Whatever frames a peer sends, and however many of them are refused, the message in
progress stays within its limit and what is delivered is well formed. A connection
waits for more bytes only while less than one frame within the limit is buffered.
-/

namespace NagoWss

open Relation (ReflTransGen)

/-! ## The message in progress -/

/-- A message that may be delivered: data within the limit, text and reasons that are
UTF-8, and a close code that may be sent. -/
def Message.Deliverable (limits : Limits) : Message → Prop
  | .text payload => payload.length ≤ limits.maxMessage ∧ ∃ text, payload = Utf8.encode text
  | .binary payload => payload.length ≤ limits.maxMessage
  | .ping _ | .pong _ => True
  | .close content => CloseFrame.Legal content

namespace Assembler

/-- Feed frames one by one, going on behind errors. -/
def acceptEach (a : Assembler) :
    List Frame → List (Except ProtocolError (Option Message)) × Assembler
  | [] => ([], a)
  | f :: frames =>
    let (result, a) := a.accept f
    let (results, a) := acceptEach a frames
    (result :: results, a)

/-- The message in progress is within the limit. -/
def WithinLimits (a : Assembler) : Prop :=
  ∀ kind payload, a.partialMessage = some (kind, payload) → payload.length ≤ a.limits.maxMessage

/-- A step within the limits: the message in progress stays within them, and a message
that comes out may be delivered. -/
def StaysWithin (limits : Limits) (r : Except ProtocolError (Option Message) × Assembler) : Prop :=
  r.2.WithinLimits ∧ ∀ m, r.1 = .ok (some m) → m.Deliverable limits

variable {a : Assembler}

/-- A step that delivers nothing and leaves the message in progress alone. -/
theorem WithinLimits.silent (h : a.WithinLimits) {r : Except ProtocolError (Option Message)}
    (hr : ∀ m, r ≠ .ok (some m)) : StaysWithin a.limits (r, a) :=
  ⟨h, fun m hm => absurd hm (hr m)⟩

/-- A completed message within the limit may be delivered. -/
theorem finishUnfragmented_deliverable {limits : Limits} {kind : DataKind} {payload : Bytes}
    (hlen : payload.length ≤ limits.maxMessage) {m : Message}
    (h : (finishUnfragmented kind payload).map some = .ok (some m)) : m.Deliverable limits := by
  cases kind with
  | text =>
    rw [finishUnfragmented] at h
    split at h
    · cases h
    · next hvalid =>
      cases h
      rw [Bool.not_eq_true, Bool.not_eq_false'] at hvalid
      exact ⟨hlen, Utf8.valid_iff.mp hvalid⟩
  | binary =>
    cases h
    exact hlen

theorem acceptData_staysWithin (h : a.WithinLimits) (kind : DataKind) (fin : Bool)
    (payload : Bytes) : StaysWithin a.limits (a.acceptData kind fin payload) := by
  rw [acceptData]
  split
  · exact h.silent (by simp)
  · split
    · exact h.silent (by simp)
    · next hlen =>
      have hle : payload.length ≤ a.limits.maxMessage := Nat.not_lt.mp hlen
      split
      · exact ⟨h, fun m hm => finishUnfragmented_deliverable hle hm⟩
      · refine ⟨fun kind' payload' hpartial => ?_, by simp⟩
        cases hpartial
        exact hle

theorem acceptContinuation_staysWithin (h : a.WithinLimits) (fin : Bool) (payload : Bytes) :
    StaysWithin a.limits (a.acceptContinuation fin payload) := by
  rw [acceptContinuation]
  split
  · exact h.silent (by simp)
  · next kind buffer hpartial =>
    split
    · exact h.silent (by simp)
    · next hlen =>
      have hle : (buffer ++ payload).length ≤ a.limits.maxMessage := by
        rw [List.length_append]
        exact Nat.not_lt.mp hlen
      simp only
      split
      · refine ⟨fun kind' payload' hpartial => ?_, by simp⟩
        cases hpartial
        exact hle
      · refine ⟨fun kind' payload' hpartial => ?_, fun m hm => ?_⟩
        · cases hpartial
        · exact finishUnfragmented_deliverable hle hm

/-- Every frame, legal or not, leaves the assembler within its limits. -/
theorem accept_staysWithin (h : a.WithinLimits) (f : Frame) :
    StaysWithin a.limits (a.accept f) := by
  obtain ⟨opcode, fin, payload⟩ := f
  cases hc : a.closed with
  | true =>
    rw [accept_closed _ hc]
    exact h.silent (by simp)
  | false =>
    have hdata (kind : DataKind) : StaysWithin a.limits (a.accept ⟨kind.opcode, fin, payload⟩) := by
      rw [accept_data kind fin payload hc]
      exact acceptData_staysWithin h kind fin payload
    cases opcode with
    | ping =>
      rw [accept_ping fin payload hc]
      refine ⟨h, fun m hm => ?_⟩
      cases hm
      trivial
    | pong =>
      rw [accept_pong fin payload hc]
      refine ⟨h, fun m hm => ?_⟩
      cases hm
      trivial
    | close =>
      rw [accept_close fin payload hc]
      refine ⟨h, fun m hm => ?_⟩
      cases hbody : parseCloseBody payload with
      | error e =>
        rw [hbody] at hm
        cases hm
      | ok content =>
        rw [hbody] at hm
        cases hm
        exact (parseCloseBody_iff.mp hbody).2
    | continuation =>
      rw [accept_continuation fin payload hc]
      exact acceptContinuation_staysWithin h fin payload
    | text => exact hdata .text
    | binary => exact hdata .binary

/-- However many frames are fed, and however many of them are refused. -/
theorem acceptEach_staysWithin (h : a.WithinLimits) (frames : List Frame) :
    (a.acceptEach frames).2.WithinLimits ∧ (a.acceptEach frames).2.limits = a.limits ∧
      ∀ m, .ok (some m) ∈ (a.acceptEach frames).1 → m.Deliverable a.limits := by
  induction frames generalizing a with
  | nil => exact ⟨h, rfl, fun m hm => by cases hm⟩
  | cons f frames ih =>
    obtain ⟨hwithin, hdeliver⟩ := accept_staysWithin h f
    obtain ⟨hwithin', hlimits, hdeliver'⟩ := ih hwithin
    rw [accept_limits] at hlimits hdeliver'
    have hcons : a.acceptEach (f :: frames) =
        ((a.accept f).1 :: ((a.accept f).2.acceptEach frames).1,
          ((a.accept f).2.acceptEach frames).2) := rfl
    rw [hcons]
    refine ⟨hwithin', hlimits, fun m hm => ?_⟩
    rcases List.mem_cons.mp hm with hm | hm
    · exact hdeliver m hm.symm
    · exact hdeliver' m hm

end Assembler

/-! ## The bytes that wait -/

namespace Connection

/-- Parsing leaves the limits alone and takes bytes off the buffer only. -/
theorem parseBuffered_shrinks (c : Connection) :
    c.parseBuffered.2.assembler.limits = c.assembler.limits ∧
      c.parseBuffered.2.readBuffer.length ≤ c.readBuffer.length := by
  fun_induction parseBuffered c with
  | case1 | case2 | case3 | case4 => exact ⟨rfl, Nat.le_refl _⟩
  | case5 c header headerLen hdecode total hshort hmask payload c' message a haccept =>
    have hlimits := c.assembler.accept_limits ⟨header.opcode, header.fin, payload⟩
    rw [haccept] at hlimits
    exact ⟨hlimits, (List.drop_suffix _ _).length_le⟩
  | case6 c header headerLen hdecode total hshort hmask payload c' a haccept ih =>
    have hlimits := c.assembler.accept_limits ⟨header.opcode, header.fin, payload⟩
    rw [haccept] at hlimits
    exact ⟨ih.1.trans hlimits, Nat.le_trans ih.2 (List.drop_suffix _ _).length_le⟩
  | case7 c header headerLen hdecode total hshort hmask payload c' e a haccept =>
    have hlimits := c.assembler.accept_limits ⟨header.opcode, header.fin, payload⟩
    rw [haccept] at hlimits
    exact ⟨hlimits, (List.drop_suffix _ _).length_le⟩

/-- A connection that waits for more bytes holds less than a header of the largest size
and a payload of the largest length. -/
theorem parseBuffered_waits (c : Connection) (h : c.parseBuffered.1 = .ok none) :
    c.parseBuffered.2.readBuffer.length < c.assembler.limits.maxFrame.toNat + 14 := by
  fun_induction parseBuffered c with
  | case1 | case4 | case5 | case7 => cases h
  | case2 c i hdecode =>
    have hshort := Header.decode_incomplete hdecode
    rw [Header.MAX_ENCODED_LEN] at hshort
    exact Nat.lt_of_lt_of_le hshort (Nat.le_add_left _ _)
  | case3 c header headerLen hdecode total hshort =>
    obtain ⟨hvalid, hmax, rfl, -⟩ := Header.decode_iff.mp hdecode
    have htotal : total = _ := frameTotal_eq hvalid
    have hlen := header.encodedLen_bounds.2
    have hle := UInt64.le_iff_toNat_le.mp hmax
    rw [Header.MAX_ENCODED_LEN] at hlen
    rw [htotal] at hshort
    exact Nat.lt_of_lt_of_le hshort (by omega)
  | case6 c header headerLen hdecode total hshort hmask payload c' a haccept ih =>
    have hlimits := c.assembler.accept_limits ⟨header.opcode, header.fin, payload⟩
    rw [haccept] at hlimits
    have hwaits := ih h
    rw [← hlimits]
    exact hwaits

/-- What can happen to the buffer of a connection: bytes are parsed, a read that waits
gets something from the socket, or something is sent. -/
inductive Step : Connection → Connection → Prop
  | parse (c : Connection) : Step c c.parseBuffered.2
  | receive {c parsed : Connection} {result : Except Errno Nat} {buffer : Bytes}
      {stream : ByteStream} (hparse : c.parseBuffered = (.ok none, parsed))
      (hread : parsed.stream.readBuf parsed.readBuffer = (result, buffer, stream)) :
      Step c { parsed with stream := stream, readBuffer := buffer }
  | call (c : Connection) (call : Call) : Step c (c.call call).2

/-- A call to `read` is a run of steps. -/
theorem read_steps (c : Connection) : ReflTransGen Step c c.read.2 := by
  fun_induction read c with
  | case1 c e parsed hparse =>
    have hstep := Step.parse c
    rw [hparse] at hstep
    exact .single hstep
  | case2 c message parsed hparse =>
    have hstep := Step.parse c
    rw [hparse] at hstep
    exact .single hstep
  | case3 c parsed hparse e buffer stream hread => exact .single (.receive hparse hread)
  | case4 c parsed hparse buffer stream next hclosed hread =>
    exact .single (.receive hparse hread)
  | case5 c parsed hparse buffer stream next hopen hread => exact .single (.receive hparse hread)
  | case6 c parsed hparse n buffer stream hread next hn ih =>
    exact .head (.receive hparse hread) ih

/-- A connection whose limits are these, that holds at most `bound` bytes and whose reads
bring at most `chunk` bytes. -/
structure Holds (limits : Limits) (chunk bound : Nat) (c : Connection) : Prop where
  /-- The limits. -/
  limits : c.assembler.limits = limits
  /-- The buffered bytes. -/
  buffered : c.readBuffer.length ≤ bound
  /-- The reads to come. -/
  incoming : ∀ bytes, .ok bytes ∈ c.stream.incoming → bytes.length ≤ chunk

/-- Every step keeps the bound, if it leaves room for a read behind one frame. -/
theorem Holds.step {limits : Limits} {chunk bound : Nat}
    (hbound : limits.maxFrame.toNat + 13 + chunk ≤ bound) {c c' : Connection}
    (h : c.Holds limits chunk bound) (hstep : Step c c') : c'.Holds limits chunk bound := by
  obtain ⟨hlimits, hshrinks⟩ := c.parseBuffered_shrinks
  have hstream : c.parseBuffered.2.stream = c.stream := by rw [c.parseBuffered_fixed]
  cases hstep with
  | parse =>
    refine ⟨hlimits.trans h.limits, Nat.le_trans hshrinks h.buffered, ?_⟩
    rw [hstream]
    exact h.incoming
  | @receive parsed result buffer stream hparse hread =>
    have hwaits := c.parseBuffered_waits (by rw [hparse])
    rw [hparse] at hlimits hwaits hstream
    simp only at hlimits hwaits hstream
    rw [h.limits] at hwaits
    rw [hstream, ByteStream.readBuf] at hread
    have hincoming := h.incoming
    rcases hin : c.stream.incoming with _ | ⟨e | bytes, rest⟩
    · rw [hin] at hread
      cases hread
      exact ⟨hlimits.trans h.limits, by simp only; omega, hincoming⟩
    · rw [hin] at hread hincoming
      cases hread
      exact ⟨hlimits.trans h.limits, by simp only; omega,
        fun b hb => hincoming b (List.mem_cons_of_mem _ hb)⟩
    · rw [hin] at hread hincoming
      cases hread
      have hbytes := hincoming bytes List.mem_cons_self
      refine ⟨hlimits.trans h.limits, ?_, fun b hb => hincoming b (List.mem_cons_of_mem _ hb)⟩
      simp only [List.length_append]
      omega
  | call call =>
    have hkeeps := c.call_keepsReceiving call
    refine ⟨?_, ?_, ?_⟩
    · rw [hkeeps.assembler, h.limits]
    · rw [hkeeps.readBuffer]
      exact h.buffered
    · rw [hkeeps.incoming]
      exact h.incoming

/-- A run of steps keeps the bound. -/
theorem Holds.run {limits : Limits} {chunk bound : Nat}
    (hbound : limits.maxFrame.toNat + 13 + chunk ≤ bound) {c c' : Connection}
    (h : c.Holds limits chunk bound) (hrun : ReflTransGen Step c c') :
    c'.Holds limits chunk bound := by
  induction hrun with
  | refl => exact h
  | tail _ hstep ih => exact ih.step hbound hstep

end Connection

/-- A hostile peer can exceed no limit, even past errors. Whatever frames are fed, the
message in progress is data within the limit and every message delivered may be
delivered. That it is data is an invariant that its type carries: a `DataKind` is put there
in place of an opcode, and `accept` makes one for text and binary frames only. A connection
goes back to the socket only with less than a frame buffered, and over every run its buffer
holds at most what it started with, or one frame less a byte and one read. -/
theorem hostile_peer_bounded (limits : Limits) :
    (∀ frames : List Frame,
      (∀ kind payload,
        ((Assembler.new limits).acceptEach frames).2.partialMessage = some (kind, payload) →
          (kind.opcode = .text ∨ kind.opcode = .binary) ∧ payload.length ≤ limits.maxMessage) ∧
      ∀ m, .ok (some m) ∈ ((Assembler.new limits).acceptEach frames).1 →
        m.Deliverable limits) ∧
    (∀ c : Connection, c.assembler.limits = limits → c.parseBuffered.1 = .ok none →
      c.parseBuffered.2.readBuffer.length < limits.maxFrame.toNat + 14) ∧
    (∀ c : Connection, ReflTransGen Connection.Step c c.read.2) ∧
    ∀ (c c' : Connection) (chunk : Nat), c.assembler.limits = limits →
      (∀ bytes, .ok bytes ∈ c.stream.incoming → bytes.length ≤ chunk) →
      ReflTransGen Connection.Step c c' →
      c'.readBuffer.length ≤ max c.readBuffer.length (limits.maxFrame.toNat + 13 + chunk) := by
  refine ⟨fun frames => ?_, fun c hlimits hwait => ?_, Connection.read_steps,
    fun c c' chunk hlimits hincoming hrun => ?_⟩
  · have hnew : (Assembler.new limits).WithinLimits := fun _ _ h => by cases h
    obtain ⟨hwithin, hlimits, hdeliver⟩ := Assembler.acceptEach_staysWithin hnew frames
    refine ⟨fun kind payload hpartial => ⟨?_, ?_⟩, hdeliver⟩
    · cases kind
      · exact .inl rfl
      · exact .inr rfl
    · have hlen := hwithin kind payload hpartial
      rwa [hlimits] at hlen
  · rw [← hlimits]
    exact c.parseBuffered_waits hwait
  · have hholds : c.Holds limits chunk (max c.readBuffer.length
        (limits.maxFrame.toNat + 13 + chunk)) := ⟨hlimits, Nat.le_max_left _ _, hincoming⟩
    exact (hholds.run (Nat.le_max_right _ _) hrun).buffered

/-- A peer that starts a text, breaks into it with a binary frame and announces a large one.
The text is still there behind a frame that is refused for its size as well. -/
theorem hostile_peer_bounded_refused :
    let frames : List Frame := [⟨.text, false, [0x61]⟩, ⟨.binary, true, [0x62]⟩,
      ⟨.continuation, false, [0x62, 0x63, 0x64]⟩]
    let a := ((Assembler.new ⟨125, 3⟩).acceptEach frames).2
    let c := Connection.new .little 7
      (.ofChunks [[0x01, 1, 0x61], [0x82, 1, 0x62], [0x82, 0x7D]]) .client ⟨125, 3⟩
    a.partialMessage = some (.text, [0x61]) ∧
      ((DataKind.text.opcode = .text ∨ DataKind.text.opcode = .binary) ∧
        ([0x61] : Bytes).length ≤ 3) ∧
      c.read.2.read.2.readBuffer.length ≤ 125 + 13 + 3 := by
  intro frames a c
  have hkept : a.partialMessage = some (.text, [0x61]) := by decide
  have hlength : ∀ chunk ∈ [[0x01, 1, 0x61], [0x82, 1, 0x62], [(0x82 : UInt8), 0x7D]],
      chunk.length ≤ 3 := by decide
  obtain ⟨hfed, -, hread, hbound⟩ := hostile_peer_bounded ⟨125, 3⟩
  refine ⟨hkept, (hfed frames).1 _ _ hkept, ?_⟩
  refine hbound c c.read.2.read.2 3 rfl (fun bytes hmem => ?_) ((hread c).trans (hread c.read.2))
  obtain ⟨_, hchunk, heq⟩ := List.mem_map.mp hmem
  cases heq
  exact hlength bytes hchunk

end NagoWss
