import NagoWss.Core.BigEndian
import NagoWss.Core.Utf8
import NagoWss.Proto.OpCode

/-!
# Messages

The assembler owns the rules that span more than one frame: fragments in order,
control frames between them, text that is UTF-8 as a whole, a limit on the sum
of the fragments and the silence behind a close frame. It holds at most one
message in progress.
-/

namespace NagoWss

/-- The body of a close frame. -/
structure CloseFrame where
  /-- Why the peer closed. -/
  code : CloseCode
  /-- A human-readable reason. -/
  reason : Bytes
  deriving DecidableEq, Repr

/-- A complete application message. -/
inductive Message
  /-- A UTF-8 payload. -/
  | text (payload : Bytes)
  /-- Opaque bytes. -/
  | binary (payload : Bytes)
  /-- A liveness probe. -/
  | ping (payload : Bytes)
  /-- A reply to a probe. -/
  | pong (payload : Bytes)
  /-- The start of the closing handshake. -/
  | close (frame : Option CloseFrame)
  deriving DecidableEq, Repr

/-- A rule that the frame codec cannot see. -/
inductive ProtocolError
  /-- A continuation frame with no message in progress. -/
  | unexpectedContinuation
  /-- A new data frame while a message was in progress. -/
  | interleavedDataFrame
  /-- A text payload or a close reason that is not UTF-8. -/
  | invalidUtf8
  /-- A close frame with a one-byte body. -/
  | malformedCloseFrame
  /-- A close frame with a status code that must never be sent. -/
  | invalidCloseCode
  /-- A reassembled message beyond the limit. -/
  | messageTooLarge
  deriving DecidableEq, Repr

/-- How large a message an endpoint reassembles. -/
structure Limits where
  /-- Largest single frame payload, in bytes. -/
  maxFrame : UInt64
  /-- Largest reassembled message, in bytes. -/
  maxMessage : Nat
  deriving DecidableEq, Repr

/-- The limits of an endpoint that names none. -/
def Limits.default : Limits where
  maxFrame := 16 * 1024 * 1024
  maxMessage := 16 * 1024 * 1024

/-- The opcodes that open a data message: `Text` and `Binary`. -/
inductive DataKind
  | text
  | binary
  deriving DecidableEq, Repr

/-- The opcode of the first frame of a data message. -/
def DataKind.opcode : DataKind → OpCode
  | text => .text
  | binary => .binary

/-- A frame as the assembler is fed it, its payload unmasked. -/
structure Frame where
  /-- What the frame carries. -/
  opcode : OpCode
  /-- Whether this frame completes its message. -/
  fin : Bool
  /-- The payload. -/
  payload : Bytes
  deriving DecidableEq, Repr

/-- Parse the body of a close frame: nothing, or a code and a UTF-8 reason. -/
def parseCloseBody (payload : Bytes) : Except ProtocolError (Option CloseFrame) :=
  match payload with
  | [] => .ok none
  | [_] => .error .malformedCloseFrame
  | b0 :: b1 :: reason =>
    let code : CloseCode := ⟨UInt16.ofNat (BigEndian.decode [b0, b1])⟩
    if !code.isSendable then .error .invalidCloseCode
    else if !Utf8.valid reason then .error .invalidUtf8
    else .ok (some ⟨code, reason⟩)

/-- The body of a close frame with this content: nothing, or a code and a reason. -/
def CloseFrame.body : Option CloseFrame → Bytes
  | none => []
  | some f => BigEndian.encode 2 f.code.code.toNat ++ f.reason

/-- A close frame may carry nothing, or a code that may be sent and a UTF-8 reason. -/
def CloseFrame.Legal : Option CloseFrame → Prop
  | none => True
  | some f => f.code.isSendable = true ∧ ∃ text, f.reason = Utf8.encode text

/-- The two bytes of a code are read back as that code. -/
theorem code_bytes (b0 b1 : UInt8) :
    BigEndian.encode 2 (UInt16.ofNat (BigEndian.decode [b0, b1])).toNat = [b0, b1] := by
  have hlt : BigEndian.decode [b0, b1] < 2 ^ 16 :=
    Nat.lt_of_lt_of_eq (BigEndian.decode_lt [b0, b1]) (by simp)
  rw [UInt16.toNat_ofNat', Nat.mod_eq_of_lt hlt]
  exact BigEndian.encode_decode [b0, b1]

/-- A body that starts with a code is judged by the code and the reason. -/
theorem parseCloseBody_body (f : CloseFrame) : parseCloseBody (CloseFrame.body (some f)) =
    if !f.code.isSendable then .error .invalidCloseCode
    else if !Utf8.valid f.reason then .error .invalidUtf8
    else .ok (some f) := by
  obtain ⟨⟨code⟩, reason⟩ := f
  obtain ⟨b0, b1, hb⟩ := List.length_eq_two.mp (BigEndian.length_encode 2 code.toNat)
  have hcode : UInt16.ofNat (BigEndian.decode [b0, b1]) = code := by
    rw [← hb, BigEndian.decode_encode code.toNat_lt, UInt16.ofNat_toNat]
  simp only [CloseFrame.body, hb, List.cons_append, List.nil_append, parseCloseBody, hcode]

/-- Parsing accepts exactly the bodies of legal close frames. -/
theorem parseCloseBody_iff {payload : Bytes} {content : Option CloseFrame} :
    parseCloseBody payload = .ok content ↔
      payload = CloseFrame.body content ∧ CloseFrame.Legal content := by
  constructor
  · intro h
    match payload with
    | [] =>
      cases h
      exact ⟨rfl, trivial⟩
    | [_] => cases h
    | b0 :: b1 :: reason =>
      simp only [parseCloseBody] at h
      split at h
      · cases h
      · next hsend =>
        split at h
        · cases h
        · next hutf =>
          cases h
          simp only [Bool.not_eq_true, Bool.not_eq_false'] at hsend hutf
          refine ⟨?_, hsend, Utf8.valid_iff.mp hutf⟩
          rw [CloseFrame.body, code_bytes]
          rfl
  · rintro ⟨rfl, hlegal⟩
    cases content with
    | none => rfl
    | some f =>
      obtain ⟨hsend, htext⟩ := hlegal
      rw [parseCloseBody_body, hsend, Utf8.valid_iff.mpr htext]
      rfl

/-- Reassembles frames into messages and enforces the rules across frames. -/
structure Assembler where
  /-- The limits this assembler enforces. -/
  limits : Limits
  /-- The message in progress, and its bytes so far. The opcode that began it is text or
  binary by its type: no other begins one. -/
  partialMessage : Option (DataKind × Bytes)
  /-- Set once a close frame has been seen. -/
  closed : Bool
  deriving DecidableEq, Repr

namespace Assembler

/-- A new assembler with the given limits. -/
def new (limits : Limits) : Assembler := ⟨limits, none, false⟩

/-- Complete a message whose whole payload is at hand. -/
def finishUnfragmented (kind : DataKind) (payload : Bytes) : Except ProtocolError Message :=
  match kind with
  | .text => if !Utf8.valid payload then .error .invalidUtf8 else .ok (.text payload)
  | .binary => .ok (.binary payload)

/-- Handle a control frame. -/
def acceptControl (a : Assembler) (opcode : OpCode) (hcontrol : opcode.isControl = true)
    (payload : Bytes) : Except ProtocolError Message × Assembler :=
  match opcode, hcontrol with
  | .ping, _ => (.ok (.ping payload), a)
  | .pong, _ => (.ok (.pong payload), a)
  | .close, _ =>
    -- Set before the body is looked at.
    let a := { a with closed := true }
    match parseCloseBody payload with
    | .error e => (.error e, a)
    | .ok frame => (.ok (.close frame), a)

/-- Handle a continuation frame. -/
def acceptContinuation (a : Assembler) (fin : Bool) (payload : Bytes) :
    Except ProtocolError (Option Message) × Assembler :=
  match a.partialMessage with
  | none => (.error .unexpectedContinuation, a)
  | some (kind, buffer) =>
    -- The sum does not saturate: no buffer in memory reaches half of a `usize`.
    if buffer.length + payload.length > a.limits.maxMessage then (.error .messageTooLarge, a)
    else
      let buffer := buffer ++ payload
      if !fin then (.ok none, { a with partialMessage := some (kind, buffer) })
      else ((finishUnfragmented kind buffer).map some, { a with partialMessage := none })

/-- Handle the first frame of a data message. -/
def acceptData (a : Assembler) (kind : DataKind) (fin : Bool) (payload : Bytes) :
    Except ProtocolError (Option Message) × Assembler :=
  if a.partialMessage.isSome then (.error .interleavedDataFrame, a)
  else if payload.length > a.limits.maxMessage then (.error .messageTooLarge, a)
  else if fin then ((finishUnfragmented kind payload).map some, a)
  else (.ok none, { a with partialMessage := some (kind, payload) })

/-- Feed one decoded frame. The result is `some` when the frame completed a
message; whatever arrives after a close frame is discarded. -/
def accept (a : Assembler) (f : Frame) : Except ProtocolError (Option Message) × Assembler :=
  if a.closed then (.ok none, a)
  else if hcontrol : f.opcode.isControl = true then
    let r := a.acceptControl f.opcode hcontrol f.payload
    (r.1.map some, r.2)
  else
    match f.opcode, hcontrol with
    | .continuation, _ => a.acceptContinuation f.fin f.payload
    | .text, _ => a.acceptData .text f.fin f.payload
    | .binary, _ => a.acceptData .binary f.fin f.payload

variable {a : Assembler}

/-- Behind a close frame everything is discarded. -/
@[simp] theorem accept_closed (f : Frame) (h : a.closed = true) : a.accept f = (.ok none, a) := by
  rw [accept, if_pos h]

/-- A probe is delivered at once and changes nothing. -/
theorem accept_ping (fin : Bool) (payload : Bytes) (h : a.closed = false) :
    a.accept ⟨.ping, fin, payload⟩ = (.ok (some (.ping payload)), a) := by
  rw [accept, if_neg (by rw [h]; decide)]
  rfl

/-- A reply is delivered at once and changes nothing. -/
theorem accept_pong (fin : Bool) (payload : Bytes) (h : a.closed = false) :
    a.accept ⟨.pong, fin, payload⟩ = (.ok (some (.pong payload)), a) := by
  rw [accept, if_neg (by rw [h]; decide)]
  rfl

/-- A close frame closes the assembler, whatever its body. -/
theorem accept_close (fin : Bool) (payload : Bytes) (h : a.closed = false) :
    a.accept ⟨.close, fin, payload⟩ =
      ((parseCloseBody payload).map (some ∘ Message.close), { a with closed := true }) := by
  rw [accept, if_neg (by rw [h]; decide)]
  simp only [OpCode.isControl, acceptControl]
  cases parseCloseBody payload <;> rfl

/-- A continuation frame joins the message in progress. -/
theorem accept_continuation (fin : Bool) (payload : Bytes) (h : a.closed = false) :
    a.accept ⟨.continuation, fin, payload⟩ = a.acceptContinuation fin payload := by
  rw [accept, if_neg (by rw [h]; decide)]
  rfl

/-- A text or binary frame opens a message. -/
theorem accept_data (kind : DataKind) (fin : Bool) (payload : Bytes) (h : a.closed = false) :
    a.accept ⟨kind.opcode, fin, payload⟩ = a.acceptData kind fin payload := by
  rw [accept, if_neg (by rw [h]; decide)]
  cases kind <;> rfl

/-- A continuation frame changes neither the limits nor the closed flag. -/
theorem acceptContinuation_fixed (a : Assembler) (fin : Bool) (payload : Bytes) :
    (a.acceptContinuation fin payload).2.limits = a.limits ∧
      (a.acceptContinuation fin payload).2.closed = a.closed := by
  rw [acceptContinuation]
  split
  · exact ⟨rfl, rfl⟩
  · split
    · exact ⟨rfl, rfl⟩
    · simp only
      split <;> exact ⟨rfl, rfl⟩

/-- The first frame of a message changes neither the limits nor the closed flag. -/
theorem acceptData_fixed (a : Assembler) (kind : DataKind) (fin : Bool) (payload : Bytes) :
    (a.acceptData kind fin payload).2.limits = a.limits ∧
      (a.acceptData kind fin payload).2.closed = a.closed := by
  rw [acceptData]
  split
  · exact ⟨rfl, rfl⟩
  · split
    · exact ⟨rfl, rfl⟩
    · split <;> exact ⟨rfl, rfl⟩

/-- Limits never change, and an assembler is closed by a close frame only. -/
theorem accept_fixed (a : Assembler) (f : Frame) :
    (a.accept f).2.limits = a.limits ∧
      (a.accept f).2.closed = (a.closed || f.opcode == .close) := by
  obtain ⟨opcode, fin, payload⟩ := f
  cases hc : a.closed with
  | true => rw [accept_closed _ hc]; exact ⟨rfl, hc⟩
  | false =>
    cases opcode with
    | ping => rw [accept_ping fin payload hc]; exact ⟨rfl, hc⟩
    | pong => rw [accept_pong fin payload hc]; exact ⟨rfl, hc⟩
    | close => rw [accept_close fin payload hc]; exact ⟨rfl, rfl⟩
    | continuation =>
      have h := a.acceptContinuation_fixed fin payload
      rw [accept_continuation fin payload hc, h.1, h.2, hc]
      exact ⟨rfl, rfl⟩
    | text =>
      have h := a.acceptData_fixed .text fin payload
      have ha := accept_data .text fin payload hc
      simp only [DataKind.opcode] at ha
      rw [ha, h.1, h.2, hc]
      exact ⟨rfl, rfl⟩
    | binary =>
      have h := a.acceptData_fixed .binary fin payload
      have ha := accept_data .binary fin payload hc
      simp only [DataKind.opcode] at ha
      rw [ha, h.1, h.2, hc]
      exact ⟨rfl, rfl⟩

@[simp] theorem accept_limits (a : Assembler) (f : Frame) : (a.accept f).2.limits = a.limits :=
  (a.accept_fixed f).1

/-- Completing a data message gives no close message. -/
theorem finishUnfragmented_ne_close (kind : DataKind) (payload : Bytes)
    (content : Option CloseFrame) :
    (finishUnfragmented kind payload).map some ≠ .ok (some (.close content)) := by
  cases kind with
  | binary => simp [finishUnfragmented, Except.map]
  | text =>
    rw [finishUnfragmented]
    split <;> simp [Except.map]

/-- A close message comes from a close frame. -/
theorem accept_ne_close {f : Frame} (hf : f.opcode ≠ .close) (content : Option CloseFrame) :
    (a.accept f).1 ≠ .ok (some (.close content)) := by
  obtain ⟨opcode, fin, payload⟩ := f
  have hdata (kind : DataKind) (fin : Bool) :
      (a.acceptData kind fin payload).1 ≠ .ok (some (.close content)) := by
    rw [acceptData]
    split
    · simp
    · split
      · simp
      · split
        · exact finishUnfragmented_ne_close kind payload content
        · simp
  cases hc : a.closed with
  | true =>
    rw [accept_closed _ hc]
    simp
  | false =>
    cases opcode with
    | close => exact absurd rfl hf
    | ping =>
      rw [accept_ping fin payload hc]
      simp
    | pong =>
      rw [accept_pong fin payload hc]
      simp
    | continuation =>
      rw [accept_continuation fin payload hc, acceptContinuation]
      split
      · simp
      · split
        · simp
        · simp only
          split
          · simp
          · exact finishUnfragmented_ne_close _ _ content
    | text =>
      have ha := accept_data .text fin payload hc
      simp only [DataKind.opcode] at ha
      rw [ha]
      exact hdata .text fin
    | binary =>
      have ha := accept_data .binary fin payload hc
      simp only [DataKind.opcode] at ha
      rw [ha]
      exact hdata .binary fin

end Assembler

end NagoWss
