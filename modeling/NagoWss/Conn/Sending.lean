import Mathlib.Data.List.Forall2
import NagoWss.Conn.Ending

/-!
# Sending

Every call that sends puts one frame on the wire for each message it was handed,
and the frame carries that message. What a peer makes of it is settled by the
message alone: the send path checks nothing that the receive path checks.
-/

namespace NagoWss

open Framing

/-! ## Messages and their frames -/

/-- The content a peer receives: a code that must never be sent is replaced. -/
def CloseFrame.normalised (f : CloseFrame) : CloseFrame where
  code := if f.code.isSendable then f.code else CloseCode.INTERNAL_ERROR
  reason := f.reason

namespace Message

/-- Whether this is a close message. -/
def isClose : Message → Bool
  | .close _ => true
  | _ => false

/-- What a peer may receive: text that is UTF-8, a probe or reply of at most 125
bytes, a close reason that is UTF-8 and leaves room for the code. -/
def Legal : Message → Prop
  | .text payload => ∃ text, payload = Utf8.encode text
  | .binary _ => True
  | .ping payload => payload.length ≤ 125
  | .pong payload => payload.length ≤ 125
  | .close none => True
  | .close (some f) => f.reason.length ≤ 123 ∧ ∃ text, f.reason = Utf8.encode text

/-- The message a peer receives. -/
def normalised : Message → Message
  | .close frame => .close (frame.map CloseFrame.normalised)
  | m => m

/-- The payload of the frame fits in memory. -/
def Fits (m : Message) : Prop := (Connection.frameOf m).2.length < 2 ^ 63

instance (m : Message) : Decidable m.Fits := inferInstanceAs (Decidable (_ < _))

theorem opcode_eq_close_iff (m : Message) :
    (Connection.frameOf m).1 = .close ↔ m.isClose = true := by
  cases m <;> simp [Connection.frameOf, isClose]

end Message

/-- A frame on the wire that carries a message from a sender of this role. -/
structure Carries (role : Role) (m : Message) (w : WireFrame) : Prop where
  /-- Every frame sent is final. -/
  fin : w.fin = true
  /-- The opcode is that of the message. -/
  opcode : w.opcode = (Connection.frameOf m).1
  /-- A client masks and a server does not. -/
  mask : w.mask.isSome = (role = .client)
  /-- Under the mask is the payload of the message. -/
  payload : unmaskReference w.mask w.payload = (Connection.frameOf m).2

/-- The frame with the mask taken off. -/
theorem Carries.frame_eq {role : Role} {m : Message} {w : WireFrame} (h : Carries role m w) :
    w.frame = ⟨(Connection.frameOf m).1, true, (Connection.frameOf m).2⟩ := by
  rw [WireFrame.frame, h.opcode, h.fin, h.payload]

theorem Carries.length_eq {role : Role} {m : Message} {w : WireFrame} (h : Carries role m w) :
    w.payload.length = (Connection.frameOf m).2.length := by
  rw [← h.payload, WireFrame.length_unmaskReference]

/-- The peer of the sender expects the mask that was put on. -/
theorem Carries.mask_opposite {role : Role} {m : Message} {w : WireFrame} (h : Carries role m w) :
    w.mask.isSome = (role.opposite = .server) := by
  rw [h.mask]
  cases role <;> simp [Role.opposite]

/-! ## What a call puts on the wire -/

/-- The messages a call sends; closing again sends nothing. -/
def Call.messages (closeSent : Bool) : Call → List Message
  | .write message => [message]
  | .writeAll messages => messages
  | .pong payload => [.pong payload]
  | .close frame => if closeSent then [] else [.close frame]

namespace Connection

/-- Sending leaves alone what receiving depends on. -/
structure KeepsReceiving (c c' : Connection) : Prop where
  /-- The byte order. -/
  endian : c'.endian = c.endian
  /-- The role. -/
  role : c'.role = c.role
  /-- The reassembly state. -/
  assembler : c'.assembler = c.assembler
  /-- The bytes not yet parsed. -/
  readBuffer : c'.readBuffer = c.readBuffer
  /-- The bytes still to be read. -/
  incoming : c'.stream.incoming = c.stream.incoming

theorem KeepsReceiving.refl (c : Connection) : c.KeepsReceiving c := ⟨rfl, rfl, rfl, rfl, rfl⟩

theorem KeepsReceiving.trans {c₁ c₂ c₃ : Connection} (h : c₁.KeepsReceiving c₂)
    (h' : c₂.KeepsReceiving c₃) : c₁.KeepsReceiving c₃ :=
  ⟨h'.endian.trans h.endian, h'.role.trans h.role, h'.assembler.trans h.assembler,
    h'.readBuffer.trans h.readBuffer, h'.incoming.trans h.incoming⟩

/-- Choosing the mask touches the key generator only. -/
theorem frameMask_fixed (c : Connection) :
    c.frameMask.2 = { c with maskState := c.frameMask.2.maskState } := by
  unfold frameMask
  split <;> rfl

theorem frameMask_isSome (c : Connection) : c.frameMask.1.isSome = (c.role = .client) := by
  rw [frameMask]
  cases c.role <;> simp

/-- Putting a mask on is taking it off. -/
theorem unmaskReference_unmask (endian : Endian) (mask : Option Mask) (payload : Bytes) :
    unmaskReference mask (unmask endian mask payload) = payload := by
  rw [unmask_eq]
  cases mask with
  | none => rfl
  | some key => exact Mask.reference_reference payload key 0

/-- The next frame a connection writes for a message. -/
def wireFrame (c : Connection) (m : Message) (h : m.Fits) : WireFrame where
  fin := true
  opcode := (frameOf m).1
  mask := c.frameMask.1
  payload := unmask c.endian c.frameMask.1 (frameOf m).2
  bound := by
    rw [unmask_eq, WireFrame.length_unmaskReference]
    exact h

/-- The next frame carries the message. -/
theorem carries_wireFrame (c : Connection) (m : Message) (h : m.Fits) :
    Carries c.role m (c.wireFrame m h) :=
  ⟨rfl, rfl, c.frameMask_isSome, unmaskReference_unmask _ _ _⟩

/-- The header that is encoded for a message is that of its frame. -/
theorem header_wireFrame (c : Connection) (m : Message) (h : m.Fits) :
    (⟨true, (frameOf m).1, c.frameMask.1, UInt64.ofNat (frameOf m).2.length⟩ : Header) =
      (c.wireFrame m h).header := by
  rw [WireFrame.header, ← (c.carries_wireFrame m h).length_eq]
  rfl

/-- The bytes of the next frame: its header and the masked payload. -/
def frameBytes (c : Connection) (opcode : OpCode) (payload : Bytes) : Bytes :=
  (⟨true, opcode, c.frameMask.1, UInt64.ofNat payload.length⟩ : Header).bytes ++
    unmask c.endian c.frameMask.1 payload

/-- The bytes of the next frame that carries a message. -/
theorem frameBytes_eq (c : Connection) (m : Message) (h : m.Fits) :
    c.frameBytes (frameOf m).1 (frameOf m).2 = (c.wireFrame m h).bytes := by
  rw [frameBytes, c.header_wireFrame m h]
  rfl

/-- Writing a frame hands its bytes to the stream at once. -/
theorem writeFrame_frameBytes (c : Connection) (opcode : OpCode) (payload : Bytes) :
    let written := c.stream.writeAll (c.frameBytes opcode payload)
    let r := c.writeFrame opcode true payload
    r.1 = written.1.mapError .io ∧
      r.2 = { c.frameMask.2 with stream := written.2, scratch := r.2.scratch } := by
  have hfixed := c.frameMask_fixed
  have hstream := congrArg Connection.stream hfixed
  have hendian := congrArg Connection.endian hfixed
  simp only at hstream hendian
  simp only [writeFrame, Header.written_eq, ByteStream.writeAllVectored, hstream, frameBytes]
  cases hmask : c.frameMask.1 with
  | none => exact ⟨rfl, rfl⟩
  | some key =>
    simp only [hendian]
    exact ⟨rfl, rfl⟩

/-- Writing a message hands its frame to the stream at once. -/
theorem writeFrame_eq (c : Connection) (m : Message) (h : m.Fits) :
    let written := c.stream.writeAll (c.wireFrame m h).bytes
    let r := c.writeFrame (frameOf m).1 true (frameOf m).2
    r.1 = written.1.mapError .io ∧ r.2.stream = written.2 ∧ r.2.closeSent = c.closeSent ∧
      r.2 = { c with
        stream := r.2.stream, scratch := r.2.scratch, maskState := r.2.maskState } := by
  obtain ⟨hresult, hstate⟩ := c.writeFrame_frameBytes (frameOf m).1 (frameOf m).2
  rw [c.frameBytes_eq m h] at hresult hstate
  rw [c.frameMask_fixed] at hstate
  refine ⟨hresult, ?_, ?_, ?_⟩ <;> rw [hstate]

/-- What a call that succeeds has done: for each message it was handed there is a
frame on the wire, in order, and receiving is as it was. -/
structure Sends (c c' : Connection) (messages : List Message) : Prop where
  /-- Receiving is as it was. -/
  keeps : c.KeepsReceiving c'
  /-- A close message is noted. -/
  closeSent : c'.closeSent = (c.closeSent || messages.any Message.isClose)
  /-- The frames on the wire. -/
  frames : ∃ ws : List WireFrame, List.Forall₂ (Carries c.role) messages ws ∧
    c'.stream.sent = c.stream.sent ++ ws.flatMap WireFrame.bytes

theorem noteClose_eq (c : Connection) (m : Message) :
    c.noteClose m = { c with closeSent := c.closeSent || m.isClose } := by
  cases m <;> simp [noteClose, Message.isClose]

theorem keepsReceiving_noteClose (c : Connection) (m : Message) :
    c.KeepsReceiving (c.noteClose m) := by
  rw [noteClose_eq]
  exact ⟨rfl, rfl, rfl, rfl, rfl⟩

/-- Writing a frame that succeeds puts it on the wire. -/
theorem writeFrame_sends {c c' : Connection} {m : Message} (hfits : m.Fits)
    (h : c.writeFrame (frameOf m).1 true (frameOf m).2 = (.ok (), c')) :
    c.KeepsReceiving c' ∧ c'.closeSent = c.closeSent ∧
      c'.stream.sent = c.stream.sent ++ (c.wireFrame m hfits).bytes := by
  obtain ⟨hresult, hstream, hclose, hfixed⟩ := c.writeFrame_eq m hfits
  rw [h] at hresult hstream hclose hfixed
  rcases hw : c.stream.writeAll (c.wireFrame m hfits).bytes with ⟨_ | _, stream⟩
  · rw [hw] at hresult
    cases hresult
  · obtain ⟨hsent, hincoming⟩ := ByteStream.writeAll_ok hw
    rw [hw] at hstream
    simp only at hstream hclose hfixed
    refine ⟨?_, hclose, by rw [hstream, hsent]⟩
    rw [hfixed, hstream]
    exact ⟨rfl, rfl, rfl, rfl, hincoming⟩

/-- One message sent by itself. -/
theorem write_sends {c c' : Connection} {m : Message} (hfits : m.Fits)
    (h : c.write m = (.ok (), c')) : c.Sends c' [m] := by
  have hnote := c.keepsReceiving_noteClose m
  obtain ⟨hkeeps, hclose, hsent⟩ := writeFrame_sends hfits h
  have hcarries := (c.noteClose m).carries_wireFrame m hfits
  rw [hnote.role] at hcarries
  refine ⟨hnote.trans hkeeps, ?_, [_], .cons hcarries .nil, ?_⟩
  · rw [hclose, noteClose_eq, List.any_cons, List.any_nil, Bool.or_false]
  · rw [hsent, List.flatMap_singleton, noteClose_eq]

/-- A reply sent by itself. -/
theorem pong_sends {c c' : Connection} {payload : Bytes} (hfits : (Message.pong payload).Fits)
    (h : c.pong payload = (.ok (), c')) : c.Sends c' [.pong payload] :=
  write_sends hfits h

/-- Encoding a frame appends its bytes. -/
theorem encodeFrame_frameBytes (c : Connection) (outgoing : Bytes) (opcode : OpCode)
    (payload : Bytes) : c.encodeFrame outgoing opcode true payload =
      (outgoing ++ c.frameBytes opcode payload, c.frameMask.2) := by
  have hendian := congrArg Connection.endian c.frameMask_fixed
  simp only at hendian
  simp only [encodeFrame, frameBytes, Header.written_eq]
  cases hmask : c.frameMask.1 with
  | none => simp only [unmask, List.append_assoc]
  | some key =>
    simp only [hendian, unmask, List.take_left, List.drop_left]
    rw [List.append_assoc]

/-- Encoding a message appends its frame. -/
theorem encodeFrame_eq (c : Connection) (outgoing : Bytes) (m : Message) (h : m.Fits) :
    c.encodeFrame outgoing (frameOf m).1 true (frameOf m).2 =
      (outgoing ++ (c.wireFrame m h).bytes, c.frameMask.2) := by
  rw [encodeFrame_frameBytes, c.frameBytes_eq m h]

/-- Encoding a batch appends a frame for each message, in order, and never fails. -/
theorem encodeAll_eq (c : Connection) (outgoing : Bytes) (messages : List Message)
    (hfits : ∀ m ∈ messages, m.Fits) :
    ∃ (ws : List WireFrame) (state : UInt64), List.Forall₂ (Carries c.role) messages ws ∧
      c.encodeAll outgoing messages = (.ok (), outgoing ++ ws.flatMap WireFrame.bytes,
        { c with
          maskState := state, closeSent := c.closeSent || messages.any Message.isClose }) := by
  induction messages generalizing c outgoing with
  | nil =>
    refine ⟨[], c.maskState, .nil, ?_⟩
    simp [encodeAll]
  | cons m messages ih =>
    have hm := hfits m List.mem_cons_self
    have hrest := fun x hx => hfits x (List.mem_cons_of_mem m hx)
    have hcarries := (c.noteClose m).carries_wireFrame m hm
    obtain ⟨ws, state, hws, heq⟩ := ih (c.noteClose m).frameMask.2
      (outgoing ++ ((c.noteClose m).wireFrame m hm).bytes) hrest
    have hnote := c.noteClose_eq m
    have hfixed := (c.noteClose m).frameMask_fixed
    refine ⟨(c.noteClose m).wireFrame m hm :: ws, state, .cons ?_ ?_, ?_⟩
    · rw [(c.keepsReceiving_noteClose m).role] at hcarries
      exact hcarries
    · rw [hfixed, hnote] at hws
      exact hws
    · rw [encodeAll]
      simp only [encodeFrame_eq _ _ _ hm]
      rw [heq, List.flatMap_cons, List.append_assoc, List.any_cons, hfixed, hnote]
      simp only [Bool.or_assoc]

/-- Encoding a batch leaves alone what receiving depends on, and the stream. -/
theorem encodeAll_keepsReceiving (c : Connection) (outgoing : Bytes) (messages : List Message) :
    c.KeepsReceiving (c.encodeAll outgoing messages).2.2 ∧
      (c.encodeAll outgoing messages).2.2.stream = c.stream := by
  induction messages generalizing c outgoing with
  | nil => exact ⟨.refl c, rfl⟩
  | cons m messages ih =>
    have hnote := c.keepsReceiving_noteClose m
    have hmask : (c.noteClose m).KeepsReceiving (c.noteClose m).frameMask.2 := by
      rw [frameMask_fixed]
      exact ⟨rfl, rfl, rfl, rfl, rfl⟩
    have hstream : (c.noteClose m).frameMask.2.stream = c.stream := by
      rw [frameMask_fixed, noteClose_eq]
    rw [encodeAll]
    simp only [encodeFrame_frameBytes]
    obtain ⟨hkeeps, hsame⟩ := ih (c.noteClose m).frameMask.2
      (outgoing ++ (c.noteClose m).frameBytes (frameOf m).1 (frameOf m).2)
    exact ⟨(hnote.trans hmask).trans hkeeps, hsame.trans hstream⟩

/-- Writing a frame leaves alone what receiving depends on, also if it fails. -/
theorem writeFrame_keepsReceiving (c : Connection) (opcode : OpCode) (payload : Bytes) :
    c.KeepsReceiving (c.writeFrame opcode true payload).2 := by
  have hincoming := c.stream.writeAll_incoming (c.frameBytes opcode payload)
  rw [(c.writeFrame_frameBytes opcode payload).2, frameMask_fixed]
  exact ⟨rfl, rfl, rfl, rfl, hincoming⟩

/-- Sending leaves alone what receiving depends on, also if it fails. -/
theorem call_keepsReceiving (c : Connection) (call : Call) :
    c.KeepsReceiving (c.call call).2 := by
  have hwrite (m : Message) : c.KeepsReceiving (c.write m).2 :=
    (c.keepsReceiving_noteClose m).trans ((c.noteClose m).writeFrame_keepsReceiving _ _)
  cases call with
  | write m => exact hwrite m
  | pong payload => exact c.writeFrame_keepsReceiving _ _
  | close frame =>
    simp only [Connection.call, close]
    split
    · exact .refl c
    · exact hwrite _
  | writeAll messages =>
    obtain ⟨hkeeps, hsame⟩ := c.encodeAll_keepsReceiving [] messages
    rcases he : c.encodeAll [] messages with ⟨result, outgoing, c'⟩
    rw [he] at hkeeps hsame
    simp only at hkeeps hsame
    have hstream (stream : ByteStream) (hin : stream.incoming = c'.stream.incoming) :
        c.KeepsReceiving { c' with stream := stream, outgoing := [] } :=
      ⟨hkeeps.endian, hkeeps.role, hkeeps.assembler, hkeeps.readBuffer, hin.trans hkeeps.incoming⟩
    simp only [Connection.call, writeAll, he]
    split
    all_goals
      split
      · exact hstream _ rfl
      · exact hstream _ (c'.stream.writeAll_incoming outgoing)

/-- A batch sent as one write. -/
theorem writeAll_sends {c c' : Connection} {messages : List Message}
    (hfits : ∀ m ∈ messages, m.Fits) (h : c.writeAll messages = (.ok (), c')) :
    c.Sends c' messages := by
  obtain ⟨ws, state, hws, heq⟩ := c.encodeAll_eq [] messages hfits
  rw [writeAll, heq] at h
  simp only [List.nil_append] at h
  split at h
  · next hempty =>
    cases h
    refine ⟨⟨rfl, rfl, rfl, rfl, rfl⟩, rfl, ws, hws, ?_⟩
    rw [List.isEmpty_iff.mp hempty, List.append_nil]
  · rcases hw : c.stream.writeAll (ws.flatMap WireFrame.bytes) with ⟨_ | _, stream⟩
    · rw [hw] at h
      cases h
    · rw [hw] at h
      cases h
      obtain ⟨hsent, hincoming⟩ := ByteStream.writeAll_ok hw
      exact ⟨⟨rfl, rfl, rfl, rfl, hincoming⟩, rfl, ws, hws, hsent⟩

/-- Every call that succeeds puts a frame on the wire for each of its messages. -/
theorem call_sends {c c' : Connection} {call : Call}
    (hfits : ∀ m ∈ call.messages c.closeSent, m.Fits) (h : c.call call = (.ok (), c')) :
    c.Sends c' (call.messages c.closeSent) := by
  cases call with
  | write m => exact write_sends (hfits m List.mem_cons_self) h
  | writeAll messages => exact writeAll_sends hfits h
  | pong payload => exact pong_sends (hfits _ List.mem_cons_self) h
  | close frame =>
    simp only [call, close] at h
    rw [Call.messages] at hfits ⊢
    split at h
    · next hclosed =>
      cases h
      rw [if_pos hclosed]
      exact ⟨.refl c, (Bool.or_false _).symm, [], .nil, (List.append_nil _).symm⟩
    · next hopen =>
      rw [if_neg hopen] at hfits ⊢
      exact write_sends (hfits _ List.mem_cons_self) h

end Connection

end NagoWss
