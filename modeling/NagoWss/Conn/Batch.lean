import NagoWss.Conn.Sending

/-!
# Batches

Encoding messages back to back into one buffer and writing that is the same as
writing the messages one by one: the same bytes go out under the same keys, and the
connection is left in the same state. Nothing stays in the buffer.
-/

namespace NagoWss

namespace Connection

/-- Write messages one by one, with the result of each. -/
def writeEach (c : Connection) : List Message → List (Except Error Unit) × Connection
  | [] => ([], c)
  | message :: messages =>
    let (result, c) := c.write message
    let (results, c) := writeEach c messages
    (result :: results, c)

/-- Two connections that differ in the stream and the reused buffers only. -/
structure SameSender (c d : Connection) : Prop where
  /-- The byte order. -/
  endian : c.endian = d.endian
  /-- The role. -/
  role : c.role = d.role
  /-- The reassembly state. -/
  assembler : c.assembler = d.assembler
  /-- The bytes not yet parsed. -/
  readBuffer : c.readBuffer = d.readBuffer
  /-- The state of the key generator. -/
  maskState : c.maskState = d.maskState
  /-- Whether a close frame was sent. -/
  closeSent : c.closeSent = d.closeSent

namespace SameSender

variable {c d : Connection}

theorem refl (c : Connection) : c.SameSender c := ⟨rfl, rfl, rfl, rfl, rfl, rfl⟩

theorem noteClose (h : c.SameSender d) (m : Message) :
    (c.noteClose m).SameSender (d.noteClose m) := by
  rw [noteClose_eq, noteClose_eq]
  exact ⟨h.endian, h.role, h.assembler, h.readBuffer, h.maskState, by rw [h.closeSent]⟩

/-- The next mask is the same, and so is what is left of the generator. -/
theorem frameMask (h : c.SameSender d) :
    c.frameMask.1 = d.frameMask.1 ∧ c.frameMask.2.SameSender d.frameMask.2 := by
  rw [Connection.frameMask, Connection.frameMask, ← h.role]
  cases c.role with
  | client =>
    simp only [nextMask, h.maskState, h.endian, true_and]
    exact ⟨rfl, h.role, h.assembler, h.readBuffer, rfl, h.closeSent⟩
  | server => exact ⟨rfl, h⟩

/-- The next frame is the same, byte for byte. -/
theorem frameBytes (h : c.SameSender d) (opcode : OpCode) (payload : Bytes) :
    c.frameBytes opcode payload = d.frameBytes opcode payload := by
  rw [Connection.frameBytes, Connection.frameBytes, h.frameMask.1, h.endian]

end SameSender

/-- One message written to a stream that does not fail. -/
theorem write_reliable {c : Connection} (h : c.stream.Reliable) (m : Message) :
    let c' := c.noteClose m
    (c.write m).1 = .ok () ∧ c'.frameMask.2.SameSender (c.write m).2 ∧
      (c.write m).2.stream.Reliable ∧
      (c.write m).2.stream.sent = c.stream.sent ++ c'.frameBytes (frameOf m).1 (frameOf m).2 ∧
      (c.write m).2.stream.incoming = c.stream.incoming := by
  intro c'
  have hstream : c'.stream = c.stream := by
    rw [show c' = c.noteClose m from rfl, noteClose_eq]
  obtain ⟨hresult, hstate⟩ := c'.writeFrame_frameBytes (frameOf m).1 (frameOf m).2
  obtain ⟨hok, hreliable⟩ := h.writeAll (c'.frameBytes (frameOf m).1 (frameOf m).2)
  rw [hstream] at hresult hstate
  rcases hw : c.stream.writeAll (c'.frameBytes (frameOf m).1 (frameOf m).2) with ⟨result, stream⟩
  rw [hw] at hresult hstate hok hreliable
  obtain rfl : result = .ok () := hok
  obtain ⟨hsent, hincoming⟩ := ByteStream.writeAll_ok hw
  have hwrite : c.write m = c'.writeFrame (frameOf m).1 true (frameOf m).2 := rfl
  rw [hwrite, hresult, hstate]
  exact ⟨rfl, ⟨rfl, rfl, rfl, rfl, rfl, rfl⟩, hreliable, hsent, hincoming⟩

/-- Encoding a batch appends the bytes that writing each message would put on the wire,
and leaves the same sender behind. -/
theorem encodeAll_writeEach {c d : Connection} (h : c.SameSender d) (hd : d.stream.Reliable)
    (outgoing : Bytes) (messages : List Message) :
    ∃ bytes, (c.encodeAll outgoing messages).1 = .ok () ∧
      (c.encodeAll outgoing messages).2.1 = outgoing ++ bytes ∧
      (c.encodeAll outgoing messages).2.2.SameSender (d.writeEach messages).2 ∧
      (c.encodeAll outgoing messages).2.2.stream = c.stream ∧
      (∀ result ∈ (d.writeEach messages).1, result = .ok ()) ∧
      (d.writeEach messages).2.stream.sent = d.stream.sent ++ bytes ∧
      (d.writeEach messages).2.stream.incoming = d.stream.incoming := by
  induction messages generalizing c d outgoing with
  | nil =>
    refine ⟨[], rfl, (List.append_nil outgoing).symm, h, rfl, List.forall_mem_nil _, ?_, rfl⟩
    exact (List.append_nil d.stream.sent).symm
  | cons m messages ih =>
    have hnote := h.noteClose m
    obtain ⟨hok, hsender, hreliable, hsent, hincoming⟩ := write_reliable hd m
    have hframe := hnote.frameBytes (frameOf m).1 (frameOf m).2
    have hnext : (c.noteClose m).frameMask.2.SameSender (d.write m).2 := by
      have hmask := hnote.frameMask.2
      exact ⟨hmask.endian.trans hsender.endian, hmask.role.trans hsender.role,
        hmask.assembler.trans hsender.assembler, hmask.readBuffer.trans hsender.readBuffer,
        hmask.maskState.trans hsender.maskState, hmask.closeSent.trans hsender.closeSent⟩
    have hstream : (c.noteClose m).frameMask.2.stream = c.stream := by
      rw [frameMask_fixed, noteClose_eq]
    obtain ⟨bytes, hencode, hbuffer, hsame, hkept, hresults, hwire, hunread⟩ := ih hnext hreliable
      (outgoing ++ (c.noteClose m).frameBytes (frameOf m).1 (frameOf m).2)
    have hall : c.encodeAll outgoing (m :: messages) = (c.noteClose m).frameMask.2.encodeAll
        (outgoing ++ (c.noteClose m).frameBytes (frameOf m).1 (frameOf m).2) messages := by
      rw [encodeAll]
      simp only [encodeFrame_frameBytes]
    have heach : d.writeEach (m :: messages) =
        ((d.write m).1 :: ((d.write m).2.writeEach messages).1,
          ((d.write m).2.writeEach messages).2) := rfl
    rw [hall, heach]
    refine ⟨(c.noteClose m).frameBytes (frameOf m).1 (frameOf m).2 ++ bytes, hencode, ?_, hsame,
      hkept.trans hstream, List.forall_mem_cons.mpr ⟨hok, hresults⟩, ?_, hunread.trans hincoming⟩
    · rw [hbuffer, List.append_assoc]
    · rw [hwire, hsent, ← hframe, List.append_assoc]

/-- On a stream that does not fail, a batch puts on the wire what writing its messages one
by one would, with the same results, and leaves the connection in the same state. However
the stream fares, nothing is left in the buffer of the batch. -/
theorem writeAll_eq_writeEach (c : Connection) (messages : List Message) :
    (c.stream.Reliable →
      (c.writeAll messages).1 = .ok () ∧
        (∀ result ∈ (c.writeEach messages).1, result = .ok ()) ∧
        (c.writeAll messages).2.stream.sent = (c.writeEach messages).2.stream.sent ∧
        (c.writeAll messages).2.stream.incoming = (c.writeEach messages).2.stream.incoming ∧
        (c.writeAll messages).2.SameSender (c.writeEach messages).2) ∧
      (c.writeAll messages).2.outgoing = [] := by
  refine ⟨fun h => ?_, ?_⟩
  · obtain ⟨bytes, hencode, hbuffer, hsame, hstream, hresults, hwire, hunread⟩ :=
      encodeAll_writeEach (.refl c) h [] messages
    rcases he : c.encodeAll [] messages with ⟨result, outgoing, c'⟩
    rw [he] at hencode hbuffer hsame hstream
    simp only [List.nil_append] at hencode hbuffer hsame hstream
    subst hencode hbuffer
    simp only [writeAll, he]
    have hsame' (stream : ByteStream) : SameSender { c' with stream := stream, outgoing := [] }
        (c.writeEach messages).2 :=
      ⟨hsame.endian, hsame.role, hsame.assembler, hsame.readBuffer, hsame.maskState,
        hsame.closeSent⟩
    split
    · next hempty =>
      rw [List.isEmpty_iff.mp hempty, List.append_nil] at hwire
      rw [hstream, hwire, hunread]
      exact ⟨rfl, hresults, rfl, rfl, hsame' _⟩
    · have hok := (h.writeAll outgoing).1
      rw [hstream]
      rcases hw : c.stream.writeAll outgoing with ⟨flushed, stream⟩
      rw [hw] at hok
      obtain rfl : flushed = .ok () := hok
      obtain ⟨hsent, hincoming⟩ := ByteStream.writeAll_ok hw
      rw [hwire, hunread]
      exact ⟨rfl, hresults, hsent, hincoming, hsame' _⟩
  · simp only [writeAll]
    split <;> rfl

/-- A client sends text, a probe and a close frame as one batch. -/
theorem writeAll_eq_writeEach_client :
    let c := Connection.new .little 7 (.ofChunks []) .client .default
    let messages := [.text [104, 105], .ping [], .close (some ⟨⟨1000⟩, []⟩)]
    (c.writeAll messages).2.stream.sent = (c.writeEach messages).2.stream.sent ∧
      (c.writeAll messages).2.maskState = (c.writeEach messages).2.maskState := by
  intro c messages
  obtain ⟨-, -, hsent, -, hsame⟩ :=
    (writeAll_eq_writeEach c messages).1 fun outcome houtcome => by cases houtcome
  exact ⟨hsent, hsame.maskState⟩

end Connection

end NagoWss
