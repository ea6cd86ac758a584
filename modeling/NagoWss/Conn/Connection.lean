import NagoWss.Conn.Stream
import NagoWss.Proto.FrameCodec
import NagoWss.Proto.Handshake
import NagoWss.Proto.Mask
import NagoWss.Proto.Message

/-!
# A connection

The protocol core driven over a byte stream: one read buffer that frames are
parsed out of in place, and writes that go out as soon as they are made.

The room that `reserve` asks for, and a message in progress, is taken to be granted, here
and wherever reading is spoken of without a target: for that it is enough that the target
affords the limits (`Target.Affords`). What becomes of a read where it does not is said of
`Connection.readOn`.
-/

namespace NagoWss

/-- Which side of the connection this is. -/
inductive Role
  /-- The connecting side, which masks what it sends. -/
  | client
  /-- The accepting side, which never masks. -/
  | server
  deriving DecidableEq, Repr

/-- The role of the peer. -/
def Role.opposite : Role → Role
  | client => server
  | server => client

/-- Anything that can go wrong on a live connection. -/
inductive Error
  /-- The transport failed. -/
  | io (error : Errno)
  /-- A frame could not be decoded. -/
  | frame (error : FrameError)
  /-- A rule spanning frames was broken. -/
  | protocol (error : ProtocolError)
  /-- The peer masked when it should not have, or did not when it should. -/
  | maskingViolation
  /-- The peer closed the connection without a closing handshake. -/
  | unexpectedEof
  /-- The opening handshake failed. -/
  | upgrade (error : UpgradeError)
  /-- The URL could not be used. -/
  | url (reason : List Char)
  deriving DecidableEq, Repr

/-- The close code a failure is reported to the peer with, unless there is no one left
to tell. -/
def Error.closeCode : Error → Option CloseCode
  | .frame .tooLarge => some .TOO_LARGE
  | .frame _ | .maskingViolation => some .PROTOCOL
  | .protocol .invalidUtf8 => some .INVALID_PAYLOAD
  | .protocol .messageTooLarge => some .TOO_LARGE
  | .protocol _ => some .PROTOCOL
  | .io _ | .unexpectedEof | .upgrade _ | .url _ => none

/-- A live WebSocket connection. -/
structure Connection where
  /-- The byte order of the target. -/
  endian : Endian
  /-- The transport. -/
  stream : ByteStream
  /-- Which side this is. -/
  role : Role
  /-- The reassembly state. -/
  assembler : Assembler
  /-- Unparsed bytes from the socket. -/
  readBuffer : Bytes
  /-- Scratch for the masked payload of one frame. -/
  scratch : Bytes
  /-- Frames waiting to go out as one write; empty outside `writeAll`. -/
  outgoing : Bytes
  /-- The state of the masking key generator. -/
  maskState : UInt64
  /-- Set once a close frame has been sent. -/
  closeSent : Bool

/-- A buffer of the largest header size holds every header. -/
theorem Header.encode_max (h : Header) : h.encode (List.replicate MAX_ENCODED_LEN 0) =
    .ok (some h.encodedLen, h.bytes ++ (List.replicate MAX_ENCODED_LEN 0).drop h.encodedLen) := by
  have hfit : ¬(List.replicate MAX_ENCODED_LEN (0 : UInt8)).length < h.encodedLen := by
    rw [List.length_replicate]
    exact Nat.not_lt.mpr h.encodedLen_bounds.2
  rw [encode_eq, if_neg hfit]

/-- The bytes of a header, encoded into a buffer of the largest header size. -/
def Header.written (h : Header) : Bytes :=
  match he : h.encode (List.replicate MAX_ENCODED_LEN 0) with
  | .ok (some n, out) => out.take n
  | .ok (none, _) => absurd (he.symm.trans h.encode_max) (by simp)
  | .error _ => absurd (he.symm.trans h.encode_max) (by simp)

/-- What is written for a header is its bytes. -/
@[simp] theorem Header.written_eq (h : Header) : h.written = h.bytes := by
  have hmax := h.encode_max
  unfold Header.written
  split
  · next n out he =>
    rw [hmax] at he
    cases he
    rw [← length_bytes, List.take_left]
  · next he => exact absurd (he.symm.trans hmax) (by simp)
  · next he => exact absurd (he.symm.trans hmax) (by simp)

/-- How many bytes a frame occupies, in arithmetic of `bits` bits: the header and
`payload_len as usize`. -/
def frameTotal (bits headerLen : Nat) (header : Header) : Nat :=
  (headerLen + header.payloadLen.toNat % 2 ^ bits) % 2 ^ bits

/-- On a 64 bit target the size of a decoded frame neither truncates nor wraps. -/
theorem frameTotal_eq {header : Header} (h : header.Valid) :
    frameTotal 64 header.encodedLen header = header.encodedLen + header.payloadLen.toNat := by
  have hlen := h.length
  have hmax := header.encodedLen_bounds.2
  rw [Header.MAX_ENCODED_LEN] at hmax
  rw [frameTotal]
  omega

namespace Connection

/-- Wrap an upgraded stream, carrying bytes already read past the handshake. The
seed of the masking keys comes from the clock and the address space. -/
def withBuffered (endian : Endian) (seed : UInt64) (stream : ByteStream) (role : Role)
    (limits : Limits) (buffered : Bytes) : Connection where
  endian := endian
  stream := stream
  role := role
  assembler := .new limits
  readBuffer := buffered
  scratch := []
  outgoing := []
  maskState := seed
  closeSent := false

/-- Wrap an already upgraded stream. -/
def new (endian : Endian) (seed : UInt64) (stream : ByteStream) (role : Role) (limits : Limits) :
    Connection :=
  withBuffered endian seed stream role limits []

/-! ## Receiving -/

/-- Whether the mask bit breaks the rule: a server requires a mask and a client
forbids one. -/
def maskingViolated (role : Role) (mask : Option Mask) : Bool :=
  match role, mask with
  | .server, none | .client, some _ => true
  | _, _ => false

/-- Take the mask off a payload. -/
def unmask (endian : Endian) (mask : Option Mask) (payload : Bytes) : Bytes :=
  match mask with
  | some key => (Mask.apply endian payload key 0).1
  | none => payload

/-- Try to take one message out of the buffer without touching the socket. A frame that
has not arrived is waited for, with the room for it granted: `parseBufferedOn` asks. -/
def parseBuffered (c : Connection) : Except Error (Option Message) × Connection :=
  match hdecode : Header.decode c.readBuffer c.assembler.limits.maxFrame with
  | .error e => (.error (.frame e), c)
  | .ok (.error _) => (.ok none, c)
  | .ok (.ok (header, headerLen)) =>
    let total := frameTotal 64 headerLen header
    if hshort : c.readBuffer.length < total then (.ok none, c)
    -- Checked before the payload is touched.
    else if maskingViolated c.role header.mask then (.error .maskingViolation, c)
    else
      let payload := unmask c.endian header.mask ((c.readBuffer.take total).drop headerLen)
      let c' := { c with readBuffer := c.readBuffer.drop total }
      match c.assembler.accept ⟨header.opcode, header.fin, payload⟩ with
      | (.ok (some message), a) => (.ok (some message), { c' with assembler := a })
      -- A fragment that did not complete a message: there may be more buffered.
      | (.ok none, a) => parseBuffered { c' with assembler := a }
      | (.error e, a) => (.error (.protocol e), { c' with assembler := a })
termination_by c.readBuffer.length
decreasing_by
  obtain ⟨hvalid, -, rfl, -⟩ := Header.decode_iff.mp hdecode
  have htotal : total = _ := frameTotal_eq hvalid
  have hmin := header.encodedLen_bounds.1
  change (c.readBuffer.drop total).length < c.readBuffer.length
  rw [List.length_drop]
  omega

/-- Parsing touches the buffer and the assembler only. -/
theorem parseBuffered_fixed (c : Connection) :
    c.parseBuffered.2 = { c with
      readBuffer := c.parseBuffered.2.readBuffer, assembler := c.parseBuffered.2.assembler } := by
  fun_induction parseBuffered c with
  | case1 | case2 | case3 | case4 => rfl
  | case5 => rfl
  | case6 c header headerLen hdecode total hshort hmask payload c' a haccept ih =>
    rw [ih]
  | case7 => rfl

/-- Read the next message, waiting for it to arrive. The result is `none` behind
a closing handshake. The room for what arrives is granted: `readOn` asks. -/
def read (c : Connection) : Except Error (Option Message) × Connection :=
  match _hparse : c.parseBuffered with
  | (.error e, parsed) => (.error e, parsed)
  | (.ok (some message), parsed) => (.ok (some message), parsed)
  | (.ok none, parsed) =>
    match _hread : parsed.stream.readBuf parsed.readBuffer with
    | (.error e, buffer, stream) =>
      (.error (.io e), { parsed with stream := stream, readBuffer := buffer })
    | (.ok n, buffer, stream) =>
      let next := { parsed with stream := stream, readBuffer := buffer }
      if n = 0 then
        -- A clean close already told us this was coming.
        if next.assembler.closed then (.ok none, next) else (.error .unexpectedEof, next)
      else read next
termination_by c.stream.incoming.length
decreasing_by
  have hstream : parsed.stream = c.stream := by
    have hfixed := congrArg Connection.stream c.parseBuffered_fixed
    rw [_hparse] at hfixed
    exact hfixed
  rw [hstream] at _hread
  exact ByteStream.readBuf_lt _hread ‹_›

/-! ## Sending -/

/-- The next masking key: SplitMix64 over the state. -/
def nextMask (c : Connection) : Mask × Connection :=
  let state := c.maskState + 0x9E3779B97F4A7C15
  let z := state
  let z := (z ^^^ z >>> 30) * 0xBF58476D1CE4E5B9
  let z := (z ^^^ z >>> 27) * 0x94D049BB133111EB
  let z := z ^^^ z >>> 31
  (c.endian.wordBytes z.toUInt32, { c with maskState := state })

/-- The mask of the next frame: a fresh key on a client, none on a server. -/
def frameMask (c : Connection) : Option Mask × Connection :=
  match c.role with
  | .client => (some c.nextMask.1, c.nextMask.2)
  | .server => (none, c)

/-- A close frame body: a code then a reason, or nothing at all. A code that must
never be sent is replaced. -/
def encodeCloseBody (frame : Option CloseFrame) : Bytes :=
  match frame with
  | none => []
  | some frame =>
    let code := if frame.code.isSendable then frame.code else CloseCode.INTERNAL_ERROR
    BigEndian.encode 2 code.code.toNat ++ frame.reason

/-- The opcode and the payload a message is sent with. -/
def frameOf : Message → OpCode × Bytes
  | .text payload => (.text, payload)
  | .binary payload => (.binary, payload)
  | .ping payload => (.ping, payload)
  | .pong payload => (.pong, payload)
  | .close frame => (.close, encodeCloseBody frame)

/-- Note that a close frame is being sent. -/
def noteClose (c : Connection) (message : Message) : Connection :=
  match message with
  | .close _ => { c with closeSent := true }
  | _ => c

/-- Encode and send one frame. -/
def writeFrame (c : Connection) (opcode : OpCode) (fin : Bool) (payload : Bytes) :
    Except Error Unit × Connection :=
  let (mask, c) := c.frameMask
  let header : Header := ⟨fin, opcode, mask, UInt64.ofNat payload.length⟩
  match mask with
  | none =>
    let (result, stream) := c.stream.writeAllVectored header.written payload
    (result.mapError .io, { c with stream := stream })
  | some key =>
    let scratch := (Mask.apply c.endian payload key 0).1
    let (result, stream) := c.stream.writeAllVectored header.written scratch
    (result.mapError .io, { c with stream := stream, scratch := scratch })

/-- Send a message. -/
def write (c : Connection) (message : Message) : Except Error Unit × Connection :=
  let c := c.noteClose message
  let (opcode, payload) := frameOf message
  c.writeFrame opcode true payload

/-- Append one whole frame, header and masked payload, to `outgoing`. -/
def encodeFrame (c : Connection) (outgoing : Bytes) (opcode : OpCode) (fin : Bool)
    (payload : Bytes) : Bytes × Connection :=
  let (mask, c) := c.frameMask
  let header : Header := ⟨fin, opcode, mask, UInt64.ofNat payload.length⟩
  let outgoing := outgoing ++ header.written
  let start := outgoing.length
  let outgoing := outgoing ++ payload
  match mask with
  | none => (outgoing, c)
  -- Masked in place, behind what the buffer already holds.
  | some key => (outgoing.take start ++ (Mask.apply c.endian (outgoing.drop start) key 0).1, c)

/-- Encode every message into `outgoing`, back to back. -/
def encodeAll (c : Connection) (outgoing : Bytes) :
    List Message → Except Error Unit × Bytes × Connection
  | [] => (.ok (), outgoing, c)
  | message :: messages =>
    let c := c.noteClose message
    let (opcode, payload) := frameOf message
    let (outgoing, c) := c.encodeFrame outgoing opcode true payload
    encodeAll c outgoing messages

/-- Send several messages as one write. -/
def writeAll (c : Connection) (messages : List Message) : Except Error Unit × Connection :=
  let (result, outgoing, c) := c.encodeAll [] messages
  -- Flushed even if a later message failed to encode.
  let (flushed, stream) :=
    if outgoing.isEmpty then (.ok (), c.stream) else c.stream.writeAll outgoing
  let c := { c with stream := stream, outgoing := [] }
  match result with
  | .error e => (.error e, c)
  | .ok () => (flushed.mapError .io, c)

/-- Answer a ping with its payload. -/
def pong (c : Connection) (payload : Bytes) : Except Error Unit × Connection :=
  c.writeFrame .pong true payload

/-- Start the closing handshake; closing twice is no error and sends nothing. -/
def close (c : Connection) (frame : Option CloseFrame) : Except Error Unit × Connection :=
  if c.closeSent then (.ok (), c) else c.write (.close frame)

end Connection

/-- A call that sends. -/
inductive Call
  | write (message : Message)
  | writeAll (messages : List Message)
  | pong (payload : Bytes)
  | close (frame : Option CloseFrame)
  deriving DecidableEq, Repr

/-- Make a call on a connection. -/
def Connection.call (c : Connection) : Call → Except Error Unit × Connection
  | .write message => c.write message
  | .writeAll messages => c.writeAll messages
  | .pong payload => c.pong payload
  | .close frame => c.close frame

end NagoWss
