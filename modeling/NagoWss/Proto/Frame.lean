import NagoWss.Core.BigEndian
import NagoWss.Proto.OpCode

/-!
# Frame headers

`Header.decode` is handed whatever bytes have arrived and either refuses the
frame, reports that more bytes are needed, or returns the header with the number
of bytes it occupied. `Header.encode` writes a header into the front of a buffer.
The byte string `Header.bytes` joins the two: it is what encoding writes, and
decoding accepts exactly the strings that start with it.
-/

namespace NagoWss

/-- A four-byte masking key. -/
abbrev Mask := Vector UInt8 4

/-- Why a frame could not be decoded. -/
inductive FrameError
  /-- An opcode from a reserved range. -/
  | reservedOpCode (bits : UInt8)
  /-- RSV1/2/3 set with no extension negotiated to define them. -/
  | reservedBitSet
  /-- A control frame longer than 125 bytes, or fragmented. -/
  | invalidControlFrame
  /-- A length not encoded in its shortest form, or with the high bit set. -/
  | invalidLength
  /-- The frame's payload exceeds the configured limit. -/
  | tooLarge
  deriving DecidableEq, Repr

/-- Not enough bytes yet. -/
inductive Incomplete
  | incomplete
  deriving DecidableEq, Repr

/-- A decoded frame header. -/
structure Header where
  /-- Whether this frame completes its message. -/
  fin : Bool
  /-- What the frame carries. -/
  opcode : OpCode
  /-- The masking key, present exactly when the MASK bit was set. -/
  mask : Option Mask
  /-- Payload length in bytes. -/
  payloadLen : UInt64
  deriving DecidableEq, Repr

/-- What aborts the program. -/
inductive Panic
  /-- An access outside a buffer. -/
  | outOfRange
  /-- A buffer that there is no room for. -/
  | capacityOverflow
  deriving DecidableEq, Repr

/-- Overwrite `bytes.length` bytes of `out` from position `pos`. -/
def store (out : Bytes) (pos : Nat) (bytes : Bytes) : Except Panic Bytes :=
  if pos + bytes.length ≤ out.length then
    .ok (out.take pos ++ bytes ++ out.drop (pos + bytes.length))
  else .error .outOfRange

namespace Header

/-- The largest header permitted: 2 fixed, 8 length and 4 mask bytes. -/
def MAX_ENCODED_LEN : Nat := 14

/-- Read the payload length that the seven bit field `shortLen` announces, and
the position after it. -/
def decodeLength (input : Bytes) (shortLen : UInt8) :
    Except FrameError (Except Incomplete (UInt64 × Nat)) :=
  let cursor := 2
  if shortLen = 126 then
    if input.length < cursor + 2 then .ok (.error .incomplete)
    else
      let value := UInt64.ofNat (BigEndian.decode ((input.drop cursor).take 2))
      -- Shortest form: 0-125 must use the one-byte encoding.
      if value < 126 then .error .invalidLength else .ok (.ok (value, cursor + 2))
  else if shortLen = 127 then
    if input.length < cursor + 8 then .ok (.error .incomplete)
    else
      let value := UInt64.ofNat (BigEndian.decode ((input.drop cursor).take 8))
      if value &&& 0x8000000000000000 ≠ 0 ∨ value ≤ 65535 then .error .invalidLength
      else .ok (.ok (value, cursor + 8))
  else .ok (.ok (shortLen.toUInt64, cursor))

/-- Read the masking key that stands at `cursor` when the MASK bit is set, and
the position after it. -/
def decodeMask (input : Bytes) (masked : Bool) (cursor : Nat) :
    Except Incomplete (Option Mask × Nat) :=
  if masked then
    if h : input.length < cursor + 4 then .error .incomplete
    else
      .ok (some #v[input[cursor], input[cursor + 1], input[cursor + 2], input[cursor + 3]],
        cursor + 4)
  else .ok (none, cursor)

/-- Decode a header from the front of `input`, with the number of bytes it
occupied. An oversized frame is refused from its length field alone. -/
def decode (input : Bytes) (maxPayload : UInt64) :
    Except FrameError (Except Incomplete (Header × Nat)) :=
  if h : input.length < 2 then .ok (.error .incomplete)
  else
    let first := input[0]
    let second := input[1]
    if first &&& 0x70 ≠ 0 then .error .reservedBitSet
    else
      let fin := first &&& 0x80 != 0
      match OpCode.fromBits (first &&& 0x0F) with
      | none => .error (.reservedOpCode (first &&& 0x0F))
      | some opcode =>
        let masked := second &&& 0x80 != 0
        let shortLen := second &&& 0x7F
        -- Checked before the extended length is read: a control frame has none.
        if opcode.isControl && (decide (shortLen > 125) || !fin) then .error .invalidControlFrame
        else
          match decodeLength input shortLen with
          | .error e => .error e
          | .ok (.error i) => .ok (.error i)
          | .ok (.ok (payloadLen, cursor)) =>
            if payloadLen > maxPayload then .error .tooLarge
            else
              match decodeMask input masked cursor with
              | .error i => .ok (.error i)
              | .ok (mask, cursor) => .ok (.ok (⟨fin, opcode, mask, payloadLen⟩, cursor))

/-- How many bytes `encode` will write for this header. -/
def encodedLen (h : Header) : Nat :=
  let lengthBytes := if h.payloadLen < 126 then 0 else if h.payloadLen ≤ 65535 then 2 else 8
  let maskBytes := if h.mask.isSome then 4 else 0
  2 + lengthBytes + maskBytes

/-- Write the second header byte and the extended length that follows it,
returning the position after them. -/
def encodeLength (out : Bytes) (maskBit : UInt8) (payloadLen : UInt64) :
    Except Panic (Bytes × Nat) := do
  let cursor := 2
  if payloadLen < 126 then
    let out ← store out 1 [maskBit ||| payloadLen.toUInt8]
    return (out, cursor)
  else if payloadLen ≤ 65535 then
    let out ← store out 1 [maskBit ||| 126]
    let out ← store out cursor (BigEndian.encode 2 payloadLen.toNat)
    return (out, cursor + 2)
  else
    let out ← store out 1 [maskBit ||| 127]
    let out ← store out cursor (BigEndian.encode 8 payloadLen.toNat)
    return (out, cursor + 8)

/-- Write this header into `out`, returning how many bytes were written and the
buffer afterwards. A short buffer returns `none` untouched. -/
def encode (h : Header) (out : Bytes) : Except Panic (Option Nat × Bytes) := do
  if out.length < h.encodedLen then
    return (none, out)
  let out ← store out 0 [(if h.fin then 0x80 else 0) ||| h.opcode.toBits]
  let maskBit := if h.mask.isSome then 0x80 else 0
  let (out, cursor) ← encodeLength out maskBit h.payloadLen
  match h.mask with
  | some key =>
    let out ← store out cursor key.toList
    return (some (cursor + 4), out)
  | none => return (some cursor, out)

/-! ## The bytes of a header -/

/-- A header this codec admits: a 63 bit length, and a control frame that is
final and at most 125 bytes long. -/
structure Valid (h : Header) : Prop where
  /-- The most significant bit of the length is clear. -/
  length : h.payloadLen.toNat < 2 ^ 63
  /-- Control frames carry at most 125 bytes and are never fragmented. -/
  control : h.opcode.isControl = true → h.fin = true ∧ h.payloadLen.toNat ≤ 125

/-- The first header byte: the FIN bit and the opcode. -/
def firstByte (fin : Bool) (opcode : OpCode) : UInt8 :=
  (if fin then 0x80 else 0) ||| opcode.toBits

/-- The seven bit length field: the length itself or the width of the extension. -/
def shortLen (len : UInt64) : UInt8 :=
  if len < 126 then len.toUInt8 else if len ≤ 65535 then 126 else 127

/-- The second header byte: the MASK bit and the seven bit length field. -/
def secondByte (masked : Bool) (short : UInt8) : UInt8 := (if masked then 0x80 else 0) ||| short

/-- The extended length field, empty for a length below 126. -/
def extendedLength (len : UInt64) : Bytes :=
  if len < 126 then []
  else if len ≤ 65535 then BigEndian.encode 2 len.toNat
  else BigEndian.encode 8 len.toNat

/-- The masking key as it stands on the wire. -/
def maskBytes : Option Mask → Bytes
  | some key => key.toList
  | none => []

/-- The bytes a header occupies on the wire. -/
def bytes (h : Header) : Bytes :=
  firstByte h.fin h.opcode :: secondByte h.mask.isSome (shortLen h.payloadLen) ::
    (extendedLength h.payloadLen ++ maskBytes h.mask)

theorem length_extendedLength (len : UInt64) :
    (extendedLength len).length = if len < 126 then 0 else if len ≤ 65535 then 2 else 8 := by
  unfold extendedLength
  split
  · rfl
  · split <;> rw [BigEndian.length_encode]

theorem length_maskBytes (mask : Option Mask) :
    (maskBytes mask).length = if mask.isSome then 4 else 0 := by
  cases mask with
  | none => rfl
  | some key => exact Vector.length_toList

/-- A header is written in exactly as many bytes as announced. -/
@[simp] theorem length_bytes (h : Header) : h.bytes.length = h.encodedLen := by
  simp only [bytes, List.length_cons, List.length_append, length_extendedLength,
    length_maskBytes, encodedLen]
  omega

/-- A header has between two and fourteen bytes. -/
theorem encodedLen_bounds (h : Header) : 2 ≤ h.encodedLen ∧ h.encodedLen ≤ MAX_ENCODED_LEN := by
  simp only [encodedLen, MAX_ENCODED_LEN]
  constructor <;> split <;> split <;> (try split) <;> omega

end Header

end NagoWss
