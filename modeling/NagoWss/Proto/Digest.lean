import NagoWss.Core.BigEndian
import NagoWss.Core.Utf8
import NagoWss.Proto.OpCode

/-!
# The accept value

The handshake needs one SHA-1 of one short string and one base64 of its digest.
Both are spelled out, and nothing here is a general purpose hash.
-/

namespace NagoWss

/-- The GUID that is concatenated with the client key before hashing. -/
def WS_GUID : Bytes := Utf8.encode "258EAFA5-E914-47DA-95CA-C5AB0DC85B11".toList

/-- The base64 alphabet. -/
def B64 : Vector Char 64 :=
  ⟨"ABCDEFGHIJKLMNOPQRSTUVWXYZabcdefghijklmnopqrstuvwxyz0123456789+/".toList.toArray, rfl⟩

/-- The character of the low six bits of a word. -/
def b64 (word : UInt32) : Char :=
  B64.get ⟨(word &&& 0x3F).toNat, by
    rw [UInt32.toNat_and]
    exact Nat.lt_of_le_of_lt Nat.and_le_right (by decide)⟩

/-- The twenty-four bits of a chunk of at most three bytes. -/
def triple (b0 b1 b2 : UInt8) : UInt32 :=
  b0.toUInt32 <<< 16 ||| b1.toUInt32 <<< 8 ||| b2.toUInt32

/-- Standard base64 with padding. -/
def base64Encode : Bytes → List Char
  | [] => []
  | [b0] =>
    let t := triple b0 0 0
    [b64 (t >>> 18), b64 (t >>> 12), '=', '=']
  | [b0, b1] =>
    let t := triple b0 b1 0
    [b64 (t >>> 18), b64 (t >>> 12), b64 (t >>> 6), '=']
  | b0 :: b1 :: b2 :: rest =>
    let t := triple b0 b1 b2
    b64 (t >>> 18) :: b64 (t >>> 12) :: b64 (t >>> 6) :: b64 t :: base64Encode rest

/-- Every three bytes, the last ones padded, are four characters. -/
theorem length_base64Encode (bytes : Bytes) :
    (base64Encode bytes).length = 4 * ((bytes.length + 2) / 3) := by
  fun_induction base64Encode bytes with
  | case1 => rfl
  | case2 b0 t => simp only [List.length_cons, List.length_nil]
  | case3 b0 b1 t => simp only [List.length_cons, List.length_nil]
  | case4 b0 b1 b2 rest t ih =>
    simp only [List.length_cons, ih]
    omega

/-- SHA-1 in progress. -/
structure Sha1 where
  /-- The five chaining words. -/
  state : Vector UInt32 5
  /-- Bytes that do not fill a block yet. -/
  buffer : Bytes
  /-- How many bytes were fed. -/
  length : UInt64

namespace Sha1

/-- A hash of nothing so far. -/
def new : Sha1 := ⟨#v[0x67452301, 0xEFCDAB89, 0x98BADCFE, 0x10325476, 0xC3D2E1F0], [], 0⟩

/-- Rotate a word to the left. -/
def rotateLeft (x : UInt32) (n : UInt32) : UInt32 := x <<< n ||| x >>> (32 - n)

/-- The word at position `i` of a block, most significant byte first. -/
def blockWord (block : Bytes) (i : Nat) : UInt32 :=
  UInt32.ofNat (BigEndian.decode ((block.drop (i * 4)).take 4))

/-- The eighty words of the message schedule of a block. -/
def schedule (block : Bytes) : Array UInt32 :=
  let first := (Array.range 16).map (blockWord block)
  (List.range 64).foldl (fun w j =>
    let i := j + 16
    w.push (rotateLeft (w.getD (i - 3) 0 ^^^ w.getD (i - 8) 0 ^^^ w.getD (i - 14) 0 ^^^
      w.getD (i - 16) 0) 1)) first

/-- The round function and constant of round `i`. -/
def round (i : Nat) (b c d : UInt32) : UInt32 × UInt32 :=
  if i ≤ 19 then ((b &&& c) ||| (~~~b &&& d), 0x5A827999)
  else if i ≤ 39 then (b ^^^ c ^^^ d, 0x6ED9EBA1)
  else if i ≤ 59 then ((b &&& c) ||| (b &&& d) ||| (c &&& d), 0x8F1BBCDC)
  else (b ^^^ c ^^^ d, 0xCA62C1D6)

/-- Fold one block of 64 bytes into the chaining words. -/
def compress (state : Vector UInt32 5) (block : Bytes) : Vector UInt32 5 :=
  let w := schedule block
  let s := (List.range 80).foldl (fun (s : UInt32 × UInt32 × UInt32 × UInt32 × UInt32) i =>
    let (a, b, c, d, e) := s
    let (f, k) := round i b c d
    let temp := rotateLeft a 5 + f + e + k + w.getD i 0
    (temp, a, rotateLeft b 30, c, d)) (state[0], state[1], state[2], state[3], state[4])
  let (a, b, c, d, e) := s
  #v[state[0] + a, state[1] + b, state[2] + c, state[3] + d, state[4] + e]

/-- Compress the full blocks at the front of a buffer, returning what is left. -/
def absorb (state : Vector UInt32 5) (buffer : Bytes) : Vector UInt32 5 × Bytes :=
  if 64 ≤ buffer.length then absorb (compress state (buffer.take 64)) (buffer.drop 64)
  else (state, buffer)
termination_by buffer.length
decreasing_by
  rw [List.length_drop]
  omega

/-- Feed bytes. -/
def update (h : Sha1) (data : Bytes) : Sha1 :=
  let (state, buffer) := absorb h.state (h.buffer ++ data)
  ⟨state, buffer, h.length + UInt64.ofNat data.length⟩

/-- Append zeros until eight bytes are missing to a full block. -/
def pad (buffer : Bytes) : Bytes :=
  if buffer.length % 64 ≠ 56 then pad (buffer ++ [0]) else buffer
termination_by (120 - buffer.length % 64) % 64
decreasing_by
  rw [List.length_append, List.length_singleton]
  omega

/-- The twenty bytes of the digest. -/
def finish (h : Sha1) : Bytes :=
  let bitLength := h.length * 8
  let buffer := pad (h.buffer ++ [0x80]) ++ BigEndian.encode 8 bitLength.toNat
  let state := (absorb h.state buffer).1
  state.toList.flatMap fun word => BigEndian.encode 4 word.toNat

/-- The digest has twenty bytes. -/
theorem length_finish (h : Sha1) : h.finish.length = 20 := by
  have hword (word : UInt32) : (BigEndian.encode 4 word.toNat).length = 4 :=
    BigEndian.length_encode 4 word.toNat
  simp only [finish, List.length_flatMap, hword, List.map_const', List.sum_replicate_nat,
    Vector.length_toList]

end Sha1

/-- The `Sec-WebSocket-Accept` value for a client's `Sec-WebSocket-Key`. -/
def acceptFor (key : Bytes) : List Char :=
  base64Encode (((Sha1.new.update key).update WS_GUID).finish)

/-- The accept value has twenty-eight characters. -/
theorem length_acceptFor (key : Bytes) : (acceptFor key).length = 28 := by
  rw [acceptFor, length_base64Encode, Sha1.length_finish]

/-- Whether a byte is an ASCII letter or digit. -/
def isAsciiAlphanumeric (byte : UInt8) : Bool :=
  (48 ≤ byte && byte ≤ 57) || (65 ≤ byte && byte ≤ 90) || (97 ≤ byte && byte ≤ 122)

/-- Whether a `Sec-WebSocket-Key` is well formed: sixteen bytes in base64. -/
def isValidKey (key : Bytes) : Bool :=
  key.length == 24 && (Utf8.encode "==".toList).isSuffixOf key &&
    (key.take 22).all fun byte =>
      isAsciiAlphanumeric byte || byte == '+'.toUInt8 || byte == '/'.toUInt8

/-- A `Sec-WebSocket-Key` from sixteen bytes of randomness. -/
def newKey (entropy : Vector UInt8 16) : List Char := base64Encode entropy.toList

end NagoWss
