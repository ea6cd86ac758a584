import Mathlib.Data.List.Rotate
import NagoWss.Proto.Frame

/-!
# Payload masking

Masking is exclusive or against a repeating four-byte key. The program rotates
the key to the requested position, widens it to a 64 bit word, masks eight bytes
at a time and treats the tail separately. That is the byte by byte definition,
on either byte order.
-/

namespace NagoWss

/-- The byte order of the target. -/
inductive Endian
  | little
  | big
  deriving DecidableEq, Repr

namespace Endian

/-- Bytes in memory order, most significant first. -/
def significant : Endian → Bytes → Bytes
  | little, bytes => bytes.reverse
  | big, bytes => bytes

/-- The number that bytes in memory denote: `from_ne_bytes`. -/
def fromNeBytes (e : Endian) (bytes : Bytes) : Nat := BigEndian.decode (e.significant bytes)

/-- The `width` bytes of a number in memory: `to_ne_bytes`. -/
def toNeBytes (e : Endian) (width n : Nat) : Bytes := e.significant (BigEndian.encode width n)

@[simp] theorem significant_significant (e : Endian) (bytes : Bytes) :
    e.significant (e.significant bytes) = bytes := by
  cases e
  · exact List.reverse_reverse bytes
  · rfl

@[simp] theorem length_significant (e : Endian) (bytes : Bytes) :
    (e.significant bytes).length = bytes.length := by
  cases e
  · exact List.length_reverse
  · rfl

/-- A number written to memory reads the bytes it was read from. -/
theorem toNeBytes_fromNeBytes (e : Endian) (bytes : Bytes) :
    e.toNeBytes bytes.length (e.fromNeBytes bytes) = bytes := by
  rw [toNeBytes, fromNeBytes, ← e.length_significant, BigEndian.encode_decode,
    significant_significant]

@[simp] theorem length_toNeBytes (e : Endian) (width n : Nat) :
    (e.toNeBytes width n).length = width := by
  rw [toNeBytes, length_significant, BigEndian.length_encode]

/-- The four bytes of a 32 bit word in memory. -/
def wordBytes (e : Endian) (word : UInt32) : Mask :=
  ⟨(e.toNeBytes 4 word.toNat).toArray, e.length_toNeBytes 4 word.toNat⟩

end Endian

namespace Mask

/-- The key as a word, rotated so that its lowest address lines up with the byte
`offset` into the keystream. -/
def rotatedWord (e : Endian) (key : Mask) (offset : UInt64) : BitVec 32 :=
  let shift := (offset &&& 3).toNat * 8
  let native := BitVec.ofNat 32 (e.fromNeBytes key.toList)
  match e with
  | .little => native.rotateRight shift
  | .big => native.rotateLeft shift

/-- Mask one chunk of eight bytes with the widened key. -/
def applyWord (e : Endian) (word : BitVec 64) (chunk : Bytes) : Bytes :=
  e.toNeBytes 8 (BitVec.ofNat 64 (e.fromNeBytes chunk) ^^^ word).toNat

/-- Mask the chunks of eight bytes of a payload; what is left over is dropped. -/
def applyWords (e : Endian) (word : BitVec 64) : Bytes → Bytes
  | b0 :: b1 :: b2 :: b3 :: b4 :: b5 :: b6 :: b7 :: rest =>
    applyWord e word [b0, b1, b2, b3, b4, b5, b6, b7] ++ applyWords e word rest
  | _ => []

/-- Exclusive or `payload` against `key`, starting `offset` bytes into the
keystream; returns the payload and the offset behind it. -/
def apply (e : Endian) (payload : Bytes) (key : Mask) (offset : UInt64) : Bytes × UInt64 :=
  if payload.isEmpty then (payload, offset)
  else
    let rotated := rotatedWord e key offset
    let bytes := e.toNeBytes 4 rotated.toNat
    let word := rotated.setWidth 64 ||| rotated.setWidth 64 <<< 32
    -- `payload.len() & !7`
    let split := payload.length / 8 * 8
    let chunks := applyWords e word (payload.take split)
    let tail := (payload.drop split).mapIdx fun i byte => byte ^^^ bytes.getD (i % 4) 0
    (chunks ++ tail, offset + UInt64.ofNat payload.length)

/-- The definition of masking: byte `i` against key byte `(offset + i) mod 4`. -/
def reference (payload : Bytes) (key : Mask) (offset : Nat) : Bytes :=
  payload.mapIdx fun i byte => byte ^^^ key.toList.getD ((offset + i) % 4) 0

/-! ## The word loop is the byte definition -/

/-- Exchanging the two parts of a four-byte string is a rotation of its word. -/
theorem shift_or_shift (xs ys : Bytes) (h : xs.length + ys.length = 4) :
    BigEndian.decode (xs ++ ys) <<< (8 * xs.length) % 2 ^ 32 |||
      BigEndian.decode (xs ++ ys) >>> (8 * ys.length) = BigEndian.decode (ys ++ xs) := by
  have hx := BigEndian.decode_lt xs
  have hy := BigEndian.decode_lt ys
  have hpow (k : Nat) : (2 : Nat) ^ (8 * k) = 256 ^ k := by
    rw [pow_mul]
    rfl
  have hsum : (2 : Nat) ^ 32 = 256 ^ ys.length * 256 ^ xs.length := by
    rw [← pow_add, Nat.add_comm ys.length, h]
    rfl
  have hlow : BigEndian.decode (xs ++ ys) >>> (8 * ys.length) = BigEndian.decode xs := by
    rw [BigEndian.decode_append, Nat.shiftRight_eq_div_pow, hpow, Nat.add_comm,
      Nat.add_mul_div_right _ _ (Nat.pow_pos (by decide)), Nat.div_eq_of_lt hy, Nat.zero_add]
  have hhigh : BigEndian.decode (xs ++ ys) <<< (8 * xs.length) % 2 ^ 32 =
      BigEndian.decode ys <<< (8 * xs.length) := by
    rw [Nat.shiftLeft_eq, Nat.shiftLeft_eq, hpow, hsum, Nat.mul_mod_mul_right,
      BigEndian.decode_append, Nat.add_comm, Nat.add_mul_mod_self_right, Nat.mod_eq_of_lt hy]
  rw [hlow, hhigh, ← Nat.shiftLeft_add_eq_or_of_lt (by rwa [hpow]), Nat.shiftLeft_eq, hpow,
    BigEndian.decode_append]

/-- The word of a four-byte string read back in 32 bits. -/
theorem toNat_ofNat_decode {bs : Bytes} (h : bs.length = 4) :
    (BitVec.ofNat 32 (BigEndian.decode bs)).toNat = BigEndian.decode bs := by
  have hlt : BigEndian.decode bs < 2 ^ 32 := by
    have hbs := BigEndian.decode_lt bs
    rw [h] at hbs
    exact hbs
  rw [BitVec.toNat_ofNat, Nat.mod_eq_of_lt hlt]

/-- Rotating left by whole bytes moves the leading bytes to the end. -/
theorem rotateLeft_decode (xs ys : Bytes) (h : xs.length + ys.length = 4) (hx : xs.length < 4) :
    ((BitVec.ofNat 32 (BigEndian.decode (xs ++ ys))).rotateLeft (xs.length * 8)).toNat =
      BigEndian.decode (ys ++ xs) := by
  have hr : xs.length * 8 % 32 = 8 * xs.length := by omega
  have hc : 32 - 8 * xs.length = 8 * ys.length := by omega
  rw [BitVec.toNat_rotateLeft, toNat_ofNat_decode (by rw [List.length_append, h]), hr, hc,
    shift_or_shift xs ys h]

/-- Rotating right by whole bytes moves the trailing bytes to the front. -/
theorem rotateRight_decode (xs ys : Bytes) (h : xs.length + ys.length = 4)
    (hy : ys.length < 4) :
    ((BitVec.ofNat 32 (BigEndian.decode (xs ++ ys))).rotateRight (ys.length * 8)).toNat =
      BigEndian.decode (ys ++ xs) := by
  have hr : ys.length * 8 % 32 = 8 * ys.length := by omega
  have hc : 32 - 8 * ys.length = 8 * xs.length := by omega
  rw [BitVec.toNat_rotateRight, toNat_ofNat_decode (by rw [List.length_append, h]), hr, hc,
    Nat.or_comm, shift_or_shift xs ys h]

/-- The rotated word is the word of the rotated key. -/
theorem toNat_rotatedWord (e : Endian) (key : Mask) (offset : UInt64) :
    (rotatedWord e key offset).toNat = e.fromNeBytes (key.toList.rotate offset.toNat) := by
  have hoff : (offset &&& 3).toNat = offset.toNat % 4 := by
    rw [UInt64.toNat_and]
    exact Nat.and_two_pow_sub_one_eq_mod _ 2
  have hlen : key.toList.length = 4 := Vector.length_toList
  have hlt : offset.toNat % 4 < 4 := Nat.mod_lt _ (by decide)
  rw [List.rotate_eq_drop_append_take_mod, hlen]
  generalize offset.toNat % 4 = j at hoff hlt
  have htake : (key.toList.take j).length = j := by rw [List.length_take]; omega
  have hdrop : (key.toList.drop j).length = 4 - j := by rw [List.length_drop, hlen]
  cases e with
  | little =>
    have hr := rotateRight_decode (key.toList.drop j).reverse (key.toList.take j).reverse
      (by simp only [List.length_reverse]; omega) (by simp only [List.length_reverse]; omega)
    rw [← List.reverse_append, ← List.reverse_append, List.take_append_drop, List.length_reverse,
      htake] at hr
    simp only [rotatedWord, hoff]
    exact hr
  | big =>
    have hr := rotateLeft_decode (key.toList.take j) (key.toList.drop j) (by omega) (by omega)
    rw [List.take_append_drop, htake] at hr
    simp only [rotatedWord, hoff]
    exact hr

/-- The bytes of the rotated word in memory. -/
theorem toNeBytes_rotatedWord (e : Endian) (key : Mask) (offset : UInt64) :
    e.toNeBytes 4 (rotatedWord e key offset).toNat = key.toList.rotate offset.toNat := by
  have h := e.toNeBytes_fromNeBytes (key.toList.rotate offset.toNat)
  rw [List.length_rotate, Vector.length_toList] at h
  rw [toNat_rotatedWord, h]

/-- Widening a word repeats its bytes. -/
theorem toNat_widened (e : Endian) {w : BitVec 32} {bytes : Bytes} (hlen : bytes.length = 4)
    (hw : w.toNat = e.fromNeBytes bytes) :
    (w.setWidth 64 ||| w.setWidth 64 <<< 32).toNat = e.fromNeBytes (bytes ++ bytes) := by
  have hlt : w.toNat < 2 ^ 32 := w.isLt
  have hdouble : e.fromNeBytes (bytes ++ bytes) = w.toNat * 2 ^ 32 + w.toNat := by
    rw [hw]
    cases e <;>
      simp only [Endian.fromNeBytes, Endian.significant, List.reverse_append,
        BigEndian.decode_append, List.length_reverse, hlen] <;> rfl
  have hlow : (w.setWidth 64).toNat = w.toNat := by
    rw [BitVec.toNat_setWidth, Nat.mod_eq_of_lt (by omega)]
  have hhigh : (w.setWidth 64 <<< 32).toNat = w.toNat <<< 32 := by
    rw [BitVec.toNat_shiftLeft, hlow, Nat.shiftLeft_eq, Nat.mod_eq_of_lt (by omega)]
  rw [BitVec.toNat_or, hlow, hhigh, Nat.or_comm, ← Nat.shiftLeft_add_eq_or_of_lt hlt,
    Nat.shiftLeft_eq, hdouble]

/-- Masking a chunk by words is masking it byte by byte. -/
theorem applyWord_eq (e : Endian) {word : BitVec 64} {chunk bytes : Bytes}
    (hchunk : chunk.length = 8) (hbytes : bytes.length = 8)
    (hword : word.toNat = e.fromNeBytes bytes) :
    applyWord e word chunk = List.zipWith (· ^^^ ·) chunk bytes := by
  have hlt : e.fromNeBytes chunk < 2 ^ 64 := by
    have hc := BigEndian.decode_lt (e.significant chunk)
    rw [Endian.length_significant, hchunk] at hc
    exact hc
  have hxor : e.fromNeBytes chunk ^^^ e.fromNeBytes bytes =
      e.fromNeBytes (List.zipWith (· ^^^ ·) chunk bytes) := by
    have hlen : chunk.length = bytes.length := by rw [hchunk, hbytes]
    rw [Endian.fromNeBytes, Endian.fromNeBytes, Endian.fromNeBytes, BigEndian.decode_xor
      (by rw [Endian.length_significant, Endian.length_significant, hlen])]
    cases e with
    | little => rw [Endian.significant, Endian.significant, Endian.significant,
        List.reverse_zipWith hlen]
    | big => rfl
  have hlen : (List.zipWith (· ^^^ ·) chunk bytes).length = 8 := by
    rw [List.length_zipWith, hchunk, hbytes, Nat.min_self]
  have h := e.toNeBytes_fromNeBytes (List.zipWith (· ^^^ ·) chunk bytes)
  rw [hlen] at h
  rw [applyWord, BitVec.toNat_xor, BitVec.toNat_ofNat, Nat.mod_eq_of_lt hlt, hword, hxor, h]

/-- Exclusive or against four bytes, over and over. -/
def cycle (bytes payload : Bytes) : Bytes :=
  payload.mapIdx fun i byte => byte ^^^ bytes.getD (i % 4) 0

/-- A payload whose length is a multiple of the period is masked on its own. -/
theorem cycle_append (bytes : Bytes) {xs : Bytes} (ys : Bytes) (h : xs.length % 4 = 0) :
    cycle bytes (xs ++ ys) = cycle bytes xs ++ cycle bytes ys := by
  rw [cycle, List.mapIdx_append]
  congr 2
  funext i byte
  rw [Nat.add_mod, h, Nat.add_zero, Nat.mod_mod]

/-- The chunks of eight bytes are masked as the definition says. -/
theorem applyWords_eq (e : Endian) {word : BitVec 64} {bytes : Bytes} (hbytes : bytes.length = 4)
    (hword : word.toNat = e.fromNeBytes (bytes ++ bytes)) (payload : Bytes)
    (h : payload.length % 8 = 0) : applyWords e word payload = cycle bytes payload := by
  fun_induction applyWords e word payload with
  | case1 b0 b1 b2 b3 b4 b5 b6 b7 rest ih =>
    have hrest : rest.length % 8 = 0 := by
      simp only [List.length_cons] at h
      omega
    have hsplit : b0 :: b1 :: b2 :: b3 :: b4 :: b5 :: b6 :: b7 :: rest =
        [b0, b1, b2, b3, b4, b5, b6, b7] ++ rest := rfl
    rw [ih hrest, hsplit, cycle_append bytes rest (by simp only [List.length_cons, List.length_nil]),
      applyWord_eq e rfl (by rw [List.length_append, hbytes]) hword]
    obtain ⟨k0, k1, k2, k3, rfl⟩ := List.length_eq_four.mp hbytes
    simp [cycle]
  | case2 payload hshort =>
    match payload, h, hshort with
    | [], _, _ => rfl
    | b0 :: b1 :: b2 :: b3 :: b4 :: b5 :: b6 :: b7 :: rest, _, hshort =>
      exact absurd rfl (hshort b0 b1 b2 b3 b4 b5 b6 b7 rest)

/-- Cycling through the rotated key is the definition of masking. -/
theorem cycle_rotate (payload : Bytes) (key : Mask) (offset : Nat) :
    cycle (key.toList.rotate offset) payload = reference payload key offset := by
  have hlen : key.toList.length = 4 := Vector.length_toList
  rw [cycle, reference]
  congr 1
  funext i byte
  have hi : i % 4 < (key.toList.rotate offset).length := by
    rw [List.length_rotate, hlen]
    exact Nat.mod_lt _ (by decide)
  have hk : (offset + i) % 4 < key.toList.length := by
    rw [hlen]
    exact Nat.mod_lt _ (by decide)
  have hidx : (i % 4 + offset) % key.toList.length = (offset + i) % 4 := by
    rw [hlen]
    omega
  rw [List.getD_eq_getElem?_getD, List.getD_eq_getElem?_getD, List.getElem?_eq_getElem hi,
    List.getElem?_eq_getElem hk, List.getElem_rotate]
  simp only [hidx]

/-- On either byte order, masking a word at a time is masking byte by byte. -/
theorem apply_eq (e : Endian) (payload : Bytes) (key : Mask) (offset : UInt64) :
    (apply e payload key offset).1 = reference payload key offset.toNat := by
  rw [apply]
  split
  · next h => rw [List.isEmpty_iff.mp h]; rfl
  · have hlen : (key.toList.rotate offset.toNat).length = 4 := by
      rw [List.length_rotate, Vector.length_toList]
    have hword := toNat_widened e hlen (toNat_rotatedWord e key offset)
    have hsplit : (payload.take (payload.length / 8 * 8)).length = payload.length / 8 * 8 := by
      rw [List.length_take]
      omega
    have hchunks := applyWords_eq e hlen hword (payload.take (payload.length / 8 * 8))
      (by rw [hsplit]; omega)
    simp only
    rw [hchunks, toNeBytes_rotatedWord, ← cycle.eq_1, ← cycle_append _ _ (by rw [hsplit]; omega),
      List.take_append_drop, cycle_rotate]

/-! ## Masking twice -/

@[simp] theorem length_reference (payload : Bytes) (key : Mask) (offset : Nat) :
    (reference payload key offset).length = payload.length := List.length_mapIdx

/-- A key takes off what it put on. -/
@[simp] theorem reference_reference (payload : Bytes) (key : Mask) (offset : Nat) :
    reference (reference payload key offset) key offset = payload := by
  rw [reference, reference, List.mapIdx_mapIdx]
  apply List.ext_getElem
  · rw [List.length_mapIdx]
  · intro i h₁ h₂
    rw [List.getElem_mapIdx]
    simp only [Function.comp_apply, UInt8.xor_assoc, UInt8.xor_self, UInt8.xor_zero]

/-! ## Masking in chunks -/

/-- Only the position in the period matters. -/
theorem reference_congr (payload : Bytes) (key : Mask) {m n : Nat} (h : m % 4 = n % 4) :
    reference payload key m = reference payload key n := by
  rw [reference, reference]
  congr 1
  funext i byte
  rw [Nat.add_mod m, h, ← Nat.add_mod]

/-- The second part of a payload goes on with the key where the first part left off. -/
theorem reference_append (xs ys : Bytes) (key : Mask) (offset : Nat) :
    reference (xs ++ ys) key offset =
      reference xs key offset ++ reference ys key (offset + xs.length) := by
  rw [reference, List.mapIdx_append]
  congr 2
  funext i byte
  rw [Nat.add_assoc, Nat.add_comm xs.length]

/-- The offset behind a payload; the sum may wrap. -/
theorem apply_offset (e : Endian) (payload : Bytes) (key : Mask) (offset : UInt64) :
    (apply e payload key offset).2 = offset + UInt64.ofNat payload.length := by
  rw [apply]
  split
  · next h =>
    rw [List.isEmpty_iff.mp h]
    exact (UInt64.add_zero offset).symm
  · rfl

/-- A sum that wraps keeps its position in the period. -/
theorem toNat_add_mod (offset : UInt64) (n : Nat) :
    (offset + UInt64.ofNat n).toNat % 4 = (offset.toNat + n) % 4 := by
  have hdvd : 4 ∣ 2 ^ 64 := by decide
  rw [UInt64.toNat_add, UInt64.toNat_ofNat', Nat.mod_mod_of_dvd _ hdvd, Nat.add_mod,
    Nat.mod_mod_of_dvd _ hdvd, ← Nat.add_mod]

/-- Mask chunks one after the other, each at the offset behind the one before it. -/
def applyChunks (e : Endian) (key : Mask) : List Bytes → UInt64 → Bytes × UInt64
  | [], offset => ([], offset)
  | chunk :: chunks, offset =>
    let (masked, offset) := apply e chunk key offset
    let (rest, offset) := applyChunks e key chunks offset
    (masked ++ rest, offset)

/-- Masking two parts one after the other is masking them at once. -/
theorem apply_append (e : Endian) (xs ys : Bytes) (key : Mask) (offset : UInt64) :
    apply e (xs ++ ys) key offset =
      ((apply e xs key offset).1 ++ (apply e ys key (apply e xs key offset).2).1,
        (apply e ys key (apply e xs key offset).2).2) := by
  have hsecond := reference_congr ys key (toNat_add_mod offset xs.length)
  refine Prod.ext ?_ ?_
  · rw [apply_eq, apply_eq, apply_eq, apply_offset, hsecond, reference_append]
  · rw [apply_offset, apply_offset, apply_offset, List.length_append, UInt64.ofNat_add,
      UInt64.add_assoc]

/-- Masking chunks one after the other is masking what they hold at once. -/
theorem applyChunks_eq (e : Endian) (key : Mask) (chunks : List Bytes) (offset : UInt64) :
    applyChunks e key chunks offset = apply e chunks.flatten key offset := by
  induction chunks generalizing offset with
  | nil => rfl
  | cons chunk chunks ih =>
    rw [List.flatten_cons, apply_append, applyChunks]
    simp only [ih]

/-- On either byte order and from any offset, masking a word at a time is exclusive or
with the repeated key; chunks masked one after the other are masked as one payload; and
masking twice restores a payload. -/
theorem apply_exact (e : Endian) (key : Mask) (offset : UInt64) :
    (∀ payload : Bytes, (apply e payload key offset).1 = reference payload key offset.toNat) ∧
      (∀ chunks : List Bytes,
        applyChunks e key chunks offset = apply e chunks.flatten key offset) ∧
      ∀ payload : Bytes, (apply e (apply e payload key offset).1 key offset).1 = payload := by
  refine ⟨fun payload => apply_eq e payload key offset,
    fun chunks => applyChunks_eq e key chunks offset, fun payload => ?_⟩
  rw [apply_eq, apply_eq, reference_reference]

end Mask

end NagoWss
