import NagoWss.Core.BigEndian
import NagoWss.Core.Blocks

/-!
# Bit strings

A number is written as a given number of bits, most significant first, and a byte string as
the bits of its bytes. A big-endian field of bytes is the field of its bits.
-/

namespace Bits

/-- The `w` low bits of `n`, most significant first. -/
def ofNat : Nat → Nat → List Bool
  | 0, _ => []
  | w + 1, n => n.testBit w :: ofNat w n

/-- The number a bit string denotes. -/
def toNat : List Bool → Nat
  | [] => 0
  | b :: bs => b.toNat * 2 ^ bs.length + toNat bs

/-- The bits of a byte string. -/
def ofBytes (bytes : List UInt8) : List Bool := bytes.flatMap fun b => ofNat 8 b.toNat

/-- The bytes that a bit string fills. -/
def toBytes (bits : List Bool) : List UInt8 :=
  (Blocks.split 8 bits).map fun bs => UInt8.ofNat (toNat bs)

theorem ofNat_succ (w n : Nat) : ofNat (w + 1) n = n.testBit w :: ofNat w n := rfl

@[simp] theorem length_ofNat (w n : Nat) : (ofNat w n).length = w := by
  induction w with
  | zero => rfl
  | succ w ih => rw [ofNat_succ, List.length_cons, ih]

/-! ## Numbers -/

/-- The high bits and the low bits of a field. -/
theorem ofNat_add (v w n : Nat) : ofNat (v + w) n = ofNat v (n / 2 ^ w) ++ ofNat w n := by
  induction v with
  | zero => rw [Nat.zero_add, ofNat, List.nil_append]
  | succ v ih =>
    rw [Nat.succ_add, ofNat_succ, ofNat_succ, ih, Nat.testBit_div_two_pow, List.cons_append,
      Nat.add_comm v]

/-- The bits of a field do not depend on what stands above it. -/
theorem ofNat_mod (w n : Nat) : ofNat w (n % 2 ^ w) = ofNat w n := by
  have hbits {v : Nat} (hv : v ≤ w) : ofNat v (n % 2 ^ w) = ofNat v n := by
    induction v with
    | zero => rfl
    | succ v ih =>
      rw [ofNat_succ, ofNat_succ, ih (Nat.le_of_succ_le hv), Nat.testBit_mod_two_pow,
        decide_eq_true (Nat.lt_of_succ_le hv), Bool.true_and]
  exact hbits le_rfl

/-- Only the bits that were written are read. -/
theorem toNat_ofNat (w n : Nat) : toNat (ofNat w n) = n % 2 ^ w := by
  induction w with
  | zero => rw [pow_zero, Nat.mod_one, ofNat, toNat]
  | succ w ih =>
    rw [ofNat_succ, toNat, ih, length_ofNat, Nat.toNat_testBit, Nat.mod_pow_succ]
    ring

/-- A string of `w` bits denotes a number below `2 ^ w`. -/
theorem toNat_lt (bits : List Bool) : toNat bits < 2 ^ bits.length := by
  induction bits with
  | nil => rw [toNat, List.length_nil, pow_zero]; exact Nat.one_pos
  | cons b bits ih =>
    have hb := Nat.mul_le_mul_right (2 ^ bits.length) b.toNat_le
    rw [toNat, List.length_cons, pow_succ]
    omega

/-- Every bit string is the field of the number it denotes. -/
theorem ofNat_toNat (bits : List Bool) : ofNat bits.length (toNat bits) = bits := by
  induction bits with
  | nil => rfl
  | cons b bits ih =>
    have hlt := toNat_lt bits
    have hbit : (b.toNat * 2 ^ bits.length + toNat bits).testBit bits.length = b := by
      rw [Nat.mul_comm, Nat.testBit_two_pow_mul_add _ hlt, if_neg (Nat.lt_irrefl _),
        Nat.sub_self]
      cases b <;> rfl
    have hlow : ofNat bits.length (b.toNat * 2 ^ bits.length + toNat bits) =
        ofNat bits.length (toNat bits) := by
      rw [← ofNat_mod, Nat.add_comm, Nat.add_mul_mod_self_right, ofNat_mod]
    rw [List.length_cons, toNat, ofNat_succ, hbit, hlow, ih]

/-! ## Byte strings -/

@[simp] theorem ofBytes_nil : ofBytes [] = [] := rfl

theorem ofBytes_cons (b : UInt8) (bs : List UInt8) :
    ofBytes (b :: bs) = ofNat 8 b.toNat ++ ofBytes bs := rfl

@[simp] theorem ofBytes_append (xs ys : List UInt8) :
    ofBytes (xs ++ ys) = ofBytes xs ++ ofBytes ys := List.flatMap_append

@[simp] theorem length_ofBytes (bs : List UInt8) : (ofBytes bs).length = 8 * bs.length :=
  Blocks.length_flatMap (fun _ => length_ofNat 8 _) bs

/-- The bytes of the bits of a byte string. -/
@[simp] theorem toBytes_ofBytes (bs : List UInt8) : toBytes (ofBytes bs) = bs := by
  have hbyte (b : UInt8) : UInt8.ofNat (toNat (ofNat 8 b.toNat)) = b := by
    rw [toNat_ofNat, Nat.mod_eq_of_lt b.toNat_lt, UInt8.ofNat_toNat]
  rw [toBytes, ofBytes, Blocks.split_flatMap (by decide) (fun _ => length_ofNat 8 _),
    List.map_map]
  calc bs.map _ = bs.map id := List.map_congr_left fun b _ => hbyte b
    _ = bs := List.map_id bs

/-- The bits of the bytes that a bit string fills, and what is left. -/
theorem ofBytes_toBytes (bits : List Bool) :
    ofBytes (toBytes bits) ++ Blocks.residue 8 bits = bits := by
  have hblock {bs : List Bool} (h : bs ∈ Blocks.split 8 bits) :
      ofNat 8 (UInt8.ofNat (toNat bs)).toNat = bs := by
    have hlen := Blocks.length_of_mem_split (by decide) h
    rw [UInt8.toNat_ofNat', ofNat_mod, ← hlen, ofNat_toNat]
  have hbytes : ofBytes (toBytes bits) = (Blocks.split 8 bits).flatten := by
    rw [ofBytes, toBytes, List.flatMap_map, List.flatMap_def]
    exact congrArg List.flatten ((List.map_congr_left fun _ h => hblock h).trans (List.map_id _))
  rw [hbytes]
  exact Blocks.flatten_split (by decide)

/-- A big-endian field of bytes is the field of its bits. -/
theorem ofBytes_encode (w n : Nat) : ofBytes (BigEndian.encode w n) = ofNat (8 * w) n := by
  induction w with
  | zero => rfl
  | succ w ih =>
    have hpow : 256 ^ w = 2 ^ (8 * w) := by rw [pow_mul]; rfl
    have hdigit : (UInt8.ofNat (n / 256 ^ w)).toNat = n / 2 ^ (8 * w) % 2 ^ 8 := by
      rw [UInt8.toNat_ofNat', hpow]
    rw [BigEndian.encode_succ, ofBytes_cons, ih, hdigit, ofNat_mod, Nat.mul_succ, Nat.add_comm,
      ofNat_add]

/-- A byte string and its bits denote the same number. -/
theorem toNat_ofBytes (bs : List UInt8) : toNat (ofBytes bs) = BigEndian.decode bs := by
  have hpow : 256 ^ bs.length = 2 ^ (8 * bs.length) := by rw [pow_mul]; rfl
  conv_lhs => rw [← BigEndian.encode_decode bs, ofBytes_encode, toNat_ofNat, ← hpow]
  exact Nat.mod_eq_of_lt (BigEndian.decode_lt bs)

/-- A part of the bits of a byte string that starts and ends between bytes. -/
theorem take_drop_ofBytes (bs : List UInt8) (i k : Nat) :
    ((ofBytes bs).drop (8 * i)).take (8 * k) = ofBytes ((bs.drop i).take k) := by
  have hbyte (b : UInt8) : (ofNat 8 b.toNat).length = 8 := length_ofNat 8 _
  rw [ofBytes, Blocks.drop_flatMap hbyte, Blocks.take_flatMap hbyte, ofBytes]

end Bits
