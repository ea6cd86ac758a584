import Mathlib.Algebra.Order.Ring.Nat
import Mathlib.Tactic.Ring

/-!
# Big-endian byte strings

A natural number below `256 ^ w` is written as exactly `w` bytes, most
significant first, and read back from them. The two maps are mutually inverse
on that range, so a fixed-width field of a wire format is settled by its width.
-/

namespace BigEndian

/-- The `w` low bytes of `n`, most significant first. -/
def encode : Nat → Nat → List UInt8
  | 0, _ => []
  | w + 1, n => UInt8.ofNat (n / 256 ^ w) :: encode w n

/-- The number a byte string denotes. -/
def decode : List UInt8 → Nat
  | [] => 0
  | b :: bs => b.toNat * 256 ^ bs.length + decode bs

@[simp] theorem encode_zero (n : Nat) : encode 0 n = [] := rfl

theorem encode_succ (w n : Nat) :
    encode (w + 1) n = UInt8.ofNat (n / 256 ^ w) :: encode w n := rfl

@[simp] theorem decode_nil : decode [] = 0 := rfl

@[simp] theorem decode_cons (b : UInt8) (bs : List UInt8) :
    decode (b :: bs) = b.toNat * 256 ^ bs.length + decode bs := rfl

@[simp] theorem length_encode (w n : Nat) : (encode w n).length = w := by
  induction w with
  | zero => rfl
  | succ w ih => rw [encode_succ, List.length_cons, ih]

/-- A string of `w` bytes denotes a number below `256 ^ w`. -/
theorem decode_lt (bs : List UInt8) : decode bs < 256 ^ bs.length := by
  induction bs with
  | nil => simp only [decode_nil, List.length_nil, pow_zero, Nat.lt_one_iff]
  | cons b bs ih =>
    have hb : b.toNat < 256 := b.toNat_lt
    rw [decode_cons, List.length_cons, pow_succ]
    calc b.toNat * 256 ^ bs.length + decode bs
        < b.toNat * 256 ^ bs.length + 256 ^ bs.length := by omega
      _ = (b.toNat + 1) * 256 ^ bs.length := by ring
      _ ≤ 256 * 256 ^ bs.length := Nat.mul_le_mul_right _ hb
      _ = 256 ^ bs.length * 256 := Nat.mul_comm _ _

/-- Only the bytes that were written are read: higher digits are lost. -/
theorem decode_encode_mod (w n : Nat) : decode (encode w n) = n % 256 ^ w := by
  induction w with
  | zero => simp only [encode_zero, decode_nil, pow_zero, Nat.mod_one]
  | succ w ih =>
    have hd : (UInt8.ofNat (n / 256 ^ w)).toNat = n / 256 ^ w % 256 := by
      simp only [UInt8.toNat_ofNat', Nat.reducePow]
    rw [encode_succ, decode_cons, length_encode, ih, hd, pow_succ, Nat.mod_mul]
    ring

/-- Reading back a number that fits its field. -/
theorem decode_encode {w n : Nat} (h : n < 256 ^ w) : decode (encode w n) = n := by
  rw [decode_encode_mod, Nat.mod_eq_of_lt h]

/-- The digits below the field do not depend on what stands above it. -/
theorem encode_mul_add (w k n : Nat) : encode w (k * 256 ^ w + n) = encode w n := by
  induction w generalizing k with
  | zero => rfl
  | succ w ih =>
    have hk : k * 256 ^ (w + 1) + n = k * 256 * 256 ^ w + n := by ring
    rw [encode_succ, encode_succ, hk, ih]
    congr 1
    have hp : 0 < 256 ^ w := Nat.pow_pos (by decide)
    rw [Nat.add_comm, Nat.add_mul_div_right _ _ hp]
    apply UInt8.toNat_inj.mp
    simp only [UInt8.toNat_ofNat', Nat.reducePow, Nat.add_mul_mod_self_right]

/-- Every byte string is the encoding of the number it denotes. -/
theorem encode_decode (bs : List UInt8) : encode bs.length (decode bs) = bs := by
  induction bs with
  | nil => rfl
  | cons b bs ih =>
    have hp : 0 < 256 ^ bs.length := Nat.pow_pos (by decide)
    have hq : (b.toNat * 256 ^ bs.length + decode bs) / 256 ^ bs.length = b.toNat := by
      rw [Nat.add_comm, Nat.add_mul_div_right _ _ hp, Nat.div_eq_of_lt (decode_lt bs),
        Nat.zero_add]
    rw [List.length_cons, decode_cons, encode_succ, hq, UInt8.ofNat_toNat, encode_mul_add, ih]

/-! ## Joining and combining byte strings -/

/-- The number of a joined string, from the numbers of its parts. -/
theorem decode_append (xs ys : List UInt8) :
    decode (xs ++ ys) = decode xs * 256 ^ ys.length + decode ys := by
  induction xs with
  | nil => simp only [List.nil_append, decode_nil, Nat.zero_mul, Nat.zero_add]
  | cons x xs ih =>
    rw [List.cons_append, decode_cons, decode_cons, ih, List.length_append, pow_add]
    ring

/-- Exclusive or acts on the digits above and below a power of two separately. -/
theorem xor_mul_two_pow_add {i a b m n : Nat} (hm : m < 2 ^ i) (hn : n < 2 ^ i) :
    (a * 2 ^ i + m) ^^^ (b * 2 ^ i + n) = (a ^^^ b) * 2 ^ i + (m ^^^ n) := by
  apply Nat.eq_of_testBit_eq
  intro j
  have hx : m ^^^ n < 2 ^ i := Nat.xor_lt_two_pow hm hn
  rw [Nat.testBit_xor, Nat.mul_comm a, Nat.mul_comm b, Nat.mul_comm (a ^^^ b),
    Nat.testBit_two_pow_mul_add _ hm, Nat.testBit_two_pow_mul_add _ hn,
    Nat.testBit_two_pow_mul_add _ hx]
  split <;> rw [Nat.testBit_xor]

/-- Exclusive or of two numbers is exclusive or byte by byte. -/
theorem decode_xor {xs ys : List UInt8} (h : xs.length = ys.length) :
    decode xs ^^^ decode ys = decode (List.zipWith (· ^^^ ·) xs ys) := by
  induction xs generalizing ys with
  | nil =>
    cases ys with
    | nil => rfl
    | cons y ys => cases h
  | cons x xs ih =>
    cases ys with
    | nil => cases h
    | cons y ys =>
      have hl : xs.length = ys.length := Nat.succ.inj h
      have hpow : (256 : Nat) ^ ys.length = 2 ^ (8 * ys.length) := by
        rw [pow_mul]
        rfl
      have hx := decode_lt xs
      have hy := decode_lt ys
      rw [hl] at hx
      rw [hpow] at hx hy
      rw [List.zipWith_cons_cons, decode_cons, decode_cons, decode_cons, List.length_zipWith, hl,
        Nat.min_self, hpow, xor_mul_two_pow_add hx hy, ih hl, UInt8.toNat_xor]

end BigEndian
