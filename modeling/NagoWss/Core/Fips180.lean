import NagoWss.Core.Bits

/-!
# The secure hash algorithm of 160 bits

The algorithm as FIPS 180-4 states it, for a message of bits: the padding of section 5.1.1,
the functions and constants of sections 4.1.1 and 4.2.1 and the computation of section 6.1.2.
-/

namespace Fips180

/-- A word. -/
abbrev Word := BitVec 32

/-! ## Functions and constants -/

/-- Choose between two words. -/
def Ch (x y z : Word) : Word := (x &&& y) ^^^ (~~~x &&& z)

/-- The parity of three words. -/
def Parity (x y z : Word) : Word := x ^^^ y ^^^ z

/-- The majority of three words. -/
def Maj (x y z : Word) : Word := (x &&& y) ^^^ (x &&& z) ^^^ (y &&& z)

/-- The function of round `t`. -/
def f (t : Nat) (x y z : Word) : Word :=
  if t < 20 then Ch x y z
  else if t < 40 then Parity x y z
  else if t < 60 then Maj x y z
  else Parity x y z

/-- The constant of round `t`. -/
def K (t : Nat) : Word :=
  if t < 20 then 0x5A827999
  else if t < 40 then 0x6ED9EBA1
  else if t < 60 then 0x8F1BBCDC
  else 0xCA62C1D6

/-- Five words: the working variables, or a hash value. -/
@[ext] structure Words where
  a : Word
  b : Word
  c : Word
  d : Word
  e : Word

/-- The initial hash value. -/
def initial : Words := ⟨0x67452301, 0xEFCDAB89, 0x98BADCFE, 0x10325476, 0xC3D2E1F0⟩

/-! ## Padding -/

/-- How many zeros follow the one behind a message of `l` bits. -/
def zeros (l : Nat) : Nat := (448 + 512 - (l + 1) % 512) % 512

/-- The zeros are the fewest that leave 64 bits to a full block. -/
theorem zeros_least (l : Nat) : (l + 1 + zeros l) % 512 = 448 ∧
    ∀ k < zeros l, (l + 1 + k) % 512 ≠ 448 := by
  rw [zeros]
  refine ⟨by omega, fun k hk => ?_⟩
  omega

/-- A message with its padding: a one, zeros, and the length in 64 bits. The algorithm is
for messages of fewer than `2 ^ 64` bits, and so the length fits. -/
def pad (message : List Bool) : List Bool :=
  message ++ true :: (List.replicate (zeros message.length) false ++ Bits.ofNat 64 message.length)

/-- A padded message is of whole blocks. -/
theorem length_pad (message : List Bool) : (pad message).length % 512 = 0 := by
  have hzeros := (zeros_least message.length).1
  rw [pad, List.length_append, List.length_cons, List.length_append, List.length_replicate,
    Bits.length_ofNat]
  omega

/-! ## Computation -/

/-- Word `t` of a block. -/
def word (block : List Bool) (t : Nat) : Word :=
  BitVec.ofNat 32 (Bits.toNat ((block.drop (32 * t)).take 32))

/-- Word `t` of the message schedule of a block. -/
def W (block : List Bool) (t : Nat) : Word :=
  if t < 16 then word block t
  else (W block (t - 3) ^^^ W block (t - 8) ^^^ W block (t - 14) ^^^ W block (t - 16)).rotateLeft 1

/-- Round `t` with the word `w` of the schedule. -/
def step (t : Nat) (w : Word) (v : Words) : Words where
  a := v.a.rotateLeft 5 + f t v.b v.c v.d + v.e + K t + w
  b := v.a
  c := v.b.rotateLeft 30
  d := v.c
  e := v.d

/-- The first rounds of a block. -/
def rounds (block : List Bool) (h : Words) : Nat → Words
  | 0 => h
  | t + 1 => step t (W block t) (rounds block h t)

/-- The hash value behind a block. -/
def compress (h : Words) (block : List Bool) : Words :=
  let v := rounds block h 80
  ⟨v.a + h.a, v.b + h.b, v.c + h.c, v.d + h.d, v.e + h.e⟩

/-- The bits of a hash value. -/
def Words.bits (h : Words) : List Bool :=
  [h.a, h.b, h.c, h.d, h.e].flatMap fun w => Bits.ofNat 32 w.toNat

/-- The message digest. -/
def sha1 (message : List Bool) : List Bool :=
  ((Blocks.split 512 (pad message)).foldl compress initial).bits

end Fips180
