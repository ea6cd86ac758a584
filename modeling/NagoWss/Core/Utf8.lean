import Mathlib.Data.List.Basic

/-!
# UTF-8

A text is a list of characters and a byte string is valid when it is the
encoding of one. Validity and decoding are the tests of the standard library,
carried over to lists of bytes.
-/

namespace Utf8

/-- The UTF-8 bytes of a text. -/
def encode (text : List Char) : List UInt8 := text.flatMap String.utf8EncodeChar

/-- The text a byte string encodes, if it encodes one. -/
def decode (bytes : List UInt8) : Option (List Char) :=
  bytes.toByteArray.utf8Decode?.map Array.toList

/-- Whether a byte string is the encoding of a text. -/
def valid (bytes : List UInt8) : Bool := bytes.toByteArray.validateUTF8

@[simp] theorem encode_nil : encode [] = [] := rfl

@[simp] theorem encode_append (s t : List Char) : encode (s ++ t) = encode s ++ encode t :=
  List.flatMap_append

theorem encode_cons (c : Char) (t : List Char) :
    encode (c :: t) = String.utf8EncodeChar c ++ encode t := rfl

theorem toByteArray_encode (text : List Char) :
    (encode text).toByteArray = text.utf8Encode := rfl

/-- The valid byte strings are the encodings of texts. -/
theorem valid_iff {bytes : List UInt8} : valid bytes = true ↔ ∃ text, bytes = encode text := by
  rw [valid, ByteArray.validateUTF8_eq_true_iff]
  constructor
  · rintro ⟨text, h⟩
    exact ⟨text, List.toByteArray_inj.mp h⟩
  · rintro ⟨text, rfl⟩
    exact ⟨text, rfl⟩

/-- Decoding undoes encoding. -/
theorem decode_encode (text : List Char) : decode (encode text) = some text := by
  rw [decode, toByteArray_encode, List.utf8Decode?_utf8Encode]
  rfl

/-- An ASCII character is encoded as itself. -/
theorem encodeChar_ascii {c : Char} (h : c.toNat < 128) :
    String.utf8EncodeChar c = [UInt8.ofNat c.toNat] := by
  rw [String.utf8EncodeChar]
  exact if_pos (Nat.le_of_lt_succ h)

/-- A byte below 128 stands for the character of its number only. -/
theorem toNat_of_mem_encodeChar {c : Char} {b : UInt8} (hb : b.toNat < 128)
    (h : b ∈ String.utf8EncodeChar c) : c.toNat = b.toNat := by
  have hbyte (n k : Nat) (hk : 128 ≤ k) (hn : n + k < 256) : b ≠ UInt8.ofNat (n + k) := by
    rintro rfl
    rw [UInt8.toNat_ofNat', Nat.mod_eq_of_lt hn] at hb
    omega
  by_cases hc : c.toNat < 128
  · rw [encodeChar_ascii hc] at h
    rw [List.mem_singleton.mp h, UInt8.toNat_ofNat', Nat.mod_eq_of_lt (by omega)]
  · -- Every byte of a longer encoding has its top bit set.
    have hlong : ¬c.val.toNat ≤ 127 := by
      change ¬c.toNat ≤ 127
      omega
    rw [String.utf8EncodeChar] at h
    simp only [hlong, if_false] at h
    split at h
    · simp only [List.mem_cons, List.not_mem_nil, or_false] at h
      rcases h with h | h <;> exact absurd h (hbyte _ _ (by omega) (by omega))
    · split at h
      · simp only [List.mem_cons, List.not_mem_nil, or_false] at h
        rcases h with h | h | h <;> exact absurd h (hbyte _ _ (by omega) (by omega))
      · simp only [List.mem_cons, List.not_mem_nil, or_false] at h
        rcases h with h | h | h | h <;> exact absurd h (hbyte _ _ (by omega) (by omega))

/-- Where a byte below 128 stands in an encoding, its character stands in the text. -/
theorem mem_of_mem_encode {text : List Char} {b : UInt8} (hb : b.toNat < 128)
    (h : b ∈ encode text) : ∃ c ∈ text, c.toNat = b.toNat := by
  obtain ⟨c, hc, hmem⟩ := List.mem_flatMap.mp h
  exact ⟨c, hc, toNat_of_mem_encodeChar hb hmem⟩

/-- A character is four bytes at most. -/
theorem length_encode_le (text : List Char) : (encode text).length ≤ 4 * text.length := by
  induction text with
  | nil => exact Nat.le_refl 0
  | cons c text ih =>
    have hc : (String.utf8EncodeChar c).length ≤ 4 := by
      rw [String.length_utf8EncodeChar]
      exact c.utf8Size_le_four
    rw [encode_cons, List.length_append, List.length_cons]
    omega
end Utf8
