import NagoWss.Core.Bits

/-!
# Base64

The encoding of section 4 of RFC 4648: the bits of a byte string in groups of six, each one
character of the alphabet, and the padding that makes the text whole groups of four
characters. A decoder may require the bits behind the last byte to be zero or ignore them.
-/

namespace Rfc4648

/-- The alphabet. -/
def alphabet : List Char :=
  "ABCDEFGHIJKLMNOPQRSTUVWXYZabcdefghijklmnopqrstuvwxyz0123456789+/".toList

/-- The character of six bits. -/
def character (sextet : List Bool) : Char := alphabet.getD (Bits.toNat sextet) '='

/-- The six bits of a character. -/
def sextet (c : Char) : List Bool := Bits.ofNat 6 (alphabet.idxOf c)

/-- How many bits of the last character of `n` bytes stand behind the last byte. -/
def spareBits (n : Nat) : Nat := (6 - 8 * n % 6) % 6

/-- The characters in front of the padding, with the given bits behind the last byte. -/
def body (spare : List Bool) (bytes : List UInt8) : List Char :=
  (Blocks.split 6 (Bits.ofBytes bytes ++ spare)).map character

/-- The padding behind `n` characters. -/
def padding (n : Nat) : List Char := List.replicate ((4 - n % 4) % 4) '='

/-- The text of a byte string, with the given bits behind the last byte. -/
def text (spare : List Bool) (bytes : List UInt8) : List Char :=
  body spare bytes ++ padding (body spare bytes).length

/-- The encoding of a byte string. The bits behind the last byte are zero. -/
def encode (bytes : List UInt8) : List Char :=
  text (List.replicate (spareBits bytes.length) false) bytes

/-- The byte string of a text. A strict decoder takes no text that has a one behind the last
byte. -/
def decode (strict : Bool) (text : List Char) : Option (List UInt8) :=
  let body := text.takeWhile (· != '=')
  let padding := text.dropWhile (· != '=')
  let bits := body.flatMap sextet
  if text.length % 4 = 0 ∧ padding.length ≤ 2 ∧ padding.all (· == '=') ∧
      body.all alphabet.contains ∧ (strict = true → true ∉ Blocks.residue 8 bits) then
    some (Bits.toBytes bits)
  else none

/-! ## Characters -/

/-- The six bits of a character. -/
@[simp] theorem length_sextet (c : Char) : (sextet c).length = 6 := Bits.length_ofNat 6 _

/-- The characters of the alphabet, by their numbers. -/
theorem character_ofNat (i : Fin 64) : character (Bits.ofNat 6 i) ∈ alphabet ∧
    alphabet.idxOf (character (Bits.ofNat 6 i)) = i := by
  revert i
  decide +kernel

/-- The character of six bits is one of the alphabet, and its six bits are these. -/
theorem sextet_character {bits : List Bool} (h : bits.length = 6) :
    character bits ∈ alphabet ∧ sextet (character bits) = bits := by
  have hlt : Bits.toNat bits < 64 := by
    have hlt := Bits.toNat_lt bits
    rwa [h] at hlt
  have hbits : Bits.ofNat 6 (Bits.toNat bits) = bits := by
    conv_rhs => rw [← Bits.ofNat_toNat bits, h]
  obtain ⟨hmem, hidx⟩ := character_ofNat ⟨Bits.toNat bits, hlt⟩
  rw [hbits] at hmem hidx
  exact ⟨hmem, by rw [sextet, hidx, hbits]⟩

/-- A character of the alphabet is the one of its six bits, and none of the padding. -/
theorem character_sextet {c : Char} (h : c ∈ alphabet) :
    character (sextet c) = c ∧ (c != '=') = true := by
  have hall : alphabet.all (fun c => character (sextet c) == c && c != '=') = true := by
    decide +kernel
  have hc := List.all_eq_true.mp hall c h
  rw [Bool.and_eq_true, beq_iff_eq] at hc
  exact hc

/-- Characters of the alphabet are those of their bits. -/
theorem split_flatMap_sextet {cs : List Char} (h : ∀ c ∈ cs, c ∈ alphabet) :
    (Blocks.split 6 (cs.flatMap sextet)).map character = cs := by
  rw [Blocks.split_flatMap (by decide) length_sextet, List.map_map]
  exact (List.map_congr_left fun c hc => (character_sextet (h c hc)).1).trans (List.map_id cs)

/-- Bits in groups of six are those of their characters. -/
theorem flatMap_sextet_split {bits : List Bool} (h : bits.length % 6 = 0) :
    (∀ c ∈ (Blocks.split 6 bits).map character, c ∈ alphabet) ∧
      ((Blocks.split 6 bits).map character).flatMap sextet = bits := by
  have hblock {s : List Bool} (hs : s ∈ Blocks.split 6 bits) : s.length = 6 :=
    Blocks.length_of_mem_split (by decide) hs
  refine ⟨fun c hc => ?_, ?_⟩
  · obtain ⟨s, hs, rfl⟩ := List.mem_map.mp hc
    exact (sextet_character (hblock hs)).1
  · have hwhole := @Blocks.flatten_split _ 6 bits (by decide)
    rw [Blocks.residue_eq_nil h, List.append_nil] at hwhole
    rw [List.flatMap_map, List.flatMap_def]
    refine Eq.trans (congrArg List.flatten ?_) hwhole
    exact (List.map_congr_left fun s hs => (sextet_character (hblock hs)).2).trans (List.map_id _)

/-! ## Decoding -/

section Text

variable {spare : List Bool} {bytes : List UInt8}

/-- The bits behind the last byte fill the last character. -/
theorem length_bits (h : spare.length = spareBits bytes.length) :
    (Bits.ofBytes bytes ++ spare).length % 6 = 0 := by
  rw [List.length_append, Bits.length_ofBytes, h, spareBits]
  omega

/-- The characters in front of the padding, as many as it takes. -/
theorem length_body (h : spare.length = spareBits bytes.length) :
    (body spare bytes).length = (4 * bytes.length + 2) / 3 := by
  rw [body, List.length_map, Blocks.length_split, List.length_append, Bits.length_ofBytes, h,
    spareBits]
  omega

/-- A text is whole groups of four characters. -/
theorem length_text (h : spare.length = spareBits bytes.length) :
    (text spare bytes).length = 4 * ((bytes.length + 2) / 3) := by
  rw [text, List.length_append, padding, List.length_replicate, length_body h]
  omega

/-- Whole groups of three bytes are whole groups of four characters. -/
theorem encode_append {front : List UInt8} (h : front.length % 3 = 0) :
    encode (front ++ bytes) = body [] front ++ encode bytes := by
  have hfront : (Bits.ofBytes front).length % 6 = 0 := by
    rw [Bits.length_ofBytes]
    omega
  have hspare : spareBits (front ++ bytes).length = spareBits bytes.length := by
    rw [List.length_append, spareBits, spareBits]
    omega
  have hbody (spare : List Bool) :
      body spare (front ++ bytes) = body [] front ++ body spare bytes := by
    rw [body, Bits.ofBytes_append, List.append_assoc,
      Blocks.split_whole_append (by decide) hfront, List.map_append, body, body, List.append_nil]
  have hcount : (body [] front).length % 4 = 0 := by
    rw [body, List.length_map, Blocks.length_split, List.append_nil, Bits.length_ofBytes]
    omega
  rw [encode, hspare, text, hbody, List.length_append, padding, Nat.add_mod, hcount,
    Nat.zero_add, Nat.mod_mod, List.append_assoc]
  rfl

/-- Characters of the alphabet are those of the bytes that their bits fill, with the bits
that are left behind the last byte. -/
theorem body_residue {cs : List Char} (h : ∀ c ∈ cs, c ∈ alphabet) :
    body (Blocks.residue 8 (cs.flatMap sextet)) (Bits.toBytes (cs.flatMap sextet)) = cs := by
  rw [body, Bits.ofBytes_toBytes, split_flatMap_sextet h]

/-- How many bytes the bits of characters fill. -/
theorem length_toBytes_sextets (cs : List Char) :
    (Bits.toBytes (cs.flatMap sextet)).length = 6 * cs.length / 8 := by
  rw [Bits.toBytes, List.length_map, Blocks.length_split, Blocks.length_flatMap length_sextet]

/-- A text is cut in front of its padding. -/
theorem cut_append {cs : List Char} (h : ∀ c ∈ cs, c ∈ alphabet) (k : Nat) :
    (cs ++ List.replicate k '=').takeWhile (· != '=') = cs ∧
      (cs ++ List.replicate k '=').dropWhile (· != '=') = List.replicate k '=' := by
  have hcs (c : Char) (hc : c ∈ cs) : (c != '=') = true := (character_sextet (h c hc)).2
  have hstop : (List.replicate k '=').takeWhile (· != '=') = [] ∧
      (List.replicate k '=').dropWhile (· != '=') = List.replicate k '=' := by
    cases k <;> exact ⟨rfl, rfl⟩
  rw [List.takeWhile_append_of_pos hcs, List.dropWhile_append_of_pos hcs, hstop.1, hstop.2,
    List.append_nil]
  exact ⟨rfl, rfl⟩

/-- A decoder gives a byte string for its texts and no other: a strict one for the encoding,
and one that is not strict for every text whatever the bits behind the last byte are. -/
theorem decode_iff {strict : Bool} {t : List Char} : decode strict t = some bytes ↔
    ∃ spare : List Bool, spare.length = spareBits bytes.length ∧
      (strict = true → true ∉ spare) ∧ t = text spare bytes := by
  rw [decode, Option.ite_none_right_eq_some, Option.some.injEq]
  constructor
  · rintro ⟨⟨hlen, hpad, hall, halphabet, hstrict⟩, rfl⟩
    have hcut := @List.takeWhile_append_dropWhile _ (· != '=') t
    generalize t.takeWhile (· != '=') = cs at *
    generalize t.dropWhile (· != '=') = pad at *
    have hcs : ∀ c ∈ cs, c ∈ alphabet := fun c hc =>
      List.contains_iff_mem.mp (List.all_eq_true.mp halphabet c hc)
    have hpadding : pad = List.replicate pad.length '=' :=
      List.eq_replicate_of_mem fun c hc => beq_iff_eq.mp (List.all_eq_true.mp hall c hc)
    rw [← hcut, List.length_append] at hlen
    refine ⟨Blocks.residue 8 (cs.flatMap sextet), ?_, hstrict, ?_⟩
    · -- The last group has no character, or two or three of them.
      obtain ⟨k, hk⟩ : ∃ k, cs.length = 4 * k ∨ cs.length = 4 * k + 2 ∨ cs.length = 4 * k + 3 :=
        ⟨cs.length / 4, by omega⟩
      rw [Blocks.length_residue, length_toBytes_sextets, Blocks.length_flatMap length_sextet,
        spareBits]
      rcases hk with hk | hk | hk <;> rw [hk] <;> omega
    · have hcount : (4 - cs.length % 4) % 4 = pad.length := by omega
      rw [text, body_residue hcs, padding, hcount, ← hpadding, hcut]
  · rintro ⟨spare, hspare, hstrict, rfl⟩
    obtain ⟨hbody, hbits⟩ := flatMap_sextet_split (length_bits hspare)
    change ∀ c ∈ body spare bytes, c ∈ alphabet at hbody
    change (body spare bytes).flatMap sextet = _ at hbits
    obtain ⟨hfront, hback⟩ := cut_append hbody ((4 - (body spare bytes).length % 4) % 4)
    have hlen := length_text hspare
    have hshort : spare.length < 8 := by
      rw [hspare, spareBits]
      omega
    have hwhole : (Bits.ofBytes bytes).length % 8 = 0 := by
      rw [Bits.length_ofBytes, Nat.mul_mod_right]
    have hbytes : Bits.toBytes (Bits.ofBytes bytes ++ spare) = bytes := by
      rw [Bits.toBytes, Blocks.split_whole_append (by decide) hwhole, Blocks.split_of_lt hshort,
        List.append_nil]
      exact Bits.toBytes_ofBytes bytes
    rw [hlen, text, padding, hfront, hback, hbits, List.length_replicate, length_body hspare,
      Blocks.residue_whole_append (by decide) hwhole, Blocks.residue_of_lt hshort]
    refine ⟨⟨Nat.mul_mod_right 4 _, ?_, ?_, ?_, hstrict⟩, hbytes⟩
    · omega
    · exact List.all_eq_true.mpr fun c hc => beq_iff_eq.mpr (List.eq_of_mem_replicate hc)
    · exact List.all_eq_true.mpr fun c hc => List.contains_iff_mem.mpr (hbody c hc)

/-- Decoding gives back what was encoded. -/
theorem decode_encode (strict : Bool) (bytes : List UInt8) :
    decode strict (encode bytes) = some bytes :=
  decode_iff.mpr ⟨_, List.length_replicate,
    fun _ h => absurd (List.eq_of_mem_replicate h) (by decide), rfl⟩

/-- A byte string is determined by its encoding. -/
theorem encode_injective : Function.Injective encode := by
  intro xs ys h
  have hxs := decode_encode true xs
  rw [h, decode_encode] at hxs
  exact (Option.some.inj hxs).symm

end Text

end Rfc4648
