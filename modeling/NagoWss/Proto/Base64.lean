import NagoWss.Core.Rfc4648
import NagoWss.Proto.Digest

/-!
# Base64 and keys

The encoder of the handshake writes the base64 of RFC 4648, from which the bytes are read
back. The check of a key takes what an encoder wrote for sixteen bytes, whatever it left in
the four bits behind the last byte.
-/

namespace NagoWss

/-! ## The encoder -/

/-- The alphabet of the encoder. -/
theorem get_B64 (i : Fin 64) : B64.get i = Rfc4648.alphabet.getD i '=' := by
  revert i
  decide +kernel

/-- The character of a word is that of its low six bits. -/
theorem b64_eq (word : UInt32) : b64 word = Rfc4648.character (Bits.ofNat 6 word.toNat) := by
  have hlow : (word &&& 0x3F).toNat = word.toNat % 2 ^ 6 := by
    rw [UInt32.toNat_and]
    exact Nat.and_two_pow_sub_one_eq_mod _ 6
  rw [b64, get_B64, Rfc4648.character, Bits.toNat_ofNat, ← hlow]

/-- The number of a chunk. -/
theorem toNat_triple (b0 b1 b2 : UInt8) :
    (triple b0 b1 b2).toNat = BigEndian.decode [b0, b1, b2] := by
  have h0 := b0.toNat_lt
  have h1 := b1.toNat_lt
  have h2 := b2.toNat_lt
  have hhigh : (b0.toUInt32 <<< 16).toNat = 2 ^ 16 * b0.toNat := by
    simp [UInt32.toNat_shiftLeft, Nat.shiftLeft_eq]
    omega
  have hmid : (b1.toUInt32 <<< 8).toNat = 2 ^ 8 * b1.toNat := by
    simp [UInt32.toNat_shiftLeft, Nat.shiftLeft_eq]
    omega
  rw [triple, UInt32.toNat_or, UInt32.toNat_or, hhigh, hmid, UInt8.toNat_toUInt32,
    ← Nat.two_pow_add_eq_or_of_lt (by omega)]
  have hfront : 2 ^ 16 * b0.toNat + 2 ^ 8 * b1.toNat = 2 ^ 8 * (2 ^ 8 * b0.toNat + b1.toNat) := by
    ring
  rw [hfront, ← Nat.two_pow_add_eq_or_of_lt h2]
  simp only [BigEndian.decode_cons, BigEndian.decode_nil, List.length_cons, List.length_nil]
  ring

/-- The bits of a chunk, in groups of six. -/
theorem ofBytes_triple (b0 b1 b2 : UInt8) :
    let t := triple b0 b1 b2
    Bits.ofBytes [b0, b1, b2] = Bits.ofNat 6 (t >>> 18).toNat ++ (Bits.ofNat 6 (t >>> 12).toNat ++
      (Bits.ofNat 6 (t >>> 6).toNat ++ Bits.ofNat 6 t.toNat)) := by
  intro t
  have ht : Bits.ofBytes [b0, b1, b2] = Bits.ofNat 24 t.toNat := by
    rw [toNat_triple, ← Bits.toNat_ofBytes]
    exact (Bits.ofNat_toNat _).symm
  have hshift (k : UInt32) (hk : k < 32) : (t >>> k).toNat = t.toNat / 2 ^ k.toNat := by
    rw [UInt32.toNat_shiftRight, Nat.shiftRight_eq_div_pow]
    exact congrArg (t.toNat / 2 ^ ·) (Nat.mod_eq_of_lt hk)
  rw [ht, hshift 18 (by decide), hshift 12 (by decide), hshift 6 (by decide)]
  exact (Bits.ofNat_add 6 18 _).trans (congrArg _ ((Bits.ofNat_add 6 12 _).trans
    (congrArg _ (Bits.ofNat_add 6 6 _))))

/-- Groups of six bits are as many characters. -/
theorem map_character_split (words : List UInt32) :
    (Blocks.split 6 (words.flatMap fun word => Bits.ofNat 6 word.toNat)).map Rfc4648.character =
      words.map b64 := by
  rw [Blocks.split_flatMap (by decide) (fun _ => Bits.length_ofNat 6 _), List.map_map]
  exact List.map_congr_left fun word _ => (b64_eq word).symm

/-- The encoder writes the base64 of RFC 4648. -/
theorem base64Encode_eq (bytes : Bytes) : base64Encode bytes = Rfc4648.encode bytes := by
  fun_induction base64Encode bytes with
  | case1 => rfl
  | case2 b0 t =>
    have hall : (Bits.ofBytes [b0] ++ List.replicate 4 false) ++ List.replicate 12 false =
        ([t >>> 18, t >>> 12].flatMap fun word => Bits.ofNat 6 word.toNat) ++
          [t >>> 6, t].flatMap fun word => Bits.ofNat 6 word.toNat := ofBytes_triple b0 0 0
    have hbody : Rfc4648.body (List.replicate 4 false) [b0] = [t >>> 18, t >>> 12].map b64 := by
      rw [← map_character_split, ← List.append_inj_left hall rfl, Rfc4648.body]
    have hspare : Rfc4648.spareBits 1 = 4 := by decide
    rw [Rfc4648.encode, List.length_singleton, hspare, Rfc4648.text, hbody]
    rfl
  | case3 b0 b1 t =>
    have hall : (Bits.ofBytes [b0, b1] ++ List.replicate 2 false) ++ List.replicate 6 false =
        ([t >>> 18, t >>> 12, t >>> 6].flatMap fun word => Bits.ofNat 6 word.toNat) ++
          [t].flatMap fun word => Bits.ofNat 6 word.toNat := ofBytes_triple b0 b1 0
    have hbody : Rfc4648.body (List.replicate 2 false) [b0, b1] =
        [t >>> 18, t >>> 12, t >>> 6].map b64 := by
      rw [← map_character_split, ← List.append_inj_left hall rfl, Rfc4648.body]
    have hspare : Rfc4648.spareBits 2 = 2 := by decide
    rw [Rfc4648.encode, List.length_cons, List.length_singleton, hspare, Rfc4648.text, hbody]
    rfl
  | case4 b0 b1 b2 rest t ih =>
    have hfront : Rfc4648.body [] [b0, b1, b2] =
        [t >>> 18, t >>> 12, t >>> 6, t].map b64 := by
      rw [← map_character_split, Rfc4648.body, List.append_nil, ofBytes_triple]
      rfl
    have hgroup : [b0, b1, b2].length % 3 = 0 := by
      rw [List.length_cons, List.length_cons, List.length_singleton]
    have happend := @Rfc4648.encode_append rest _ hgroup
    rw [hfront] at happend
    rw [ih]
    exact happend.symm

/-- A text has characters of the alphabet, with at most two of padding at the end. -/
theorem base64Encode_chars (bytes : Bytes) : ∃ chars k,
    base64Encode bytes = chars ++ List.replicate k '=' ∧ k ≤ 2 ∧
      ∀ c ∈ chars, c ∈ Rfc4648.alphabet := by
  have hspare : (List.replicate (Rfc4648.spareBits bytes.length) false).length =
      Rfc4648.spareBits bytes.length := List.length_replicate
  rw [base64Encode_eq]
  refine ⟨_, _, rfl, ?_, (Rfc4648.flatMap_sextet_split (Rfc4648.length_bits hspare)).1⟩
  rw [Rfc4648.length_body hspare]
  omega

/-- The digest that the accept value is of. -/
def acceptDigest (key : Bytes) : Bytes := ((Sha1.new.update key).update WS_GUID).finish

/-- The accept value is the base64 of the digest. -/
theorem acceptFor_eq (key : Bytes) : acceptFor key = Rfc4648.encode (acceptDigest key) :=
  base64Encode_eq _

/-- Encoding is exact: a text has as many characters as it takes, those of the alphabet with
at most two of padding at the end, and a decoder reads the bytes back. So no two byte
strings, keys or digests have the same text. -/
theorem base64Encode_exact :
    (∀ bytes : Bytes, (base64Encode bytes).length = 4 * ((bytes.length + 2) / 3) ∧
      (∃ chars k, base64Encode bytes = chars ++ List.replicate k '=' ∧ k ≤ 2 ∧
        ∀ c ∈ chars, c ∈ Rfc4648.alphabet) ∧
      ∀ strict, Rfc4648.decode strict (base64Encode bytes) = some bytes) ∧
    Function.Injective base64Encode ∧ Function.Injective newKey ∧
    ∀ key key', acceptDigest key ≠ acceptDigest key' → acceptFor key ≠ acceptFor key' := by
  have hinjective : Function.Injective base64Encode := by
    intro xs ys h
    rw [base64Encode_eq, base64Encode_eq] at h
    exact Rfc4648.encode_injective h
  refine ⟨fun bytes => ⟨length_base64Encode bytes, base64Encode_chars bytes, fun strict => ?_⟩,
    hinjective, fun e e' h => Vector.toList_inj.mp (hinjective h), fun key key' hne h => hne ?_⟩
  · rw [base64Encode_eq]
    exact Rfc4648.decode_encode strict bytes
  · rw [acceptFor_eq, acceptFor_eq] at h
    exact Rfc4648.encode_injective h

/-! ## Keys -/

/-- Whether a byte may stand in a key, in front of the padding. -/
def isKeyByte (byte : UInt8) : Bool :=
  isAsciiAlphanumeric byte || byte == '+'.toUInt8 || byte == '/'.toUInt8

/-- A character of the alphabet is one byte, and one that may stand in a key. -/
theorem encodeChar_alphabet {c : Char} (h : c ∈ Rfc4648.alphabet) :
    String.utf8EncodeChar c = [UInt8.ofNat c.toNat] ∧ isKeyByte (UInt8.ofNat c.toNat) = true := by
  have hall : Rfc4648.alphabet.all (fun c =>
      String.utf8EncodeChar c == [UInt8.ofNat c.toNat] && isKeyByte (UInt8.ofNat c.toNat)) =
        true := by decide +kernel
  have hc := List.all_eq_true.mp hall c h
  rw [Bool.and_eq_true, beq_iff_eq] at hc
  exact hc

/-- A byte that may stand in a key is a character of the alphabet. -/
theorem alphabet_of_isKeyByte {byte : UInt8} (h : isKeyByte byte = true) :
    Char.ofNat byte.toNat ∈ Rfc4648.alphabet ∧
      String.utf8EncodeChar (Char.ofNat byte.toNat) = [byte] := by
  have hall : ∀ i : Fin 256, isKeyByte (UInt8.ofNat i) = true →
      Char.ofNat i ∈ Rfc4648.alphabet ∧
        String.utf8EncodeChar (Char.ofNat i) = [UInt8.ofNat i] := by decide +kernel
  have hbyte := hall ⟨byte.toNat, byte.toNat_lt⟩
  rw [UInt8.ofNat_toNat] at hbyte
  exact hbyte h

/-- Characters of the alphabet are as many bytes that may stand in a key. -/
theorem encode_alphabet {cs : List Char} (h : ∀ c ∈ cs, c ∈ Rfc4648.alphabet) :
    (Utf8.encode cs).length = cs.length ∧ (Utf8.encode cs).all isKeyByte = true := by
  induction cs with
  | nil => exact ⟨rfl, rfl⟩
  | cons c cs ih =>
    obtain ⟨hc, hcs⟩ := List.forall_mem_cons.mp h
    obtain ⟨hbyte, hkey⟩ := encodeChar_alphabet hc
    rw [Utf8.encode_cons, hbyte, List.singleton_append, List.length_cons, (ih hcs).1,
      List.all_cons, hkey, (ih hcs).2]
    exact ⟨rfl, rfl⟩

/-- Bytes that may stand in a key are as many characters of the alphabet. -/
theorem exists_alphabet {bytes : Bytes} (h : bytes.all isKeyByte = true) :
    ∃ cs : List Char, cs.length = bytes.length ∧ (∀ c ∈ cs, c ∈ Rfc4648.alphabet) ∧
      bytes = Utf8.encode cs := by
  induction bytes with
  | nil => exact ⟨[], rfl, List.forall_mem_nil _, rfl⟩
  | cons byte bytes ih =>
    rw [List.all_cons, Bool.and_eq_true] at h
    obtain ⟨hmem, hbyte⟩ := alphabet_of_isKeyByte h.1
    obtain ⟨cs, hlen, hcs, hbytes⟩ := ih h.2
    refine ⟨Char.ofNat byte.toNat :: cs, ?_, List.forall_mem_cons.mpr ⟨hmem, hcs⟩, ?_⟩
    · rw [List.length_cons, List.length_cons, hlen]
    · rw [Utf8.encode_cons, hbyte, ← hbytes, List.singleton_append]

/-- The text of sixteen bytes: twenty-two characters and two signs of padding. -/
theorem text_sixteen {spare : List Bool} {bytes : Bytes} (hbytes : bytes.length = 16)
    (hspare : spare.length = 4) : (Rfc4648.body spare bytes).length = 22 ∧
      (∀ c ∈ Rfc4648.body spare bytes, c ∈ Rfc4648.alphabet) ∧
      Rfc4648.text spare bytes = Rfc4648.body spare bytes ++ "==".toList := by
  have hbits : spare.length = Rfc4648.spareBits bytes.length := by
    rw [hspare, hbytes]
    rfl
  have hlen : (Rfc4648.body spare bytes).length = 22 := by
    rw [Rfc4648.length_body hbits, hbytes]
  refine ⟨hlen, (Rfc4648.flatMap_sextet_split (Rfc4648.length_bits hbits)).1, ?_⟩
  rw [Rfc4648.text, hlen]
  rfl

/-- The check takes the texts of sixteen bytes, with any four bits behind the last one. -/
theorem isValidKey_iff {key : Bytes} : isValidKey key = true ↔
    ∃ (entropy : Vector UInt8 16) (spare : List Bool), spare.length = 4 ∧
      key = Utf8.encode (Rfc4648.text spare entropy.toList) := by
  rw [isValidKey, Bool.and_eq_true, Bool.and_eq_true, beq_iff_eq, List.isSuffixOf_iff_suffix]
  constructor
  · rintro ⟨⟨hlen, front, rfl⟩, hall⟩
    have hfront : front.length = 22 := by
      rw [List.length_append] at hlen
      exact Nat.add_right_cancel hlen
    rw [List.take_left' hfront] at hall
    obtain ⟨cs, hcount, hcs, rfl⟩ := exists_alphabet hall
    rw [hfront] at hcount
    have hbytes : (Bits.toBytes (cs.flatMap Rfc4648.sextet)).length = 16 := by
      rw [Rfc4648.length_toBytes_sextets, hcount]
    have hspare : (Blocks.residue 8 (cs.flatMap Rfc4648.sextet)).length = 4 := by
      rw [Blocks.length_residue, Blocks.length_flatMap Rfc4648.length_sextet, hcount]
    refine ⟨⟨(Bits.toBytes (cs.flatMap Rfc4648.sextet)).toArray, hbytes⟩, _, hspare, ?_⟩
    change _ = Utf8.encode (Rfc4648.text _ (Bits.toBytes (cs.flatMap Rfc4648.sextet)))
    rw [(text_sixteen hbytes hspare).2.2, Rfc4648.body_residue hcs, Utf8.encode_append]
  · rintro ⟨entropy, spare, hspare, rfl⟩
    obtain ⟨hlen, hcs, htext⟩ := text_sixteen (@Vector.length_toList _ _ entropy) hspare
    obtain ⟨hbytes, hall⟩ := encode_alphabet hcs
    rw [htext, Utf8.encode_append, List.take_left' (hbytes.trans hlen), List.length_append, hbytes,
      hlen]
    exact ⟨⟨rfl, List.suffix_append _ _⟩, hall⟩

/-- A new key leaves the bits behind the last byte zero. -/
theorem newKey_eq (entropy : Vector UInt8 16) :
    newKey entropy = Rfc4648.text (List.replicate 4 false) entropy.toList := by
  rw [newKey, base64Encode_eq, Rfc4648.encode, Vector.length_toList]
  rfl

/-- A new key is well formed. -/
theorem isValidKey_newKey (entropy : Vector UInt8 16) :
    isValidKey (Utf8.encode (newKey entropy)) = true :=
  isValidKey_iff.mpr ⟨entropy, _, List.length_replicate, by rw [newKey_eq]⟩

/-- The bits behind the last byte are those of the last character. -/
theorem text_split (entropy : Vector UInt8 16) : ∃ (front : List Char) (last : List Bool),
    front.length = 21 ∧ last.length = 2 ∧ ∀ spare : List Bool, spare.length = 4 →
      Rfc4648.text spare entropy.toList =
        front ++ Rfc4648.character (last ++ spare) :: "==".toList := by
  have hbits : (Bits.ofBytes entropy.toList).length = 128 := by
    rw [Bits.length_ofBytes, Vector.length_toList]
  have hfront : ((Bits.ofBytes entropy.toList).take 126).length = 126 := by
    rw [List.length_take, hbits]
    rfl
  refine ⟨(Blocks.split 6 ((Bits.ofBytes entropy.toList).take 126)).map Rfc4648.character,
    (Bits.ofBytes entropy.toList).drop 126, ?_, ?_, fun spare hspare => ?_⟩
  · rw [List.length_map, Blocks.length_split, hfront]
  · rw [List.length_drop, hbits]
  · have hlast : ((Bits.ofBytes entropy.toList).drop 126 ++ spare).length = 6 := by
      rw [List.length_append, List.length_drop, hbits, hspare]
    rw [(text_sixteen Vector.length_toList hspare).2.2, Rfc4648.body]
    conv_lhs => rw [← List.take_append_drop 126 (Bits.ofBytes entropy.toList), List.append_assoc]
    rw [Blocks.split_whole_append (by decide) (by rw [hfront]),
      Blocks.split_self hlast (by decide), List.map_append, List.append_assoc]
    rfl

/-- A new key with another last character in front of the padding. -/
theorem newKey_split (entropy : Vector UInt8 16) : ∃ (front : List Char) (last : List Bool),
    last.length = 2 ∧
    (∀ spare : List Bool, spare.length = 4 → Rfc4648.text spare entropy.toList =
      front ++ Rfc4648.character (last ++ spare) :: "==".toList) ∧
    (Rfc4648.sextet ((newKey entropy).getD 21 '=')).take 2 = last ∧
    ∀ c, (newKey entropy).set 21 c = front ++ c :: "==".toList := by
  obtain ⟨front, last, hfront, hlast, htext⟩ := text_split entropy
  have hzeros : (List.replicate 4 false).length = 4 := List.length_replicate
  have hsix : (last ++ List.replicate 4 false).length = 6 := by
    rw [List.length_append, hlast, hzeros]
  refine ⟨front, last, hlast, htext, ?_, fun c => ?_⟩
  · rw [newKey_eq, htext _ hzeros, List.getD_eq_getElem?_getD,
      List.getElem?_append_right (Nat.le_of_eq hfront), hfront, Nat.sub_self,
      List.getElem?_cons_zero, Option.getD_some, (Rfc4648.sextet_character hsix).2, ← hlast,
      List.take_left]
  · rw [newKey_eq, htext _ hzeros, List.set_append_right _ _ (Nat.le_of_eq hfront), hfront,
      Nat.sub_self, List.set_cons_zero]

/-- The check takes what is a new key but for the four low bits of its last character: the
texts from which sixteen bytes are read by a decoder that ignores these bits. -/
theorem isValidKey_iff_newKey :
    (∀ entropy : Vector UInt8 16, isValidKey (Utf8.encode (newKey entropy)) = true) ∧
    (∀ key : Bytes, isValidKey key = true ↔ ∃ (entropy : Vector UInt8 16) (c : Char),
      c ∈ Rfc4648.alphabet ∧
      (Rfc4648.sextet c).take 2 = (Rfc4648.sextet ((newKey entropy).getD 21 '=')).take 2 ∧
      key = Utf8.encode ((newKey entropy).set 21 c)) ∧
    ∀ key : Bytes, isValidKey key = true ↔ ∃ (entropy : Vector UInt8 16) (text : List Char),
      Rfc4648.decode false text = some entropy.toList ∧ key = Utf8.encode text := by
  refine ⟨isValidKey_newKey, fun key => isValidKey_iff.trans ⟨?_, ?_⟩,
    fun key => isValidKey_iff.trans ⟨?_, ?_⟩⟩
  · rintro ⟨entropy, spare, hspare, rfl⟩
    obtain ⟨front, last, hlast, htext, hhigh, hset⟩ := newKey_split entropy
    have hsix : (last ++ spare).length = 6 := by
      rw [List.length_append, hlast, hspare]
    obtain ⟨hmem, hbits⟩ := Rfc4648.sextet_character hsix
    refine ⟨entropy, Rfc4648.character (last ++ spare), hmem, ?_, ?_⟩
    · rw [hbits, hhigh, ← hlast, List.take_left]
    · rw [htext spare hspare, hset]
  · rintro ⟨entropy, c, hc, hsame, rfl⟩
    obtain ⟨front, last, hlast, htext, hhigh, hset⟩ := newKey_split entropy
    have hspare : ((Rfc4648.sextet c).drop 2).length = 4 := by
      rw [List.length_drop, Rfc4648.length_sextet]
    have hbits : last ++ (Rfc4648.sextet c).drop 2 = Rfc4648.sextet c := by
      rw [← hhigh, ← hsame, List.take_append_drop]
    refine ⟨entropy, (Rfc4648.sextet c).drop 2, hspare, ?_⟩
    rw [htext _ hspare, hbits, (Rfc4648.character_sextet hc).1, hset]
  · rintro ⟨entropy, spare, hspare, rfl⟩
    refine ⟨entropy, _, Rfc4648.decode_iff.mpr ⟨spare, ?_, fun h => Bool.noConfusion h, rfl⟩, rfl⟩
    rw [hspare, Vector.length_toList]
    rfl
  · rintro ⟨entropy, text, hdecode, rfl⟩
    obtain ⟨spare, hspare, -, rfl⟩ := Rfc4648.decode_iff.mp hdecode
    rw [Vector.length_toList] at hspare
    exact ⟨entropy, spare, hspare, rfl⟩

/-- A key that the check takes and no client builds: its last character has a one behind the
last byte. -/
theorem validKey_not_newKey :
    isValidKey (Utf8.encode "AAAAAAAAAAAAAAAAAAAAAB==".toList) = true ∧
      ¬∃ entropy : Vector UInt8 16,
        Utf8.encode "AAAAAAAAAAAAAAAAAAAAAB==".toList = Utf8.encode (newKey entropy) := by
  refine ⟨by decide +kernel, ?_⟩
  rintro ⟨entropy, h⟩
  have hkey : "AAAAAAAAAAAAAAAAAAAAAB==".toList = newKey entropy := by
    have hdecoded := congrArg Utf8.decode h
    rw [Utf8.decode_encode, Utf8.decode_encode] at hdecoded
    exact Option.some.inj hdecoded
  have hstrict := Rfc4648.decode_encode true entropy.toList
  rw [← base64Encode_eq, ← newKey, ← hkey] at hstrict
  have hnone : Rfc4648.decode true "AAAAAAAAAAAAAAAAAAAAAB==".toList = none := by decide +kernel
  rw [hnone] at hstrict
  cases hstrict

end NagoWss
