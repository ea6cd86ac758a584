import Mathlib.Data.Nat.Bitwise
import NagoWss.Proto.Frame

/-!
# The frame header codec is exact

Encoding writes `Header.bytes` and nothing else. Decoding accepts an input
exactly when it starts with the bytes of a valid header within the limit, so the
two are inverse to one another and a header has a single encoding. A verdict of
the decoder never changes when more bytes arrive.
-/

namespace NagoWss

namespace Header

/-! ## Encoding -/

/-- Writing just behind an already written prefix extends that prefix. -/
theorem store_append (written rest bytes : Bytes) (pos : Nat)
    (hpos : written.length = pos) (h : bytes.length ≤ rest.length) :
    store (written ++ rest) pos bytes = .ok ((written ++ bytes) ++ rest.drop bytes.length) := by
  subst hpos
  have hfit : written.length + bytes.length ≤ (written ++ rest).length := by
    rw [List.length_append]
    omega
  rw [store, if_pos hfit, List.take_left, ← List.drop_drop, List.drop_left]

/-- The length field is written behind the first byte, whatever its width. -/
theorem encodeLength_append (first maskBit : UInt8) (len : UInt64) {rest : Bytes}
    (h : 1 + (extendedLength len).length ≤ rest.length) :
    encodeLength ([first] ++ rest) maskBit len =
      .ok (([first, maskBit ||| shortLen len] ++ extendedLength len) ++
          rest.drop (1 + (extendedLength len).length), 2 + (extendedLength len).length) := by
  have hone (b : UInt8) : store ([first] ++ rest) 1 [b] = .ok ([first, b] ++ rest.drop 1) :=
    store_append [first] rest [b] 1 rfl (by simp only [List.length_singleton]; omega)
  have hext (b : UInt8) (ext : Bytes) (he : 1 + ext.length ≤ rest.length) :
      store ([first, b] ++ rest.drop 1) 2 ext =
        .ok (([first, b] ++ ext) ++ rest.drop (1 + ext.length)) := by
    rw [store_append [first, b] _ ext 2 rfl (by rw [List.length_drop]; omega), List.drop_drop]
  by_cases hs : len < 126
  · simp only [encodeLength, extendedLength, shortLen, hs, ite_true, hone]
    rfl
  · by_cases hm : len ≤ 65535
    · simp only [extendedLength, hs, hm, ite_true, ite_false] at h
      simp only [encodeLength, extendedLength, shortLen, hs, hm, ite_true, ite_false, hone,
        bind, Except.bind, hext _ _ h, BigEndian.length_encode]
      rfl
    · simp only [extendedLength, hs, hm, ite_false] at h
      simp only [encodeLength, extendedLength, shortLen, hs, hm, ite_false, hone,
        bind, Except.bind, hext _ _ h, BigEndian.length_encode]
      rfl

/-- The header without its key: the two fixed bytes and the extended length. -/
def lead (h : Header) : Bytes :=
  [firstByte h.fin h.opcode, secondByte h.mask.isSome (shortLen h.payloadLen)] ++
    extendedLength h.payloadLen

theorem length_lead (h : Header) : h.lead.length = 2 + (extendedLength h.payloadLen).length := by
  simp only [lead, List.length_append, List.length_cons, List.length_nil]

theorem bytes_eq_lead (h : Header) : h.bytes = h.lead ++ maskBytes h.mask := rfl

/-- The two fixed bytes and the extended length are written first. -/
theorem encode_lead (h : Header) (out : Bytes) (hfit : h.lead.length ≤ out.length) :
    (do
      let out ← store out 0 [(if h.fin then 0x80 else 0) ||| h.opcode.toBits]
      encodeLength out (if h.mask.isSome then 0x80 else 0) h.payloadLen) =
        .ok (h.lead ++ out.drop h.lead.length, h.lead.length) := by
  rw [length_lead] at hfit ⊢
  have hfirst : store out 0 [(if h.fin then 0x80 else 0) ||| h.opcode.toBits] =
      .ok ([firstByte h.fin h.opcode] ++ out.drop 1) :=
    store_append [] out _ 0 rfl (by simp only [List.length_singleton]; omega)
  have hsecond := encodeLength_append (firstByte h.fin h.opcode)
    (if h.mask.isSome then 0x80 else 0) h.payloadLen
    (show _ ≤ (out.drop 1).length by rw [List.length_drop]; omega)
  rw [List.drop_drop, ← Nat.add_assoc] at hsecond
  rw [hfirst]
  exact hsecond

/-- The buffer after encoding: the header's bytes in front, the rest as it was. -/
theorem encode_eq (h : Header) (out : Bytes) :
    h.encode out = if out.length < h.encodedLen then .ok (none, out)
      else .ok (some h.encodedLen, h.bytes ++ out.drop h.encodedLen) := by
  by_cases hshort : out.length < h.encodedLen
  · simp only [encode, hshort, ite_true]
    rfl
  · have hlen : h.lead.length + (maskBytes h.mask).length = h.encodedLen := by
      rw [← length_bytes, bytes_eq_lead, List.length_append]
    have hlead := h.encode_lead out (by omega)
    have hkey := store_append h.lead (out.drop h.lead.length) (maskBytes h.mask) h.lead.length
      rfl (by rw [List.length_drop]; omega)
    rw [List.drop_drop, hlen] at hkey
    simp only [encode, hshort, ite_false]
    rw [← bind_assoc, hlead]
    cases hm : h.mask with
    | none =>
      rw [hm] at hlen
      have hnone : h.lead.length = h.encodedLen := hlen
      simp only [bytes_eq_lead, hm, hnone, maskBytes, List.append_nil]
      rfl
    | some key =>
      rw [hm] at hlen hkey
      have hfour : h.lead.length + 4 = h.encodedLen := by
        rw [← hlen, length_maskBytes]
        rfl
      simp only [maskBytes] at hkey
      simp only [bytes_eq_lead, hm, maskBytes, bind, Except.bind, hkey, hfour]
      rfl

/-! ## Decoding -/

/-- The first byte is read back as the FIN bit and opcode it was written from,
and every other byte has a reserved bit or a reserved opcode. -/
theorem firstByte_iff (b : UInt8) (fin : Bool) (opcode : OpCode) :
    (b &&& 0x70 = 0 ∧ OpCode.fromBits (b &&& 0x0F) = some opcode ∧ (b &&& 0x80 != 0) = fin) ↔
      b = firstByte fin opcode := by
  have h : ∀ n < 256, (UInt8.ofNat n &&& 0x70 = 0 ∧
      OpCode.fromBits (UInt8.ofNat n &&& 0x0F) = some opcode ∧
      (UInt8.ofNat n &&& 0x80 != 0) = fin) ↔ UInt8.ofNat n = firstByte fin opcode := by
    cases opcode <;> cases fin <;> decide +kernel
  simpa only [UInt8.ofNat_toNat] using h b.toNat b.toNat_lt

theorem secondByte_read (masked : Bool) {s : UInt8} (hs : s < 128) :
    (secondByte masked s &&& 0x80 != 0) = masked ∧ secondByte masked s &&& 0x7F = s := by
  have h : ∀ n < 128, (secondByte masked (UInt8.ofNat n) &&& 0x80 != 0) = masked ∧
      secondByte masked (UInt8.ofNat n) &&& 0x7F = UInt8.ofNat n := by
    cases masked <;> decide +kernel
  simpa only [UInt8.ofNat_toNat] using h s.toNat (UInt8.lt_iff_toNat_lt.mp hs)

theorem eq_secondByte (b : UInt8) :
    b &&& 0x7F < 128 ∧ b = secondByte (b &&& 0x80 != 0) (b &&& 0x7F) := by
  have h : ∀ n < 256, UInt8.ofNat n &&& 0x7F < 128 ∧ UInt8.ofNat n =
      secondByte (UInt8.ofNat n &&& 0x80 != 0) (UInt8.ofNat n &&& 0x7F) := by
    decide +kernel
  simpa only [UInt8.ofNat_toNat] using h b.toNat b.toNat_lt

/-- The value of the length field. -/
theorem toNat_shortLen (len : UInt64) : (shortLen len).toNat =
    if len.toNat < 126 then len.toNat else if len.toNat ≤ 65535 then 126 else 127 := by
  have hs : len < 126 ↔ len.toNat < 126 := UInt64.lt_iff_toNat_lt
  have hm : len ≤ 65535 ↔ len.toNat ≤ 65535 := UInt64.le_iff_toNat_le
  simp only [shortLen, hs, hm]
  split
  · rw [UInt64.toNat_toUInt8]
    omega
  · split <;> rfl

/-- The extended length field, by the value of the length. -/
theorem extendedLength_eq (len : UInt64) : extendedLength len =
    if len.toNat < 126 then [] else if len.toNat ≤ 65535 then BigEndian.encode 2 len.toNat
      else BigEndian.encode 8 len.toNat := by
  have hs : len < 126 ↔ len.toNat < 126 := UInt64.lt_iff_toNat_lt
  have hm : len ≤ 65535 ↔ len.toNat ≤ 65535 := UInt64.le_iff_toNat_le
  simp only [extendedLength, hs, hm]

/-- A length field always has its top bit clear. -/
theorem shortLen_lt (len : UInt64) : shortLen len < 128 := by
  rw [UInt8.lt_iff_toNat_lt, toNat_shortLen]
  change _ < 128
  split <;> (try split) <;> omega

/-- A fixed-width field read from the front of `input` is the field written there. -/
theorem decode_take_iff {input : Bytes} {w : Nat} (hw : w ≤ 8) {v : UInt64} :
    (w ≤ input.length ∧ UInt64.ofNat (BigEndian.decode (input.take w)) = v) ↔
      v.toNat < 256 ^ w ∧ BigEndian.encode w v.toNat <+: input := by
  have hpow : 256 ^ w ≤ 2 ^ 64 := by
    calc 256 ^ w ≤ 256 ^ 8 := Nat.pow_le_pow_right (by decide) hw
      _ = 2 ^ 64 := by decide
  rw [List.prefix_iff_eq_take, BigEndian.length_encode]
  constructor
  · rintro ⟨hlen, rfl⟩
    have htake : (input.take w).length = w := List.length_take_of_le hlen
    have hlt := BigEndian.decode_lt (input.take w)
    have hback := BigEndian.encode_decode (input.take w)
    rw [htake] at hlt hback
    have hval : (UInt64.ofNat (BigEndian.decode (input.take w))).toNat =
        BigEndian.decode (input.take w) := by
      rw [UInt64.toNat_ofNat', Nat.mod_eq_of_lt (by omega)]
    rw [hval]
    exact ⟨hlt, hback⟩
  · rintro ⟨hv, he⟩
    refine ⟨?_, ?_⟩
    · have hl := congrArg List.length he
      rw [BigEndian.length_encode, List.length_take] at hl
      omega
    · rw [← he, BigEndian.decode_encode hv, UInt64.ofNat_toNat]

/-- The top bit of a 64 bit length. -/
theorem and_top_ne_zero_iff (v : UInt64) :
    v &&& 0x8000000000000000 ≠ 0 ↔ 2 ^ 63 ≤ v.toNat := by
  have htop : (v &&& 0x8000000000000000).toNat = (v.toNat / 2 ^ 63 % 2) * 2 ^ 63 := by
    rw [UInt64.toNat_and]
    change v.toNat &&& 2 ^ 63 = _
    rw [Nat.and_two_pow, Nat.toNat_testBit]
  rw [Ne, ← UInt64.toNat_inj, htop, UInt64.toNat_zero]
  have := v.toNat_lt
  omega

/-- The sixteen bit form is read back as any value that needs it. -/
theorem decodeLength_126 {input : Bytes} {v : UInt64} {c : Nat} :
    decodeLength input 126 = .ok (.ok (v, c)) ↔
      (2 ≤ (input.drop 2).length ∧ UInt64.ofNat (BigEndian.decode ((input.drop 2).take 2)) = v) ∧
        126 ≤ v.toNat ∧ c = 4 := by
  have hd : (input.drop 2).length = input.length - 2 := List.length_drop
  have hmin (w : UInt64) : w < 126 ↔ w.toNat < 126 := UInt64.lt_iff_toNat_lt
  simp only [decodeLength, ite_true]
  split
  · next hlen => simp; omega
  · next hlen =>
    split
    · next hv =>
      rw [hmin] at hv
      simp only [reduceCtorEq, false_iff, not_and]
      rintro ⟨-, rfl⟩ hge
      omega
    · next hv =>
      rw [hmin] at hv
      simp only [Except.ok.injEq, Prod.mk.injEq]
      constructor
      · rintro ⟨rfl, rfl⟩
        exact ⟨⟨by omega, rfl⟩, by omega, rfl⟩
      · rintro ⟨⟨-, rfl⟩, -, rfl⟩
        exact ⟨rfl, rfl⟩

/-- The 64 bit form is read back as any value that needs it and has its top bit clear. -/
theorem decodeLength_127 {input : Bytes} {v : UInt64} {c : Nat} :
    decodeLength input 127 = .ok (.ok (v, c)) ↔
      (8 ≤ (input.drop 2).length ∧ UInt64.ofNat (BigEndian.decode ((input.drop 2).take 8)) = v) ∧
        (65535 < v.toNat ∧ v.toNat < 2 ^ 63) ∧ c = 10 := by
  have hd : (input.drop 2).length = input.length - 2 := List.length_drop
  have hmin (w : UInt64) : w ≤ 65535 ↔ w.toNat ≤ 65535 := UInt64.le_iff_toNat_le
  have hne : (127 : UInt8) ≠ 126 := by decide
  simp only [decodeLength, hne, ite_true, ite_false]
  split
  · next hlen => simp; omega
  · next hlen =>
    split
    · next hv =>
      rw [and_top_ne_zero_iff, hmin] at hv
      simp only [reduceCtorEq, false_iff, not_and]
      rintro ⟨-, rfl⟩ hge
      omega
    · next hv =>
      rw [and_top_ne_zero_iff, hmin] at hv
      simp only [Except.ok.injEq, Prod.mk.injEq]
      constructor
      · rintro ⟨rfl, rfl⟩
        exact ⟨⟨by omega, rfl⟩, by omega, rfl⟩
      · rintro ⟨⟨-, rfl⟩, -, rfl⟩
        exact ⟨rfl, rfl⟩

/-- The payload length is read exactly where it was written in its shortest form. -/
theorem decodeLength_iff (input : Bytes) {s : UInt8} (hs : s < 128) {v : UInt64} {c : Nat} :
    decodeLength input s = .ok (.ok (v, c)) ↔
      v.toNat < 2 ^ 63 ∧ s = shortLen v ∧ c = 2 + (extendedLength v).length ∧
        extendedLength v <+: input.drop 2 := by
  have hlt : s.toNat < 128 := UInt8.lt_iff_toNat_lt.mp hs
  rw [← UInt8.toNat_inj, toNat_shortLen, extendedLength_eq]
  by_cases h6 : s = 126
  · subst h6
    rw [decodeLength_126, decode_take_iff (by decide)]
    change _ ↔ _ ∧ 126 = _ ∧ _
    constructor
    · rintro ⟨⟨hv, hpre⟩, hmin, rfl⟩
      rw [if_neg (by omega), if_pos (by omega), if_neg (by omega), if_pos (by omega),
        BigEndian.length_encode]
      exact ⟨by omega, rfl, rfl, hpre⟩
    · rintro ⟨hv, hshort, hc, hpre⟩
      have hmin : ¬v.toNat < 126 := by intro h; rw [if_pos h] at hshort; omega
      have hmax : v.toNat ≤ 65535 := by by_contra h; rw [if_neg hmin, if_neg h] at hshort; omega
      rw [if_neg hmin, if_pos hmax] at hc hpre
      rw [BigEndian.length_encode] at hc
      exact ⟨⟨by omega, hpre⟩, by omega, hc⟩
  · by_cases h7 : s = 127
    · subst h7
      rw [decodeLength_127, decode_take_iff (by decide)]
      change _ ↔ _ ∧ 127 = _ ∧ _
      constructor
      · rintro ⟨⟨hv, hpre⟩, ⟨hmin, hmax⟩, rfl⟩
        rw [if_neg (by omega), if_neg (by omega), if_neg (by omega), if_neg (by omega),
          BigEndian.length_encode]
        exact ⟨hmax, rfl, rfl, hpre⟩
      · rintro ⟨hv, hshort, hc, hpre⟩
        have hmin : ¬v.toNat ≤ 65535 := by intro h; rw [if_pos h] at hshort; split at hshort <;> omega
        have hmax : ¬v.toNat < 126 := by omega
        rw [if_neg hmax, if_neg hmin] at hc hpre
        rw [BigEndian.length_encode] at hc
        exact ⟨⟨by omega, hpre⟩, ⟨by omega, hv⟩, hc⟩
    · rw [← UInt8.toNat_inj] at h6 h7
      change s.toNat ≠ 126 at h6
      change s.toNat ≠ 127 at h7
      have hs6 : s ≠ 126 := by rintro rfl; exact h6 rfl
      have hs7 : s ≠ 127 := by rintro rfl; exact h7 rfl
      simp only [decodeLength, hs6, hs7, ite_false, Except.ok.injEq, Prod.mk.injEq]
      rw [← UInt64.toNat_inj, UInt8.toNat_toUInt64]
      constructor
      · rintro ⟨hv, rfl⟩
        rw [if_pos (by omega), if_pos (by omega)]
        exact ⟨by omega, hv, rfl, List.nil_prefix⟩
      · rintro ⟨hv, hshort, hc, -⟩
        have hmin : v.toNat < 126 := by
          by_contra h
          rw [if_neg h] at hshort
          split at hshort <;> omega
        rw [if_pos hmin] at hc hshort
        exact ⟨hshort, hc.symm⟩

/-- The four bytes that stand at a position are one key. -/
theorem key_prefix_iff {input : Bytes} {cursor : Nat} (h : cursor + 4 ≤ input.length)
    (key : Mask) :
    key.toList <+: input.drop cursor ↔
      #v[input[cursor], input[cursor + 1], input[cursor + 2], input[cursor + 3]] = key := by
  have hfour : input.drop cursor =
      [input[cursor], input[cursor + 1], input[cursor + 2], input[cursor + 3]] ++
        input.drop (cursor + 4) := by
    rw [List.drop_eq_getElem_cons (by omega), List.drop_eq_getElem_cons (by omega),
      List.drop_eq_getElem_cons (by omega), List.drop_eq_getElem_cons (by omega)]
    rfl
  have htake : (input.drop cursor).take 4 =
      [input[cursor], input[cursor + 1], input[cursor + 2], input[cursor + 3]] := by
    rw [hfour]
    rfl
  rw [List.prefix_iff_eq_take, Vector.length_toList, htake, ← Vector.toList_inj, eq_comm]
  rfl

/-- The key is read exactly where it was written. -/
theorem decodeMask_iff (input : Bytes) (cursor : Nat) {masked : Bool} {mask : Option Mask}
    {c : Nat} :
    decodeMask input masked cursor = .ok (mask, c) ↔
      masked = mask.isSome ∧ c = cursor + (maskBytes mask).length ∧
        maskBytes mask <+: input.drop cursor := by
  cases masked with
  | false =>
    cases mask with
    | none => simp [decodeMask, maskBytes, eq_comm]
    | some key => simp [decodeMask]
  | true =>
    simp only [decodeMask, ite_true]
    split
    · next hshort =>
      cases mask with
      | none => simp
      | some key =>
        simp only [reduceCtorEq, false_iff, not_and]
        intro _ _ hpre
        have hl := hpre.length_le
        rw [length_maskBytes, List.length_drop] at hl
        simp only [Option.isSome_some, ite_true] at hl
        omega
    · next hlong =>
      cases mask with
      | none => simp
      | some key =>
        simp only [Except.ok.injEq, Prod.mk.injEq, Option.some.injEq, Option.isSome_some, true_and,
          maskBytes, Vector.length_toList]
        rw [key_prefix_iff (by omega), and_comm, eq_comm]

/-- Decoding past the two fixed bytes. -/
theorem decode_cons (first second : UInt8) (rest : Bytes) (maxPayload : UInt64) :
    decode (first :: second :: rest) maxPayload =
      if first &&& 0x70 ≠ 0 then .error .reservedBitSet
      else match OpCode.fromBits (first &&& 0x0F) with
        | none => .error (.reservedOpCode (first &&& 0x0F))
        | some opcode =>
          if opcode.isControl && (decide (second &&& 0x7F > 125) || !(first &&& 0x80 != 0)) then
            .error .invalidControlFrame
          else match decodeLength (first :: second :: rest) (second &&& 0x7F) with
            | .error e => .error e
            | .ok (.error i) => .ok (.error i)
            | .ok (.ok (payloadLen, cursor)) =>
              if payloadLen > maxPayload then .error .tooLarge
              else match decodeMask (first :: second :: rest) (second &&& 0x80 != 0) cursor with
                | .error i => .ok (.error i)
                | .ok (mask, cursor) =>
                  .ok (.ok (⟨first &&& 0x80 != 0, opcode, mask, payloadLen⟩, cursor)) := by
  simp only [decode]
  rw [dif_neg (by simp only [List.length_cons]; omega)]
  rfl

/-- The control frame check passes exactly for the headers that keep its rule. -/
theorem control_check_iff (opcode : OpCode) (fin : Bool) (len : UInt64) :
    (opcode.isControl && (decide (shortLen len > 125) || !fin)) = false ↔
      (opcode.isControl = true → fin = true ∧ len.toNat ≤ 125) := by
  have hshort : shortLen len > 125 ↔ 125 < len.toNat := by
    rw [gt_iff_lt, UInt8.lt_iff_toNat_lt, toNat_shortLen]
    change 125 < _ ↔ _
    split <;> (try split) <;> omega
  rw [Bool.and_eq_false_imp]
  refine forall_congr' fun _ => ?_
  rw [Bool.or_eq_false_iff, decide_eq_false_iff_not, hshort, Bool.not_eq_false', Nat.not_lt,
    and_comm]

/-- The bytes of a header, field by field, at the front of an input. -/
theorem bytes_prefix_iff (h : Header) (first second : UInt8) (rest : Bytes) :
    h.bytes <+: first :: second :: rest ↔
      first = firstByte h.fin h.opcode ∧ second = secondByte h.mask.isSome (shortLen h.payloadLen) ∧
        extendedLength h.payloadLen <+: rest ∧
          maskBytes h.mask <+: rest.drop (extendedLength h.payloadLen).length := by
  have happ (a b : Bytes) : a ++ b <+: rest ↔ a <+: rest ∧ b <+: rest.drop a.length := by
    constructor
    · rintro ⟨t, rfl⟩
      rw [List.append_assoc, List.drop_left]
      exact ⟨List.prefix_append .., List.prefix_append ..⟩
    · rintro ⟨⟨t, rfl⟩, hb⟩
      rw [List.drop_left] at hb
      exact (List.prefix_append_right_inj a).mpr hb
  simp only [bytes, List.cons_prefix_cons, happ, eq_comm]

/-- Decoding accepts exactly the inputs that start with the bytes of a valid
header within the limit, and reports that header and its length. -/
theorem decode_iff {input : Bytes} {maxPayload : UInt64} {h : Header} {n : Nat} :
    decode input maxPayload = .ok (.ok (h, n)) ↔
      h.Valid ∧ h.payloadLen ≤ maxPayload ∧ n = h.encodedLen ∧ h.bytes <+: input := by
  match input with
  | [] => simp [decode, bytes]
  | [b] => simp [decode, bytes]
  | first :: second :: rest =>
    obtain ⟨fin, opcode, mask, len⟩ := h
    have hlen : encodedLen ⟨fin, opcode, mask, len⟩ =
        2 + (extendedLength len).length + (maskBytes mask).length := by
      rw [← length_bytes, bytes_eq_lead, List.length_append, length_lead]
    rw [decode_cons, bytes_prefix_iff, hlen]
    constructor
    · intro hd
      split at hd
      · cases hd
      · next hrsv =>
        split at hd
        · cases hd
        · next op hop =>
          split at hd
          · cases hd
          · next hctl =>
            split at hd
            · cases hd
            · cases hd
            · next v c hl =>
              split at hd
              · cases hd
              · next hmax =>
                split at hd
                · cases hd
                · next m c' hm =>
                  simp only [Except.ok.injEq, Prod.mk.injEq, Header.mk.injEq] at hd
                  obtain ⟨⟨hfin, rfl, rfl, rfl⟩, rfl⟩ := hd
                  obtain ⟨hs, hsecond⟩ := eq_secondByte second
                  obtain ⟨hv, hshort, rfl, hext⟩ := (decodeLength_iff _ hs).mp hl
                  obtain ⟨hmask, rfl, hkey⟩ := (decodeMask_iff ..).mp hm
                  rw [hshort, hfin, Bool.not_eq_true, control_check_iff] at hctl
                  refine ⟨⟨hv, hctl⟩, UInt64.not_lt.mp hmax, rfl, ?_, ?_, hext, ?_⟩
                  · exact (firstByte_iff ..).mp ⟨of_not_not hrsv, hop, hfin⟩
                  · rw [hmask, hshort] at hsecond
                    exact hsecond
                  · rwa [← List.drop_drop] at hkey
    · rintro ⟨⟨hv, hctl⟩, hmax, rfl, hfirst, hsecond, hext, hkey⟩
      obtain ⟨hrsv, hop, hfin⟩ := (firstByte_iff ..).mpr hfirst
      obtain ⟨hmask, hshort⟩ := secondByte_read mask.isSome (shortLen_lt len)
      rw [← hsecond] at hmask hshort
      have hl := (decodeLength_iff (first :: second :: rest) (shortLen_lt len)).mpr
        ⟨hv, rfl, rfl, hext⟩
      have hm := (decodeMask_iff (first :: second :: rest) (2 + (extendedLength len).length)).mpr
        ⟨rfl, rfl, by rwa [← List.drop_drop]⟩
      have hc := (control_check_iff opcode fin len).mpr hctl
      have hle : ¬len > maxPayload := UInt64.not_lt.mpr hmax
      simp only [hrsv, hop, hfin, hshort, hmask, hc, hl, hm, hle, ne_eq, not_true_eq_false,
        Bool.false_eq_true, ite_false]

/-! ## Decoding a growing buffer -/

/-- A length field that has been read stays as it was when more bytes arrive. -/
theorem decodeLength_append {p : Bytes} (q : Bytes) {s : UInt8}
    (h : decodeLength p s ≠ .ok (.error .incomplete)) :
    decodeLength (p ++ q) s = decodeLength p s := by
  have htake {k : Nat} (hk : ¬p.length < 2 + k) :
      ¬(p ++ q).length < 2 + k ∧ ((p ++ q).drop 2).take k = (p.drop 2).take k := by
    refine ⟨by rw [List.length_append]; omega, ?_⟩
    rw [List.drop_append_of_le_length (by omega),
      List.take_append_of_le_length (by rw [List.length_drop]; omega)]
  unfold decodeLength at h ⊢
  by_cases h6 : s = 126
  · simp only [h6, ite_true] at h ⊢
    have hk : ¬p.length < 2 + 2 := by intro hlt; rw [if_pos hlt] at h; exact h rfl
    simp only [(htake hk).1, (htake hk).2, hk, ite_false]
  · by_cases h7 : s = 127
    · rw [if_neg h6, if_pos h7] at h ⊢
      rw [if_neg h6, if_pos h7]
      have hk : ¬p.length < 2 + 8 := by intro hlt; rw [if_pos hlt] at h; exact h rfl
      simp only [(htake hk).1, (htake hk).2, hk, ite_false]
    · simp only [h6, h7, ite_false]

/-- A key that has been read stays as it was when more bytes arrive. -/
theorem decodeMask_append {p : Bytes} (q : Bytes) {masked : Bool} {cursor : Nat}
    (h : decodeMask p masked cursor ≠ .error .incomplete) :
    decodeMask (p ++ q) masked cursor = decodeMask p masked cursor := by
  cases masked with
  | false => rfl
  | true =>
    simp only [decodeMask, ite_true] at h ⊢
    have hk : ¬p.length < cursor + 4 := by intro hlt; rw [dif_pos hlt] at h; exact h rfl
    have hk' : ¬(p ++ q).length < cursor + 4 := by rw [List.length_append]; omega
    rw [dif_neg hk, dif_neg hk']
    simp only [List.getElem_append_left (show cursor < p.length by omega),
      List.getElem_append_left (show cursor + 1 < p.length by omega),
      List.getElem_append_left (show cursor + 2 < p.length by omega),
      List.getElem_append_left (show cursor + 3 < p.length by omega)]

/-- A verdict on a header, good or bad, is not changed by the bytes that follow. -/
theorem decode_append {p : Bytes} (q : Bytes) {maxPayload : UInt64}
    (h : decode p maxPayload ≠ .ok (.error .incomplete)) :
    decode (p ++ q) maxPayload = decode p maxPayload := by
  match p with
  | [] => exact absurd rfl h
  | [b] => exact absurd rfl h
  | first :: second :: rest =>
    rw [decode_cons] at h
    rw [List.cons_append, List.cons_append, decode_cons, decode_cons]
    by_cases hrsv : first &&& 0x70 ≠ 0
    · rw [if_pos hrsv, if_pos hrsv]
    · rw [if_neg hrsv] at h ⊢
      rw [if_neg hrsv]
      cases hop : OpCode.fromBits (first &&& 0x0F) with
      | none => rfl
      | some opcode =>
        simp only [hop] at h ⊢
        split
        · rfl
        · next hctl =>
          rw [if_neg hctl] at h
          have hl : decodeLength (first :: second :: rest) (second &&& 0x7F) ≠
              .ok (.error .incomplete) := by
            intro he
            rw [he] at h
            exact h rfl
          have hl' := decodeLength_append q hl
          rw [List.cons_append, List.cons_append] at hl'
          rw [hl']
          cases hlen : decodeLength (first :: second :: rest) (second &&& 0x7F) with
          | error e => rfl
          | ok r =>
            cases r with
            | error i => rfl
            | ok r =>
              obtain ⟨len, cursor⟩ := r
              simp only [hlen] at h ⊢
              split
              · rfl
              · next hmax =>
                rw [if_neg hmax] at h
                have hm : decodeMask (first :: second :: rest) (second &&& 0x80 != 0) cursor ≠
                    .error .incomplete := by
                  intro he
                  rw [he] at h
                  exact h rfl
                have hm' := decodeMask_append q hm
                rw [List.cons_append, List.cons_append] at hm'
                rw [hm']

/-! ## The codec -/

/-- Decoding returns a header and a length exactly when the header is valid and
within the limit and the input starts with what encoding writes for it. Encoding
writes `encodedLen` bytes into any buffer that holds them and leaves a shorter
one untouched. -/
theorem codec_exact (input : Bytes) (maxPayload : UInt64) (h : Header) (n : Nat) :
    (decode input maxPayload = .ok (.ok (h, n)) ↔
      h.Valid ∧ h.payloadLen ≤ maxPayload ∧ n = h.encodedLen ∧ n ≤ input.length ∧
        ∀ out : Bytes, n ≤ out.length →
          h.encode out = .ok (some n, input.take n ++ out.drop n)) ∧
    (∀ out rest : Bytes, h.Valid → h.payloadLen ≤ maxPayload → h.encodedLen ≤ out.length →
      ∃ out', h.encode out = .ok (some h.encodedLen, out') ∧
        decode (out'.take h.encodedLen ++ rest) maxPayload = .ok (.ok (h, h.encodedLen))) ∧
    (∀ (input' : Bytes) (m : Nat), decode input maxPayload = .ok (.ok (h, n)) →
      decode input' maxPayload = .ok (.ok (h, m)) → n = m ∧ input.take n = input'.take m) ∧
    (h.encodedLen ≤ MAX_ENCODED_LEN ∧ ∀ out : Bytes,
      (out.length < h.encodedLen → h.encode out = .ok (none, out)) ∧
      (h.encodedLen ≤ out.length → ∃ written : Bytes, written.length = h.encodedLen ∧
        h.encode out = .ok (some h.encodedLen, written ++ out.drop h.encodedLen))) := by
  have hfit {out : Bytes} (hle : h.encodedLen ≤ out.length) :
      h.encode out = .ok (some h.encodedLen, h.bytes ++ out.drop h.encodedLen) := by
    rw [encode_eq, if_neg (by omega)]
  have htake {i : Bytes} (hpre : h.bytes <+: i) : i.take h.encodedLen = h.bytes := by
    rw [← length_bytes]
    exact (List.prefix_iff_eq_take.mp hpre).symm
  refine ⟨?_, ?_, ?_, (encodedLen_bounds h).2, fun out => ⟨?_, fun hle => ?_⟩⟩
  · rw [decode_iff]
    refine and_congr_right fun _ => and_congr_right fun _ => and_congr_right ?_
    rintro rfl
    constructor
    · intro hpre
      refine ⟨by simpa only [length_bytes] using hpre.length_le, fun out hle => ?_⟩
      rw [hfit hle, htake hpre]
    · rintro ⟨hlen, hout⟩
      have he := hout (List.replicate h.encodedLen 0) (by rw [List.length_replicate])
      rw [hfit (by rw [List.length_replicate])] at he
      simp only [Except.ok.injEq, Prod.mk.injEq, true_and] at he
      have hpre := List.append_inj_left he (by rw [length_bytes, List.length_take]; omega)
      rw [hpre]
      exact List.take_prefix ..
  · intro out rest hv hmax hle
    refine ⟨_, hfit hle, ?_⟩
    rw [← length_bytes, List.take_left, length_bytes]
    exact decode_iff.mpr ⟨hv, hmax, rfl, List.prefix_append ..⟩
  · intro input' m hi hi'
    obtain ⟨-, -, rfl, hpre⟩ := decode_iff.mp hi
    obtain ⟨-, -, rfl, hpre'⟩ := decode_iff.mp hi'
    exact ⟨rfl, (htake hpre).trans (htake hpre').symm⟩
  · intro hlt
    rw [encode_eq, if_pos hlt]
  · exact ⟨h.bytes, length_bytes h, hfit hle⟩

/-! ## When a verdict is reached -/

/-- The position behind the length field. -/
theorem decodeLength_cursor {input : Bytes} {short : UInt8} {len : UInt64} {cursor : Nat}
    (h : decodeLength input short = .ok (.ok (len, cursor))) : cursor ≤ 10 := by
  simp only [decodeLength] at h
  split at h
  · split at h
    · cases h
    · split at h
      · cases h
      · cases h
        decide
  · split at h
    · split at h
      · cases h
      · split at h
        · cases h
        · cases h
          decide
    · cases h
      decide

/-- Ten bytes hold every length field. -/
theorem decodeLength_incomplete {input : Bytes} {short : UInt8}
    (h : decodeLength input short = .ok (.error .incomplete)) : input.length < 10 := by
  simp only [decodeLength] at h
  split at h
  · split at h
    · next hlen => omega
    · split at h <;> cases h
  · split at h
    · split at h
      · next hlen => omega
      · split at h <;> cases h
    · cases h

/-- Four bytes behind the length field hold every key. -/
theorem decodeMask_incomplete {input : Bytes} {masked : Bool} {cursor : Nat}
    (h : decodeMask input masked cursor = .error .incomplete) : input.length < cursor + 4 := by
  simp only [decodeMask] at h
  split at h
  · split at h
    · assumption
    · cases h
  · cases h

/-- Fourteen bytes are enough for a verdict. -/
theorem decode_incomplete {p : Bytes} {maxPayload : UInt64}
    (h : decode p maxPayload = .ok (.error .incomplete)) : p.length < MAX_ENCODED_LEN := by
  rw [MAX_ENCODED_LEN]
  rcases p with _ | ⟨first, _ | ⟨second, rest⟩⟩
  · exact Nat.succ_pos 13
  · rw [List.length_singleton]
    omega
  · rw [decode_cons] at h
    split at h
    · cases h
    · split at h
      · cases h
      · split at h
        · cases h
        · split at h
          · cases h
          · next hlen =>
            cases h
            have hshort := decodeLength_incomplete hlen
            omega
          · next len cursor hlen =>
            have hcursor := decodeLength_cursor hlen
            split at h
            · cases h
            · split at h
              · next hmask =>
                cases h
                have hshort := decodeMask_incomplete hmask
                omega
              · cases h

/-- The two fixed bytes and the length field of a frame over the limit are enough to
refuse it. -/
theorem decode_tooLarge {p : Bytes} {maxPayload : UInt64} {h : Header} (hvalid : h.Valid)
    (hlarge : maxPayload < h.payloadLen) (hpre : h.lead <+: p) :
    decode p maxPayload = .error .tooLarge := by
  obtain ⟨fin, opcode, mask, len⟩ := h
  obtain ⟨rest, rfl⟩ := hpre
  obtain ⟨hrsv, hop, hfin⟩ := (firstByte_iff (firstByte fin opcode) fin opcode).mpr rfl
  obtain ⟨hmask, hshort⟩ := secondByte_read mask.isSome (shortLen_lt len)
  have hl := (decodeLength_iff (firstByte fin opcode ::
    secondByte mask.isSome (shortLen len) :: (extendedLength len ++ rest)) (shortLen_lt len)).mpr
      ⟨hvalid.length, rfl, rfl, List.prefix_append ..⟩
  have hc := (control_check_iff opcode fin len).mpr hvalid.control
  rw [lead, List.append_assoc, List.cons_append, List.cons_append, List.nil_append, decode_cons]
  simp only [hrsv, hop, hfin, hshort, hmask, hc, hl, ne_eq, not_true_eq_false,
    Bool.false_eq_true, ite_false]
  exact if_pos hlarge

/-- Decoding is incremental: a verdict is the verdict on every longer input, what a
header has consumed was there, an input without a verdict has at most thirteen bytes,
and a frame over the limit is refused from its length field alone. -/
theorem decode_incremental (p q : Bytes) (maxPayload : UInt64) :
    (∀ e, decode p maxPayload = .error e → decode (p ++ q) maxPayload = .error e) ∧
      (∀ h n, decode p maxPayload = .ok (.ok (h, n)) →
        decode (p ++ q) maxPayload = .ok (.ok (h, n)) ∧ n ≤ p.length) ∧
      (decode p maxPayload = .ok (.error .incomplete) → p.length ≤ 13) ∧
      ∀ h : Header, h.Valid → maxPayload < h.payloadLen → h.lead <+: p →
        decode p maxPayload = .error .tooLarge := by
  refine ⟨fun e he => ?_, fun h n hok => ⟨?_, ?_⟩, fun hinc => ?_, fun h => decode_tooLarge⟩
  · rw [decode_append q (by rw [he]; simp), he]
  · rw [decode_append q (by rw [hok]; simp), hok]
  · obtain ⟨-, -, rfl, hpre⟩ := decode_iff.mp hok
    rw [← length_bytes]
    exact hpre.length_le
  · exact Nat.le_of_lt_succ (decode_incomplete hinc)

/-- The header of an empty frame, and a frame of which only the length field is there. -/
theorem decode_incremental_short :
    decode [0x82, 0x00, 0xFF] 125 = .ok (.ok (⟨true, .binary, none, 0⟩, 2)) ∧
      decode [0x82, 0xFE, 0x01, 0x00] 125 = .error .tooLarge := by
  have hok := (decode_incremental [0x82, 0x00] [0xFF] 125).2.1 ⟨true, .binary, none, 0⟩ 2
    (by decide +kernel)
  have hlarge := (decode_incremental [0x82, 0xFE, 0x01, 0x00] [] 125).2.2.2
    ⟨true, .binary, some #v[0, 0, 0, 0], 256⟩ ⟨by decide, fun h => by cases h⟩ (by decide)
    (by decide +kernel)
  exact ⟨hok.1, hlarge⟩

end Header

end NagoWss
