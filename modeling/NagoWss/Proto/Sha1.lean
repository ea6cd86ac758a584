import NagoWss.Core.Fips180
import NagoWss.Proto.Base64

/-!
# The streaming hash

Hashing chunks as they come gives the digest of FIPS 180-4 of the chunks joined. Behind
every chunk the buffer holds what does not fill a block yet, and the chaining words are the
hash value behind the blocks in front of it.
-/

namespace NagoWss.Sha1

open Fips180 (W Words)

/-! ## One block -/

/-- The chaining words as the algorithm has them. -/
def words (state : Vector UInt32 5) : Words :=
  ⟨(state.get 0).toBitVec, (state.get 1).toBitVec, (state.get 2).toBitVec, (state.get 3).toBitVec,
    (state.get 4).toBitVec⟩

/-- Rotating is rotating, for every distance but none at all. -/
theorem toBitVec_rotateLeft (x : UInt32) {n : UInt32} (hpos : 0 < n.toNat) (hn : n.toNat < 32) :
    (rotateLeft x n).toBitVec = x.toBitVec.rotateLeft n.toNat := by
  have hsub : (32 - n).toNat = 32 - n.toNat := by
    rw [UInt32.toNat_sub_of_le _ _ (UInt32.le_iff_toNat_le.mpr (Nat.le_of_lt hn))]
    rfl
  have hshift {m : UInt32} (hm : m.toNat < 32) : (m.toBitVec % 32).toNat = m.toNat := by
    rw [BitVec.toNat_umod]
    exact Nat.mod_eq_of_lt hm
  have hback : (32 - n).toNat < 32 := by
    rw [hsub]
    omega
  rw [rotateLeft, UInt32.toBitVec_or, UInt32.toBitVec_shiftLeft, UInt32.toBitVec_shiftRight,
    BitVec.shiftLeft_eq', BitVec.ushiftRight_eq', hshift hn, hshift hback, hsub,
    BitVec.rotateLeft_def, Nat.mod_eq_of_lt hn]

/-- The function and the constant of a round. -/
theorem round_eq (t : Nat) (b c d : UInt32) :
    (round t b c d).1.toBitVec = Fips180.f t b.toBitVec c.toBitVec d.toBitVec ∧
      (round t b c d).2.toBitVec = Fips180.K t := by
  have hch : (b &&& c ||| ~~~b &&& d).toBitVec =
      Fips180.Ch b.toBitVec c.toBitVec d.toBitVec := by
    ext i
    simp [Fips180.Ch]
    cases b.toBitVec[i] <;> simp
  have hmaj : (b &&& c ||| b &&& d ||| c &&& d).toBitVec =
      Fips180.Maj b.toBitVec c.toBitVec d.toBitVec := by
    ext i
    simp [Fips180.Maj]
    cases b.toBitVec[i] <;> cases c.toBitVec[i] <;> simp
  simp only [round, Fips180.f, Fips180.K, ← Nat.lt_succ_iff, Nat.succ_eq_add_one]
  split
  · exact ⟨hch, rfl⟩
  · split
    · exact ⟨rfl, rfl⟩
    · split
      · exact ⟨hmaj, rfl⟩
      · exact ⟨rfl, rfl⟩

/-- The word at position `t` of a block. -/
theorem toBitVec_blockWord (block : Bytes) (t : Nat) :
    (blockWord block t).toBitVec = Fips180.word (Bits.ofBytes block) t := by
  have hbits : 32 * t = 8 * (t * 4) := by omega
  rw [blockWord, Fips180.word, hbits, Bits.take_drop_ofBytes block (t * 4) 4, Bits.toNat_ofBytes]
  rfl

/-- One word more of the schedule. -/
def extend (w : Array UInt32) (j : Nat) : Array UInt32 :=
  let i := j + 16
  w.push (rotateLeft (w.getD (i - 3) 0 ^^^ w.getD (i - 8) 0 ^^^ w.getD (i - 14) 0 ^^^
    w.getD (i - 16) 0) 1)

/-- The first words of the schedule are those of the algorithm. -/
structure Schedules (block : Bytes) (n : Nat) (w : Array UInt32) : Prop where
  /-- How many words there are. -/
  size : w.size = n
  /-- The words. -/
  words : ∀ t < n, (w.getD t 0).toBitVec = W (Bits.ofBytes block) t

/-- One word more is that of the algorithm. -/
theorem Schedules.extend {block : Bytes} {j : Nat} {w : Array UInt32}
    (h : Schedules block (j + 16) w) : Schedules block (j + 1 + 16) (extend w j) := by
  have hpush (x : UInt32) (t : Nat) :
      (w.push x).getD t 0 = if t = j + 16 then x else w.getD t 0 := by
    rw [Array.getD_eq_getD_getElem?, Array.getElem?_push, h.size]
    split
    · rfl
    · rw [Array.getD_eq_getD_getElem?]
  refine ⟨?_, fun t ht => ?_⟩
  · rw [Sha1.extend, Array.size_push, h.size]
  · rw [Sha1.extend, hpush]
    split
    · next heq =>
      have hlow (k : Nat) (hk : 0 < k) : (w.getD (j + 16 - k) 0).toBitVec =
          W (Bits.ofBytes block) (j + 16 - k) := h.words _ (by omega)
      rw [heq, W, if_neg (Nat.not_lt.mpr (Nat.le_add_left 16 j)),
        toBitVec_rotateLeft _ (by decide) (by decide), UInt32.toBitVec_xor, UInt32.toBitVec_xor,
        UInt32.toBitVec_xor, hlow 3 (by decide), hlow 8 (by decide), hlow 14 (by decide),
        hlow 16 (by decide)]
      rfl
    · next hne => exact h.words t (by omega)

/-- The schedule of a block is that of the algorithm. -/
theorem schedules (block : Bytes) : Schedules block 80 (schedule block) := by
  have hfirst : Schedules block 16 ((Array.range 16).map (blockWord block)) := by
    refine ⟨by rw [Array.size_map, Array.size_range], fun t ht => ?_⟩
    rw [W, if_pos ht, ← toBitVec_blockWord, Array.getD_eq_getD_getElem?, Array.getElem?_map,
      Array.getElem?_range, if_pos ht]
    rfl
  have hmore (n : Nat) : Schedules block (n + 16)
      ((List.range n).foldl Sha1.extend ((Array.range 16).map (blockWord block))) := by
    induction n with
    | zero => exact hfirst
    | succ n ih =>
      rw [List.range_succ, List.foldl_append]
      exact ih.extend
  exact hmore 64

/-- The working variables as the algorithm has them. -/
def working (s : UInt32 × UInt32 × UInt32 × UInt32 × UInt32) : Words :=
  ⟨s.1.toBitVec, s.2.1.toBitVec, s.2.2.1.toBitVec, s.2.2.2.1.toBitVec, s.2.2.2.2.toBitVec⟩

/-- One round over the words of a schedule. -/
def turn (w : Array UInt32) (s : UInt32 × UInt32 × UInt32 × UInt32 × UInt32) (i : Nat) :
    UInt32 × UInt32 × UInt32 × UInt32 × UInt32 :=
  let (a, b, c, d, e) := s
  let (f, k) := round i b c d
  let temp := rotateLeft a 5 + f + e + k + w.getD i 0
  (temp, a, rotateLeft b 30, c, d)

/-- One round is that of the algorithm. -/
theorem working_turn (w : Array UInt32) (s : UInt32 × UInt32 × UInt32 × UInt32 × UInt32)
    (i : Nat) : working (turn w s i) = Fips180.step i (w.getD i 0).toBitVec (working s) := by
  obtain ⟨a, b, c, d, e⟩ := s
  obtain ⟨hf, hk⟩ := round_eq i b c d
  simp only [turn, working, Fips180.step, UInt32.toBitVec_add, hf, hk,
    toBitVec_rotateLeft a (by decide : 0 < (5 : UInt32).toNat) (by decide),
    toBitVec_rotateLeft b (by decide : 0 < (30 : UInt32).toNat) (by decide)]
  rfl

/-- The chaining words behind the working variables of the last round. -/
def feedForward (state : Vector UInt32 5)
    (s : UInt32 × UInt32 × UInt32 × UInt32 × UInt32) : Vector UInt32 5 :=
  let (a, b, c, d, e) := s
  #v[state.get 0 + a, state.get 1 + b, state.get 2 + c, state.get 3 + d, state.get 4 + e]

/-- The addition behind the rounds is that of the algorithm. -/
theorem words_feedForward (state : Vector UInt32 5)
    (s : UInt32 × UInt32 × UInt32 × UInt32 × UInt32) :
    words (feedForward state s) =
      let v := working s
      let h := words state
      ⟨v.a + h.a, v.b + h.b, v.c + h.c, v.d + h.d, v.e + h.e⟩ := by
  obtain ⟨a, b, c, d, e⟩ := s
  change (⟨(state.get 0 + a).toBitVec, (state.get 1 + b).toBitVec, (state.get 2 + c).toBitVec,
    (state.get 3 + d).toBitVec, (state.get 4 + e).toBitVec⟩ : Words) = _
  simp only [words, working, UInt32.toBitVec_add, BitVec.add_comm]

/-- A block is folded in by eighty rounds and the addition behind them. -/
theorem compress_eq (state : Vector UInt32 5) (block : Bytes) :
    compress state block = feedForward state ((List.range 80).foldl (turn (schedule block))
      (state.get 0, state.get 1, state.get 2, state.get 3, state.get 4)) := by
  have h0 : state.get 0 = state[0] := rfl
  have h1 : state.get 1 = state[1] := rfl
  have h2 : state.get 2 = state[2] := rfl
  have h3 : state.get 3 = state[3] := rfl
  have h4 : state.get 4 = state[4] := rfl
  unfold compress feedForward turn
  dsimp only
  simp only [h0, h1, h2, h3, h4]

/-- Folding a block into the chaining words is the computation of the algorithm. -/
theorem words_compress (state : Vector UInt32 5) (block : Bytes) :
    words (compress state block) = Fips180.compress (words state) (Bits.ofBytes block) := by
  have hwords := (schedules block).words
  have hrounds {n : Nat} (hn : n ≤ 80) :
      working ((List.range n).foldl (turn (schedule block))
        (state.get 0, state.get 1, state.get 2, state.get 3, state.get 4)) =
        Fips180.rounds (Bits.ofBytes block) (words state) n := by
    induction n with
    | zero => rfl
    | succ n ih =>
      rw [List.range_succ, List.foldl_append, List.foldl_cons, List.foldl_nil, working_turn,
        hwords n hn, ih (Nat.le_of_succ_le hn), Fips180.rounds]
  rw [compress_eq, Fips180.compress, ← hrounds le_rfl]
  exact words_feedForward state _

/-! ## Buffering -/

/-- Absorbing compresses the full blocks and keeps the residue. -/
theorem absorb_eq (state : Vector UInt32 5) (buffer : Bytes) : absorb state buffer =
    ((Blocks.split 64 buffer).foldl compress state, Blocks.residue 64 buffer) := by
  fun_induction absorb state buffer with
  | case1 state buffer hfull ih =>
    have hblock : (buffer.take 64).length = 64 := List.length_take_of_le hfull
    have hpos : 0 < 64 := by decide
    conv_rhs => rw [← List.take_append_drop 64 buffer, Blocks.split_append hblock hpos,
      Blocks.residue_append hblock hpos]
    exact ih
  | case2 state buffer hshort =>
    have hlt : buffer.length < 64 := Nat.not_le.mp hshort
    rw [Blocks.split_of_lt hlt, Blocks.residue_of_lt hlt, List.foldl_nil]

/-- Compressing the blocks of a buffer is the computation of the algorithm. -/
theorem words_foldl_compress (state : Vector UInt32 5) (buffer : Bytes) :
    words ((Blocks.split 64 buffer).foldl compress state) =
      (Blocks.split 512 (Bits.ofBytes buffer)).foldl Fips180.compress (words state) := by
  have hblocks : Blocks.split 512 (Bits.ofBytes buffer) =
      (Blocks.split 64 buffer).map Bits.ofBytes :=
    @Blocks.split_mul_flatMap _ _ 64 _ 8 (by decide) (by decide)
      (fun _ => Bits.length_ofNat 8 _) buffer
  rw [hblocks, List.foldl_map]
  exact (List.foldl_hom words fun state block => (words_compress state block).symm).symm

/-- The hash behind the chunks of a message. -/
structure Streamed (message : Bytes) (h : Sha1) : Prop where
  /-- The chaining words are those behind the full blocks. -/
  state : h.state = (Blocks.split 64 message).foldl compress new.state
  /-- The buffer is what does not fill a block yet. -/
  buffer : h.buffer = Blocks.residue 64 message
  /-- The length is that of the message. -/
  length : h.length = UInt64.ofNat message.length

/-- A new hash is behind nothing. -/
theorem streamed_new : Streamed [] new := ⟨rfl, rfl, rfl⟩

/-- Feeding a chunk appends it to the message. -/
theorem Streamed.update {message : Bytes} {h : Sha1} (hs : Streamed message h) (data : Bytes) :
    Streamed (message ++ data) (h.update data) := by
  refine ⟨?_, ?_, ?_⟩
  · have hsplit := @Blocks.split_residue_append _ 64 message data (by decide)
    rw [Sha1.update, absorb_eq, hs.state, hs.buffer, hsplit, List.foldl_append]
  · rw [Sha1.update, absorb_eq, hs.buffer, Blocks.residue_residue_append (by decide)]
  · rw [Sha1.update, hs.length, List.length_append, UInt64.ofNat_add]

/-- Feeding chunks appends them to the message. -/
theorem Streamed.run {message : Bytes} {h : Sha1} (hs : Streamed message h)
    (chunks : List Bytes) : Streamed (message ++ chunks.flatten) (chunks.foldl Sha1.update h) := by
  induction chunks generalizing message h with
  | nil =>
    rw [List.flatten_nil, List.append_nil]
    exact hs
  | cons chunk chunks ih =>
    rw [List.flatten_cons, ← List.append_assoc]
    exact ih (hs.update chunk)

/-! ## Padding -/

/-- The loop of the padding ends as soon as eight bytes are missing to a full block. -/
theorem pad_eq (buffer : Bytes) : ∃ k < 64, pad buffer = buffer ++ List.replicate k 0 ∧
    (buffer.length + k) % 64 = 56 ∧ ∀ j < k, (buffer.length + j) % 64 ≠ 56 := by
  fun_induction pad buffer with
  | case1 buffer hmore ih =>
    obtain ⟨k, hk, hpad, hlen, hleast⟩ := ih
    rw [List.length_append, List.length_singleton] at hlen hleast
    refine ⟨k + 1, ?_, ?_, ?_, fun j hj => ?_⟩
    · omega
    · rw [hpad, List.append_assoc, List.replicate_succ, List.singleton_append]
    · rw [← hlen, Nat.add_assoc, Nat.add_comm k]
    · cases j with
      | zero => exact hmore
      | succ j =>
        rw [Nat.add_comm j, ← Nat.add_assoc]
        exact hleast j (Nat.lt_of_succ_lt_succ hj)
  | case2 buffer hdone =>
    refine ⟨0, by decide, (List.append_nil _).symm, Decidable.not_not.mp hdone, ?_⟩
    exact fun j hj => absurd hj (Nat.not_lt_zero j)

/-- What is compressed at the end: the buffer with the padding and the length. -/
def padded (h : Sha1) : Bytes :=
  pad (h.buffer ++ [0x80]) ++ BigEndian.encode 8 (h.length * 8).toNat

/-- The padded buffer is of whole blocks. -/
theorem length_padded (h : Sha1) : h.padded.length % 64 = 0 := by
  obtain ⟨k, -, hpad, hlen, -⟩ := pad_eq (h.buffer ++ [0x80])
  rw [padded, hpad, List.length_append, List.length_append, List.length_replicate,
    BigEndian.length_encode]
  omega

/-- The padded buffer is what is left of the padded message. -/
theorem Streamed.padded {message : Bytes} {h : Sha1} (hs : Streamed message h) :
    ∃ back, Sha1.padded h = Blocks.residue 64 message ++ back ∧
      Bits.ofBytes (message ++ back) = Fips180.pad (Bits.ofBytes message) := by
  obtain ⟨k, hk, hpad, hlen, -⟩ := pad_eq (h.buffer ++ [0x80])
  rw [List.length_append, List.length_singleton, hs.buffer, Blocks.length_residue] at hlen
  have hzeros : Fips180.zeros (8 * message.length) = 7 + 8 * k := by
    rw [Fips180.zeros]
    omega
  have hfield : (h.length * 8).toNat = 8 * message.length % 2 ^ 64 := by
    rw [hs.length, UInt64.toNat_mul, UInt64.toNat_ofNat', Nat.mul_comm]
    exact Nat.mul_mod_mod _ _ _
  have hbits : Bits.ofBytes (List.replicate k 0) = List.replicate (8 * k) false := by
    clear hk hpad hlen hzeros
    induction k with
    | zero => rfl
    | succ k ih =>
      rw [List.replicate_succ, Bits.ofBytes_cons, ih, Nat.mul_succ, Nat.add_comm,
        List.replicate_add]
      rfl
  refine ⟨[0x80] ++ (List.replicate k 0 ++ BigEndian.encode 8 (h.length * 8).toNat), ?_, ?_⟩
  · rw [Sha1.padded, hpad, hs.buffer, List.append_assoc, List.append_assoc]
  · rw [Bits.ofBytes_append, Bits.ofBytes_append, Bits.ofBytes_append, hbits, Bits.ofBytes_encode,
      hfield, Bits.ofNat_mod, Fips180.pad, Bits.length_ofBytes, hzeros, List.replicate_add]
    rfl

/-- The bytes of the chaining words are the bits of the hash value. -/
theorem ofBytes_words (state : Vector UInt32 5) :
    Bits.ofBytes (state.toList.flatMap fun word => BigEndian.encode 4 word.toNat) =
      (words state).bits := by
  have hlist : state.toList =
      [state.get 0, state.get 1, state.get 2, state.get 3, state.get 4] := by
    refine List.ext_getElem Vector.length_toList fun i hi _ => ?_
    rw [Vector.length_toList] at hi
    rcases i with _ | _ | _ | _ | _ | i
    iterate 5 exact Vector.getElem_toList _
    omega
  have hword (word : UInt32) : Bits.ofBytes (BigEndian.encode 4 word.toNat) =
      Bits.ofNat 32 word.toBitVec.toNat := Bits.ofBytes_encode 4 _
  rw [hlist]
  simp only [List.flatMap_cons, List.flatMap_nil, Bits.ofBytes_append, hword, words,
    Fips180.Words.bits, Bits.ofBytes_nil]

/-- The digest is that of the algorithm. -/
theorem Streamed.finish {message : Bytes} {h : Sha1} (hs : Streamed message h) :
    Bits.ofBytes h.finish = Fips180.sha1 (Bits.ofBytes message) := by
  obtain ⟨back, hback, hpad⟩ := hs.padded
  have hsplit := @Blocks.split_residue_append _ 64 message back (by decide)
  change Bits.ofBytes ((absorb h.state h.padded).1.toList.flatMap fun word =>
    BigEndian.encode 4 word.toNat) = _
  rw [ofBytes_words, absorb_eq, hs.state, hback, Fips180.sha1, ← hpad]
  change (words ((Blocks.split 64 (Blocks.residue 64 message ++ back)).foldl compress
    ((Blocks.split 64 message).foldl compress new.state))).bits = _
  rw [← List.foldl_append, ← hsplit, words_foldl_compress]
  rfl

/-- Hashing is streaming. Behind every chunk the chaining words are those behind the full
blocks of what was fed, and the buffer is what does not fill a block yet; at the end the loop
of the padding stops at the first length that leaves eight bytes to a full block, and no byte
is left behind the last block. The digest is that of FIPS 180-4, and the accept value its
base64. -/
theorem streaming_exact :
    (∀ chunks : List Bytes,
      let message := chunks.flatten
      let h := chunks.foldl update new
      words h.state =
          (Blocks.split 512 (Bits.ofBytes message)).foldl Fips180.compress Fips180.initial ∧
        h.buffer.length < 64 ∧ h.buffer = message.drop (64 * (message.length / 64)) ∧
        (∃ k < 64, pad (h.buffer ++ [0x80]) = h.buffer ++ 0x80 :: List.replicate k 0 ∧
          ∀ j < k, (h.buffer.length + 1 + j) % 64 ≠ 56) ∧
        h.padded.length % 64 = 0 ∧ (absorb h.state h.padded).2 = [] ∧
        Bits.ofBytes h.finish = Fips180.sha1 (Bits.ofBytes message)) ∧
    ∀ key : Bytes, acceptFor key =
      Rfc4648.encode (Bits.toBytes (Fips180.sha1 (Bits.ofBytes (key ++ WS_GUID)))) := by
  refine ⟨fun chunks => ?_, fun key => ?_⟩
  · intro message h
    have hs : Streamed message h := streamed_new.run chunks
    obtain ⟨k, hk, hpad, -, hleast⟩ := pad_eq (h.buffer ++ [0x80])
    rw [List.length_append, List.length_singleton] at hleast
    rw [List.append_assoc] at hpad
    refine ⟨?_, ?_, hs.buffer, ⟨k, hk, hpad, hleast⟩, h.length_padded, ?_, hs.finish⟩
    · rw [hs.state, words_foldl_compress]
      rfl
    · rw [hs.buffer, Blocks.length_residue]
      exact Nat.mod_lt _ (by decide)
    · rw [absorb_eq]
      exact Blocks.residue_eq_nil h.length_padded
  · have hs := (streamed_new.update key).update WS_GUID
    rw [List.nil_append] at hs
    rw [acceptFor_eq, acceptDigest, ← hs.finish, Bits.toBytes_ofBytes]

end NagoWss.Sha1
