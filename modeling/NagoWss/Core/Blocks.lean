import Mathlib.Data.List.Basic
import Mathlib.Tactic.Ring

/-!
# Lists in blocks

A list is cut into blocks of one length and the residue behind the last of them. Cutting
what a buffer holds, each time something was appended, cuts the same blocks as cutting the
whole at once.
-/

namespace Blocks

variable {α β : Type*} {n : Nat} {x xs ys : List α}

/-- The full blocks of a list, in order. -/
def split (n : Nat) (xs : List α) : List (List α) :=
  (List.range (xs.length / n)).map fun i => (xs.drop (n * i)).take n

/-- What is left behind the full blocks. -/
def residue (n : Nat) (xs : List α) : List α := xs.drop (n * (xs.length / n))

theorem length_split (n : Nat) (xs : List α) : (split n xs).length = xs.length / n := by
  rw [split, List.length_map, List.length_range]

/-- A list shorter than a block has none. -/
theorem split_of_lt (h : xs.length < n) : split n xs = [] := by
  rw [split, Nat.div_eq_of_lt h]
  rfl

/-- A list shorter than a block is all residue. -/
theorem residue_of_lt (h : xs.length < n) : residue n xs = xs := by
  rw [residue, Nat.div_eq_of_lt h, Nat.mul_zero, List.drop_zero]

/-- How many blocks there are with one more in front. -/
theorem length_append_div (hx : x.length = n) (hn : 0 < n) :
    (x ++ ys).length / n = ys.length / n + 1 := by
  rw [List.length_append, hx, Nat.add_comm, Nat.add_div_right _ hn]

/-- Behind the first block come the blocks of what is behind it. -/
theorem split_append (hx : x.length = n) (hn : 0 < n) :
    split n (x ++ ys) = x :: split n ys := by
  rw [split, length_append_div hx hn, List.range_succ_eq_map, List.map_cons, List.map_map,
    Nat.mul_zero, List.drop_zero, ← hx, List.take_left]
  refine congrArg (x :: ·) (List.map_congr_left fun i _ => ?_)
  change ((x ++ ys).drop (x.length * (i + 1))).take x.length = _
  rw [Nat.mul_succ, Nat.add_comm, ← List.drop_drop, List.drop_left]

/-- A block is one block. -/
theorem split_self (h : xs.length = n) (hn : 0 < n) : split n xs = [xs] := by
  have hone := @split_append α n xs [] h hn
  rwa [List.append_nil, @split_of_lt α n [] hn] at hone

/-- The first block leaves no residue of its own. -/
theorem residue_append (hx : x.length = n) (hn : 0 < n) :
    residue n (x ++ ys) = residue n ys := by
  rw [residue, length_append_div hx hn, Nat.mul_succ, Nat.add_comm, ← List.drop_drop, ← hx,
    List.drop_left, residue]

/-- A property of lists holds if it holds of those shorter than a block and is kept by a
block in front. -/
theorem induction {motive : List α → Prop} (hn : 0 < n)
    (short : ∀ xs, xs.length < n → motive xs)
    (block : ∀ x ys, x.length = n → motive ys → motive (x ++ ys)) (xs : List α) : motive xs := by
  induction hlen : xs.length using Nat.strong_induction_on generalizing xs with
  | _ len ih =>
    by_cases hshort : xs.length < n
    · exact short xs hshort
    · rw [← List.take_append_drop n xs]
      refine block _ _ (List.length_take_of_le (Nat.not_lt.mp hshort)) (ih _ ?_ _ rfl)
      rw [List.length_drop]
      omega

/-- The residue is shorter than a block. -/
theorem length_residue : (residue n xs).length = xs.length % n := by
  rw [residue, List.length_drop, Nat.mod_eq_sub_mul_div]

/-- The blocks and the residue are the list. -/
theorem flatten_split (hn : 0 < n) : (split n xs).flatten ++ residue n xs = xs := by
  induction xs using induction hn with
  | short xs h => rw [split_of_lt h, residue_of_lt h, List.flatten_nil, List.nil_append]
  | block x ys hx ih =>
    rw [split_append hx hn, residue_append hx hn, List.flatten_cons, List.append_assoc, ih]

/-- Every block is full. -/
theorem length_of_mem_split (hn : 0 < n) {block : List α} (h : block ∈ split n xs) :
    block.length = n := by
  induction xs using induction hn with
  | short xs hshort =>
    rw [split_of_lt hshort] at h
    cases h
  | block x ys hx ih =>
    rw [split_append hx hn] at h
    rcases List.mem_cons.mp h with rfl | h
    · exact hx
    · exact ih h

/-- Appending to a list appends the blocks that the residue makes with what is appended. -/
theorem split_residue_append (hn : 0 < n) :
    split n (xs ++ ys) = split n xs ++ split n (residue n xs ++ ys) := by
  induction xs using induction hn with
  | short xs h => rw [split_of_lt h, residue_of_lt h, List.nil_append]
  | block x xs hx ih =>
    rw [List.append_assoc, split_append hx hn, split_append hx hn, residue_append hx hn, ih,
      List.cons_append]

/-- Appending to a list leaves what the residue leaves with what is appended. -/
theorem residue_residue_append (hn : 0 < n) :
    residue n (residue n xs ++ ys) = residue n (xs ++ ys) := by
  induction xs using induction hn with
  | short xs h => rw [residue_of_lt h]
  | block x xs hx ih => rw [residue_append hx hn, List.append_assoc, residue_append hx hn, ih]

/-- A list of whole blocks leaves nothing. -/
theorem residue_eq_nil (h : xs.length % n = 0) : residue n xs = [] := by
  rw [residue, Nat.mul_div_cancel' (Nat.dvd_of_mod_eq_zero h), List.drop_length]

/-- Behind whole blocks come the blocks of what is behind them. -/
theorem split_whole_append (hn : 0 < n) (h : xs.length % n = 0) :
    split n (xs ++ ys) = split n xs ++ split n ys := by
  rw [split_residue_append hn, residue_eq_nil h, List.nil_append]

/-- Whole blocks leave no residue of their own. -/
theorem residue_whole_append (hn : 0 < n) (h : xs.length % n = 0) :
    residue n (xs ++ ys) = residue n ys := by
  rw [← residue_residue_append hn, residue_eq_nil h, List.nil_append]

/-- Cutting what is made of pieces of one length gives the pieces back. -/
theorem split_flatMap (hn : 0 < n) {f : β → List α} (hf : ∀ b, (f b).length = n) (bs : List β) :
    split n (bs.flatMap f) = bs.map f := by
  induction bs with
  | nil => exact split_of_lt hn
  | cons b bs ih => rw [List.flatMap_cons, split_append (hf b) hn, ih, List.map_cons]

/-- The length of what is made of pieces of one length. -/
theorem length_flatMap {f : β → List α} {k : Nat} (hf : ∀ b, (f b).length = k) (bs : List β) :
    (bs.flatMap f).length = k * bs.length := by
  induction bs with
  | nil => rfl
  | cons b bs ih => rw [List.flatMap_cons, List.length_append, hf, ih, List.length_cons]; ring

/-- Taking pieces of one length. -/
theorem take_flatMap {f : β → List α} {k : Nat} (hf : ∀ b, (f b).length = k) (bs : List β)
    (i : Nat) : (bs.flatMap f).take (k * i) = (bs.take i).flatMap f := by
  induction i generalizing bs with
  | zero => rw [Nat.mul_zero, List.take_zero, List.take_zero, List.flatMap_nil]
  | succ i ih =>
    cases bs with
    | nil => rw [List.flatMap_nil, List.take_nil, List.take_nil, List.flatMap_nil]
    | cons b bs =>
      rw [List.flatMap_cons, List.take_succ_cons, List.flatMap_cons, Nat.mul_succ, Nat.add_comm,
        ← hf b, List.take_length_add_append, hf b, ih]

/-- Dropping pieces of one length. -/
theorem drop_flatMap {f : β → List α} {k : Nat} (hf : ∀ b, (f b).length = k) (bs : List β)
    (i : Nat) : (bs.flatMap f).drop (k * i) = (bs.drop i).flatMap f := by
  induction i generalizing bs with
  | zero => rw [Nat.mul_zero, List.drop_zero, List.drop_zero]
  | succ i ih =>
    cases bs with
    | nil => rw [List.flatMap_nil, List.drop_nil, List.drop_nil, List.flatMap_nil]
    | cons b bs =>
      rw [List.flatMap_cons, List.drop_succ_cons, Nat.mul_succ, Nat.add_comm, ← hf b,
        List.drop_length_add_append, hf b, ih]

/-- Blocks of `n` pieces of one length are the blocks of the list of the pieces. -/
theorem split_mul_flatMap {f : β → List α} {k : Nat} (hk : 0 < k) (hn : 0 < n)
    (hf : ∀ b, (f b).length = k) (bs : List β) :
    split (k * n) (bs.flatMap f) = (split n bs).map fun block => block.flatMap f := by
  have hlen := length_flatMap hf
  have hkn : 0 < k * n := Nat.mul_pos hk hn
  induction bs using induction hn with
  | short bs h =>
    have hshort : (bs.flatMap f).length < k * n := by
      rw [hlen]
      exact Nat.mul_lt_mul_of_pos_left h hk
    rw [split_of_lt hshort, split_of_lt h, List.map_nil]
  | block b bs hb ih =>
    have hfull : (b.flatMap f).length = k * n := by rw [hlen, hb]
    rw [List.flatMap_append, split_append hfull hkn, split_append hb hn, ih, List.map_cons]

end Blocks
