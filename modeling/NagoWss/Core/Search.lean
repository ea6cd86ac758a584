import Mathlib.Data.List.Infix

/-!
# Searching for a pattern

The position of the first occurrence of a pattern in a list, and how it depends
on the part of the list that is known.
-/

namespace Search

variable {α : Type*} [DecidableEq α]

/-- Where `pattern` first occurs in a list. -/
def firstIndex (pattern : List α) : List α → Option Nat
  | [] => if pattern = [] then some 0 else none
  | x :: xs =>
    if pattern.isPrefixOf (x :: xs) then some 0 else (firstIndex pattern xs).map (· + 1)

variable {p : List α}

/-- At the front of a list the pattern occurs first. -/
theorem firstIndex_of_isPrefix {s : List α} (h : p <+: s) : firstIndex p s = some 0 := by
  cases s with
  | nil => rw [firstIndex, if_pos (List.prefix_nil.mp h)]
  | cons x xs => rw [firstIndex, if_pos (List.isPrefixOf_iff_prefix.mpr h)]

/-- Where the pattern does not stand, the search goes on. -/
theorem firstIndex_cons_of_not_isPrefix {x : α} {xs : List α} (h : ¬p <+: x :: xs) :
    firstIndex p (x :: xs) = (firstIndex p xs).map (· + 1) := by
  rw [firstIndex, if_neg (by rwa [List.isPrefixOf_iff_prefix])]

/-- In the first `n` elements the pattern is found where it is found in the whole
list, unless it does not end there. -/
theorem firstIndex_take (p s : List α) (n : Nat) :
    firstIndex p (s.take n) = (firstIndex p s).filter (· + p.length ≤ n) := by
  induction s generalizing n with
  | nil =>
    rw [List.take_nil, firstIndex]
    split
    · next h => simp [h, Option.filter]
    · rfl
  | cons x xs ih =>
    cases n with
    | zero =>
      rw [List.take_zero]
      by_cases hp : p = []
      · simp [hp, firstIndex, Option.filter]
      · have hpos : 0 < p.length := List.length_pos_of_ne_nil hp
        rw [firstIndex, if_neg hp]
        cases firstIndex p (x :: xs) with
        | none => rfl
        | some i => simp [Option.filter, hp]
    | succ n =>
      by_cases hp : p <+: (x :: xs).take (n + 1)
      · obtain ⟨hpre, hlen⟩ := List.prefix_take_iff.mp hp
        rw [firstIndex_of_isPrefix hp, firstIndex_of_isPrefix hpre]
        simp [Option.filter, hlen]
      · rw [List.take_succ_cons] at hp ⊢
        rw [firstIndex_cons_of_not_isPrefix hp, ih]
        by_cases hpre : p <+: x :: xs
        · have hlen : ¬p.length ≤ n + 1 := fun hlen =>
            hp (by rw [← List.take_succ_cons]; exact List.prefix_take_iff.mpr ⟨hpre, hlen⟩)
          rw [firstIndex_of_isPrefix hpre]
          cases firstIndex p xs with
          | none => simp [Option.filter, hlen]
          | some i =>
            have hi : ¬i + p.length ≤ n := by omega
            simp [Option.filter, hlen, hi]
        · rw [firstIndex_cons_of_not_isPrefix hpre]
          cases firstIndex p xs with
          | none => rfl
          | some i =>
            have hiff : i + 1 + p.length ≤ n + 1 ↔ i + p.length ≤ n := by omega
            simp only [Option.map_some, Option.filter, hiff]
            split <;> rfl

/-- The position just past the first occurrence of `pattern`. -/
def firstEnd (pattern s : List α) : Option Nat :=
  (firstIndex pattern s).map (· + pattern.length)

/-- At the front of a list the pattern ends first. -/
theorem firstEnd_of_isPrefix {s : List α} (h : p <+: s) : firstEnd p s = some p.length := by
  rw [firstEnd, firstIndex_of_isPrefix h, Option.map_some, Nat.zero_add]

/-- An occurrence is found as soon as all of it is there. -/
theorem firstEnd_take (p s : List α) (n : Nat) :
    firstEnd p (s.take n) = (firstEnd p s).filter (· ≤ n) := by
  rw [firstEnd, firstEnd, firstIndex_take]
  cases firstIndex p s with
  | none => rfl
  | some i =>
    rw [Option.map_some, Option.filter_some, Option.filter_some]
    split <;> rfl

/-- An occurrence ends within the list. -/
theorem firstEnd_le {p s : List α} {e : Nat} (h : firstEnd p s = some e) : e ≤ s.length := by
  have htake := firstEnd_take p s s.length
  rw [List.take_length, h] at htake
  obtain ⟨-, hle⟩ := Option.filter_eq_some_iff.mp htake.symm
  exact of_decide_eq_true hle

/-- An occurrence ends behind the length of the pattern. -/
theorem le_firstEnd {p s : List α} {e : Nat} (h : firstEnd p s = some e) : p.length ≤ e := by
  obtain ⟨i, -, rfl⟩ := Option.map_eq_some_iff.mp h
  exact Nat.le_add_left _ _

/-- Nothing of a text without its first element belongs to a pattern. -/
theorem firstIndex_append_of_not_mem {x : α} {s : List α} (h : x ∉ s) (t : List α) :
    firstIndex (x :: p) (s ++ t) = (firstIndex (x :: p) t).map (· + s.length) := by
  induction s with
  | nil => simp
  | cons y s ih =>
    have hne : ¬x :: p <+: (y :: s) ++ t := by
      rw [List.cons_append, List.cons_prefix_cons]
      exact fun hxy => h (hxy.1 ▸ List.mem_cons_self)
    rw [List.cons_append] at hne ⊢
    rw [firstIndex_cons_of_not_isPrefix hne, ih fun hx => h (List.mem_cons_of_mem y hx),
      Option.map_map]
    rfl

/-- The same for the end of the occurrence. -/
theorem firstEnd_append_of_not_mem {x : α} {s : List α} (h : x ∉ s) (t : List α) :
    firstEnd (x :: p) (s ++ t) = (firstEnd (x :: p) t).map (· + s.length) := by
  rw [firstEnd, firstIndex_append_of_not_mem h, firstEnd, Option.map_map, Option.map_map]
  congr 1
  funext i
  exact Nat.add_right_comm i _ _

/-- Where the pattern does not stand, its end is found later. -/
theorem firstEnd_cons_of_not_isPrefix {x : α} {xs : List α} (h : ¬p <+: x :: xs) :
    firstEnd p (x :: xs) = (firstEnd p xs).map (· + 1) := by
  rw [firstEnd, firstIndex_cons_of_not_isPrefix h, firstEnd, Option.map_map, Option.map_map]
  congr 1
  funext i
  exact Nat.add_right_comm i _ _

/-- The pattern stands where it was found. -/
theorem prefix_drop_firstIndex {s : List α} {i : Nat} (h : firstIndex p s = some i) :
    p <+: s.drop i := by
  induction s generalizing i with
  | nil =>
    rw [firstIndex] at h
    split at h
    · next hp => rw [hp]; exact List.nil_prefix
    · cases h
  | cons x xs ih =>
    by_cases hpre : p <+: x :: xs
    · rw [firstIndex_of_isPrefix hpre] at h
      cases h
      exact hpre
    · rw [firstIndex_cons_of_not_isPrefix hpre] at h
      obtain ⟨j, hj, rfl⟩ := Option.map_eq_some_iff.mp h
      exact ih hj

/-- A pattern that stands somewhere is found. -/
theorem firstIndex_ne_none {s : List α} (h : p <:+: s) : firstIndex p s ≠ none := by
  induction s with
  | nil =>
    rw [firstIndex, if_pos (List.infix_nil.mp h)]
    exact Option.some_ne_none 0
  | cons x xs ih =>
    by_cases hpre : p <+: x :: xs
    · rw [firstIndex_of_isPrefix hpre]
      exact Option.some_ne_none 0
    · rw [firstIndex_cons_of_not_isPrefix hpre, ne_eq, Option.map_eq_none_iff]
      exact ih ((List.infix_cons_iff.mp h).resolve_left hpre)

/-- The pattern ends where its end was found. -/
theorem suffix_take_firstEnd {s : List α} {e : Nat} (h : firstEnd p s = some e) :
    p <:+ s.take e := by
  obtain ⟨i, hi, rfl⟩ := Option.map_eq_some_iff.mp h
  have htake := List.prefix_iff_eq_take.mp (prefix_drop_firstIndex hi)
  rw [List.take_add, ← htake]
  exact List.suffix_append _ _

/-- No occurrence ends before the one that is found. -/
theorem exists_firstEnd_le {s : List α} {n : Nat} (h : p <:+ s.take n) :
    ∃ e, firstEnd p s = some e ∧ e ≤ n := by
  have htake := firstEnd_take p s n
  cases hf : firstEnd p (s.take n) with
  | none => exact absurd (Option.map_eq_none_iff.mp hf) (firstIndex_ne_none h.isInfix)
  | some e =>
    rw [hf] at htake
    obtain ⟨he, hle⟩ := Option.filter_eq_some_iff.mp htake.symm
    exact ⟨e, he, of_decide_eq_true hle⟩

end Search
