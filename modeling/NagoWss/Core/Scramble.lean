import Mathlib.Data.BitVec
import Mathlib.Data.Finset.Card
import Mathlib.Data.Finite.Defs
import Mathlib.Order.Interval.Finset.Nat

/-!
# Counting and scrambling words

A counter that steps by a unit takes every word once before it repeats, and a one-to-one
function of the words keeps that. So every value of the low bits comes up equally often in
a full round.
-/

namespace Scramble

/-! ## One-to-one functions of words -/

/-- A word with its high bits added to its low bits. -/
def xorShift {w : Nat} (k : Nat) (x : BitVec w) : BitVec w := x ^^^ x >>> k

/-- Adding the high bits to the low bits loses nothing. -/
theorem xorShift_injective {w k : Nat} (hk : 0 < k) :
    Function.Injective (xorShift k : BitVec w → BitVec w) := by
  intro x y h
  -- Every bit is known from the bit of the result and a higher bit.
  have hbit (d : Nat) : ∀ i < w, w ≤ i + d → x.getLsbD i = y.getLsbD i := by
    induction d with
    | zero => exact fun i hi hd => absurd hi (Nat.not_lt.mpr hd)
    | succ d ih =>
      intro i hi hd
      have hsame := congrArg (BitVec.getLsbD · i) h
      simp only [xorShift, BitVec.getLsbD_xor, BitVec.getLsbD_ushiftRight] at hsame
      have hhigh : x.getLsbD (k + i) = y.getLsbD (k + i) := by
        by_cases hin : k + i < w
        · exact ih _ hin (by omega)
        · rw [BitVec.getLsbD_of_ge _ _ (Nat.not_lt.mp hin),
            BitVec.getLsbD_of_ge _ _ (Nat.not_lt.mp hin)]
      rw [hhigh] at hsame
      exact Bool.xor_left_inj.mp hsame
  exact BitVec.eq_of_getLsbD_eq fun i hi => hbit w i hi (Nat.le_add_left w i)

/-- Multiplying by a unit loses nothing. -/
theorem mul_injective {w : Nat} {c : BitVec w} (hc : IsUnit c) :
    Function.Injective fun x : BitVec w => x * c := hc.mul_left_injective

/-- A one-to-one function of words has every word for a value. -/
theorem bijective_of_injective {w : Nat} {f : BitVec w → BitVec w}
    (hf : Function.Injective f) : Function.Bijective f := by
  have hfinite : Finite (BitVec w) := Finite.of_injective BitVec.toFin fun _ _ h =>
    BitVec.toFin_inj.mp h
  exact Finite.injective_iff_bijective.mp hf

/-! ## Counting -/

/-- Among the numbers below a multiple of `m`, every remainder comes up equally often. -/
theorem card_filter_mod {m r : Nat} (hr : r < m) (k : Nat) :
    ((Finset.range (m * k)).filter fun x => x % m = r).card = k := by
  have hm : 0 < m := Nat.zero_lt_of_lt hr
  have himage : (Finset.range (m * k)).filter (fun x => x % m = r) =
      (Finset.range k).image fun q => r + m * q := by
    ext x
    simp only [Finset.mem_filter, Finset.mem_range, Finset.mem_image]
    constructor
    · rintro ⟨hx, rfl⟩
      exact ⟨x / m, Nat.div_lt_of_lt_mul hx, Nat.mod_add_div x m⟩
    · rintro ⟨q, hq, rfl⟩
      refine ⟨?_, by rw [Nat.add_mul_mod_self_left, Nat.mod_eq_of_lt hr]⟩
      calc r + m * q < m + m * q := Nat.add_lt_add_right hr _
        _ = m * (q + 1) := by rw [Nat.mul_succ, Nat.add_comm]
        _ ≤ m * k := Nat.mul_le_mul_left m hq
  have hinjective : Function.Injective fun q => r + m * q := fun a b h =>
    Nat.eq_of_mul_eq_mul_left hm (Nat.add_left_cancel h)
  rw [himage, Finset.card_image_of_injective _ hinjective, Finset.card_range]

/-- As many different numbers below a bound as there are have a property as often as the
numbers below the bound do. -/
theorem card_filter_of_injOn {f : Nat → Nat} {s : Finset Nat} (hinj : Set.InjOn f s)
    (hlt : ∀ i ∈ s, f i < s.card) (p : Nat → Prop) [DecidablePred p] :
    (s.filter fun i => p (f i)).card = ((Finset.range s.card).filter p).card := by
  have himage : s.image f = Finset.range s.card := by
    refine Finset.eq_of_subset_of_card_le (fun x hx => ?_) ?_
    · obtain ⟨i, hi, rfl⟩ := Finset.mem_image.mp hx
      exact Finset.mem_range.mpr (hlt i hi)
    · rw [Finset.card_range, Finset.card_image_of_injOn hinj]
  have hsubset : Set.InjOn f (s.filter fun i => p (f i) : Finset Nat) :=
    hinj.mono (Finset.coe_subset.mpr (Finset.filter_subset _ s))
  rw [← himage, Finset.filter_image, Finset.card_image_of_injOn hsubset]

/-- Counting in a list of consecutive numbers. -/
theorem countP_range' (p : Nat → Prop) [DecidablePred p] (n k : Nat) :
    (List.range' n k).countP p = ((Finset.Ico n (n + k)).filter p).card := by
  have hval : (Finset.Ico n (n + k)).val = (List.range' n k : Multiset Nat) := by
    change ((List.range' n (n + k - n) : List Nat) : Multiset Nat) = _
    rw [Nat.add_sub_cancel_left]
  rw [Finset.card_def, Finset.filter_val, hval, ← Multiset.countP_eq_card_filter,
    Multiset.coe_countP]

/-- Consecutive numbers in the middle of all numbers. -/
theorem take_drop_range {n k l : Nat} (h : n + k ≤ l) :
    ((List.range l).drop n).take k = List.range' n k := by
  refine List.ext_getElem ?_ fun i hi hi' => ?_
  · rw [List.length_take, List.length_drop, List.length_range, List.length_range']
    omega
  · rw [List.getElem_take, List.getElem_drop, List.getElem_range, List.getElem_range', Nat.one_mul]

/-! ## Counters -/

/-- The value of a counter behind `i` steps. -/
def counter {w : Nat} (start step : BitVec w) (i : Nat) : BitVec w :=
  start + BitVec.ofNat w i * step

section Counter

variable {w : Nat} {step : BitVec w} (hstep : IsUnit step) (start : BitVec w) (n : Nat)

include hstep

/-- The values of a counter in a round are different. -/
theorem counter_injOn :
    Set.InjOn (counter start step) (Finset.Ico n (n + 2 ^ w) : Finset Nat) := by
  intro i hi j hj h
  have hword : BitVec.ofNat w i = BitVec.ofNat w j := mul_injective hstep (add_left_cancel h)
  have hmod : i % 2 ^ w = j % 2 ^ w := by
    rw [← BitVec.toNat_ofNat, hword, BitVec.toNat_ofNat]
  exact Nat.mod_injOn_Ico n (2 ^ w) hi hj hmod

/-- In a round every value of the low bits comes up equally often. -/
theorem card_low {mix : BitVec w → BitVec w} (hmix : Function.Injective mix) {v : Nat}
    (hv : v ≤ w) (low : BitVec v) :
    ((Finset.Ico n (n + 2 ^ w)).filter fun i =>
      (mix (counter start step i)).setWidth v = low).card = 2 ^ (w - v) := by
  have hcard : (Finset.Ico n (n + 2 ^ w)).card = 2 ^ w := by
    rw [Nat.card_Ico, Nat.add_sub_cancel_left]
  have hinj : Set.InjOn (fun i => (mix (counter start step i)).toNat)
      (Finset.Ico n (n + 2 ^ w) : Finset Nat) := fun i hi j hj h =>
    counter_injOn hstep start n hi hj (hmix (BitVec.eq_of_toNat_eq h))
  have hlt : ∀ i ∈ Finset.Ico n (n + 2 ^ w),
      (mix (counter start step i)).toNat < (Finset.Ico n (n + 2 ^ w)).card := fun i _ => by
    rw [hcard]
    exact BitVec.isLt _
  have hlow (x : BitVec w) : x.setWidth v = low ↔ x.toNat % 2 ^ v = low.toNat := by
    rw [← BitVec.toNat_inj, BitVec.toNat_setWidth]
  have hpow : 2 ^ w = 2 ^ v * 2 ^ (w - v) := by rw [← Nat.pow_add, Nat.add_sub_cancel' hv]
  simp only [hlow]
  rw [card_filter_of_injOn hinj hlt fun x => x % 2 ^ v = low.toNat, hcard, hpow,
    card_filter_mod low.isLt]

end Counter

end Scramble
