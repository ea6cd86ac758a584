import Mathlib.Data.List.Basic

/-!
# Answering a sequence

A responder takes one thing after the other, answers each of them, and stops behind one
that gives it a verdict. What it has answered is never taken back when more follows.
-/

namespace Responding

/-- What is answered to each thing, and the verdict if that is the last one taken. -/
structure Responder (ρ ω ν : Type*) where
  /-- The answers. -/
  answer : ρ → List ω
  /-- The verdict. -/
  verdict : ρ → Option ν

namespace Responder

variable {ρ ω ν : Type*} (r : Responder ρ ω ν)

/-- The answers to a sequence, up to where the responder stops. -/
def answers : List ρ → List ω
  | [] => []
  | x :: xs => r.answer x ++ if (r.verdict x).isSome then [] else answers xs

/-- The verdict on a sequence, if the responder stops in it. -/
def outcome : List ρ → Option ν
  | [] => none
  | x :: xs => (r.verdict x).or (outcome xs)

variable {r} {xs ys : List ρ}

theorem answers_cons_some {x : ρ} {v : ν} (h : r.verdict x = some v) (xs : List ρ) :
    r.answers (x :: xs) = r.answer x ∧ r.outcome (x :: xs) = some v := by
  rw [answers, outcome, h]
  exact ⟨List.append_nil _, rfl⟩

theorem answers_cons_none {x : ρ} (h : r.verdict x = none) (xs : List ρ) :
    r.answers (x :: xs) = r.answer x ++ r.answers xs ∧
      r.outcome (x :: xs) = r.outcome xs := by
  rw [answers, outcome, h]
  exact ⟨rfl, rfl⟩

@[simp] theorem answers_singleton (x : ρ) : r.answers [x] = r.answer x := by
  rw [answers, answers, ite_self, List.append_nil]

/-- A responder that has stopped takes no notice of what follows. -/
theorem answers_append_some {v : ν} (h : r.outcome xs = some v) (ys : List ρ) :
    r.answers (xs ++ ys) = r.answers xs ∧ r.outcome (xs ++ ys) = some v := by
  induction xs with
  | nil => cases h
  | cons x xs ih =>
    cases hx : r.verdict x with
    | some w =>
      rw [(answers_cons_some hx xs).2] at h
      rw [List.cons_append, (answers_cons_some hx _).1, (answers_cons_some hx _).2,
        (answers_cons_some hx xs).1]
      exact ⟨rfl, h⟩
    | none =>
      rw [(answers_cons_none hx xs).2] at h
      rw [List.cons_append, (answers_cons_none hx _).1, (answers_cons_none hx _).2,
        (answers_cons_none hx xs).1, (ih h).1, (ih h).2]
      exact ⟨rfl, rfl⟩

/-- A responder that has not stopped goes on with what follows. -/
theorem answers_append_none (h : r.outcome xs = none) (ys : List ρ) :
    r.answers (xs ++ ys) = r.answers xs ++ r.answers ys ∧
      r.outcome (xs ++ ys) = r.outcome ys := by
  induction xs with
  | nil => exact ⟨rfl, rfl⟩
  | cons x xs ih =>
    have hx : r.verdict x = none := (Option.or_eq_none_iff.mp h).1
    rw [(answers_cons_none hx xs).2] at h
    rw [List.cons_append, (answers_cons_none hx _).1, (answers_cons_none hx _).2,
      (answers_cons_none hx xs).1, (ih h).1, (ih h).2, List.append_assoc]
    exact ⟨rfl, rfl⟩

/-- The answers to a first part are the first answers. -/
theorem answers_isPrefix (h : xs <+: ys) : r.answers xs <+: r.answers ys := by
  obtain ⟨zs, rfl⟩ := h
  cases hxs : r.outcome xs with
  | some v =>
    have hsame := (answers_append_some hxs zs).1
    simp only [hsame, List.prefix_refl]
  | none =>
    rw [(answers_append_none hxs zs).1]
    exact List.prefix_append _ _

/-- A responder stops no later than with a thing that gives it a verdict. -/
theorem exists_outcome {x : ρ} {v : ν} (hx : x ∈ xs) (hv : r.verdict x = some v) :
    ∃ w, r.outcome xs = some w := by
  induction xs with
  | nil => cases hx
  | cons y xs ih =>
    cases hy : r.verdict y with
    | some w => exact ⟨w, (answers_cons_some hy xs).2⟩
    | none =>
      rcases List.mem_cons.mp hx with rfl | hx
      · rw [hv] at hy
        cases hy
      · obtain ⟨w, hw⟩ := ih hx
        exact ⟨w, (answers_cons_none hy xs).2.trans hw⟩

/-- A responder that has stopped went on up to some thing, and stopped with that. -/
theorem exists_last_of_outcome {v : ν} (h : r.outcome xs = some v) :
    ∃ before x after, xs = before ++ x :: after ∧ (∀ y ∈ before, r.verdict y = none) ∧
      r.verdict x = some v ∧ r.answers xs = before.flatMap r.answer ++ r.answer x := by
  induction xs with
  | nil => cases h
  | cons x xs ih =>
    cases hx : r.verdict x with
    | some w =>
      obtain ⟨hanswers, houtcome⟩ := answers_cons_some hx xs
      rw [houtcome, Option.some.injEq] at h
      subst h
      exact ⟨[], x, xs, rfl, List.forall_mem_nil _, hx, hanswers⟩
    | none =>
      obtain ⟨hanswers, houtcome⟩ := answers_cons_none hx xs
      rw [houtcome] at h
      obtain ⟨before, y, after, rfl, hbefore, hy, hlast⟩ := ih h
      refine ⟨x :: before, y, after, rfl, List.forall_mem_cons.mpr ⟨hx, hbefore⟩, hy, ?_⟩
      rw [hanswers, hlast, List.flatMap_cons, List.append_assoc]

/-- Every answer is an answer to something. -/
theorem exists_of_mem_answers {w : ω} (h : w ∈ r.answers xs) : ∃ x ∈ xs, w ∈ r.answer x := by
  induction xs with
  | nil => cases h
  | cons x xs ih =>
    rcases List.mem_append.mp h with hx | hxs
    · exact ⟨x, List.mem_cons_self, hx⟩
    · split at hxs
      · cases hxs
      · obtain ⟨y, hy, hw⟩ := ih hxs
        exact ⟨y, List.mem_cons_of_mem x hy, hw⟩

end Responder

end Responding
