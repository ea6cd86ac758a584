import Mathlib.Algebra.GroupWithZero.Nat
import NagoWss.Core.Framing

/-!
# What more symbols and other readers change

A result that was drained from a stream stays when the stream is continued. What is
drained is paid for by the symbols it was drained from. And two readers that differ only
where the first one objects give the same results up to there.
-/

namespace Framing

namespace Cutter

variable {α β ε σ ρ : Type*} (c : Cutter α β ε) (step : σ → β → σ × Option ρ)

/-! ## A stream that is continued -/

/-- A result stays when the stream is continued. -/
theorem drainAt_append {st : σ} {s : List α} {n : Nat} {r : Except ε ρ}
    (h : (c.drainAt step st s n).1 = some r) (q : List α) :
    (c.drainAt step st (s ++ q) n).1 = some r := by
  induction n generalizing st s with
  | zero =>
    rw [drainAt] at h ⊢
    rw [c.drain_append]
    rcases hd : c.drain step st s with ⟨_ | r', st', s'⟩
    · rw [hd] at h
      cases h
    · rw [hd] at h
      exact h
  | succ n ih =>
    rw [drainAt] at h ⊢
    rw [c.drain_append]
    rcases hd : c.drain step st s with ⟨_ | r', st', s'⟩
    · -- Nothing more can be drained of what is left.
      rw [hd] at h
      have hagain : ∀ n, (c.drainAt step st' s' n).1 = none := by
        have hnone := c.drain_none step hd
        intro n
        induction n with
        | zero => rw [drainAt, hnone]
        | succ n ih =>
          rw [drainAt, hnone]
          exact ih
      rw [hagain] at h
      cases h
    · rw [hd] at h
      exact ih h

/-! ## A stream that is cut off -/

/-- A cutter waits for the rest of an item that it would cut. -/
theorem cut_more_of_isPrefix {p s : List α} {b : β} {n : Nat} (hs : c.cut s = .item b n)
    (hp : p <+: s) (hlt : p.length < n) : c.cut p = .more := by
  obtain ⟨q, rfl⟩ := hp
  cases hcut : c.cut p with
  | more => rfl
  | bad e =>
    rw [c.bad_append q hcut] at hs
    cases hs
  | item b' n' =>
    have hle := c.item_le hcut
    rw [c.item_append q hcut] at hs
    cases hs
    exact absurd hlt (Nat.not_lt.mpr hle)

/-- A first part of pieces put one behind the other is some of the pieces, and a first part
of the next one. -/
theorem exists_pieces_of_isPrefix {f : β → List α} {xs : List β} {p : List α}
    (h : p <+: xs.flatMap f) : ∃ ys rest q, xs = ys ++ rest ∧ p = ys.flatMap f ++ q ∧
      (q = [] ∨ ∃ x ∈ xs, q <+: f x ∧ q.length < (f x).length) := by
  induction xs generalizing p with
  | nil => exact ⟨[], [], p, rfl, rfl, .inl (List.prefix_nil.mp h)⟩
  | cons x xs ih =>
    rw [List.flatMap_cons] at h
    by_cases hlt : p.length < (f x).length
    · have hp : p <+: f x := List.prefix_of_prefix_length_le h (List.prefix_append _ _)
        (Nat.le_of_lt hlt)
      exact ⟨[], x :: xs, p, rfl, rfl, .inr ⟨x, List.mem_cons_self, hp, hlt⟩⟩
    · obtain ⟨p, rfl⟩ :=
        List.prefix_of_prefix_length_le (List.prefix_append _ _) h (Nat.not_lt.mp hlt)
      obtain ⟨ys, rest, q, rfl, rfl, hq⟩ := ih ((List.prefix_append_right_inj _).mp h)
      refine ⟨x :: ys, rest, q, rfl, by rw [List.flatMap_cons, List.append_assoc], hq.imp_right ?_⟩
      rintro ⟨y, hy, hq⟩
      exact ⟨y, List.mem_cons_of_mem x hy, hq⟩

/-! ## Results cost symbols -/

/-- If what a step holds and what its result costs is paid for by the symbols of its item,
all results together and what is held behind them are paid for by the stream. -/
theorem sum_outputs_le (holds : σ → Nat) (cost : ρ → Nat)
    (hstep : ∀ {s : List α} {b : β} {n : Nat} (st : σ), c.cut s = .item b n →
      holds (step st b).1 + ((step st b).2.toList.map cost).sum ≤ holds st + n)
    (st : σ) (s : List α) :
    let p := c.parse s
    let o := outputs step st p.items
    (o.1.map cost).sum + holds o.2 + p.rest.length ≤ holds st + s.length := by
  intro p o
  induction hlen : s.length using Nat.strongRecOn generalizing s st with
  | ind len ih =>
    subst hlen
    cases hcut : c.cut s with
    | more =>
      simp only [p, o, c.parse_more hcut, outputs, List.map_nil, List.sum_nil, Nat.zero_add]
      exact Nat.le_refl _
    | bad e =>
      simp only [p, o, c.parse_bad hcut, outputs, List.map_nil, List.sum_nil, Nat.zero_add]
      exact Nat.le_refl _
    | item b n =>
      have hpaid := hstep st hcut
      have hle := c.item_le hcut
      have hrest := ih _ (c.length_drop_lt hcut) (step st b).1 (s.drop n) rfl
      simp only [p, o, c.parse_item hcut, outputs, List.map_append, List.sum_append]
      rw [List.length_drop] at hrest
      omega

/-- An item was cut off the front of some stream. -/
theorem exists_cut_of_mem_items {s : List α} {b : β} (h : b ∈ (c.parse s).items) :
    ∃ t n, c.cut t = .item b n := by
  fun_induction Cutter.parse c s with
  | case1 s hmore => cases h
  | case2 s e hbad => cases h
  | case3 s b' n hitem p ih =>
    rcases List.mem_cons.mp h with rfl | h
    · exact ⟨s, n, hitem⟩
    · exact ih h

/-- Each output was given to an item, in a state that keeps every invariant. -/
theorem exists_of_mem_outputs (keeps : σ → Prop) (hstep : ∀ st b, keeps st → keeps (step st b).1)
    {st : σ} (hst : keeps st) {bs : List β} {r : ρ} (h : r ∈ (outputs step st bs).1) :
    ∃ b ∈ bs, ∃ st', keeps st' ∧ (step st' b).2 = some r := by
  induction bs generalizing st with
  | nil => cases h
  | cons b bs ih =>
    rcases List.mem_append.mp h with hb | hbs
    · exact ⟨b, List.mem_cons_self, st, hst, Option.mem_toList.mp hb⟩
    · obtain ⟨b', hb', st', hst', hr⟩ := ih (hstep st b hst) hbs
      exact ⟨b', List.mem_cons_of_mem b hb', st', hst', hr⟩

/-! ## Two readers -/

/-- A second reader does what the first one does wherever the first one does not object. -/
structure Follows (c c' : Cutter α β ε) (step step' : σ → β → σ × Option ρ)
    (same : σ → σ → Prop) (objects : Except ε ρ → Prop) : Prop where
  /-- It cuts the same. -/
  cut : ∀ s, (∀ e, c.cut s = .bad e → ¬objects (.error e)) → c'.cut s = c.cut s
  /-- It takes the same step. -/
  step : ∀ st st' b, same st st' → (∀ r, (step st b).2 = some r → ¬objects (.ok r)) →
    (step' st' b).2 = (step st b).2 ∧ same (step st b).1 (step' st' b).1

variable {c step} {c' : Cutter α β ε} {step' : σ → β → σ × Option ρ} {same : σ → σ → Prop}
  {objects : Except ε ρ → Prop}

/-- It drains the same. -/
theorem Follows.drain_eq (h : Follows c c' step step' same objects) {st st' : σ} {s : List α}
    (hst : same st st') (hr : ∀ r, (c.drain step st s).1 = some r → ¬objects r) :
    (c'.drain step' st' s).1 = (c.drain step st s).1 ∧
      same (c.drain step st s).2.1 (c'.drain step' st' s).2.1 ∧
      (c'.drain step' st' s).2.2 = (c.drain step st s).2.2 := by
  fun_induction Cutter.drain c step st s generalizing st' with
  | case1 st s hmore =>
    have hcut := h.cut s fun e he => by rw [hmore] at he; cases he
    rw [c'.drain_more step' (hcut.trans hmore)]
    exact ⟨rfl, hst, rfl⟩
  | case2 st s e hbad =>
    have hcut := h.cut s fun e' he => by
      rw [hbad] at he
      cases he
      exact hr _ rfl
    rw [c'.drain_bad step' (hcut.trans hbad)]
    exact ⟨rfl, hst, rfl⟩
  | case3 st s b n hitem st₁ r hs =>
    have hcut := h.cut s fun e he => by rw [hitem] at he; cases he
    obtain ⟨hout, hsame⟩ := h.step st st' b hst fun r' hr' => by
      rw [hs] at hr'
      cases hr'
      exact hr _ rfl
    rw [hs] at hout hsame
    rw [c'.drain_item_some step' (hcut.trans hitem) (Prod.ext rfl hout)]
    exact ⟨rfl, hsame, rfl⟩
  | case4 st s b n hitem st₁ hs ih =>
    have hcut := h.cut s fun e he => by rw [hitem] at he; cases he
    obtain ⟨hout, hsame⟩ := h.step st st' b hst fun r' hr' => by
      rw [hs] at hr'
      cases hr'
    rw [hs] at hout hsame
    rw [c'.drain_item_none step' (hcut.trans hitem) (Prod.ext rfl hout)]
    exact ih hsame hr

/-- Its results are those of the first reader up to where that one objects. -/
theorem Follows.drainAt_eq (h : Follows c c' step step' same objects) {st st' : σ}
    {s : List α} (hst : same st st') {n : Nat}
    (hr : ∀ m ≤ n, ∀ r, (c.drainAt step st s m).1 = some r → ¬objects r) :
    (c'.drainAt step' st' s n).1 = (c.drainAt step st s n).1 ∧
      same (c.drainAt step st s n).2 (c'.drainAt step' st' s n).2 := by
  induction n generalizing st st' s with
  | zero =>
    obtain ⟨hresult, hsame, -⟩ := h.drain_eq hst (hr 0 (Nat.le_refl 0))
    exact ⟨hresult, hsame⟩
  | succ n ih =>
    obtain ⟨-, hsame, hrest⟩ := h.drain_eq hst (hr 0 (Nat.zero_le _))
    rw [drainAt, drainAt, hrest]
    refine ih hsame fun m hm r hres => hr (m + 1) (Nat.succ_le_succ hm) r ?_
    rw [drainAt]
    exact hres

end Cutter

end Framing
