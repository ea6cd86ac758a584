import Mathlib.Data.List.Basic

/-!
# Cutting a stream into items

A cutter looks at the front of a buffer and says that it holds a whole item, that
it never will, or that more symbols are needed. When its verdicts survive the
arrival of more symbols, the items of a stream, and whatever is computed from
them one by one, do not depend on how the stream was divided on its way.
-/

namespace Framing

/-- What a cutter says of the front of a buffer. -/
inductive Cut (β ε : Type*)
  /-- The item is not complete yet. -/
  | more
  /-- No item starts here, whatever follows. -/
  | bad (e : ε)
  /-- An item that occupies the first `n` symbols. -/
  | item (b : β) (n : Nat)

/-- A cutter whose verdicts are final. -/
structure Cutter (α β ε : Type*) where
  /-- The verdict on the front of a buffer. -/
  cut : List α → Cut β ε
  /-- A refusal is not withdrawn when more symbols arrive. -/
  bad_append : ∀ {p : List α} {e : ε} (q : List α), cut p = .bad e → cut (p ++ q) = .bad e
  /-- An item is not changed by the symbols behind it. -/
  item_append : ∀ {p : List α} {b : β} {n : Nat} (q : List α),
    cut p = .item b n → cut (p ++ q) = .item b n
  /-- An item is determined by the symbols it occupies. -/
  item_take : ∀ {p : List α} {b : β} {n : Nat}, cut p = .item b n → cut (p.take n) = .item b n
  /-- An item occupies at least one symbol. -/
  item_pos : ∀ {p : List α} {b : β} {n : Nat}, cut p = .item b n → 0 < n
  /-- An item occupies symbols that are there. -/
  item_le : ∀ {p : List α} {b : β} {n : Nat}, cut p = .item b n → n ≤ p.length

/-- A stream cut from the front as far as it goes. -/
structure Parse (α β ε : Type*) where
  /-- The complete items, in order. -/
  items : List β
  /-- The symbols behind the last complete item. -/
  rest : List α
  /-- The refusal that ended the cutting, if one did. -/
  fault : Option ε

namespace Cutter

variable {α β ε σ ρ : Type*} (c : Cutter α β ε)

theorem length_drop_lt {s : List α} {b : β} {n : Nat} (h : c.cut s = .item b n) :
    (s.drop n).length < s.length := by
  have hpos := c.item_pos h
  have hle := c.item_le h
  rw [List.length_drop]
  omega

/-- Cut a whole stream. -/
def parse (s : List α) : Parse α β ε :=
  match _h : c.cut s with
  | .more => ⟨[], s, none⟩
  | .bad e => ⟨[], s, some e⟩
  | .item b n =>
    let p := parse (s.drop n)
    ⟨b :: p.items, p.rest, p.fault⟩
termination_by s.length
decreasing_by exact c.length_drop_lt _h

theorem parse_more {s : List α} (h : c.cut s = .more) : c.parse s = ⟨[], s, none⟩ := by
  rw [parse]
  split <;> simp_all

theorem parse_bad {s : List α} {e : ε} (h : c.cut s = .bad e) :
    c.parse s = ⟨[], s, some e⟩ := by
  rw [parse]
  split <;> simp_all

theorem parse_item {s : List α} {b : β} {n : Nat} (h : c.cut s = .item b n) :
    c.parse s = ⟨b :: (c.parse (s.drop n)).items, (c.parse (s.drop n)).rest,
      (c.parse (s.drop n)).fault⟩ := by
  rw [parse]
  split <;> simp_all

/-- What ends the cutting is a refusal of the cutter. -/
theorem exists_bad_of_fault {s : List α} {e : ε} (h : (c.parse s).fault = some e) :
    ∃ t, c.cut t = .bad e := by
  fun_induction Cutter.parse c s with
  | case1 s hmore => cases h
  | case2 s e' hbad =>
    cases h
    exact ⟨s, hbad⟩
  | case3 s b n hitem p ih => exact ih h

/-! ## Draining a buffer -/

/-- Feed the items of a buffer to `step` until one of them gives a result. With
no result the cutter is waiting for more symbols. -/
def drain (step : σ → β → σ × Option ρ) (st : σ) (s : List α) :
    Option (Except ε ρ) × σ × List α :=
  match _h : c.cut s with
  | .more => (none, st, s)
  | .bad e => (some (.error e), st, s)
  | .item b n =>
    match step st b with
    | (st', some r) => (some (.ok r), st', s.drop n)
    | (st', none) => drain step st' (s.drop n)
termination_by s.length
decreasing_by exact c.length_drop_lt _h

variable (step : σ → β → σ × Option ρ)

theorem drain_more {st : σ} {s : List α} (h : c.cut s = .more) :
    c.drain step st s = (none, st, s) := by
  rw [drain]
  split <;> simp_all

theorem drain_bad {st : σ} {s : List α} {e : ε} (h : c.cut s = .bad e) :
    c.drain step st s = (some (.error e), st, s) := by
  rw [drain]
  split <;> simp_all

theorem drain_item_some {st st' : σ} {s : List α} {b : β} {n : Nat} {r : ρ}
    (h : c.cut s = .item b n) (hs : step st b = (st', some r)) :
    c.drain step st s = (some (.ok r), st', s.drop n) := by
  rw [drain]
  split <;> simp_all

theorem drain_item_none {st st' : σ} {s : List α} {b : β} {n : Nat}
    (h : c.cut s = .item b n) (hs : step st b = (st', none)) :
    c.drain step st s = c.drain step st' (s.drop n) := by
  rw [drain]
  split <;> simp_all

/-- Draining a longer buffer: a result stands, and without one the draining goes
on where the shorter buffer ended. -/
theorem drain_append (q : List α) (st : σ) (p : List α) :
    c.drain step st (p ++ q) = match c.drain step st p with
      | (some r, st', p') => (some r, st', p' ++ q)
      | (none, st', p') => c.drain step st' (p' ++ q) := by
  fun_induction Cutter.drain c step st p with
  | case1 st p h => rfl
  | case2 st p e h => rw [c.drain_bad step (c.bad_append q h)]
  | case3 st p b n h st' r hs =>
    rw [c.drain_item_some step (c.item_append q h) hs,
      List.drop_append_of_le_length (c.item_le h)]
  | case4 st p b n h st' hs ih =>
    rw [c.drain_item_none step (c.item_append q h) hs,
      List.drop_append_of_le_length (c.item_le h), ih]

/-- A drained buffer that gave no result has nothing left to give. -/
theorem drain_none {st st' : σ} {s s' : List α} (h : c.drain step st s = (none, st', s')) :
    c.drain step st' s' = (none, st', s') := by
  have happ := c.drain_append step [] st s
  rw [List.append_nil, h] at happ
  simpa only [List.append_nil] using happ.symm

/-! ## Draining a stream that arrives in chunks -/

/-- Drain a buffer, adding a chunk whenever the cutter waits for more, until a
result or the end of the chunks. -/
def pull (st : σ) (buf : List α) : List (List α) →
    Option (Except ε ρ) × σ × List α × List (List α)
  | [] =>
    let d := c.drain step st buf
    (d.1, d.2.1, d.2.2, [])
  | chunk :: chunks =>
    match c.drain step st buf with
    | (some r, st', buf') => (some r, st', buf', chunk :: chunks)
    | (none, st', buf') => pull st' (buf' ++ chunk) chunks

/-- Pulling from chunks is draining what is buffered and what is still to come. -/
theorem pull_eq_drain (st : σ) (buf : List α) (chunks : List (List α)) :
    c.drain step st (buf ++ chunks.flatten) =
      let p := c.pull step st buf chunks
      (p.1, p.2.1, p.2.2.1 ++ p.2.2.2.flatten) := by
  induction chunks generalizing st buf with
  | nil => simp only [pull, List.flatten_nil, List.append_nil]
  | cons chunk chunks ih =>
    rw [c.drain_append, pull, List.flatten_cons]
    rcases c.drain step st buf with ⟨_ | r, st', buf'⟩
    · simp only
      rw [← List.append_assoc]
      exact ih st' (buf' ++ chunk)
    · rfl

/-- The chunks that were not pulled are the last ones. -/
theorem pull_suffix (st : σ) (buf : List α) (chunks : List (List α)) :
    (c.pull step st buf chunks).2.2.2 <:+ chunks := by
  induction chunks generalizing st buf with
  | nil => exact List.suffix_refl _
  | cons chunk chunks ih =>
    rw [pull]
    split
    · exact List.suffix_refl _
    · exact (ih _ _).trans (List.suffix_cons _ _)

/-- Without a result every chunk was pulled, and with more chunks the pulling goes
on where it ended. -/
theorem pull_none_append {st st' : σ} {buf buf' : List α} {chunks rest : List (List α)}
    (h : c.pull step st buf chunks = (none, st', buf', rest)) (more : List (List α)) :
    rest = [] ∧ c.pull step st buf (chunks ++ more) = c.pull step st' buf' more := by
  induction chunks generalizing st buf with
  | nil =>
    rcases hd : c.drain step st buf with ⟨_ | r, st₁, buf₁⟩
    · rw [pull, hd] at h
      cases h
      have hagain := c.drain_none step hd
      refine ⟨rfl, ?_⟩
      cases more with
      | nil => simp only [List.append_nil, pull, hd, hagain]
      | cons chunk more => simp only [List.nil_append, pull, hd, hagain]
    · rw [pull, hd] at h
      cases h
  | cons chunk chunks ih =>
    rcases hd : c.drain step st buf with ⟨_ | r, st₁, buf₁⟩
    · simp only [pull, hd] at h
      obtain ⟨hrest, hpull⟩ := ih h
      refine ⟨hrest, ?_⟩
      simp only [List.cons_append, pull, hd]
      exact hpull
    · simp only [pull, hd] at h
      cases h

/-! ## The results of a whole stream -/

/-- The results of feeding items to `step`, and the state behind them. -/
def outputs (st : σ) : List β → List ρ × σ
  | [] => ([], st)
  | b :: bs =>
    let r := step st b
    let o := outputs r.1 bs
    (r.2.toList ++ o.1, o.2)

theorem outputs_append (st : σ) (xs ys : List β) :
    outputs step st (xs ++ ys) =
      ((outputs step st xs).1 ++ (outputs step (outputs step st xs).2 ys).1,
        (outputs step (outputs step st xs).2 ys).2) := by
  induction xs generalizing st with
  | nil => rfl
  | cons x xs ih => simp only [List.cons_append, outputs, ih, List.append_assoc]

/-- The `n`-th result of draining a stream again and again, and the state behind it. -/
def drainAt (st : σ) (s : List α) : Nat → Option (Except ε ρ) × σ
  | 0 =>
    let d := c.drain step st s
    (d.1, d.2.1)
  | n + 1 =>
    let d := c.drain step st s
    drainAt d.2.1 d.2.2 n

/-- One result drained from a stream is the first of its outputs, and the rest of
the outputs are those of what is left. -/
theorem drain_outputs (st : σ) (s : List α) :
    let d := c.drain step st s
    let o := outputs step st (c.parse s).items
    match d.1 with
    | some (.ok r) => o = (r :: (outputs step d.2.1 (c.parse d.2.2).items).1,
        (outputs step d.2.1 (c.parse d.2.2).items).2) ∧ (c.parse d.2.2).fault = (c.parse s).fault
    | some (.error e) => o = ([], d.2.1) ∧ (c.parse s).fault = some e ∧ c.cut d.2.2 = .bad e
    | none => o = ([], d.2.1) ∧ (c.parse s).fault = none ∧ c.cut d.2.2 = .more := by
  fun_induction Cutter.drain c step st s with
  | case1 st s h => simp only [c.parse_more h, outputs, h, and_self]
  | case2 st s e h => simp only [c.parse_bad h, outputs, h, and_self]
  | case3 st s b n h st' r hs =>
    simp only [c.parse_item h, outputs, hs, Option.toList_some, List.singleton_append, and_self]
  | case4 st s b n h st' hs ih =>
    simp only [c.parse_item h, outputs, hs, Option.toList_none, List.nil_append]
    exact ih

/-- The results of a stream are its outputs, followed for ever by its end. -/
theorem drainAt_eq (st : σ) (s : List α) (n : Nat) :
    (c.drainAt step st s n).1 = match (outputs step st (c.parse s).items).1[n]? with
      | some r => some (.ok r)
      | none => (c.parse s).fault.map .error := by
  induction n generalizing st s with
  | zero =>
    have hd := c.drain_outputs step st s
    rcases h : c.drain step st s with ⟨_ | e | r, st', s'⟩ <;> simp only [h] at hd
    · simp only [drainAt, h, hd.1, hd.2.1, List.getElem?_nil, Option.map_none]
    · simp only [drainAt, h, hd.1, hd.2.1, List.getElem?_nil, Option.map_some]
    · simp only [drainAt, h, hd.1, List.getElem?_cons_zero]
  | succ n ih =>
    have hd := c.drain_outputs step st s
    rcases h : c.drain step st s with ⟨_ | e | r, st', s'⟩ <;> simp only [h] at hd
    · simp only [drainAt, h, ih, hd.1, hd.2.1, c.parse_more hd.2.2, outputs, List.getElem?_nil]
    · simp only [drainAt, h, ih, hd.1, hd.2.1, c.parse_bad hd.2.2, outputs, List.getElem?_nil]
    · simp only [drainAt, h, ih, hd.1, hd.2, List.getElem?_cons_succ]

/-- Behind its outputs a stream leaves the state that all its items lead to. -/
theorem drainAt_state (st : σ) (s : List α) {n : Nat}
    (hn : (outputs step st (c.parse s).items).1.length ≤ n) :
    (c.drainAt step st s n).2 = (outputs step st (c.parse s).items).2 := by
  induction n generalizing st s with
  | zero =>
    have hd := c.drain_outputs step st s
    rcases h : c.drain step st s with ⟨_ | e | r, st', s'⟩ <;> simp only [h] at hd
    · simp only [drainAt, h, hd.1]
    · simp only [drainAt, h, hd.1]
    · rw [hd.1, List.length_cons] at hn
      omega
  | succ n ih =>
    have hd := c.drain_outputs step st s
    rcases h : c.drain step st s with ⟨_ | e | r, st', s'⟩ <;> simp only [h] at hd
    · have hnil : (outputs step st' (c.parse s').items) = ([], st') := by
        rw [c.parse_more hd.2.2]
        rfl
      simp only [drainAt, h]
      rw [ih st' s' (by rw [hnil]; exact Nat.zero_le n), hnil, hd.1]
    · have hnil : (outputs step st' (c.parse s').items) = ([], st') := by
        rw [c.parse_bad hd.2.2]
        rfl
      simp only [drainAt, h]
      rw [ih st' s' (by rw [hnil]; exact Nat.zero_le n), hnil, hd.1]
    · rw [hd.1, List.length_cons] at hn
      simp only [drainAt, h]
      rw [ih st' s' (by omega), hd.1]

/-! ## What has been consumed -/

/-- The stream behind its first `k` items. -/
def skip : Nat → List α → List α
  | 0, s => s
  | k + 1, s =>
    match c.cut s with
    | .item _ n => skip k (s.drop n)
    | _ => s

/-- The items behind the first `k` ones. -/
theorem items_skip (k : Nat) (s : List α) :
    (c.parse (c.skip k s)).items = (c.parse s).items.drop k := by
  induction k generalizing s with
  | zero => rfl
  | succ k ih =>
    cases h : c.cut s with
    | more => simp only [skip, h, c.parse_more h, List.drop_nil]
    | bad e => simp only [skip, h, c.parse_bad h, List.drop_nil]
    | item b n => simp only [skip, h, ih, c.parse_item h, List.drop_succ_cons]

theorem skip_skip (j k : Nat) (s : List α) : c.skip j (c.skip k s) = c.skip (k + j) s := by
  induction k generalizing s with
  | zero => rw [skip, Nat.zero_add]
  | succ k ih =>
    rw [Nat.succ_add]
    cases h : c.cut s with
    | more => cases j <;> simp only [skip, h]
    | bad e => cases j <;> simp only [skip, h]
    | item b n => simp only [skip, h, ih]

/-- The front of a stream that holds exactly its first `k` items can be followed
by anything else. -/
theorem exists_front (k : Nat) (s : List α) (hk : k ≤ (c.parse s).items.length) :
    ∃ u, u ++ c.skip k s = s ∧ ∀ t,
      (c.parse (u ++ t)).items = (c.parse s).items.take k ++ (c.parse t).items ∧
        (c.parse (u ++ t)).fault = (c.parse t).fault := by
  induction k generalizing s with
  | zero => exact ⟨[], rfl, fun t => ⟨rfl, rfl⟩⟩
  | succ k ih =>
    cases h : c.cut s with
    | more =>
      rw [c.parse_more h] at hk
      cases hk
    | bad e =>
      rw [c.parse_bad h] at hk
      cases hk
    | item b n =>
      have hitems := congrArg Parse.items (c.parse_item h)
      simp only at hitems
      rw [hitems, List.length_cons] at hk
      obtain ⟨u, hu, hparse⟩ := ih (s.drop n) (by omega)
      have hlen : (s.take n).length = n := by
        rw [List.length_take]
        exact Nat.min_eq_left (c.item_le h)
      refine ⟨s.take n ++ u, ?_, ?_⟩
      · simp only [skip, h]
        rw [List.append_assoc, hu, List.take_append_drop]
      · intro t
        have hcut : c.cut (s.take n ++ u ++ t) = .item b n := by
          rw [List.append_assoc]
          exact c.item_append _ (c.item_take h)
        have hdrop : (s.take n ++ u ++ t).drop n = u ++ t := by
          rw [List.append_assoc, List.drop_append_of_le_length (Nat.le_of_eq hlen.symm),
            List.drop_eq_nil_of_le (Nat.le_of_eq hlen), List.nil_append]
        rw [c.parse_item hcut, hdrop, hitems, (hparse t).1, (hparse t).2]
        exact ⟨rfl, rfl⟩

/-- Draining takes some number of whole items off the front, feeds exactly those
and leaves the rest. -/
theorem drain_skip (st : σ) (s : List α) : ∃ k, k ≤ (c.parse s).items.length ∧
    (c.drain step st s).2.2 = c.skip k s ∧
      (c.drain step st s).2.1 = (outputs step st ((c.parse s).items.take k)).2 := by
  fun_induction Cutter.drain c step st s with
  | case1 st s h => exact ⟨0, Nat.zero_le _, rfl, rfl⟩
  | case2 st s e h => exact ⟨0, Nat.zero_le _, rfl, rfl⟩
  | case3 st s b n h st' r hs =>
    refine ⟨1, ?_, ?_, ?_⟩
    · rw [c.parse_item h, List.length_cons]
      omega
    · simp only [skip, h]
    · simp only [c.parse_item h, List.take_succ_cons, List.take_zero, outputs, hs]
  | case4 st s b n h st' hs ih =>
    obtain ⟨k, hk, hrest, hst⟩ := ih
    refine ⟨k + 1, ?_, ?_, ?_⟩
    · rw [c.parse_item h, List.length_cons]
      omega
    · simp only [skip, h, hrest]
    · simp only [c.parse_item h, List.take_succ_cons, outputs, hs, hst]

/-- The state and the stream after draining `n` times. -/
def drained (st : σ) (s : List α) : Nat → σ × List α
  | 0 => (st, s)
  | n + 1 =>
    let d := c.drain step st s
    drained d.2.1 d.2.2 n

/-- However often a stream is drained, whole items are taken off its front and
exactly those are fed, once and in order. -/
theorem drained_skip (st : σ) (s : List α) (n : Nat) : ∃ k, k ≤ (c.parse s).items.length ∧
    (c.drained step st s n).2 = c.skip k s ∧
      (c.drained step st s n).1 = (outputs step st ((c.parse s).items.take k)).2 := by
  induction n generalizing st s with
  | zero => exact ⟨0, Nat.zero_le _, rfl, rfl⟩
  | succ n ih =>
    obtain ⟨k, hk, hrest, hst⟩ := c.drain_skip step st s
    obtain ⟨j, hj, hrest', hst'⟩ := ih (c.drain step st s).2.1 (c.drain step st s).2.2
    rw [hrest, items_skip, List.length_drop] at hj
    refine ⟨k + j, by omega, ?_, ?_⟩
    · rw [drained, hrest', hrest, skip_skip]
    · rw [drained, hst', hrest, hst, items_skip, List.take_add, outputs_append]

/-- Draining at a moment is draining what was left at that moment. -/
theorem drainAt_drained (st : σ) (s : List α) (n : Nat) :
    let d := c.drained step st s n
    c.drainAt step st s n = ((c.drain step d.1 d.2).1, (c.drain step d.1 d.2).2.1) := by
  induction n generalizing st s with
  | zero => rfl
  | succ n ih => exact ih _ _

/-! ## A stream that is still arriving -/

/-- A reader that started in `st₀`, has seen `arrived` and given the results
`outs`, and is in the state `st` with `buf` ahead of it, accounts for the stream:
whatever arrives next, its results so far and those to come are all of them. -/
structure Tracks (st₀ : σ) (arrived : List α) (outs : List ρ) (st : σ) (buf : List α) : Prop where
  /-- The results so far and those to come are the outputs of the stream. -/
  outputs_eq : ∀ q, outputs step st₀ (c.parse (arrived ++ q)).items =
    (outs ++ (outputs step st (c.parse (buf ++ q)).items).1,
      (outputs step st (c.parse (buf ++ q)).items).2)
  /-- The end of what is ahead is the end of the stream. -/
  fault_eq : ∀ q, (c.parse (arrived ++ q)).fault = (c.parse (buf ++ q)).fault

/-- A reader that has seen nothing accounts for the empty stream. -/
theorem tracks_nil (st₀ : σ) : c.Tracks step st₀ [] [] st₀ [] :=
  ⟨fun _ => rfl, fun _ => rfl⟩

/-- Where draining gives no result, the same is ahead of the reader as before. -/
theorem drain_none_outputs {st st' : σ} {s s' : List α}
    (h : c.drain step st s = (none, st', s')) (q : List α) :
    outputs step st (c.parse (s ++ q)).items = outputs step st' (c.parse (s' ++ q)).items ∧
      (c.parse (s ++ q)).fault = (c.parse (s' ++ q)).fault := by
  have happ := c.drain_append step q st s
  rw [h] at happ
  simp only at happ
  have ho := c.drain_outputs step st (s ++ q)
  have ho' := c.drain_outputs step st' (s' ++ q)
  rw [happ] at ho
  rcases hd : c.drain step st' (s' ++ q) with ⟨_ | e | r, st'', s''⟩ <;> rw [hd] at ho ho'
  · exact ⟨ho.1.trans ho'.1.symm, ho.2.1.trans ho'.2.1.symm⟩
  · exact ⟨ho.1.trans ho'.1.symm, ho.2.1.trans ho'.2.1.symm⟩
  · exact ⟨ho.1.trans ho'.1.symm, ho.2.symm.trans ho'.2⟩

namespace Tracks

variable {c step} {st₀ st st' : σ} {arrived buf buf' : List α} {outs : List ρ}

/-- What arrives is ahead of the reader. -/
theorem arrive (h : c.Tracks step st₀ arrived outs st buf) (chunk : List α) :
    c.Tracks step st₀ (arrived ++ chunk) outs st (buf ++ chunk) := by
  constructor
  · intro q
    rw [List.append_assoc, List.append_assoc]
    exact h.outputs_eq (chunk ++ q)
  · intro q
    rw [List.append_assoc, List.append_assoc]
    exact h.fault_eq (chunk ++ q)

/-- Waiting accounts for the same stream. -/
theorem wait (h : c.Tracks step st₀ arrived outs st buf)
    (hd : c.drain step st buf = (none, st', buf')) :
    c.Tracks step st₀ arrived outs st' buf' := by
  constructor
  · intro q
    rw [h.outputs_eq q, (c.drain_none_outputs step hd q).1]
  · intro q
    rw [h.fault_eq q, (c.drain_none_outputs step hd q).2]

/-- A result that was drained is one of the results so far. -/
theorem result {r : ρ} (h : c.Tracks step st₀ arrived outs st buf)
    (hd : c.drain step st buf = (some (.ok r), st', buf')) :
    c.Tracks step st₀ arrived (outs ++ [r]) st' buf' := by
  have happ (q : List α) : c.drain step st (buf ++ q) = (some (.ok r), st', buf' ++ q) := by
    rw [c.drain_append, hd]
  constructor
  · intro q
    have ho := c.drain_outputs step st (buf ++ q)
    rw [happ q] at ho
    rw [h.outputs_eq q, ho.1, List.append_assoc]
    rfl
  · intro q
    have ho := c.drain_outputs step st (buf ++ q)
    rw [happ q] at ho
    rw [h.fault_eq q, ho.2]

/-- Draining fails only where the whole stream is refused. -/
theorem refused {e : ε} (h : c.Tracks step st₀ arrived outs st buf)
    (hd : c.drain step st buf = (some (.error e), st', buf')) (q : List α) :
    (c.parse (arrived ++ q)).fault = some e := by
  have happ : c.drain step st (buf ++ q) = (some (.error e), st', buf' ++ q) := by
    rw [c.drain_append, hd]
  have ho := c.drain_outputs step st (buf ++ q)
  rw [happ] at ho
  rw [h.fault_eq q, ho.2.1]

/-- The results so far are the first outputs of the whole stream. -/
theorem outs_isPrefix (h : c.Tracks step st₀ arrived outs st buf) (q : List α) :
    outs <+: (outputs step st₀ (c.parse (arrived ++ q)).items).1 := by
  rw [h.outputs_eq q]
  exact List.prefix_append _ _

/-- When everything has arrived and the reader waits, its results are complete. -/
theorem outs_complete (h : c.Tracks step st₀ arrived outs st buf)
    (hd : c.drain step st buf = (none, st', buf')) :
    outs = (outputs step st₀ (c.parse arrived).items).1 := by
  have ho := c.drain_outputs step st buf
  have hall := h.outputs_eq []
  rw [hd] at ho
  rw [List.append_nil, List.append_nil, ho.1, List.append_nil] at hall
  rw [hall]

end Tracks

end Cutter

/-! ## Prefix codes -/

/-- Code words that say where they end spell every sequence in one way only. -/
theorem flatMap_injective {α β : Type*} {code : β → List α} (hne : ∀ b, code b ≠ [])
    (hfront : ∀ {b b' : β} {x y : List α}, code b ++ x = code b' ++ y → b = b' ∧ x = y) :
    Function.Injective fun bs : List β => bs.flatMap code := by
  intro xs ys h
  simp only at h
  induction xs generalizing ys with
  | nil =>
    cases ys with
    | nil => rfl
    | cons y ys =>
      rw [List.flatMap_nil, List.flatMap_cons] at h
      exact absurd (List.append_eq_nil_iff.mp h.symm).1 (hne y)
  | cons x xs ih =>
    cases ys with
    | nil =>
      rw [List.flatMap_nil, List.flatMap_cons] at h
      exact absurd (List.append_eq_nil_iff.mp h).1 (hne x)
    | cons y ys =>
      rw [List.flatMap_cons, List.flatMap_cons] at h
      obtain ⟨rfl, htail⟩ := hfront h
      rw [ih htail]

end Framing
