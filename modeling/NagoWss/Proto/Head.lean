import NagoWss.Proto.Handshake

/-!
# Heads

Where a head ends, and what that says about a head that was written line by line:
it ends where its last line does, whatever follows, and it is read back as its
lines.
-/

namespace NagoWss

/-! ## The two ends of a head -/

/-- The end of the first `CRLFCRLF`. -/
def crlfEnd (s : Bytes) : Option Nat := Search.firstEnd CRLFCRLF s

/-- The end of the first `LFLF`. -/
def lfEnd (s : Bytes) : Option Nat := Search.firstEnd LFLF s

/-- The bare blank line counts only where there is no other. -/
theorem headEnd_eq (s : Bytes) : headEnd s = (crlfEnd s).or (lfEnd s) := by
  rw [headEnd, crlfEnd, lfEnd, Search.firstEnd, Search.firstEnd]
  cases Search.firstIndex CRLFCRLF s <;> rfl

/-- The head ends within the stream. -/
theorem headEnd_le {s : Bytes} {e : Nat} (h : headEnd s = some e) : e ≤ s.length := by
  rw [headEnd_eq] at h
  cases hc : crlfEnd s with
  | some c =>
    rw [hc] at h
    cases h
    exact Search.firstEnd_le hc
  | none =>
    rw [hc] at h
    exact Search.firstEnd_le h

/-- A stream in which the head stands out: no bare blank line ends before the other
one, and the head ends at most one byte behind the limit. -/
structure HeadStandsOut (maxHead : Nat) (s : Bytes) : Prop where
  /-- A bare blank line comes after the one that is preferred to it. -/
  preferred : ∀ c ∈ crlfEnd s, ∀ l ∈ lfEnd s, c ≤ l
  /-- The head is found before the limit is noticed. -/
  within : ∀ e ∈ headEnd s, e ≤ maxHead + 1

instance (maxHead : Nat) (s : Bytes) : Decidable (HeadStandsOut maxHead s) :=
  decidable_of_iff ((∀ c ∈ crlfEnd s, ∀ l ∈ lfEnd s, c ≤ l) ∧ ∀ e ∈ headEnd s, e ≤ maxHead + 1)
    ⟨fun h => ⟨h.1, h.2⟩, fun h => ⟨h.preferred, h.within⟩⟩

/-- With no bare blank line in front, the head is found in the first `n` bytes if it
ends there. -/
theorem headEnd_take {s : Bytes} (h : ∀ c ∈ crlfEnd s, ∀ l ∈ lfEnd s, c ≤ l) (n : Nat) :
    headEnd (s.take n) = (headEnd s).filter (· ≤ n) := by
  rw [headEnd_eq, headEnd_eq, crlfEnd, lfEnd, Search.firstEnd_take, Search.firstEnd_take,
    ← crlfEnd, ← lfEnd]
  cases hc : crlfEnd s with
  | none => rfl
  | some c =>
    by_cases hn : c ≤ n
    · simp [Option.filter_some, hn]
    · cases hl : lfEnd s with
      | none => simp [Option.filter_some, hn]
      | some l =>
        have hle := h c hc l hl
        have hln : ¬l ≤ n := by omega
        simp [Option.filter_some, hn, hln]

/-! ## A head that was written -/

/-- A line end. -/
def CRLF : Bytes := [13, 10]

/-- A line of bytes: not empty, and without line ends in it. -/
structure IsLine (line : Bytes) : Prop where
  /-- The line is not empty. -/
  ne_nil : line ≠ []
  /-- No carriage return. -/
  cr : 13 ∉ line
  /-- No line feed. -/
  lf : 10 ∉ line

/-- Lines and the blank line behind them. -/
def headBytes (lines : List Bytes) : Bytes := lines.flatMap (· ++ CRLF) ++ CRLF

theorem headBytes_cons (line : Bytes) (lines : List Bytes) :
    headBytes (line :: lines) = line ++ CRLF ++ headBytes lines := by
  rw [headBytes, List.flatMap_cons, List.append_assoc, ← headBytes]

/-- A head that is not just a blank line starts with its first line. -/
theorem headBytes_head {line : Bytes} (h : IsLine line) (lines : List Bytes) :
    ∃ b rest, headBytes (line :: lines) = b :: rest ∧ b ≠ 13 ∧ b ≠ 10 := by
  obtain ⟨b, line', rfl⟩ := List.exists_cons_of_ne_nil h.ne_nil
  rw [headBytes_cons]
  exact ⟨b, _, rfl, fun hb => h.cr (hb ▸ List.mem_cons_self),
    fun hb => h.lf (hb ▸ List.mem_cons_self)⟩

/-- There is no bare blank line in a head that was written. -/
theorem lfEnd_headBytes {lines : List Bytes} (h : ∀ line ∈ lines, IsLine line) :
    lfEnd (headBytes lines) = none := by
  induction lines with
  | nil => rfl
  | cons line lines ih =>
    obtain ⟨hline, hlines⟩ := List.forall_mem_cons.mp h
    have hstart : ¬LFLF <+: 10 :: headBytes lines := by
      rw [LFLF, List.cons_prefix_cons]
      rintro ⟨-, hlf⟩
      cases lines with
      | nil => revert hlf; decide
      | cons next lines =>
        obtain ⟨b, rest, hhead, -, hb⟩ := headBytes_head (hlines next List.mem_cons_self) lines
        rw [hhead, List.cons_prefix_cons] at hlf
        exact hb hlf.1.symm
    have hskip : (10 : UInt8) ∉ line ++ [13] := by
      rw [List.mem_append, List.mem_singleton]
      rintro (hmem | heq)
      · exact hline.lf hmem
      · cases heq
    have hsplit : headBytes (line :: lines) = (line ++ [13]) ++ 10 :: headBytes lines := by
      rw [headBytes_cons, CRLF]
      simp
    rw [hsplit, lfEnd, LFLF, Search.firstEnd_append_of_not_mem hskip, ← LFLF,
      Search.firstEnd_cons_of_not_isPrefix hstart, ← lfEnd, ih hlines]
    rfl

/-- The blank line behind a head that was written is the first one. -/
theorem crlfEnd_headBytes {line : Bytes} {lines : List Bytes}
    (h : ∀ l ∈ line :: lines, IsLine l) (q : Bytes) :
    crlfEnd (headBytes (line :: lines) ++ q) = some (headBytes (line :: lines)).length := by
  induction lines generalizing line with
  | nil =>
    have hline := h line List.mem_cons_self
    have hsplit : headBytes [line] ++ q = line ++ (CRLFCRLF ++ q) := by
      rw [headBytes_cons, headBytes, CRLF, CRLFCRLF]
      simp
    have hlen : (headBytes [line]).length = 4 + line.length := by
      rw [headBytes_cons, headBytes, CRLF]
      simp [Nat.add_comm]
    have hfront := Search.firstEnd_of_isPrefix (List.prefix_append CRLFCRLF q)
    rw [hsplit, crlfEnd, CRLFCRLF, Search.firstEnd_append_of_not_mem hline.cr, ← CRLFCRLF, hfront,
      hlen]
    rfl
  | cons next lines ih =>
    obtain ⟨hline, hlines⟩ := List.forall_mem_cons.mp h
    obtain ⟨b, rest, hhead, hb, -⟩ := headBytes_head (hlines next List.mem_cons_self) lines
    have hsplit : headBytes (line :: next :: lines) ++ q =
        line ++ 13 :: 10 :: (headBytes (next :: lines) ++ q) := by
      rw [headBytes_cons, CRLF]
      simp
    have hlen : (headBytes (line :: next :: lines)).length =
        (headBytes (next :: lines)).length + 1 + 1 + line.length := by
      rw [headBytes_cons, CRLF, List.length_append, List.length_append]
      simp only [List.length_cons, List.length_nil]
      omega
    have hcr : ¬CRLFCRLF <+: 13 :: 10 :: (headBytes (next :: lines) ++ q) := by
      rw [CRLFCRLF, List.cons_prefix_cons, List.cons_prefix_cons, hhead, List.cons_append,
        List.cons_prefix_cons]
      exact fun h => hb h.2.2.1.symm
    have hlf : ¬CRLFCRLF <+: 10 :: (headBytes (next :: lines) ++ q) := by
      rw [CRLFCRLF, List.cons_prefix_cons]
      exact fun h => absurd h.1 (by decide)
    rw [hsplit, crlfEnd, CRLFCRLF, Search.firstEnd_append_of_not_mem hline.cr, ← CRLFCRLF,
      Search.firstEnd_cons_of_not_isPrefix hcr, Search.firstEnd_cons_of_not_isPrefix hlf, ← crlfEnd,
      ih hlines, hlen]
    rfl

/-- A head that was written line by line. -/
def IsHead (head : Bytes) : Prop :=
  ∃ line lines, (∀ l ∈ line :: lines, IsLine l) ∧ head = headBytes (line :: lines)

/-- A head ends where its last line does, whatever follows it. -/
theorem IsHead.headEnd_append {head : Bytes} (h : IsHead head) (q : Bytes) :
    headEnd (head ++ q) = some head.length := by
  obtain ⟨line, lines, hlines, rfl⟩ := h
  rw [headEnd_eq, crlfEnd_headBytes hlines q]
  rfl

/-- A head within the limit stands out, whatever follows it. -/
theorem IsHead.standsOut {head : Bytes} (h : IsHead head) {maxHead : Nat}
    (hmax : head.length ≤ maxHead) (q : Bytes) : HeadStandsOut maxHead (head ++ q) := by
  have hend := h.headEnd_append q
  obtain ⟨line, lines, hlines, rfl⟩ := h
  constructor
  · intro c hc l hl
    rw [crlfEnd_headBytes hlines q] at hc
    cases hc
    by_contra hlt
    have htake := Search.firstEnd_take LFLF (headBytes (line :: lines) ++ q)
      (headBytes (line :: lines)).length
    rw [List.take_left, ← lfEnd, ← lfEnd, lfEnd_headBytes hlines, Option.mem_def.mp hl,
      Option.filter_some, if_pos (by simpa using Nat.le_of_not_le hlt)] at htake
    cases htake
  · intro e he
    rw [hend] at he
    cases he
    omega

end NagoWss
