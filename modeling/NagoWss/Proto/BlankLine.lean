import Mathlib.Order.Bounds.Basic
import NagoWss.Proto.Head

/-!
# The blank line behind a head

Parsing a request splits it at line feeds and drops the carriage returns that end a
line, so a head ends at the first line that is empty then. The search for the end of
a head looks for two spellings of that only.
-/

namespace NagoWss

/-- A line without the carriage returns that end it. -/
def trimCr (line : Bytes) : Bytes := line.rdropWhile (· == 13)

/-- A blank line ends at the offset `n`: a line was ended in front of it, and it is a line
that is empty without its carriage returns. -/
def BlankLineAt (s : Bytes) (n : Nat) : Prop :=
  n ≤ s.length ∧ ∃ front line : Bytes, s.take n = front ++ 10 :: (line ++ [10]) ∧
    10 ∉ line ∧ trimCr line = []

/-- The first kind of end that is searched for is a blank line. -/
theorem blankLineAt_crlfEnd {s : Bytes} {c : Nat} (h : crlfEnd s = some c) : BlankLineAt s c := by
  obtain ⟨front, hfront⟩ := Search.suffix_take_firstEnd h
  refine ⟨Search.firstEnd_le h, front ++ [13], [13], ?_, by decide, by decide⟩
  rw [← hfront, CRLFCRLF, List.append_assoc]
  rfl

/-- So is the second kind. -/
theorem blankLineAt_lfEnd {s : Bytes} {l : Nat} (h : lfEnd s = some l) : BlankLineAt s l := by
  obtain ⟨front, hfront⟩ := Search.suffix_take_firstEnd h
  exact ⟨Search.firstEnd_le h, front, [], hfront.symm, by decide, by decide⟩

/-- The search finds a blank line, if not always the first one. -/
theorem blankLineAt_headEnd {s : Bytes} {e : Nat} (h : headEnd s = some e) : BlankLineAt s e := by
  rw [headEnd_eq] at h
  cases hc : crlfEnd s with
  | some c =>
    rw [hc] at h
    cases h
    exact blankLineAt_crlfEnd hc
  | none =>
    rw [hc] at h
    exact blankLineAt_lfEnd h

/-- The search agrees with parsing on where the head of an input ends. -/
structure HeadEndAgrees (s : Bytes) : Prop where
  /-- The end that is found is the end of the first blank line. -/
  found : ∀ n, headEnd s = some n ↔ IsLeast {n | BlankLineAt s n} n
  /-- No end is found where there is no blank line. -/
  absent : headEnd s = none ↔ ∀ n, ¬BlankLineAt s n

/-- The first blank line of an input has one of the two spellings that are searched for,
and the bare one only if the other is nowhere to be found. -/
def FirstBlankSpelled (s : Bytes) : Prop :=
  ∀ n, IsLeast {n | BlankLineAt s n} n →
    CRLFCRLF <:+ s.take n ∨ LFLF <:+ s.take n ∧ ¬CRLFCRLF <:+: s

/-- The search finds a first blank line that is spelled as it expects. -/
theorem FirstBlankSpelled.headEnd_eq_some {s : Bytes} (h : FirstBlankSpelled s) {n : Nat}
    (hn : IsLeast {n | BlankLineAt s n} n) : headEnd s = some n := by
  rcases h n hn with hcrlf | ⟨hlf, hnone⟩
  · obtain ⟨c, hc, hle⟩ := Search.exists_firstEnd_le hcrlf
    have hge := hn.2 (blankLineAt_crlfEnd hc)
    have hcn : c = n := Nat.le_antisymm hle hge
    rw [headEnd_eq, crlfEnd, hc, hcn]
    rfl
  · obtain ⟨l, hl, hle⟩ := Search.exists_firstEnd_le hlf
    have hge := hn.2 (blankLineAt_lfEnd hl)
    have hln : l = n := Nat.le_antisymm hle hge
    have hc : crlfEnd s = none := by
      cases hc : crlfEnd s with
      | none => rfl
      | some c =>
        have hinfix := (Search.suffix_take_firstEnd hc).isInfix.trans (List.take_prefix c s).isInfix
        exact absurd hinfix hnone
    rw [headEnd_eq, hc, lfEnd, hl, hln]
    rfl

/-- The search for the end of a head and the parser agree exactly on the inputs whose first
blank line is spelled as the search expects. -/
theorem headEndAgrees_iff (s : Bytes) : HeadEndAgrees s ↔ FirstBlankSpelled s := by
  constructor
  · intro h n hn
    have hend := (h.found n).mpr hn
    rw [headEnd_eq] at hend
    cases hc : crlfEnd s with
    | some c =>
      rw [hc] at hend
      cases hend
      exact .inl (Search.suffix_take_firstEnd hc)
    | none =>
      rw [hc] at hend
      refine .inr ⟨Search.suffix_take_firstEnd hend, fun hinfix => ?_⟩
      exact Search.firstIndex_ne_none hinfix (Option.map_eq_none_iff.mp hc)
  · intro h
    have hleast (n : Nat) (hn : BlankLineAt s n) : ∃ m, IsLeast {n | BlankLineAt s n} m := by
      classical
      exact ⟨Nat.find ⟨n, hn⟩, Nat.find_spec ⟨n, hn⟩, fun m hm => Nat.find_le hm⟩
    refine ⟨fun n => ⟨fun hend => ?_, h.headEnd_eq_some⟩, ?_⟩
    · obtain ⟨m, hm⟩ := hleast n (blankLineAt_headEnd hend)
      have hmn := h.headEnd_eq_some hm
      rw [hend] at hmn
      cases hmn
      exact hm
    · constructor
      · intro hend n hn
        obtain ⟨m, hm⟩ := hleast n hn
        rw [h.headEnd_eq_some hm] at hend
        cases hend
      · intro hnone
        cases hend : headEnd s with
        | none => rfl
        | some e => exact absurd (blankLineAt_headEnd hend) (hnone e)

/-- A head with bare line ends in front of a head with the usual ones: what is found is the
end of the second. And a blank line that is spelled in a mixed way is not found. -/
theorem headEnd_passes_blankLine :
    (headEnd (Utf8.encode "GET / HTTP/1.1\n\nA: b\r\n\r\n".toList) = some 24 ∧
      BlankLineAt (Utf8.encode "GET / HTTP/1.1\n\nA: b\r\n\r\n".toList) 16 ∧
      ¬HeadEndAgrees (Utf8.encode "GET / HTTP/1.1\n\nA: b\r\n\r\n".toList)) ∧
    headEnd (Utf8.encode "GET / HTTP/1.1\n\r\n".toList) = none ∧
      BlankLineAt (Utf8.encode "GET / HTTP/1.1\n\r\n".toList) 17 ∧
      ¬HeadEndAgrees (Utf8.encode "GET / HTTP/1.1\n\r\n".toList) := by
  have hlate : headEnd (Utf8.encode "GET / HTTP/1.1\n\nA: b\r\n\r\n".toList) = some 24 := by
    decide +kernel
  have hbare : BlankLineAt (Utf8.encode "GET / HTTP/1.1\n\nA: b\r\n\r\n".toList) 16 :=
    ⟨by decide +kernel, Utf8.encode "GET / HTTP/1.1".toList, [], by decide +kernel, by decide,
      by decide⟩
  have hnone : headEnd (Utf8.encode "GET / HTTP/1.1\n\r\n".toList) = none := by decide +kernel
  have hmixed : BlankLineAt (Utf8.encode "GET / HTTP/1.1\n\r\n".toList) 17 :=
    ⟨by decide +kernel, Utf8.encode "GET / HTTP/1.1".toList, [13], by decide +kernel, by decide,
      by decide⟩
  refine ⟨⟨hlate, hbare, fun h => ?_⟩, hnone, hmixed, fun h => h.absent.mp hnone 17 hmixed⟩
  have hle := ((h.found 24).mp hlate).2 hbare
  omega

end NagoWss
