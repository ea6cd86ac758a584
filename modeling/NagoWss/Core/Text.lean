import Mathlib.Data.List.DropRight
import Mathlib.Data.List.Infix
import NagoWss.Core.Search

/-!
# Text

The operations of a string library that line based protocols use, on texts as
lists of characters: splitting at a separator, trimming either end and comparing
without regard to the case of ASCII letters.
-/

namespace Text

/-- The Unicode `White_Space` characters. -/
def isWhitespace (c : Char) : Bool :=
  let n := c.toNat
  (9 ≤ n && n ≤ 13) || n == 32 || n == 0x85 || n == 0xA0 || n == 0x1680 ||
    (0x2000 ≤ n && n ≤ 0x200A) || n == 0x2028 || n == 0x2029 || n == 0x202F || n == 0x205F ||
    n == 0x3000

/-- A digit is no white space. -/
theorem isWhitespace_of_isDigit {c : Char} (h : c.isDigit = true) : isWhitespace c = false := by
  have hdigit : 48 ≤ c.toNat ∧ c.toNat ≤ 57 := by
    simp only [Char.isDigit, Bool.and_eq_true, decide_eq_true_eq] at h
    exact h
  simp only [isWhitespace, Bool.or_eq_false_iff, Bool.and_eq_false_iff, decide_eq_false_iff_not,
    beq_eq_false_iff_ne]
  omega

/-- Remove the trailing occurrences of a character. -/
def trimEndMatches (c : Char) (text : List Char) : List Char := text.rdropWhile (· == c)

/-- Remove white space at both ends. -/
def trim (text : List Char) : List Char := (text.dropWhile isWhitespace).rdropWhile isWhitespace

/-- The parts before and behind the first occurrence of a character. -/
def splitOnce (c : Char) (text : List Char) : Option (List Char × List Char) :=
  if c ∈ text then some (text.takeWhile (· != c), (text.dropWhile (· != c)).tail) else none

/-- The parts before and behind the first occurrence of a pattern. -/
def splitOncePattern (pattern text : List Char) : Option (List Char × List Char) :=
  (Search.firstIndex pattern text).map fun i => (text.take i, text.drop (i + pattern.length))

/-- The parts before and behind the last occurrence of a character. -/
def rsplitOnce (c : Char) (text : List Char) : Option (List Char × List Char) :=
  (splitOnce c text.reverse).map fun (behind, before) => (before.reverse, behind.reverse)

/-- The number that a text of decimal digits stands for. -/
def decimal (digits : List Char) : Nat :=
  digits.foldl (fun n digit => 10 * n + (digit.toNat - '0'.toNat)) 0

/-- Read a number of sixteen bits, with or without a plus sign in front. -/
def parseU16 (text : List Char) : Option UInt16 :=
  let digits := match text with
    | '+' :: rest => rest
    | _ => text
  if digits.isEmpty || !digits.all Char.isDigit || 65536 ≤ decimal digits then none
  else some (.ofNat (decimal digits))

/-- Equality up to the case of ASCII letters. -/
def eqIgnoreAsciiCase (s t : List Char) : Bool := s.map Char.toLower == t.map Char.toLower

/-- The lines of a text, without the carriage returns that end them. -/
def lines (text : List Char) : List (List Char) := (text.splitOn '\n').map (trimEndMatches '\r')

variable {c : Char} {s t : List Char}

/-- A text with no trailing occurrence is left alone. -/
theorem trimEndMatches_eq_self (h : t.getLast? ≠ some c) : trimEndMatches c t = t := by
  rw [trimEndMatches, List.rdropWhile_eq_self_iff]
  intro hne heq
  rw [List.getLast?_eq_some_getLast hne, beq_iff_eq.mp heq] at h
  exact h rfl

/-- One trailing occurrence is removed. -/
theorem trimEndMatches_append (h : t.getLast? ≠ some c) : trimEndMatches c (t ++ [c]) = t := by
  rw [trimEndMatches, List.rdropWhile_concat_pos (· == c) _ _ (beq_self_eq_true c), ← trimEndMatches,
    trimEndMatches_eq_self h]

/-- Splitting where a separator was put. -/
theorem splitOnce_append (h : c ∉ s) (t : List Char) :
    splitOnce c (s ++ c :: t) = some (s, t) := by
  have hne : ∀ x ∈ s, (x != c) = true := by
    intro x hx
    exact bne_iff_ne.mpr fun heq => h (heq ▸ hx)
  have hmem : c ∈ s ++ c :: t := List.mem_append_right _ List.mem_cons_self
  have hc : (c != c) = false := bne_self_eq_false c
  rw [splitOnce, if_pos hmem, List.takeWhile_append_of_pos hne, List.dropWhile_append_of_pos hne,
    List.takeWhile_cons, List.dropWhile_cons, hc]
  simp only [Bool.false_eq_true, if_false, List.append_nil, List.tail_cons]

/-- The parts that a text is split into make it up, and the first has no separator. -/
theorem splitOnce_eq_some_iff {before behind : List Char} :
    splitOnce c t = some (before, behind) ↔ t = before ++ c :: behind ∧ c ∉ before := by
  constructor
  · intro h
    rw [splitOnce] at h
    split at h
    · next hmem =>
      obtain ⟨first, rest, rfl, hfirst⟩ := List.eq_append_cons_of_mem hmem
      have hparts := splitOnce_append hfirst rest
      rw [splitOnce, if_pos hmem, h] at hparts
      cases hparts
      exact ⟨rfl, hfirst⟩
    · cases h
  · rintro ⟨rfl, hbefore⟩
    exact splitOnce_append hbefore behind

/-- The parts that a text is split into from behind make it up, and the second has no
separator. -/
theorem rsplitOnce_eq_some_iff {before behind : List Char} :
    rsplitOnce c t = some (before, behind) ↔ t = before ++ c :: behind ∧ c ∉ behind := by
  have hreverse : t = before ++ c :: behind ↔ t.reverse = behind.reverse ++ c :: before.reverse := by
    rw [← List.reverse_inj]
    simp
  rw [rsplitOnce, Option.map_eq_some_iff, hreverse]
  constructor
  · rintro ⟨⟨first, rest⟩, hsplit, heq⟩
    cases heq
    obtain ⟨ht, hfirst⟩ := splitOnce_eq_some_iff.mp hsplit
    simp only [List.reverse_reverse, List.mem_reverse]
    exact ⟨ht, hfirst⟩
  · rintro ⟨ht, hbehind⟩
    refine ⟨(behind.reverse, before.reverse), splitOnce_eq_some_iff.mpr ⟨ht, ?_⟩, ?_⟩
    · rwa [List.mem_reverse]
    · simp only [List.reverse_reverse]

/-- A text without a separator is not split. -/
theorem rsplitOnce_eq_none_iff : rsplitOnce c t = none ↔ c ∉ t := by
  rw [rsplitOnce, Option.map_eq_none_iff, splitOnce]
  simp

/-- What is split off holds characters of the text only. -/
theorem mem_of_splitOnce {before behind : List Char} (h : splitOnce c t = some (before, behind))
    {x : Char} (hx : x ∈ behind) : x ∈ t := by
  rw [splitOnce] at h
  split at h
  · cases h
    exact (List.dropWhile_suffix _).subset (List.mem_of_mem_tail hx)
  · cases h

/-- The parts between separators have no separator, and hold characters of the text only. -/
theorem of_mem_splitOn {part : List Char} (h : part ∈ t.splitOn c) : c ∉ part ∧ part ⊆ t := by
  induction t generalizing part with
  | nil =>
    rw [List.splitOn_nil, List.mem_singleton] at h
    subst h
    exact ⟨List.not_mem_nil, List.Subset.refl _⟩
  | cons x t ih =>
    obtain ⟨first, rest, hparts⟩ := List.exists_cons_of_ne_nil (List.splitOn_ne_nil c t)
    rw [List.splitOn_cons_eq_if_modifyHead] at h
    split at h
    · rcases List.mem_cons.mp h with rfl | h
      · exact ⟨List.not_mem_nil, List.nil_subset _⟩
      · exact ⟨(ih h).1, List.subset_cons_of_subset x (ih h).2⟩
    · next hx =>
      rw [hparts, List.modifyHead_cons] at h
      have hfirst := ih (hparts ▸ List.mem_cons_self)
      rcases List.mem_cons.mp h with rfl | h
      · refine ⟨?_, List.cons_subset_cons x hfirst.2⟩
        rw [List.mem_cons, not_or]
        exact ⟨fun heq => hx (beq_iff_eq.mpr heq.symm), hfirst.1⟩
      · have hpart := ih (hparts ▸ List.mem_cons_of_mem first h)
        exact ⟨hpart.1, List.subset_cons_of_subset x hpart.2⟩

/-- There is no line feed on a line. -/
theorem lf_not_mem_of_mem_lines {line : List Char} (h : line ∈ lines t) : '\n' ∉ line := by
  obtain ⟨part, hpart, rfl⟩ := List.mem_map.mp h
  exact fun hlf => (of_mem_splitOn hpart).1 ((List.rdropWhile_prefix _ _).subset hlf)

/-- White space in front is trimmed away. -/
theorem trim_cons {x : Char} (hx : isWhitespace x = true) : trim (x :: t) = trim t := by
  rw [trim, List.dropWhile_cons, if_pos hx, ← trim]

/-- White space at the end is trimmed away. -/
theorem trim_concat {x : Char} (hx : isWhitespace x = true) : trim (t ++ [x]) = trim t := by
  rw [trim, List.dropWhile_append, trim]
  split
  · next hempty =>
    rw [List.isEmpty_iff.mp hempty, List.dropWhile_cons, if_pos hx]
    rfl
  · rw [List.rdropWhile_concat_pos isWhitespace _ x hx]

/-- Trimming leaves characters of the text only. -/
theorem mem_of_mem_trim {x : Char} (h : x ∈ trim t) : x ∈ t := by
  have hpre : trim t <+: t.dropWhile isWhitespace := List.rdropWhile_prefix _ _
  exact (List.dropWhile_suffix isWhitespace).subset (hpre.subset h)

/-- What is left does not start with white space. -/
theorem isWhitespace_head?_trim : ∀ x ∈ (trim t).head?, isWhitespace x = false := by
  intro x hx
  obtain ⟨rest, hrest⟩ := List.rdropWhile_prefix isWhitespace (t.dropWhile isWhitespace)
  rw [← trim] at hrest
  have hhead := List.head?_dropWhile_not isWhitespace t
  cases htrim : trim t with
  | nil =>
    rw [htrim] at hx
    cases hx
  | cons y u =>
    rw [htrim] at hx hrest
    cases hx
    rw [← hrest] at hhead
    simpa using hhead

/-- What is left does not end with white space. -/
theorem isWhitespace_getLast?_trim : ∀ x ∈ (trim t).getLast?, isWhitespace x = false := by
  intro x hx
  have hne : trim t ≠ [] := by
    intro hnil
    rw [hnil] at hx
    cases hx
  rw [List.getLast?_eq_some_getLast hne] at hx
  cases hx
  exact Bool.eq_false_iff.mpr (List.rdropWhile_last_not isWhitespace _ hne)

/-- A text that starts and ends with other characters has no white space to trim. -/
theorem trim_eq_self_of_ends (hhead : ∀ x ∈ t.head?, isWhitespace x = false)
    (hlast : ∀ x ∈ t.getLast?, isWhitespace x = false) : trim t = t := by
  have hdrop : t.dropWhile isWhitespace = t := by
    cases t with
    | nil => rfl
    | cons x t => rw [List.dropWhile_cons, hhead x rfl]; rfl
  rw [trim, hdrop, List.rdropWhile_eq_self_iff]
  intro hne heq
  rw [hlast _ (List.getLast?_eq_some_getLast hne)] at heq
  cases heq

/-- Exactly these texts have none. -/
theorem trim_eq_self_iff : trim t = t ↔
    (∀ x ∈ t.head?, isWhitespace x = false) ∧ ∀ x ∈ t.getLast?, isWhitespace x = false := by
  refine ⟨fun h => ?_, fun h => trim_eq_self_of_ends h.1 h.2⟩
  rw [← h]
  exact ⟨isWhitespace_head?_trim, isWhitespace_getLast?_trim⟩

/-- Trimming once is enough. -/
theorem trim_trim (t : List Char) : trim (trim t) = trim t :=
  trim_eq_self_of_ends isWhitespace_head?_trim isWhitespace_getLast?_trim

/-- A text without white space has none to trim. -/
theorem trim_eq_self (h : ∀ x ∈ t, isWhitespace x = false) : trim t = t :=
  trim_eq_self_of_ends (fun x hx => h x (List.mem_of_mem_head? hx))
    fun x hx => h x (List.mem_of_getLast? hx)

/-- A line that was ended by a carriage return and a line feed. -/
theorem lines_append (hlast : s.getLast? ≠ some '\r') (hlf : '\n' ∉ s) (t : List Char) :
    lines (s ++ '\r' :: '\n' :: t) = s :: lines t := by
  have hline : '\n' ∉ s ++ ['\r'] := by
    rw [List.mem_append, List.mem_singleton]
    rintro (h | h)
    · exact hlf h
    · cases h
  have hsplit : s ++ '\r' :: '\n' :: t = (s ++ ['\r']) ++ '\n' :: t := by
    rw [List.append_assoc]
    rfl
  rw [lines, hsplit, List.splitOn_append_cons_self_of_not_mem hline, List.map_cons,
    trimEndMatches_append hlast, ← lines]

/-! ## Numbers -/

/-- The digits of a number stand for it. -/
theorem decimal_toDigits (n : Nat) : decimal (Nat.toDigits 10 n) = n :=
  Nat.ofDigitChars_ten_toDigits

/-- A text of digits is read as the number they stand for. -/
theorem parseU16_of_digits {digits : List Char} (hne : digits ≠ [])
    (hall : ∀ d ∈ digits, d.isDigit = true) (hsmall : decimal digits < 65536) :
    parseU16 digits = some (.ofNat (decimal digits)) := by
  have hempty : digits.isEmpty = false := List.isEmpty_eq_false_iff.mpr hne
  have hdigits : digits.all Char.isDigit = true := List.all_eq_true.mpr hall
  have hlarge : ¬65536 ≤ decimal digits := Nat.not_le.mpr hsmall
  have hplus : ∀ rest, digits = '+' :: rest → False := by
    rintro rest rfl
    exact absurd (hall '+' List.mem_cons_self) (by decide)
  simp only [parseU16, hempty, hdigits, hlarge]
  rfl

/-- A number of sixteen bits is read back. -/
theorem parseU16_toDigits (n : UInt16) : parseU16 (Nat.toDigits 10 n.toNat) = some n := by
  have hsmall : decimal (Nat.toDigits 10 n.toNat) < 65536 := by
    rw [decimal_toDigits]
    exact n.toNat_lt
  have hdigit : ∀ d ∈ Nat.toDigits 10 n.toNat, d.isDigit = true := fun d hd =>
    Nat.isDigit_of_mem_toDigits (by decide) (by decide) hd
  rw [parseU16_of_digits Nat.toDigits_ne_nil hdigit hsmall, decimal_toDigits, UInt16.ofNat_toNat]

/-! ## Lists of tokens -/

/-- What has no separator and stands behind a text is part of its last piece. -/
theorem splitOn_append_of_not_mem (h : c ∉ s) (t : List Char) :
    ∃ init last, t.splitOn c = init ++ [last] ∧ (t ++ s).splitOn c = init ++ [last ++ s] := by
  induction t with
  | nil => exact ⟨[], [], List.splitOn_nil c, List.splitOn_eq_singleton h⟩
  | cons x t ih =>
    obtain ⟨init, last, ht, hts⟩ := ih
    rw [List.cons_append, List.splitOn_cons_eq_if_modifyHead, List.splitOn_cons_eq_if_modifyHead,
      ht, hts]
    split
    · exact ⟨[] :: init, last, rfl, rfl⟩
    · cases init with
      | nil => exact ⟨[], x :: last, rfl, rfl⟩
      | cons first init => exact ⟨(x :: first) :: init, last, rfl, rfl⟩

/-- Trimming a list leaves its trimmed pieces as they are. -/
theorem map_trim_splitOn_trim (hc : isWhitespace c = false) (t : List Char) :
    ((trim t).splitOn c).map trim = (t.splitOn c).map trim := by
  have hdrop : ((t.dropWhile isWhitespace).splitOn c).map trim = (t.splitOn c).map trim := by
    induction t with
    | nil => rfl
    | cons x t ih =>
      rw [List.dropWhile_cons]
      split
      · next hx =>
        have hne : ¬(x == c) = true := fun heq => by
          rw [beq_iff_eq.mp heq, hc] at hx
          cases hx
        rw [ih, List.splitOn_cons_eq_if_modifyHead, if_neg hne]
        obtain ⟨first, rest, hparts⟩ := List.exists_cons_of_ne_nil (List.splitOn_ne_nil c t)
        rw [hparts, List.modifyHead_cons, List.map_cons, List.map_cons, trim_cons hx]
      · rfl
  rw [← hdrop, trim]
  induction t.dropWhile isWhitespace using List.reverseRecOn with
  | nil => rfl
  | append_singleton u x ih =>
    rw [List.rdropWhile_concat]
    split
    · next hx =>
      have hne : c ∉ [x] := fun hmem => by
        rw [List.mem_singleton.mp hmem, hx] at hc
        cases hc
      obtain ⟨init, last, hu, hux⟩ := splitOn_append_of_not_mem hne u
      rw [ih, hu, hux, List.map_append, List.map_append, List.map_singleton, List.map_singleton,
        trim_concat hx]
    · rfl

/-- Splitting what was joined from pieces splits each of them. -/
theorem splitOn_intercalate_eq_flatMap {pieces : List (List Char)} (h : pieces ≠ []) :
    (List.intercalate [c] pieces).splitOn c = pieces.flatMap (List.splitOn c) := by
  induction pieces with
  | nil => exact absurd rfl h
  | cons piece pieces ih =>
    cases pieces with
    | nil => rw [List.intercalate_singleton, List.flatMap_singleton]
    | cons next pieces =>
      have hjoin : List.intercalate [c] (piece :: next :: pieces) =
          piece ++ c :: List.intercalate [c] (next :: pieces) := by
        rw [List.intercalate_cons_cons, List.append_assoc]
        rfl
      rw [hjoin, List.splitOn_append_cons_self, ih (List.cons_ne_nil next pieces)]
      rfl

/-- A token of a comma separated list: not empty, without commas and white space. -/
structure IsToken (t : List Char) : Prop where
  /-- The token is not empty. -/
  ne_nil : t ≠ []
  /-- No comma. -/
  comma : ',' ∉ t
  /-- No white space. -/
  whitespace : ∀ x ∈ t, isWhitespace x = false

instance (t : List Char) : Decidable (IsToken t) :=
  decidable_of_iff (t ≠ [] ∧ ',' ∉ t ∧ (t.all fun x => !isWhitespace x) = true)
    ⟨fun h => ⟨h.1, h.2.1, fun x hx => by simpa using List.all_eq_true.mp h.2.2 x hx⟩,
      fun h => ⟨h.ne_nil, h.comma, List.all_eq_true.mpr fun x hx => by simp [h.whitespace x hx]⟩⟩

/-- Tokens joined for a reader. -/
def join (tokens : List (List Char)) : List Char := List.intercalate ", ".toList tokens

theorem join_cons_cons (t u : List Char) (ts : List (List Char)) :
    join (t :: u :: ts) = t ++ ',' :: ' ' :: join (u :: ts) := by
  rw [join, List.intercalate_cons_cons, ← join, List.append_assoc]
  rfl

/-- Joined tokens are split and trimmed back into the tokens. -/
theorem map_trim_splitOn_join {ts : List (List Char)} (h : ∀ t ∈ ts, IsToken t) (hne : ts ≠ []) :
    ((join ts).splitOn ',').map trim = ts := by
  induction ts with
  | nil => exact absurd rfl hne
  | cons t ts ih =>
    obtain ⟨ht, hts⟩ := List.forall_mem_cons.mp h
    cases ts with
    | nil =>
      rw [join, List.intercalate_singleton, List.splitOn_eq_singleton ht.comma, List.map_singleton,
        trim_eq_self ht.whitespace]
    | cons u ts =>
      have hrest : ((' ' :: join (u :: ts)).splitOn ',').map trim =
          ((join (u :: ts)).splitOn ',').map trim := by
        rw [List.splitOn_cons_eq_if_modifyHead, if_neg (by decide)]
        cases (join (u :: ts)).splitOn ',' with
        | nil => rfl
        | cons x xs => exact congrArg (· :: xs.map trim) (trim_cons rfl)
      rw [join_cons_cons, List.splitOn_append_cons_self_of_not_mem ht.comma, List.map_cons, hrest,
        ih hts (List.cons_ne_nil u ts), trim_eq_self ht.whitespace]

/-- Joined tokens start with the first token. -/
theorem prefix_join (t : List Char) (ts : List (List Char)) : t <+: join (t :: ts) := by
  cases ts with
  | nil => rw [join, List.intercalate_singleton]
  | cons u ts => rw [join_cons_cons]; exact List.prefix_append _ _

/-- Joined tokens hold characters of the tokens, commas and spaces. -/
theorem mem_join {ts : List (List Char)} {x : Char} (h : x ∈ join ts) :
    (∃ t ∈ ts, x ∈ t) ∨ x = ',' ∨ x = ' ' := by
  induction ts with
  | nil => cases h
  | cons t ts ih =>
    cases ts with
    | nil =>
      rw [join, List.intercalate_singleton] at h
      exact .inl ⟨t, List.mem_cons_self, h⟩
    | cons u ts =>
      rw [join_cons_cons, List.mem_append, List.mem_cons, List.mem_cons] at h
      rcases h with h | h | h | h
      · exact .inl ⟨t, List.mem_cons_self, h⟩
      · exact .inr (.inl h)
      · exact .inr (.inr h)
      · rcases ih h with ⟨v, hv, hx⟩ | hx
        · exact .inl ⟨v, List.mem_cons_of_mem t hv, hx⟩
        · exact .inr hx

/-- Joined tokens end with the last character of a token. -/
theorem getLast?_join {ts : List (List Char)} (h : ∀ t ∈ ts, IsToken t) :
    ∀ x ∈ (join ts).getLast?, isWhitespace x = false := by
  induction ts with
  | nil => intro x hx; cases hx
  | cons t ts ih =>
    obtain ⟨ht, hts⟩ := List.forall_mem_cons.mp h
    cases ts with
    | nil =>
      intro x hx
      rw [join, List.intercalate_singleton] at hx
      exact ht.whitespace x (List.mem_of_getLast? hx)
    | cons u ts =>
      have hu := (hts u List.mem_cons_self).ne_nil
      have hne : join (u :: ts) ≠ [] := fun hnil =>
        hu (List.prefix_nil.mp (hnil ▸ prefix_join u ts))
      have hsplit : join (t :: u :: ts) = (t ++ [',', ' ']) ++ join (u :: ts) := by
        rw [join_cons_cons, List.append_assoc]
        rfl
      rw [hsplit, List.getLast?_append_of_ne_nil _ hne]
      exact ih hts

/-- Joined tokens have no white space at either end. -/
theorem trim_join {ts : List (List Char)} (h : ∀ t ∈ ts, IsToken t) : trim (join ts) = join ts := by
  refine trim_eq_self_of_ends ?_ (getLast?_join h)
  cases ts with
  | nil => intro x hx; cases hx
  | cons t ts =>
    obtain ⟨y, t', rfl⟩ := List.exists_cons_of_ne_nil (h t List.mem_cons_self).ne_nil
    obtain ⟨rest, hrest⟩ := prefix_join (y :: t') ts
    intro x hx
    rw [← hrest, List.cons_append, List.head?_cons] at hx
    cases hx
    exact (h _ List.mem_cons_self).whitespace y List.mem_cons_self

end Text
