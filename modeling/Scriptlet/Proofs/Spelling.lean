import Scriptlet.Proofs.Encoding
import Scriptlet.Proofs.Symbol

/-!
# How symbols are spelled

`Spells cs xs` says that the characters `cs`, which contain no comment, are the symbols `xs` with
white space between some of them. It is a relation of its own beside the two scanners: where a
symbol ends is said by what may follow it, so that each symbol is as long as can be.

## Contents

- §1 classes of characters
- §2 the contents of string literals
- §3 spelling
- §4 the longest operator
-/

namespace Scriptlet

/-! ## §1 Classes of characters -/

/-- The characters of words behind the first one. -/
def isWordChar (c : Char) : Bool := isWordStart c || isDecimalDigit c

/-- The characters that are neither letters nor digits and stand outside string literals. -/
inductive SignClass where
  | operator
  | delimiter
  | quote
  | blank
  deriving DecidableEq

namespace SignClass

/-- The characters of a class. -/
def members : SignClass → List Char
  | .operator => operatorChars
  | .delimiter => ['(', ')', '[', ']', '\x7b', '\x7d']
  | .quote => ['\'', '"', '\x60']
  | .blank => [' ', '\t', '\n', '\r', '\x0c', '\x0b']

variable {k l : SignClass} {c : Char}

/-- No mark of these kinds stands in a word. -/
theorem not_wordChar (h : c ∈ k.members) : isWordChar c = false := by
  have hall : (k.members.all fun c => !isWordChar c) = true := by cases k <;> decide
  simpa using List.all_eq_true.mp hall c h

theorem not_wordStart (h : c ∈ k.members) : isWordStart c = false :=
  (Bool.or_eq_false_iff.mp (not_wordChar h)).1

/-- No mark of these kinds is a digit. -/
theorem not_digit (h : c ∈ k.members) : isDecimalDigit c = false :=
  (Bool.or_eq_false_iff.mp (not_wordChar h)).2

/-- No mark of these kinds is a backslash. -/
theorem ne_backslash (h : c ∈ k.members) : c ≠ '\\' := by
  have hall : (k.members.all fun c => c != '\\') = true := by cases k <;> decide
  simpa using List.all_eq_true.mp hall c h

/-- No character is of two classes. -/
theorem eq_of_mem (hk : c ∈ k.members) (hl : c ∈ l.members) : k = l := by
  have hall : k = l ∨ (k.members.all fun c => !l.members.contains c) = true := by
    cases k <;> cases l <;> decide
  rcases hall with heq | hall
  · exact heq
  · have hnot := List.all_eq_true.mp hall c hk
    simp [hl] at hnot

theorem mem_blank : isSpaceChar c = true ↔ c ∈ blank.members := by
  simp [isSpaceChar, members, or_assoc]

theorem mem_quote : Mark.isQuoteChar c = true ↔ c ∈ quote.members := by
  simp [Mark.isQuoteChar, members, or_assoc]

theorem mem_operator : operatorChars.contains c = true ↔ c ∈ operator.members :=
  List.contains_iff_mem

/-- Every delimiter is a mark of its kind. -/
theorem char_mem_delimiter (f : Family) (s : Side) : f.char s ∈ delimiter.members := by
  cases f <;> cases s <;> decide

/-- The marks of delimiters are the delimiters of the families. -/
theorem mem_delimiter : c ∈ delimiter.members ↔ ∃ f s, c = Family.char f s := by
  constructor
  · intro h
    have hall : (delimiter.members.all fun c =>
        Family.all.any fun f => c == f.char .left || c == f.char .right) = true := by decide
    obtain ⟨f, -, hf⟩ := List.any_eq_true.mp (List.all_eq_true.mp hall c h)
    rcases (Bool.or_eq_true _ _).mp hf with hc | hc
    · exact ⟨f, .left, beq_iff_eq.mp hc⟩
    · exact ⟨f, .right, beq_iff_eq.mp hc⟩
  · rintro ⟨f, s, rfl⟩
    exact char_mem_delimiter f s

/-- A character of one class is in no other. -/
theorem not_mem (h : c ∈ k.members) (hne : k ≠ l) : c ∉ l.members :=
  fun hl => hne (eq_of_mem h hl)

theorem not_blank (h : c ∈ k.members) (hne : k ≠ .blank) : isSpaceChar c = false :=
  Bool.eq_false_iff.mpr fun hb => not_mem h hne (mem_blank.mp hb)

theorem not_quote (h : c ∈ k.members) (hne : k ≠ .quote) : Mark.isQuoteChar c = false :=
  Bool.eq_false_iff.mpr fun hq => not_mem h hne (mem_quote.mp hq)

end SignClass

/-- A character of a word is of none of the other classes. -/
theorem not_mem_of_wordChar {k : SignClass} {c : Char} (h : isWordChar c = true) :
    c ∉ k.members := by
  intro hmem
  rw [SignClass.not_wordChar hmem] at h
  cases h

/-- What stands in words is not blank. -/
theorem not_blank_of_wordChar {c : Char} (h : isWordChar c = true) : isSpaceChar c = false :=
  Bool.eq_false_iff.mpr fun hb => not_mem_of_wordChar h (SignClass.mem_blank.mp hb)

theorem not_quote_of_wordChar {c : Char} (h : isWordChar c = true) :
    Mark.isQuoteChar c = false :=
  Bool.eq_false_iff.mpr fun hq => not_mem_of_wordChar h (SignClass.mem_quote.mp hq)

/-- A word holds no sign of any kind. -/
theorem ne_of_wordChar {k : SignClass} {c d : Char} (h : isWordChar c = true)
    (hd : d ∈ k.members) : c ≠ d := by
  rintro rfl
  exact not_mem_of_wordChar h hd

theorem not_digit_of_wordStart {c : Char} (h : isWordStart c = true) :
    isDecimalDigit c = false := by
  refine Bool.eq_false_iff.mpr fun hd => ?_
  simp only [isWordStart, isDecimalDigit, Bool.or_eq_true, Bool.and_eq_true, decide_eq_true_eq,
    beq_iff_eq] at h hd
  obtain ⟨hlo, hhi⟩ := hd
  have hlo' : 48 ≤ c.toNat := hlo
  have hhi' : c.toNat ≤ 57 := hhi
  -- lower case, upper case or the underscore, all of them behind the digits
  rcases h with (⟨h, _⟩ | ⟨h, _⟩) | rfl
  · have h' : 97 ≤ c.toNat := h
    omega
  · have h' : 65 ≤ c.toNat := h
    omega
  · exact absurd hhi (by decide)

/-! ## §2 The contents of string literals -/

/-- The characters between two quotes, and the characters that they stand for. A backslash stands
for nothing by itself, and a quote behind one does not end the literal. -/
inductive Quoted (q : Char) : List Char → List Char → Prop where
  | nil : Quoted q [] []
  | plain (c : Char) (body value : List Char) (hquote : c ≠ q) (hslash : c ≠ '\\')
      (h : Quoted q body value) : Quoted q (c :: body) (c :: value)
  | escaped (c : Char) (body value : List Char) (h : Quoted q body value) :
      Quoted q ('\\' :: c :: body) (escapedChar c :: value)

/-! ## §3 Spelling -/

/-- A letter or underscore, then letters, digits and underscores. -/
def IsWord (w : List Char) : Prop :=
  ∃ c more, w = c :: more ∧ isWordStart c = true ∧ ∀ d ∈ more, isWordChar d = true

instance : DecidablePred IsWord
  | [] => isFalse (by rintro ⟨c, more, h, _⟩; cases h)
  | c :: more => decidable_of_iff (isWordStart c = true ∧ more.all isWordChar = true)
      ⟨fun h => ⟨c, more, rfl, h.1, List.all_eq_true.mp h.2⟩, by
        rintro ⟨_, _, heq, hstart, hmore⟩
        cases heq
        exact ⟨hstart, List.all_eq_true.mpr hmore⟩⟩

/-- The characters without comments are the symbols, with white space in between. -/
inductive Spells : List Char → List Symbol → Prop where
  | nil : Spells [] []
  | blank (c : Char) (cs : List Char) (xs : List Symbol) (hc : isSpaceChar c = true)
      (h : Spells cs xs) : Spells (c :: cs) xs
  | word (w cs : List Char) (xs : List Symbol) (hw : IsWord w)
      (hstop : ∀ c, cs.head? = some c → isWordChar c = false) (h : Spells cs xs) :
      Spells (w ++ cs) (.word (Text.ofChars w) :: xs)
  | number (w cs : List Char) (xs : List Symbol) (hw : Numeral w)
      (hstop : ∀ c, cs.head? = some c → isDecimalDigit c = false ∧ (c = '.' → '.' ∈ w))
      (h : Spells cs xs) : Spells (w ++ cs) (.number (Text.ofChars w) :: xs)
  | string (q : Char) (body value cs : List Char) (xs : List Symbol)
      (hq : Mark.isQuoteChar q = true) (hbody : Quoted q body value) (h : Spells cs xs) :
      Spells (q :: (body ++ q :: cs)) (.string (Text.ofChars value) :: xs)
  /-- An operator is as long as can be, and a slash opens no comment. -/
  | operator (op : Operator) (cs : List Char) (xs : List Symbol)
      (hop : Operator.leading? (op.chars ++ cs) = some op)
      (hcomment : op = .divide → ∀ c, cs.head? = some c → c ≠ '/' ∧ c ≠ '*') (h : Spells cs xs) :
      Spells (op.chars ++ cs) (.mark op.spelling :: xs)
  | delimiter (f : Family) (s : Side) (cs : List Char) (xs : List Symbol) (h : Spells cs xs) :
      Spells (f.char s :: cs) (.mark (Text.ofChar (f.char s)) :: xs)

/-! ## §4 The longest operator -/

namespace Operator

/-- The table has every operator. -/
theorem mem_table (op : Operator) : op ∈ table := by cases op <;> decide

theorem spelling_injective : Function.Injective spelling := by
  have hall : ∀ op ∈ table, ∀ other ∈ table, op.spelling = other.spelling → op = other := by
    decide
  exact fun op other h => hall op op.mem_table other other.mem_table h

/-- An operator has one character or two, all of the class. -/
theorem chars_ne_nil (op : Operator) : op.chars ≠ [] := by cases op <;> decide

/-- Operators are spelled with the characters of operators. -/
theorem mem_operatorChars {op : Operator} {c : Char} (h : c ∈ op.chars) : c ∈ operatorChars := by
  have hall : (op.chars.all operatorChars.contains) = true := by cases op <;> decide
  exact List.contains_iff_mem.mp (List.all_eq_true.mp hall c h)

/-- The operator that is found first is a prefix of what stands there. -/
theorem prefix_of_leading? {op : Operator} {cs : List Char} (h : leading? cs = some op) :
    op.chars <+: cs := by
  unfold leading? at h
  have hfits := List.find?_some h
  exact List.isPrefixOf_iff_prefix.mp hfits

/-- An operator character is an operator by itself, so some operator starts every run. -/
theorem exists_leading? {c : Char} (hc : c ∈ operatorChars) (cs : List Char) :
    ∃ op, leading? (c :: cs) = some op := by
  have hall : (operatorChars.all fun c => table.any fun op => op.chars == [c]) = true := by decide
  obtain ⟨op, hop, hchars⟩ := List.any_eq_true.mp (List.all_eq_true.mp hall c hc)
  rw [← Option.isSome_iff_exists, leading?, List.find?_isSome]
  exact ⟨op, hop, by simp [beq_iff_eq.mp hchars]⟩

/-- The operator found first is the longest that fits. -/
theorem length_le_of_leading? {op other : Operator} {cs : List Char} (h : leading? cs = some op)
    (hother : other.chars <+: cs) : other.chars.length ≤ op.chars.length := by
  -- in the table longer spellings come first, so an operator that fits stands behind the one found
  have hsorted : table.Pairwise fun a b => b.chars.length ≤ a.chars.length := by decide
  obtain ⟨_, before, behind, htable, hbefore⟩ := List.find?_eq_some_iff_append.mp h
  have hmem := mem_table other
  rw [htable] at hmem hsorted
  rcases List.mem_append.mp hmem with hmem | hmem
  · have hnot := hbefore other hmem
    rw [List.isPrefixOf_iff_prefix.mpr hother] at hnot
    cases hnot
  · rcases List.mem_cons.mp hmem with rfl | hmem
    · omega
    · exact (List.pairwise_cons.mp (List.pairwise_append.mp hsorted).2.1).1 other hmem

end Operator

end Scriptlet
