import Scriptlet.Proofs.Places
import Scriptlet.Proofs.Reduced

/-!
# Tokens are well formed

Whatever comments and escapes a source has, its tokens are what they say they are: names are words
and are reserved exactly if they are keywords, numbers are numerals, operators are in the table, and
delimiters are of their family and side. Signs and steps depend on what stands before them: they
stand before their operand exactly if no operand was completed right before them. Whether one was
depends on how the operator before was marked, so marking goes from left to right, and the proof
follows it token by token (`token_of_split`).

That a run of operator characters starts with no operator is an error that no source has.

## Contents

- §1 well-formed tokens
- §2 lexemes as they are scanned
- §3 marking signs
- §4 whole texts
-/

namespace Scriptlet

/-! ## §1 Well-formed tokens -/

/-- The signs and steps, which stand before their operand or not. -/
def signs : List Text := ["-", "+", "++", "--"]

/-- The subkind that an operator has by itself. -/
def Operator.subkind (op : Operator) : Subkind := (Lexeme.operator op op.fixity).subkind

/-- Behind the tokens an operand is due: there are none, or the last of them completes none. -/
def OperandDue (before : List Token) : Prop :=
  before = [] ∨ ∃ u, before.getLast? = some u ∧ u.lexeme.isOperand = false

/-- The token is what it says it is, behind the tokens before it. -/
structure Token.WellFormed (before : List Token) (t : Token) : Prop where
  index : t.index = before.length
  name : t.lexeme.kind = .name → (∃ w, IsWord w ∧ t.lexeme.value = Text.ofChars w) ∧
    (t.lexeme.subkind = .keyword ↔ isReserved t.lexeme.value = true)
  number : t.lexeme.kind = .number → IsNumeral t.lexeme.value
  operator : t.lexeme.kind = .operator → ∃ op ∈ Operator.table, t.lexeme.value = op.spelling ∧
    (t.lexeme.subkind = op.subkind ∨ t.lexeme.value ∈ signs ∧ t.lexeme.subkind = .leading)
  /-- A sign or step stands before its operand exactly if an operand is due. -/
  sign : t.lexeme.kind = .operator → t.lexeme.value ∈ signs →
    (t.lexeme.subkind = .leading ↔ OperandDue before)
  delimiter : t.lexeme.kind = .delimiter → ∃ f s, t.lexeme.family? = some f ∧
    t.lexeme.subkind = (match s with | .left => .left | .right => .right) ∧
      t.lexeme.value = Text.ofChar (f.char s)
  null : t.lexeme.isNull = true ↔ t.lexeme.kind = .string ∧ t.lexeme.value = []

namespace Operator

variable {op : Operator}

theorem mem_signs : op.spelling ∈ signs ↔ op.isSignOrStep = true := by
  cases op <;> decide

/-- By itself no sign or step stands before its operand. -/
theorem subkind_ne_leading (h : op.isSignOrStep = true) : op.subkind ≠ .leading := by
  revert h
  cases op <;> decide

end Operator

/-! ## §2 Lexemes as they are scanned -/

/-- A word that can be written is a word. -/
theorem Symbol.Writable.isWord {t : Text} (h : (Symbol.word t).Writable) :
    ∃ w, IsWord w ∧ t = Text.ofChars w := by
  cases h with
  | word w hw => exact ⟨w, hw, rfl⟩

/-- A symbol that can be written is written by its characters alone. -/
theorem Symbol.Writable.ofChars_chars {t : Text} {x : Symbol} (hx : x.Writable)
    (h : x = .word t ∨ x = .number t ∨ x = .mark t) : Text.ofChars x.chars = t := by
  have hback (cs : List Char) : Text.ofChars (Text.ofChars cs).chars = Text.ofChars cs := by
    rw [Text.chars_ofChars]
  have hone (c : Char) : Text.ofChars (Text.ofChar c).chars = Text.ofChar c := by
    rw [chars_ofChar, Text.ofChars_cons, Text.ofChars_nil, List.append_nil]
  -- words, numbers and operators are texts of characters, a delimiter is one character
  cases hx with
  | word w => rcases h with h | h | h <;> cases h; exact hback w
  | number w => rcases h with h | h | h <;> cases h; exact hback w
  | string v => rcases h with h | h | h <;> cases h
  | operator op => rcases h with h | h | h <;> cases h; exact hback op.chars
  | delimiter f s => rcases h with h | h | h <;> cases h; exact hone (f.char s)

theorem Keyword.isReserved_spelling (k : Keyword) : isReserved k.spelling = true := by
  cases k <;> decide

namespace Lexeme

variable {x : Lexeme}

/-- A lexeme of the kind of names is a word, and reserved exactly if it is a keyword. -/
theorem Scanned.word (h : x.Scanned) (hkind : x.kind = .name) :
    (∃ w, IsWord w ∧ x.value = Text.ofChars w) ∧
      (x.subkind = .keyword ↔ isReserved x.value = true) := by
  cases x with
  | name t =>
    have hfree : isReserved t = false := h.proper
    exact ⟨h.writable.isWord, by simp [subkind, value, hfree]⟩
  | keyword k =>
    exact ⟨h.writable.isWord, by simp [subkind, value, k.isReserved_spelling]⟩
  | _ => cases hkind

theorem Scanned.isNumeral (h : x.Scanned) (hkind : x.kind = .number) : IsNumeral x.value := by
  cases x with
  | number t => exact h.proper
  | _ => cases hkind

theorem Scanned.fixity {op : Operator} {f : Fixity} (h : (Lexeme.operator op f).Scanned) :
    f = op.fixity := by
  have hlexeme := h.lexeme
  rw [symbol, Symbol.lexeme_operator] at hlexeme
  cases hlexeme
  rfl

/-- The flag that the scanner has set says whether the contents are empty. -/
theorem Scanned.isNull_iff (h : x.Scanned) :
    x.isNull = true ↔ x.kind = .string ∧ x.value = [] := by
  cases x with
  | string v null =>
    have hlexeme := h.lexeme
    rw [symbol, Symbol.lexeme] at hlexeme
    cases hlexeme
    simp [isNull, kind, value]
  | _ => simp [isNull, kind]

end Lexeme

/-! ## §3 Marking signs -/

/-- The lexeme as it is marked: a sign or step stands before its operand unless one was completed
right before. -/
def Lexeme.tagged (afterOperand : Bool) : Lexeme → Lexeme
  | .operator op fixity =>
    .operator op (if op.isSignOrStep && !afterOperand then .leading else fixity)
  | x => x

theorem Lexeme.tagged_of_kind {x : Lexeme} (h : x.kind ≠ .operator) (afterOperand : Bool) :
    x.tagged afterOperand = x := by
  cases x with
  | operator => exact absurd rfl h
  | _ => rfl

theorem markLeading_cons (afterOperand : Bool) (x : Lexeme) (loc : Location) (ps : List Placed) :
    markLeading afterOperand ((x, loc) :: ps) =
      (x.tagged afterOperand, loc) :: markLeading (x.tagged afterOperand).isOperand ps := by
  cases x <;> rfl

/-- The last of the tokens completes an operand; without tokens this is as it was before them. -/
def endsOperand (afterOperand : Bool) (before : List Token) : Bool :=
  (before.getLast?.map (·.lexeme.isOperand)).getD afterOperand

theorem endsOperand_cons (afterOperand : Bool) (u : Token) (before : List Token) :
    endsOperand afterOperand (u :: before) = endsOperand u.lexeme.isOperand before := by
  unfold endsOperand
  rw [List.getLast?_cons]
  cases before.getLast? <;> rfl

theorem operandDue_iff {before : List Token} :
    OperandDue before ↔ endsOperand false before = false := by
  unfold OperandDue endsOperand
  cases hlast : before.getLast? with
  | none => simp [List.getLast?_eq_none_iff.mp hlast]
  | some u =>
    have hne : before ≠ [] := by
      rintro rfl
      cases hlast
    simp [hne]

/-- A token is numbered by the tokens before it, and it is a lexeme that was marked as the last of
these says. -/
theorem token_of_split {i : Nat} {afterOperand : Bool} {ps : List Placed}
    {before behind : List Token} {t : Token}
    (h : numberFrom i (markLeading afterOperand ps) = before ++ t :: behind) :
    t.index = i + before.length ∧
      ∃ p ∈ ps, t.lexeme = p.1.tagged (endsOperand afterOperand before) := by
  induction ps generalizing i afterOperand before with
  | nil => cases before <;> cases h
  | cons p ps ih =>
    obtain ⟨x, loc⟩ := p
    -- the first token is marked by the flag alone, those behind it by the tokens before
    rw [markLeading_cons, numberFrom] at h
    cases before with
    | nil =>
      obtain ⟨rfl, -⟩ := List.cons.inj h
      exact ⟨rfl, (x, loc), List.mem_cons_self, rfl⟩
    | cons u before =>
      obtain ⟨rfl, hmore⟩ := List.cons.inj h
      obtain ⟨hindex, p, hp, hlexeme⟩ := ih hmore
      refine ⟨?_, p, List.mem_cons_of_mem _ hp, ?_⟩
      · rw [hindex, List.length_cons]
        omega
      · rw [endsOperand_cons, hlexeme]

section

variable {before : List Token} {t : Token} {x : Lexeme}

/-- What is no operator is well formed as it was scanned. -/
theorem Token.wellFormed_of_scanned (hindex : t.index = before.length) (hx : t.lexeme.Scanned)
    (hkind : t.lexeme.kind ≠ .operator) : t.WellFormed before where
  index := hindex
  name := hx.word
  number := hx.isNumeral
  operator h := absurd h hkind
  sign h := absurd h hkind
  -- only a delimiter is of that kind
  delimiter h := by
    cases hlexeme : t.lexeme with
    | delimiter f s => exact ⟨f, s, rfl, by cases s <;> rfl, rfl⟩
    | _ =>
      rw [hlexeme] at h
      cases h
  null := hx.isNull_iff

/-- An operator is well formed if it was marked as the tokens before it say. -/
theorem Token.wellFormed_of_operator {op : Operator} (hindex : t.index = before.length)
    (ht : t.lexeme = (Lexeme.operator op op.fixity).tagged (endsOperand false before)) :
    t.WellFormed before := by
  rw [Lexeme.tagged] at ht
  have hkind : t.lexeme.kind = .operator := by rw [ht]; rfl
  have hvalue : t.lexeme.value = op.spelling := by rw [ht]; rfl
  have hother {k : Kind} (h : t.lexeme.kind = k) (hk : k ≠ .operator) {P : Prop} : P :=
    absurd (h.symm.trans hkind) hk
  -- the sign is marked as leading exactly where no operand ends before it
  have hsubkind : t.lexeme.subkind =
      if op.isSignOrStep = true ∧ endsOperand false before = false then .leading
      else op.subkind := by
    rw [ht]
    cases op.isSignOrStep <;> cases endsOperand false before <;> rfl
  have hnull : t.lexeme.isNull = true ↔ t.lexeme.kind = .string ∧ t.lexeme.value = [] := by
    simp [ht, Lexeme.isNull, Lexeme.kind]
  refine ⟨hindex, fun h => hother h (by simp), fun h => hother h (by simp), fun _ => ?_,
    fun _ hsign => ?_, fun h => hother h (by simp), hnull⟩
  · refine ⟨op, op.mem_table, hvalue, ?_⟩
    rw [hsubkind, hvalue, Operator.mem_signs]
    split
    · next hleading => exact .inr ⟨hleading.1, rfl⟩
    · exact .inl rfl
  · rw [hvalue, Operator.mem_signs] at hsign
    rw [hsubkind, operandDue_iff]
    split
    · next hleading => exact ⟨fun _ => hleading.2, fun _ => rfl⟩
    · next hother =>
      exact ⟨fun h => absurd h (Operator.subkind_ne_leading hsign),
        fun hdue => absurd ⟨hsign, hdue⟩ hother⟩

/-- Marking makes what was scanned well formed. -/
theorem Token.wellFormed_of_tagged (hindex : t.index = before.length) (hx : x.Scanned)
    (ht : t.lexeme = x.tagged (endsOperand false before)) : t.WellFormed before := by
  by_cases hkind : x.kind = .operator
  · cases x with
    | operator op fixity =>
      rw [hx.fixity] at ht
      exact wellFormed_of_operator hindex ht
    | _ => cases hkind
  · rw [Lexeme.tagged_of_kind hkind] at ht
    exact wellFormed_of_scanned hindex (ht ▸ hx) (ht ▸ hkind)

end

/-! ## §4 Whole texts -/

/-- **Tokens are well formed**: each is what it says it is behind the tokens before it. And no
source is refused because operator characters start with no operator. -/
theorem tokenize_wellFormed (source : Text) :
    (∀ tokens, tokenize source = .ok tokens →
        ∀ before (t : Token) behind, tokens = before ++ t :: behind → t.WellFormed before) ∧
      ∀ e, tokenize source = .error e → ∀ rest, e.fault ≠ .unknownOperator rest := by
  constructor
  · intro tokens h before t behind hsplit
    obtain ⟨marks, -, h⟩ := bind_eq_ok.mp h
    obtain ⟨kept, -, h⟩ := bind_eq_ok.mp h
    obtain ⟨ps, hps, h⟩ := bind_eq_ok.mp h
    cases h
    -- the token was marked behind those before it, and is otherwise as it was scanned
    obtain ⟨hindex, p, hp, hlexeme⟩ := token_of_split hsplit
    rw [Nat.zero_add] at hindex
    exact Token.wellFormed_of_tagged hindex (scanned_of_scanMarks hps p hp) hlexeme
  · intro e he
    rcases tokenize_cases source with ⟨tokens, starts, htokens, -, -⟩ | ⟨e', he', hsound⟩
    · rw [he] at htokens
      cases htokens
    · obtain rfl : e = e' := Except.error.inj (he.symm.trans he')
      exact hsound.fault

/-- Of two signs in a row the second stands before its operand. -/
theorem tokenize_wellFormed_signs :
    let source : Text := "x - -y++"
    let stray : Text := "+ $"
    (∃ before, ∃ t : Token, ∃ behind, tokenize source = .ok (before ++ t :: behind) ∧
        t.lexeme = .operator .minus .leading ∧ t.WellFormed before) ∧
      ∃ e, tokenize stray = .error e ∧ ∀ rest, e.fault ≠ .unknownOperator rest := by
  intro source stray
  have hsource : tokenize source = .ok ([⟨.name "x", 0, 0, ⟨0, 1, 1⟩⟩,
      ⟨.operator .minus .dual, 1, 0, ⟨2, 1, 3⟩⟩] ++ ⟨.operator .minus .leading, 2, 0, ⟨4, 1, 5⟩⟩ ::
      [⟨.name "y", 3, 0, ⟨5, 1, 6⟩⟩, ⟨.operator .increment .trailing, 4, 0, ⟨6, 1, 7⟩⟩]) := by
    decide +kernel
  obtain ⟨e, he⟩ := exists_eq_error (show (tokenize stray).isOk = false by decide +kernel)
  exact ⟨⟨_, _, _, hsource, rfl, (tokenize_wellFormed source).1 _ hsource _ _ _ rfl⟩,
    e, he, (tokenize_wellFormed stray).2 e he⟩

end Scriptlet
