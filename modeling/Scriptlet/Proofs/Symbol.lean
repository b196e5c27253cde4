import Mathlib
import Scriptlet.Terminal.Scan
import Scriptlet.Program.Node

/-!
# Symbols: what both readers see of a source

The grammar reads terminals and the forest is built from tokens. A *symbol* is what the two have in
common: a word, a number as written, the contents of a string, or an operator or delimiter as
written. Reserved words are words like any other, and whether a sign stands before an operand or
between two is not part of the symbol.

Precedence is a number here. Atoms have level 0, operators before an operand level 1, and the
operators between operands levels 2 (`**`) to 7 (`||`); assignment, which is no expression, has 8.
-/

namespace Scriptlet

/-! ## §1 Symbols -/

/-- A lexical element apart from its place. -/
inductive Symbol where
  /-- A name or a reserved word. -/
  | word (text : Text)
  /-- A number as written. -/
  | number (text : Text)
  /-- A string, by its contents. -/
  | string (value : Text)
  /-- An operator or delimiter as written. -/
  | mark (text : Text)
  /-- The end of the source. -/
  | ending
  deriving DecidableEq, Repr

/-- The symbol of a terminal. -/
def Terminal.symbol (t : Terminal) : Symbol :=
  match t.kind with
  | .ident => .word t.text
  | .number => .number t.text
  | .string => .string (unquote t.text)
  | .operator | .punct => .mark t.text
  | .ending => .ending

/-- The symbol of a lexeme. -/
def Lexeme.symbol : Lexeme → Symbol
  | .name t => .word t
  | .keyword k => .word k.spelling
  | .number t => .number t
  | .string v _ => .string v
  | .operator op _ => .mark op.spelling
  | .delimiter f s => .mark (Text.ofChar (f.char s))

/-! ## §2 Numerals -/

/-- Characters written like a number: digits, then perhaps a point and more digits. -/
inductive Numeral : List Char → Prop where
  | whole (ds : List Char) (hne : ds ≠ []) (hds : ∀ d ∈ ds, isDecimalDigit d = true) : Numeral ds
  | pointed (ds fs : List Char) (hne : ds ≠ []) (hds : ∀ d ∈ ds, isDecimalDigit d = true)
      (hfs : ∀ d ∈ fs, isDecimalDigit d = true) : Numeral (ds ++ '.' :: fs)

/-- A number starts with a digit. -/
theorem Numeral.head {w : List Char} (hw : Numeral w) :
    ∃ d more, w = d :: more ∧ isDecimalDigit d = true := by
  cases hw with
  | whole _ hne hds =>
    obtain ⟨d, more, rfl⟩ := List.exists_cons_of_ne_nil hne
    exact ⟨d, more, rfl, hds d (by simp)⟩
  | pointed ds fs hne hds hfs =>
    obtain ⟨d, more, rfl⟩ := List.exists_cons_of_ne_nil hne
    exact ⟨d, _, rfl, hds d (by simp)⟩

/-- A text written like a number. -/
def IsNumeral (t : Text) : Prop := ∃ cs, Numeral cs ∧ t = Text.ofChars cs

/-! ## §3 Levels of precedence -/

/-- How loosely an operator binds, from 2 to 7; a number that names no operator has no level. -/
def BinaryOp.level : BinaryOp → Nat
  | .power => 2
  | .multiply | .divide | .modulo => 3
  | .add | .subtract => 4
  | .equal | .notEqual | .less | .lessEqual | .greater | .greaterEqual => 5
  | .and => 6
  | .or => 7
  | .unknown _ => 0

/-- The signs of the operators of a level that group to the left. -/
def signsAt : Nat → List Text
  | 3 => ["*", "/", "%"]
  | 4 => ["+", "-"]
  | 5 => ["==", "!=", "<=", ">=", "<", ">"]
  | 6 => ["&&"]
  | 7 => ["||"]
  | _ => []

end Scriptlet
