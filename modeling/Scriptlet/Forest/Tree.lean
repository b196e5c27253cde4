import Scriptlet.Token.Lexeme

/-!
# Trees over tokens

Between tokens and programs stands the *forest*: a list of trees whose leaves are tokens, whose
groups are the contents of matched delimiters, and whose inner nodes are constructs recognised by
precedence. Each construct has one operand or two by its form.

## Contents

- §1 precedence tiers and categories of constructs
- §2 trees
- §3 how trees are shown
- §4 sameness and depth
-/

namespace Scriptlet

/-! ## §1 Tiers and categories -/

/-- The tiers of operators between operands, tightest first. -/
inductive Tier where
  | exponent
  | multiplicative
  | additive
  | comparison
  | logicalAnd
  | logicalOr
  | assignment
  deriving DecidableEq, Repr

namespace Tier

/-- The tiers, tightest first. -/
def all : List Tier :=
  [.exponent, .multiplicative, .additive, .comparison, .logicalAnd, .logicalOr, .assignment]

/-- Operators of the tier group to the right. -/
def groupsRight : Tier → Bool
  | .exponent | .assignment => true
  | _ => false

end Tier

/-- The tier of an operator between operands. -/
def Operator.tier? : Operator → Option Tier
  | .power => some .exponent
  | .times | .divide | .modulo => some .multiplicative
  | .plus | .minus => some .additive
  | .equal | .notEqual | .less | .greater | .lessEqual | .greaterEqual => some .comparison
  | .logicalAnd => some .logicalAnd
  | .logicalOr => some .logicalOr
  | .assign | .addAssign | .subtractAssign | .multiplyAssign | .divideAssign | .moduloAssign =>
    some .assignment
  | _ => none

/-- What a construct is called in messages. -/
inductive Category where
  | member
  | index
  | call
  | keyword
  | function
  | trailing
  | leading
  | between (tier : Tier)
  /-- Constructs that programs cannot contain. -/
  | unsupported
  deriving DecidableEq, Repr

namespace Category

/-- The categories in order. -/
def all : List Category :=
  [.member, .index, .call, .keyword, .function, .trailing, .leading] ++ Tier.all.map .between
    ++ [.unsupported]

/-- The name of a category. -/
def name : Category → Text
  | .member => "member-access"
  | .index => "computed-member-access"
  | .call => "function-call"
  | .keyword => "keyword-application"
  | .function => "function-definition"
  | .trailing => "postfix"
  | .leading => "prefix"
  | .between .exponent => "exponent"
  | .between .multiplicative => "multiplicative"
  | .between .additive => "additive"
  | .between .comparison => "comparison"
  | .between .logicalAnd => "logical-and"
  | .between .logicalOr => "logical-or"
  | .between .assignment => "assignment"
  | .unsupported => "unsupported"

/-- The category holds operators between two operands. -/
def isBetween : Category → Bool
  | .between _ => true
  | _ => false

end Category

/-! ## §2 Trees -/

/-- Constructs with one operand. -/
inductive UnaryForm where
  /-- A reserved word applied to what follows. -/
  | keyword (word : Keyword)
  /-- An operator behind its operand. -/
  | trailing (op : Operator)
  /-- An operator before its operand. -/
  | leading (op : Operator)
  deriving DecidableEq, Repr

/-- Constructs with two operands. -/
inductive BinaryForm where
  /-- A property of an object, `a.b`. -/
  | member
  /-- A computed property, `a[b]`. -/
  | index
  /-- A call, `a(b)`. -/
  | call
  /-- Parameters and body, `(a){b}`. -/
  | function
  /-- An operator of a tier between its operands. -/
  | between (tier : Tier) (op : Operator)
  deriving DecidableEq, Repr

namespace UnaryForm

/-- The category of a form. -/
def category : UnaryForm → Category
  | .keyword _ => .keyword
  | .trailing _ => .trailing
  | .leading _ => .leading

/-- The symbol of a form. -/
def symbol : UnaryForm → Text
  | .keyword k => k.spelling
  | .trailing op | .leading op => op.spelling

end UnaryForm

namespace BinaryForm

/-- The category of a form. -/
def category : BinaryForm → Category
  | .member => .member
  | .index => .index
  | .call => .call
  | .function => .function
  | .between tier _ => .between tier

/-- The symbol of a form. -/
def symbol : BinaryForm → Text
  | .member => "."
  | .index => "[]"
  | .call => "call"
  | .function => "function"
  | .between _ op => op.spelling

end BinaryForm

/-- A tree of a forest. -/
inductive Tree where
  /-- A token that belongs to no construct yet. -/
  | leaf (token : Token)
  /-- The contents of a matched pair of delimiters, at the opening one. -/
  | group (family : Family) (children : List Tree) (loc : Location)
  | unary (form : UnaryForm) (operand : Tree) (loc : Location)
  | binary (form : BinaryForm) (left right : Tree) (loc : Location)

namespace Tree

/-- The place of a tree. -/
def loc : Tree → Location
  | .leaf t => t.loc
  | .group _ _ l | .unary _ _ l | .binary _ _ _ l => l

/-- The lexeme of a leaf. -/
def lexeme? : Tree → Option Lexeme
  | .leaf t => some t.lexeme
  | _ => none

/-- The name that a leaf holds. -/
def name? : Tree → Option Text
  | .leaf ⟨.name t, _, _, _⟩ => some t
  | _ => none

/-- The tree is a name that is not reserved. -/
def isName (t : Tree) : Bool := t.name?.isSome

/-- The tree is a group of the family. -/
def isGroup (f : Family) : Tree → Bool
  | .group g _ _ => f == g
  | _ => false

/-- The tree is a leaf of the operator, whatever its fixity. -/
def isOperator (op : Operator) : Tree → Bool
  | .leaf ⟨.operator o _, _, _, _⟩ => o == op
  | _ => false

/-- The operator of a leaf with the fixity, and its place. -/
def operator? (fixity : Fixity) : Tree → Option (Operator × Location)
  | .leaf ⟨.operator op f, _, _, l⟩ => if f == fixity then some (op, l) else none
  | _ => none

/-- The operator of a leaf that stands between operands of the tier, and its place. -/
def tierOperator? (tier : Tier) (t : Tree) : Option (Operator × Location) :=
  (t.operator? .dual).filter fun (op, _) => op.tier? == some tier

/-- The tree can be an operand. -/
def isOperand : Tree → Bool
  | .leaf ⟨.name _, _, _, _⟩ | .leaf ⟨.number _, _, _, _⟩ | .leaf ⟨.string _ _, _, _, _⟩ => true
  | .leaf _ => false
  | .group _ _ _ | .unary _ _ _ | .binary _ _ _ _ => true

/-- The tree can be indexed or called. -/
def isAccessor : Tree → Bool
  | .leaf ⟨.name _, _, _, _⟩ => true
  | .binary .member _ _ _ | .binary .index _ _ _ | .binary .call _ _ _ => true
  | _ => false

/-! ## §3 How trees are shown -/

/-- A leaf as shown: strings in quotes, all else as written. -/
def shownLexeme : Lexeme → Text
  | .string t _ => t.quoted
  | x => x.value

mutual

/-- The tree in one line: constructs in parentheses with the symbol first, except behind
an operand. -/
def shown : Tree → Text
  | .leaf t => shownLexeme t.lexeme
  | .group f cs _ => f.opening ++ Text.words (shownAll cs) ++ f.closing
  | .unary (.trailing op) x _ => "(" ++ x.shown ++ " " ++ op.spelling ++ ")"
  | .unary form x _ => "(" ++ form.symbol ++ " " ++ x.shown ++ ")"
  | .binary form x y _ => "(" ++ form.symbol ++ " " ++ x.shown ++ " " ++ y.shown ++ ")"

/-- The trees each in one line. -/
def shownAll : List Tree → List Text
  | [] => []
  | t :: ts => t.shown :: shownAll ts

end

/-! ## §4 Sameness and depth -/

mutual

/-- The trees differ in places, numbering and levels only. -/
def same : Tree → Tree → Bool
  | .leaf t, .leaf u => t.lexeme == u.lexeme
  | .group f cs _, .group g ds _ => f == g && sameAll cs ds
  | .unary f x _, .unary g y _ => f == g && x.same y
  | .binary f x y _, .binary g x' y' _ => f == g && x.same x' && y.same y'
  | _, _ => false

/-- The lists are equally long and their trees pairwise the same. -/
def sameAll : List Tree → List Tree → Bool
  | [], [] => true
  | t :: ts, u :: us => t.same u && sameAll ts us
  | _, _ => false

end

mutual

/-- The greatest number of groups around a place in the tree. -/
def depth : Tree → Nat
  | .leaf _ => 0
  | .group _ cs _ => 1 + depthAll cs
  | .unary _ x _ => x.depth
  | .binary _ x y _ => max x.depth y.depth

/-- The greatest depth of the trees. -/
def depthAll : List Tree → Nat
  | [] => 0
  | t :: ts => max t.depth (depthAll ts)

end

end Tree

/-- A forest in one line. -/
def shownForest (ts : List Tree) : Text := Text.words (Tree.shownAll ts)

end Scriptlet
