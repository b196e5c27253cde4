import Scriptlet.Forest.Lower

/-!
# Forests without guarantees

The constructs of a forest have one operand or two by their form, and their symbols belong to their
tiers by the way they are put together. Nothing of that is visible in a *loose tree*: its constructs
have any symbol and any number of operands, and where a tree should be there may be nothing. This is
how a forest looks to a program that finds operands by counting and takes it for granted that they
are there.

`LooseTree.isSound` says what may be taken for granted, everywhere in a tree. `LooseTree.lower` is
lowering by counting. Where it asks for something that is not there it crashes, which is not the
same as refusing a forest.

## Contents

- §1 loose trees
- §2 soundness
- §3 crashes and refusals
- §4 expressions
- §5 statements
-/

namespace Scriptlet

/-! ## §1 Loose trees -/

/-- A tree of a forest without any guarantees. -/
inductive LooseTree where
  /-- Nothing where a tree should be. -/
  | nothing
  | leaf (token : Token)
  | group (family : Family) (children : List LooseTree) (loc : Location)
  | construct (category : Category) (symbol : Text) (operands : List LooseTree) (loc : Location)

mutual

/-- The tree without its guarantees. -/
def Tree.loose : Tree → LooseTree
  | .leaf t => .leaf t
  | .group f cs loc => .group f (looseAll cs) loc
  | .unary form x loc => .construct form.category form.symbol [x.loose] loc
  | .binary form x y loc => .construct form.category form.symbol [x.loose, y.loose] loc

/-- The trees without their guarantees. -/
def Tree.looseAll : List Tree → List LooseTree
  | [] => []
  | t :: ts => t.loose :: looseAll ts

end

namespace LooseTree

mutual

/-- The tree in one line. -/
def shown : LooseTree → Text
  | .nothing => "<nil>"
  | .leaf t => Tree.shownLexeme t.lexeme
  | .group f cs _ => f.opening ++ Text.words (shownAll cs) ++ f.closing
  | .construct .trailing symbol xs _ => "(" ++ Text.words (shownAll xs) ++ " " ++ symbol ++ ")"
  | .construct _ symbol xs _ => "(" ++ symbol ++ " " ++ Text.words (shownAll xs) ++ ")"

/-- The trees each in one line. -/
def shownAll : List LooseTree → List Text
  | [] => []
  | t :: ts => t.shown :: shownAll ts

end

/-- The tree can be an operand. -/
def isOperand : LooseTree → Bool
  | .leaf ⟨.name _, _, _, _⟩ | .leaf ⟨.number _, _, _, _⟩ | .leaf ⟨.string _ _, _, _, _⟩ => true
  | .leaf _ | .nothing => false
  | .group _ _ _ | .construct _ _ _ _ => true

/-- The tree is a group of the family. -/
def isGroup (f : Family) : LooseTree → Bool
  | .group g _ _ => f == g
  | _ => false

/-- The tree is a leaf of the operator, whatever its fixity. -/
def isOperator (op : Operator) : LooseTree → Bool
  | .leaf ⟨.operator o _, _, _, _⟩ => o == op
  | _ => false

/-- The name that a leaf holds, and its place. -/
def name? : LooseTree → Option (Text × Location)
  | .leaf ⟨.name t, _, _, loc⟩ => some (t, loc)
  | _ => none

end LooseTree

/-! ## §2 Soundness -/

/-- The symbols of the operators of a tier. -/
def Tier.symbols : Tier → List Text
  | .exponent => ["**"]
  | .multiplicative => ["*", "/", "%"]
  | .additive => ["+", "-"]
  | .comparison => ["==", "!=", "<", ">", "<=", ">="]
  | .logicalAnd => ["&&"]
  | .logicalOr => ["||"]
  | .assignment => ["=", "+=", "-=", "*=", "/=", "%="]

/-- The number of operands of a construct, if there are such constructs. -/
def Category.arity? : Category → Option Nat
  | .member | .index | .call | .function | .between _ => some 2
  | .keyword | .trailing | .leading => some 1
  | .unsupported => none

/-- The lexeme may stand in a reduced forest by itself: it is no reserved word, no point, and no
operator that is applied to something. -/
def Lexeme.isLeftover : Lexeme → Bool
  | .keyword _ => false
  | .operator .dot _ | .operator _ .leading | .operator _ .trailing => false
  | .operator op .dual => Tier.all.all fun tier => !tier.symbols.contains op.spelling
  | _ => true

/-- The construct has the operands it should have and a symbol it may have. -/
def Category.admits (category : Category) (symbol : Text) (operands : List LooseTree) : Bool :=
  category.arity? == some operands.length && operands.all LooseTree.isOperand &&
    match category, operands with
    | .between tier, _ => tier.symbols.contains symbol
    | .call, [_, arguments] => arguments.isGroup .parenthesis
    | _, _ => true

namespace LooseTree

mutual

/-- Everywhere in the tree there are only leaves that may be left over, and constructs with the
operands and symbols they should have. -/
def isSound : LooseTree → Bool
  | .nothing => false
  | .leaf t => t.lexeme.isLeftover
  | .group _ cs _ => allSound cs
  | .construct category symbol xs _ => category.admits symbol xs && allSound xs

/-- All of the trees are sound. -/
def allSound : List LooseTree → Bool
  | [] => true
  | t :: ts => t.isSound && allSound ts

end

/-! ## §3 Crashes and refusals -/

/-- How a program fails that asks a forest for what it does not have. -/
inductive Crash where
  /-- A construct has no operand of the number. -/
  | noOperand
  /-- What should be a group is none. -/
  | notGroup
  /-- An empty symbol cannot be shortened. -/
  | emptySymbol
  /-- There is no tree. -/
  | nothing
  deriving DecidableEq, Repr

end LooseTree

/-- An error of a construct in words. -/
structure Refusal where
  category : Category
  /-- The symbol of the construct; may be empty. -/
  symbol : Text
  message : Text
  loc : Location
  deriving DecidableEq, Repr

/-- The error in words. -/
def ConstructError.inWords (e : ConstructError) : Refusal :=
  ⟨e.category, e.symbol, e.fault.message, e.loc⟩

namespace LooseTree

/-- Lowering may crash. If it does not, it may be refused. -/
abbrev Lowering := ExceptT Refusal (Except Crash)

/-- Lowering crashes. -/
def crash {α : Type} (c : Crash) : Lowering α := ExceptT.lift (.error c)

/-- Lowering goes on with what is not about the shape of the forest. -/
def settled {α : Type} (result : Except ConstructError α) : Lowering α :=
  ExceptT.mk (.ok (result.mapError ConstructError.inWords))

/-- The place of a tree. -/
def loc : LooseTree → Lowering Location
  | .nothing => crash .nothing
  | .leaf t => return t.loc
  | .group _ _ loc | .construct _ _ _ loc => return loc

/-- Refuses a tree as no part of a program. -/
def refuse {α : Type} (t : LooseTree) (message : Text) : Lowering α := do
  let loc ← t.loc
  throw ⟨.unsupported, [], message, loc⟩

/-- The operand of a number. -/
def operand : List LooseTree → Nat → Lowering LooseTree
  | [], _ => crash .noOperand
  | x :: _, 0 => return x
  | _ :: xs, n + 1 => operand xs n

/-! ## §4 Expressions -/

mutual

/-- The expression of a tree. -/
def lowerExpr : LooseTree → Lowering Node
  | .nothing => crash .nothing
  | .leaf t => settled (lowerToken t)
  | .group .parenthesis [inner] _ => lowerExpr inner
  | .group f cs loc =>
    refuse (.group f cs loc) (ConstructFault.unexpected (LooseTree.group f cs loc).shown).message
  | .construct category symbol xs loc => do
    let whole := LooseTree.construct category symbol xs loc
    let unsupported : Lowering Node :=
      whole.refuse (ConstructFault.notSupported category whole.shown).message
    match category with
    | .leading => do
      let x ← lowerOperand xs 0
      if symbol = "-" then return .unary .negate x loc
      else if symbol = "!" then return .unary .not x loc
      else if symbol = "+" then return x
      else unsupported
    | .call => do
      let callee ← operand xs 0
      match callee.name? with
      | some (name, nameLoc) => do
        let args ← lowerGroup name loc xs 1
        return Node.ofCall name args nameLoc
      | none => whole.refuse (ConstructFault.cannotCall callee.shown).message
    | .between .assignment => unsupported
    | .between _ =>
      match BinaryOp.ofSymbol? symbol with
      | some op => do
        let left ← lowerOperand xs 0
        let right ← lowerOperand xs 1
        return .binary op left right loc
      | none => unsupported
    | _ => unsupported

/-- The expression of the operand of a number. -/
def lowerOperand : List LooseTree → Nat → Lowering Node
  | [], _ => crash .noOperand
  | x :: _, 0 => lowerExpr x
  | _ :: xs, n + 1 => lowerOperand xs n

/-- The arguments in the operand of a number, which is a group. -/
def lowerGroup (callee : Text) (loc : Location) : List LooseTree → Nat → Lowering (List Node)
  | [], _ => crash .noOperand
  | .group _ [] _ :: _, 0 => return []
  | .group _ (c :: cs) _ :: _, 0 => lowerArgs callee loc (c :: cs)
  | _ :: _, 0 => crash .notGroup
  | _ :: xs, n + 1 => lowerGroup callee loc xs n

/-- Arguments: single expressions with commas between them. -/
def lowerArgs (callee : Text) (loc : Location) : List LooseTree → Lowering (List Node)
  | [] => throw ⟨.call, callee, ConstructFault.malformedArguments.message, loc⟩
  | [t] => do
    if t.isOperator .comma then
      throw ⟨.call, callee, ConstructFault.malformedArguments.message, loc⟩
    else
      let x ← lowerExpr t
      return [x]
  | t :: sep :: rest => do
    if t.isOperator .comma || !sep.isOperator .comma then
      throw ⟨.call, callee, ConstructFault.malformedArguments.message, loc⟩
    else
      let x ← lowerExpr t
      let xs ← lowerArgs callee loc rest
      return x :: xs

end

/-! ## §5 Statements -/

/-- A reserved word applied at the first operand of a chain of operators, its place, and the chain
without it. -/
def liftKeyword : LooseTree → Lowering (Option (Text × Location × LooseTree))
  | .construct .keyword symbol xs loc => do
    let x ← operand xs 0
    return some (symbol, loc, x)
  | .construct (.between _) _ [] _ => crash .noOperand
  | .construct (.between tier) symbol (x :: xs) loc => do
    match ← liftKeyword x with
    | some (word, at_, x') => do
      let y ← operand (x :: xs) 1
      return some (word, at_, .construct (.between tier) symbol [x', y] loc)
    | none => return none
  | _ => return none

/-- An assignment; a compound one has the sign of its operation in front of the assignment sign. -/
def lowerAssignment (symbol : Text) (xs : List LooseTree) (loc : Location) : Lowering Node := do
  let whole := LooseTree.construct (.between .assignment) symbol xs loc
  let target ← operand xs 0
  match target.name? with
  | some (name, nameLoc) => do
    let x ← lowerOperand xs 1
    if symbol = "=" then return .assign name x loc
    else if symbol.isEmpty then crash .emptySymbol
    else
      match BinaryOp.ofSymbol? symbol.dropLast with
      | some op => return .assign name (.binary op (.ident name nameLoc) x loc) loc
      | none => whole.refuse ("unknown assignment operator " ++ whole.shown)
  | none => whole.refuse (ConstructFault.cannotAssign target.shown).message

/-- A declaration: a name, the assignment sign and a value. -/
def lowerDeclaration (whole : LooseTree) (k : Keyword) (at_ : Location) (rest : LooseTree) :
    Lowering Node :=
  let misformed : Lowering Node := whole.refuse (ConstructFault.declarationForm k).message
  match rest with
  | .construct (.between .assignment) symbol xs _ =>
    if symbol = "=" then do
      let target ← operand xs 0
      match target.name? with
      | some (name, _) => do
        let x ← lowerOperand xs 1
        return .declare name x at_
      | none => misformed
    else misformed
  | _ => misformed

/-- A statement other than braces. -/
def lowerSimple (t : LooseTree) : Lowering Node := do
  match ← liftKeyword t with
  | some (word, at_, rest) =>
    if word = Keyword.returnWord.spelling then do
      let x ← lowerExpr rest
      return .giveBack x at_
    else if word = Keyword.letWord.spelling then lowerDeclaration t .letWord at_ rest
    else if word = Keyword.varWord.spelling then lowerDeclaration t .varWord at_ rest
    else t.refuse ("keyword " ++ word ++ " is not supported here")
  | none =>
    match t with
    | .construct (.between .assignment) symbol xs loc => lowerAssignment symbol xs loc
    | _ => lowerExpr t

mutual

/-- A statement. -/
def lowerStatement : LooseTree → Lowering Node
  | .group .brace cs loc => do
    let stmts ← lowerStatements cs
    return .block stmts loc
  | t => lowerSimple t

/-- Statements with semicolons between them; empty ones are passed over. -/
def lowerStatements : List LooseTree → Lowering (List Node)
  | [] => return []
  | [t] => do
    if t.isOperator .semicolon then return []
    else
      let x ← lowerStatement t
      return [x]
  | t :: next :: rest => do
    if t.isOperator .semicolon then lowerStatements (next :: rest)
    else if next.isOperator .semicolon then
      let x ← lowerStatement t
      let xs ← lowerStatements (next :: rest)
      return x :: xs
    else next.refuse (ConstructFault.juxtaposed next.shown t.shown).message

end

/-- The program of a forest. It starts where its first tree does. -/
def lower (ts : List LooseTree) : Lowering Program := do
  let stmts ← lowerStatements ts
  match ts with
  | [] => return ⟨stmts, .nowhere⟩
  | t :: _ => do
    let loc ← t.loc
    return ⟨stmts, loc⟩

end LooseTree

end Scriptlet
