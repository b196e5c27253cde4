import Scriptlet.Forest.Reduce
import Scriptlet.Program.Node
import Scriptlet.Decimal.Reading

/-!
# From reduced forests to programs

Statements are separated by semicolons, at the top and inside braces, and each is exactly one tree.
A reserved word that was applied to the first operand of a chain of operators belongs to the whole
chain, so `return a + b` returns the sum. Only the constructs that programs have are let through.
-/

namespace Scriptlet

/-! ## §1 Expressions -/

/-- The operator between operands that an operator of a program tree stands for. -/
def Operator.toBinary? : Operator → Option BinaryOp
  | .plus => some .add
  | .minus => some .subtract
  | .times => some .multiply
  | .divide => some .divide
  | .modulo => some .modulo
  | .power => some .power
  | .equal => some .equal
  | .notEqual => some .notEqual
  | .less => some .less
  | .lessEqual => some .lessEqual
  | .greater => some .greater
  | .greaterEqual => some .greaterEqual
  | .logicalAnd => some .and
  | .logicalOr => some .or
  | _ => none

/-- The operation that a compound assignment performs. -/
def Operator.compound? : Operator → Option BinaryOp
  | .addAssign => some .add
  | .subtractAssign => some .subtract
  | .multiplyAssign => some .multiply
  | .divideAssign => some .divide
  | .moduloAssign => some .modulo
  | _ => none

/-- Refuses a tree as no part of a program. -/
def Tree.refuse {α : Type} (t : Tree) (fault : ConstructFault) : Except ConstructError α :=
  .error ⟨.unsupported, [], fault, t.loc⟩

/-- Refuses a construct by its category. -/
def Tree.refuseConstruct {α : Type} (t : Tree) (category : Category) : Except ConstructError α :=
  t.refuse (.notSupported category t.shown)

/-- The expression of a token. -/
def lowerToken (t : Token) : Except ConstructError Node :=
  match t.lexeme with
  | .number text =>
    match Decimal.read text with
    | .ok v => .ok (.number v t.loc)
    | .error _ => (Tree.leaf t).refuse (.invalidNumber text)
  | .string v _ => .ok (.string v t.loc)
  | .name n => .ok (.ident n t.loc)
  | _ => (Tree.leaf t).refuse (.unexpected (Tree.leaf t).shown)

mutual

/-- The expression of a tree. -/
def lowerExpr : Tree → Except ConstructError Node
  | .leaf t => lowerToken t
  | .group .parenthesis [inner] _ => lowerExpr inner
  | .group f cs loc => (Tree.group f cs loc).refuse (.unexpected (Tree.group f cs loc).shown)
  | .unary (.leading op) x loc => do
    let operand ← lowerExpr x
    match op with
    | .minus => return .unary .negate operand loc
    | .bang => return .unary .not operand loc
    | .plus => return operand
    | _ => (Tree.unary (.leading op) x loc).refuseConstruct .leading
  | .unary form x loc => (Tree.unary form x loc).refuseConstruct form.category
  | .binary .call callee (.group f cs at_) loc =>
    match callee with
    | .leaf ⟨.name name, _, _, nameLoc⟩ =>
      match cs with
      | [] => .ok (Node.ofCall name [] nameLoc)
      | c :: more => do
        let args ← lowerArgs name loc (c :: more)
        return Node.ofCall name args nameLoc
    | _ =>
      (Tree.binary .call callee (.group f cs at_) loc).refuse (.cannotCall callee.shown)
  | .binary (.between tier op) x y loc =>
    match op.toBinary? with
    | some bin => do
      let left ← lowerExpr x
      let right ← lowerExpr y
      return .binary bin left right loc
    | none => (Tree.binary (.between tier op) x y loc).refuseConstruct (.between tier)
  | .binary form x y loc => (Tree.binary form x y loc).refuseConstruct form.category

/-- Arguments: single expressions with commas between them. -/
def lowerArgs (callee : Text) (loc : Location) : List Tree → Except ConstructError (List Node)
  | [] => .error ⟨.call, callee, .malformedArguments, loc⟩
  | [t] => do
    if t.isOperator .comma then .error ⟨.call, callee, .malformedArguments, loc⟩
    else
      let x ← lowerExpr t
      return [x]
  | t :: sep :: rest => do
    if t.isOperator .comma || !sep.isOperator .comma then
      .error ⟨.call, callee, .malformedArguments, loc⟩
    else
      let x ← lowerExpr t
      let xs ← lowerArgs callee loc rest
      return x :: xs

end

/-! ## §2 Statements -/

/-- A reserved word applied at the first operand of a chain of operators, its place, and the chain
without it. -/
def liftKeyword : Tree → Option (Keyword × Location × Tree)
  | .unary (.keyword k) x loc => some (k, loc, x)
  | .binary (.between tier op) x y loc =>
    (liftKeyword x).map fun (k, at_, x') => (k, at_, .binary (.between tier op) x' y loc)
  | _ => none

/-- An assignment; a compound one stores the result of the operation. -/
def lowerAssignment (op : Operator) (target value : Tree) (loc : Location) :
    Except ConstructError Node :=
  match target with
  | .leaf ⟨.name name, _, _, nameLoc⟩ => do
    let x ← lowerExpr value
    match op.compound? with
    | some bin => return .assign name (.binary bin (.ident name nameLoc) x loc) loc
    | none => return .assign name x loc
  | _ =>
    (Tree.binary (.between .assignment op) target value loc).refuse (.cannotAssign target.shown)

/-- A declaration: a name, the assignment sign and a value. -/
def lowerDeclaration (whole : Tree) (k : Keyword) (at_ : Location) (rest : Tree) :
    Except ConstructError Node :=
  match rest with
  | .binary (.between .assignment .assign) (.leaf ⟨.name name, _, _, _⟩) value _ => do
    let x ← lowerExpr value
    return .declare name x at_
  | _ => whole.refuse (.declarationForm k)

/-- A statement other than braces. -/
def lowerSimple (t : Tree) : Except ConstructError Node :=
  match liftKeyword t with
  | some (.returnWord, at_, rest) => do
    let x ← lowerExpr rest
    return .giveBack x at_
  | some (.letWord, at_, rest) => lowerDeclaration t .letWord at_ rest
  | some (.varWord, at_, rest) => lowerDeclaration t .varWord at_ rest
  | some (k, _, _) => t.refuse (.keywordHere k)
  | none =>
    match t with
    | .binary (.between .assignment op) target value loc => lowerAssignment op target value loc
    | _ => lowerExpr t

mutual

/-- A statement. -/
def lowerStatement : Tree → Except ConstructError Node
  | .group .brace cs loc => do
    let stmts ← lowerStatements cs
    return .block stmts loc
  | t => lowerSimple t

/-- Statements with semicolons between them; empty ones are passed over. -/
def lowerStatements : List Tree → Except ConstructError (List Node)
  | [] => .ok []
  | [t] => do
    if t.isOperator .semicolon then return []
    else
      let x ← lowerStatement t
      return [x]
  | t :: next :: rest => do
    if t.isOperator .semicolon then lowerStatements (next :: rest)
    else if next.isOperator .semicolon then
      let x ← lowerStatement t
      let xs ← lowerStatements (next :: rest)
      return x :: xs
    else next.refuse (.juxtaposed next.shown t.shown)

end

/-- The program of a reduced forest. It starts where its first tree does. -/
def lower (ts : List Tree) : Except ConstructError Program := do
  let stmts ← lowerStatements ts
  return ⟨stmts, (ts.head?.map Tree.loc).getD .nowhere⟩

end Scriptlet
