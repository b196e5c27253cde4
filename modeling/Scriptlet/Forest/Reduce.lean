import Scriptlet.Forest.Fold
import Scriptlet.Token.Scan

/-!
# Recognising constructs by precedence

A forest is reduced by passes, one after the other: property access, indexing, calls, reserved
words, function heads with bodies, operators behind and before operands, and then the seven tiers of
operators between operands from the tightest to the loosest. Each pass replaces the constructs it
recognises and keeps the order of everything else. The contents of groups are reduced first, so the
same precedence rules at every depth.

Passes that work from the left keep what they have done in a list, newest first, and look at its
head. Passes that work from the right reduce the rest of the list first and look at its head.

## Contents

- §1 errors
- §2 passes from the left
- §3 passes from the right
- §4 the pipeline
- §5 from source to forest
-/

namespace Scriptlet

/-! ## §1 Errors -/

/-- What is wrong with a construct. -/
inductive ConstructFault where
  /-- Nothing to take a property of. -/
  | missingObject
  /-- No property name behind the point. -/
  | missingProperty
  /-- Nothing a reserved word could be applied to. -/
  | missingAfterKeyword
  /-- No operand in front of an operator that stands behind one. -/
  | missingBeforeTrailing
  /-- No operand behind an operator that stands before one. -/
  | missingAfterLeading
  | missingLeft
  | missingRight
  /-- Arguments are not single expressions separated by commas. -/
  | malformedArguments
  /-- Two trees in a row where a statement ends with the first. -/
  | juxtaposed (second first : Text)
  /-- A tree that is no expression. -/
  | unexpected (tree : Text)
  /-- A declaration of another form than the only one allowed. -/
  | declarationForm (word : Keyword)
  /-- A reserved word with no meaning here. -/
  | keywordHere (word : Keyword)
  /-- The target of an assignment is no name. -/
  | cannotAssign (target : Text)
  /-- What is called is no name. -/
  | cannotCall (callee : Text)
  /-- A number out of range. -/
  | invalidNumber (text : Text)
  /-- A construct that programs cannot contain. -/
  | notSupported (category : Category) (tree : Text)
  deriving DecidableEq, Repr

namespace ConstructFault

/-- The wording of a fault. -/
def message : ConstructFault → Text
  | .missingObject => "missing object before '.'"
  | .missingProperty => "expected property name after '.'"
  | .missingAfterKeyword => "missing operand after keyword"
  | .missingBeforeTrailing => "missing operand before postfix operator"
  | .missingAfterLeading => "missing operand after prefix operator"
  | .missingLeft => "missing left operand"
  | .missingRight => "missing right operand"
  | .malformedArguments => "malformed argument list"
  | .juxtaposed second first => "unexpected " ++ second ++ " after " ++ first
  | .unexpected tree => "unexpected " ++ tree
  | .declarationForm k =>
    k.spelling ++ " requires the form " ++ k.spelling ++ " name = value"
  | .keywordHere k => "keyword " ++ k.spelling ++ " is not supported here"
  | .cannotAssign target => "cannot assign to " ++ target
  | .cannotCall callee => "cannot call " ++ callee
  | .invalidNumber text => "invalid number " ++ text
  | .notSupported category tree => category.name ++ " " ++ tree ++ " is not supported"

end ConstructFault

/-- A construct whose operands are missing or malformed. -/
structure ConstructError where
  category : Category
  /-- The symbol of the construct; may be empty. -/
  symbol : Text
  fault : ConstructFault
  loc : Location
  deriving DecidableEq, Repr

/-- The wording of an error without its place. -/
def ConstructError.message (e : ConstructError) : Text :=
  let symbol := if e.symbol.isEmpty then [] else Text.ofString " " ++ e.symbol.quoted
  "syntax error in " ++ e.category.name ++ symbol ++ ": " ++ e.fault.message

/-- A pass: a forest to a forest, or an error. -/
abbrev Pass := List Tree → Except ConstructError (List Tree)

/-! ## §2 Passes from the left -/

/-- Property access: an operand, a point and a name. -/
def memberPass (done : List Tree) : Pass
  | [] => .ok done.reverse
  | t :: rest =>
    match t.lexeme? with
    | some (.operator .dot _) =>
      let refuse (fault : ConstructFault) : Except ConstructError (List Tree) :=
        .error ⟨.member, Operator.dot.spelling, fault, t.loc⟩
      match done with
      | [] => refuse .missingObject
      | left :: done' =>
        if left.isOperand then
          match rest with
          | [] => refuse .missingProperty
          | property :: rest' =>
            if property.isName then
              memberPass (.binary .member left property t.loc :: done') rest'
            else refuse .missingProperty
        else refuse .missingObject
    | _ => memberPass (t :: done) rest

/-- Joins each tree to the one before it where `join` says how. -/
def joinPass (join : Tree → Tree → Option Tree) (done : List Tree) : List Tree → List Tree
  | [] => done.reverse
  | t :: rest =>
    match done with
    | [] => joinPass join [t] rest
    | left :: done' =>
      match join left t with
      | some joined => joinPass join (joined :: done') rest
      | none => joinPass join (t :: left :: done') rest

/-- Something that can be indexed or called, and a group of the family. -/
def joinAccessor (family : Family) (form : BinaryForm) (left t : Tree) : Option Tree :=
  if t.isGroup family && left.isAccessor then some (.binary form left t left.loc) else none

/-- Parameters and a body. -/
def joinFunction (left t : Tree) : Option Tree :=
  if t.isGroup .brace && left.isGroup .parenthesis then
    some (.binary .function left t left.loc)
  else none

/-- Operators behind operands. -/
def trailingPass (done : List Tree) : Pass
  | [] => .ok done.reverse
  | t :: rest =>
    match t.operator? .trailing with
    | none => trailingPass (t :: done) rest
    | some (op, loc) =>
      match done with
      | left :: done' =>
        if left.isOperand then trailingPass (.unary (.trailing op) left loc :: done') rest
        else .error ⟨.trailing, op.spelling, .missingBeforeTrailing, loc⟩
      | [] => .error ⟨.trailing, op.spelling, .missingBeforeTrailing, loc⟩

/-- Operators of a tier that group to the left. -/
def chainLeft (tier : Tier) (done : List Tree) : Pass
  | [] => .ok done.reverse
  | t :: rest =>
    match t.tierOperator? tier with
    | none => chainLeft tier (t :: done) rest
    | some (op, loc) =>
      let refuse (fault : ConstructFault) : Except ConstructError (List Tree) :=
        .error ⟨.between tier, op.spelling, fault, loc⟩
      match done with
      | [] => refuse .missingLeft
      | left :: done' =>
        if left.isOperand then
          match rest with
          | [] => refuse .missingRight
          | right :: rest' =>
            if right.isOperand then
              chainLeft tier (.binary (.between tier op) left right loc :: done') rest'
            else refuse .missingRight
        else refuse .missingLeft

/-! ## §3 Passes from the right -/

/-- The operand at the head of a forest with the operators that stand before it, and the rest. -/
def takeOperand : List Tree → Option (Tree × List Tree)
  | [] => none
  | t :: rest =>
    match t.operator? .leading with
    | some (op, loc) =>
      (takeOperand rest).map fun (operand, more) => (.unary (.leading op) operand loc, more)
    | none => if t.isOperand then some (t, rest) else none

/-- Reserved words: each is applied to the operand behind it, taken with its leading operators. -/
def keywordPass : Pass
  | [] => .ok []
  | t :: rest => do
    let more ← keywordPass rest
    match t with
    | .leaf ⟨.keyword k, _, _, loc⟩ =>
      match takeOperand more with
      | some (operand, more') => return .unary (.keyword k) operand loc :: more'
      | none => .error ⟨.keyword, k.spelling, .missingAfterKeyword, loc⟩
    | _ => return t :: more

/-- Operators before operands. -/
def leadingPass : Pass
  | [] => .ok []
  | t :: rest => do
    let more ← leadingPass rest
    match t.operator? .leading with
    | none => return t :: more
    | some (op, loc) =>
      match more with
      | right :: more' =>
        if right.isOperand then return .unary (.leading op) right loc :: more'
        else .error ⟨.leading, op.spelling, .missingAfterLeading, loc⟩
      | [] => .error ⟨.leading, op.spelling, .missingAfterLeading, loc⟩

/-- The reduced right side of an operator splits into its operand and the rest. -/
def takeRight (tier : Tier) (op : Operator) (loc : Location) :
    List Tree → Except ConstructError (Tree × List Tree)
  | right :: more =>
    if right.isOperand then .ok (right, more)
    else .error ⟨.between tier, op.spelling, .missingRight, loc⟩
  | [] => .error ⟨.between tier, op.spelling, .missingRight, loc⟩

/-- Operators of a tier that group to the right. An operator is taken together with the operand in
front of it; one reached without such an operand lacks it. -/
def chainRight (tier : Tier) : Pass
  | [] => .ok []
  | t :: rest =>
    match t.tierOperator? tier with
    | some (op, loc) => do
      let more ← chainRight tier rest
      let _ ← takeRight tier op loc more
      .error ⟨.between tier, op.spelling, .missingLeft, loc⟩
    | none =>
      match rest with
      | [] => .ok [t]
      | o :: rest' =>
        match if t.isOperand then o.tierOperator? tier else none with
        | some (op, loc) => do
          let more ← chainRight tier rest'
          let (right, more') ← takeRight tier op loc more
          return .binary (.between tier op) t right loc :: more'
        | none => do
          let more ← chainRight tier (o :: rest')
          return t :: more

/-! ## §4 The pipeline -/

/-- The pass of a tier. -/
def tierPass (tier : Tier) : Pass :=
  if tier.groupsRight then chainRight tier else chainLeft tier []

/-- The passes in order. -/
def passes : List Pass :=
  [ memberPass [],
    fun ts => .ok (joinPass (joinAccessor .bracket .index) [] ts),
    fun ts => .ok (joinPass (joinAccessor .parenthesis .call) [] ts),
    keywordPass,
    fun ts => .ok (joinPass joinFunction [] ts),
    trailingPass [],
    leadingPass ] ++ Tier.all.map tierPass

/-- All passes, one after the other. -/
def runPasses (ts : List Tree) : Except ConstructError (List Tree) :=
  passes.foldlM (fun acc pass => pass acc) ts

mutual

/-- Reduces the contents of a group; other trees stay. -/
def reduceGroup : Tree → Except ConstructError Tree
  | .group f cs loc => do
    let inner ← reduceGroups cs
    let cs' ← runPasses inner
    return .group f cs' loc
  | t => .ok t

/-- Reduces the contents of each group, from the left. -/
def reduceGroups : List Tree → Except ConstructError (List Tree)
  | [] => .ok []
  | t :: ts => do
    let t' ← reduceGroup t
    let ts' ← reduceGroups ts
    return t' :: ts'

end

/-- The reduced forest: contents of groups first, then the passes. -/
def reduce (ts : List Tree) : Except ConstructError (List Tree) := do
  let inner ← reduceGroups ts
  runPasses inner

/-! ## §5 From source to forest -/

/-- Why a source has no forest. -/
inductive ForestError where
  | lexical (e : LexError)
  | unbalanced (e : UnbalancedError)
  | construct (e : ConstructError)
  deriving DecidableEq, Repr

/-- The tokens of a source, as a step towards its forest. -/
def tokensOf (source : Text) : Except ForestError (List Token) :=
  (tokenize source).mapError .lexical

/-- The groups of a source. -/
def groupsOf (source : Text) : Except ForestError (List Tree) := do
  let tokens ← tokensOf source
  (foldGroups tokens).mapError .unbalanced

/-- The reduced forest of a source. -/
def forestOf (source : Text) : Except ForestError (List Tree) := do
  let groups ← groupsOf source
  (reduce groups).mapError .construct

end Scriptlet
