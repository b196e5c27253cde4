import Scriptlet.Forest.Tree

/-!
# Nesting levels and groups

Delimiters must pair up by family. The level of a token is the number of pairs around it, both
delimiters of a pair counting as inside it. Once the delimiters pair up, the tokens between each
pair become one group.
-/

namespace Scriptlet

/-! ## §1 Delimiters that do not pair up -/

/-- How delimiters fail to pair up. -/
inductive Unpaired where
  /-- A closing delimiter with nothing open. -/
  | unexpected (found : Family)
  /-- A closing delimiter of another family than the innermost open one. -/
  | mismatched (opened : Family) (openedAt : Location) (found : Family)
  /-- The tokens end with a delimiter open. -/
  | unclosed (opened : Family)
  deriving DecidableEq, Repr

/-- A failure to pair up, with the delimiters counted so far. -/
structure UnbalancedError where
  cause : Unpaired
  loc : Location
  /-- Opening delimiters seen. -/
  opens : Nat
  /-- Closing delimiters seen. -/
  closes : Nat
  deriving DecidableEq, Repr

namespace Unpaired

/-- The wording of a failure. -/
def message : Unpaired → Text
  | .unexpected f => "unexpected " ++ f.closing
  | .mismatched opened loc found =>
    "expected " ++ opened.closing ++ " to close " ++ opened.opening ++ " at " ++ loc.shown
      ++ ", found " ++ found.closing
  | .unclosed f => "unclosed " ++ f.opening

/-- Closing delimiters could still make the delimiters pair up. -/
def isIncomplete : Unpaired → Bool
  | .unclosed _ => true
  | _ => false

end Unpaired

/-! ## §2 Levels -/

/-- An open delimiter: its family and place. -/
abbrev Opened := Family × Location

/-- The tokens with their levels, from a place where the delimiters of `stack` are open, the
innermost first, and `opens` and `closes` delimiters have been seen. -/
def levelsFrom (stack : List Opened) (opens closes : Nat) :
    List Token → Except UnbalancedError (List Token)
  | [] =>
    match stack with
    | [] => .ok []
    | (f, loc) :: _ => .error ⟨.unclosed f, loc, opens, closes⟩
  | t :: rest =>
    match t.lexeme with
    | .delimiter f .left => do
      let more ← levelsFrom ((f, t.loc) :: stack) (opens + 1) closes rest
      return { t with level := stack.length + 1 } :: more
    | .delimiter f .right =>
      match stack with
      | [] => .error ⟨.unexpected f, t.loc, opens, closes + 1⟩
      | (g, at_) :: stack' =>
        if g = f then do
          let more ← levelsFrom stack' opens (closes + 1) rest
          return { t with level := stack'.length + 1 } :: more
        else .error ⟨.mismatched g at_ f, t.loc, opens, closes + 1⟩
    | _ => do
      let more ← levelsFrom stack opens closes rest
      return { t with level := stack.length } :: more

/-- The tokens with their levels. -/
def assignLevels (tokens : List Token) : Except UnbalancedError (List Token) :=
  levelsFrom [] 0 0 tokens

/-- The deepest level of some tokens. -/
def deepestLevel (tokens : List Token) : Nat := tokens.foldl (fun d t => max d t.level) 0

/-! ## §3 Groups -/

/-- Groups under construction: the trees complete inside the innermost open delimiter, newest first,
and the delimiters around it with what was complete before each. -/
structure Nest where
  done : List Tree
  around : List (Opened × List Tree)

namespace Nest

/-- Nothing read. -/
def empty : Nest := ⟨[], []⟩

/-- Reads a token. A closing delimiter turns what is complete since its partner into a group; one
with nothing open is passed over, which does not happen where levels could be assigned. -/
def step (n : Nest) (t : Token) : Nest :=
  match t.lexeme with
  | .delimiter f .left => ⟨[], ((f, t.loc), n.done) :: n.around⟩
  | .delimiter _ .right =>
    match n.around with
    | ((f, loc), before) :: around => ⟨.group f n.done.reverse loc :: before, around⟩
    | [] => n
  | _ => ⟨.leaf t :: n.done, n.around⟩

end Nest

/-- Groups what stands between delimiters that pair up. -/
def group (tokens : List Token) : List Tree := (tokens.foldl Nest.step .empty).done.reverse

/-- The forest of a token sequence: levels first, then groups. -/
def foldGroups (tokens : List Token) : Except UnbalancedError (List Tree) := do
  let levelled ← assignLevels tokens
  return group levelled

end Scriptlet
