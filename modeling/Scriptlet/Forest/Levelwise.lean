import Scriptlet.Forest.Fold

/-!
# Groups level by level

Once tokens have levels, groups can also be found without keeping track of what is open: the
innermost pairs become groups first, then the pairs around them, one level at a time. At each level
an opening delimiter is followed by a search for the next closing delimiter of that level, whatever
its family, and everything on the way becomes the contents of a group. A search that reaches the end
of the row has no result.
-/

namespace Scriptlet

/-- A tree in a row, with its level, and the delimiter that it is if it is one. -/
structure Item where
  tree : Tree
  level : Nat
  delimiter : Option (Family × Side)

namespace Item

/-- A token in a row. -/
def ofToken (t : Token) : Item :=
  ⟨.leaf t, t.level, match t.lexeme with | .delimiter f s => some (f, s) | _ => none⟩

/-- The family of an opening delimiter of the level. -/
def opens? (level : Nat) (i : Item) : Option Family :=
  match i.delimiter with
  | some (f, .left) => if i.level = level then some f else none
  | _ => none

/-- The item is a closing delimiter of the level. -/
def closes (level : Nat) (i : Item) : Bool :=
  match i.delimiter with
  | some (_, .right) => i.level == level
  | _ => false

end Item

/-- A group whose closing delimiter is being looked for: family, place and contents, newest
first. -/
structure OpenGroup where
  family : Family
  loc : Location
  found : List Tree

/-- Turns the pairs of a level into groups, which belong to the level around; nothing if a closing
delimiter is looked for beyond the end. -/
def foldLevel (level : Nat) : Option OpenGroup → List Item → Option (List Item)
  | none, [] => some []
  | some _, [] => none
  | none, i :: rest =>
    match i.opens? level with
    | some f => foldLevel level (some ⟨f, i.tree.loc, []⟩) rest
    | none => (foldLevel level none rest).map (i :: ·)
  | some p, i :: rest =>
    if i.closes level then
      (foldLevel level none rest).map (⟨.group p.family p.found.reverse p.loc, level - 1, none⟩ :: ·)
    else foldLevel level (some { p with found := i.tree :: p.found }) rest

/-- Turns the pairs of all levels into groups, the deepest first. -/
def foldLevels : Nat → List Item → Option (List Item)
  | 0, items => some items
  | level + 1, items => (foldLevel (level + 1) none items).bind (foldLevels level)

/-- The forest of a token sequence, level by level; nothing if some search runs past the end. -/
def foldLevelwise (tokens : List Token) : Except UnbalancedError (Option (List Tree)) := do
  let levelled ← assignLevels tokens
  let items := foldLevels (deepestLevel levelled) (levelled.map Item.ofToken)
  return items.map (·.map Item.tree)

end Scriptlet
