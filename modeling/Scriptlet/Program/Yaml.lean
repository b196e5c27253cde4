import Scriptlet.Program.Node
import Scriptlet.Yaml.Scalar

/-!
# Programs as YAML

A node is a block mapping: its kind, its place if it has one, and its parts in a fixed order. Parts
that are nodes follow on lines of their own, indented to the next multiple of four; lists of nodes
are block sequences whose items hang two columns behind their dash. Strings are double quoted on one
line, names as `Yaml.name` says.
-/

namespace Scriptlet

namespace Yaml

/-! ## §1 Lines -/

/-- The indentation of a block inside one indented by `indent`. -/
def nested (indent : Nat) : Nat := 4 * ((indent + 4) / 4)

/-- A line at an indentation. -/
def lineAt (indent : Nat) (t : Text) : Text := List.replicate indent 32 ++ t

/-- A field with a scalar; an empty one leaves nothing behind the colon. -/
def scalarField (indent : Nat) (key value : Text) : List Text :=
  [lineAt indent (if value.isEmpty then key ++ ":" else key ++ ": " ++ value)]

/-- A field with a name. -/
def nameField (indent : Nat) (key value : Text) : List Text :=
  match name value with
  | .inline t => scalarField indent key t
  | .literal head lines =>
    scalarField indent key head
      ++ lines.map fun l => if l.isEmpty then [] else lineAt (nested indent) l

/-- A field with a node, given the node's lines; a missing node has none. -/
def nodeField (indent : Nat) (key : Text) (lines : List Text) : List Text :=
  if lines.isEmpty then scalarField indent key "null" else lineAt indent (key ++ ":") :: lines

/-- A field with a sequence, given the lines of its items. -/
def sequenceField (indent : Nat) (key : Text) (lines : List Text) : List Text :=
  if lines.isEmpty then scalarField indent key "[]" else lineAt indent (key ++ ":") :: lines

/-- An item of a sequence, given its lines two columns further in; the dash takes the place of the
first two columns. -/
def item (indent : Nat) : List Text → List Text
  | [] => [lineAt indent "- null"]
  | first :: rest => lineAt indent ("- " ++ first.drop (indent + 2)) :: rest

/-- The fields that every node starts with. -/
def header (indent : Nat) (kind : Text) (loc : Location) : List Text :=
  scalarField indent "kind" kind
    ++ (if loc = .nowhere then [] else scalarField indent "pos" loc.shown)

/-- Parameters on one line. -/
def params (ps : List Text) : Text := "[" ++ Text.join ", " (ps.map flowName) ++ "]"

end Yaml

namespace Node

open Yaml

/-! ## §2 Nodes -/

mutual

/-- The lines of a node at an indentation; none if the node is missing. -/
def yamlLines (i : Nat) : Node → List Text
  | .missing => []
  | .number v l => header i "number" l ++ scalarField i "value" (Yaml.number v)
  | .string v l => header i "string" l ++ scalarField i "value" (Yaml.quoted v)
  | .ident n l => header i "ident" l ++ nameField i "name" n
  | .unary op x l =>
    header i "unary" l ++ nameField i "op" op.symbol
      ++ nodeField i "operand" (yamlLines (nested i) x)
  | .binary op x y l =>
    header i "binary" l ++ nameField i "op" op.symbol
      ++ nodeField i "left" (yamlLines (nested i) x)
      ++ nodeField i "right" (yamlLines (nested i) y)
  | .call f args l =>
    header i "call" l ++ nameField i "callee" f
      ++ sequenceField i "args" (yamlItems (nested i) args)
  | .giveBack x l => header i "return" l ++ nodeField i "result" (yamlLines (nested i) x)
  | .block ss l => header i "block" l ++ sequenceField i "stmts" (yamlItems (nested i) ss)
  | .choice c x y l =>
    header i "if" l ++ nodeField i "cond" (yamlLines (nested i) c)
      ++ nodeField i "then" (yamlLines (nested i) x)
      ++ nodeField i "else" (yamlLines (nested i) y)
  | .loop c x l =>
    header i "while" l ++ nodeField i "cond" (yamlLines (nested i) c)
      ++ nodeField i "body" (yamlLines (nested i) x)
  | .declare n x l =>
    header i "var" l ++ nameField i "name" n
      ++ nodeField i "value" (yamlLines (nested i) x)
  | .assign n x l =>
    header i "assign" l ++ nameField i "name" n
      ++ nodeField i "value" (yamlLines (nested i) x)
  | .function n ps ss bodyLoc l =>
    header i "function" l ++ nameField i "name" n
      ++ scalarField i "params" (params ps)
      ++ nodeField i "body"
        (header (nested i) "block" bodyLoc
          ++ sequenceField (nested i) "stmts" (yamlItems (nested (nested i)) ss))
  | .prototype n ps l =>
    header i "function" l ++ nameField i "name" n
      ++ scalarField i "params" (params ps) ++ nodeField i "body" []
  | .main ss l => header i "main" l ++ sequenceField i "stmts" (yamlItems (nested i) ss)
  | .assert c l => header i "assert" l ++ nodeField i "cond" (yamlLines (nested i) c)

/-- The lines of the items of a sequence at an indentation. -/
def yamlItems (i : Nat) : List Node → List Text
  | [] => []
  | x :: xs => item i (yamlLines (i + 2) x) ++ yamlItems i xs

end

mutual

/-- Every string in the node is UTF-8. -/
def stringsAreUtf8 : Node → Bool
  | .string v _ => v.isUtf8
  | .unary _ x _ | .giveBack x _ | .declare _ x _ | .assign _ x _ | .assert x _ => stringsAreUtf8 x
  | .binary _ x y _ | .loop x y _ => stringsAreUtf8 x && stringsAreUtf8 y
  | .choice c x y _ => stringsAreUtf8 c && stringsAreUtf8 x && stringsAreUtf8 y
  | .call _ xs _ | .block xs _ | .function _ _ xs _ _ | .main xs _ => allStringsAreUtf8 xs
  | .missing | .number _ _ | .ident _ _ | .prototype _ _ _ => true

/-- Every string in the nodes is UTF-8. -/
def allStringsAreUtf8 : List Node → Bool
  | [] => true
  | x :: xs => stringsAreUtf8 x && allStringsAreUtf8 xs

end

/-- The document of a node, or nothing if it holds a string that YAML cannot. -/
def yaml? (x : Node) : Option Text :=
  if x.stringsAreUtf8 then
    some (if x.isMissing then Text.line "null" else (x.yamlLines 0).flatMap Text.line)
  else none

end Node

/-- The wording of a string that YAML cannot hold. -/
def yamlRefusal : Text := "yaml: cannot marshal invalid UTF-8 data as !!str"

end Scriptlet
