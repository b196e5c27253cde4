import Scriptlet.Eval.Value

/-!
# Scopes

A scope binds names to values and may have a parent. Scopes live in a *store* and are known by their
index there, because functions keep the scope they were defined in. A parent is always older than
its children, so looking a name up ends after at most as many steps as there are scopes.
-/

namespace Scriptlet

/-- Names bound to values, and the scope around. -/
structure Scope where
  parent : Option Nat
  bindings : List (Text × Value)

namespace Scope

/-- The value of a name in this scope alone. -/
def get? (s : Scope) (name : Text) : Option Value := s.bindings.lookup name

/-- The scope binds the name. -/
def binds (s : Scope) (name : Text) : Bool := (s.get? name).isSome

/-- Replaces the value of a name that is bound. -/
def replaced (name : Text) (v : Value) : List (Text × Value) → List (Text × Value)
  | [] => []
  | (n, w) :: rest => if n == name then (n, v) :: rest else (n, w) :: replaced name v rest

/-- Binds a name, or rebinds it. -/
def put (s : Scope) (name : Text) (v : Value) : Scope :=
  if s.binds name then { s with bindings := replaced name v s.bindings }
  else { s with bindings := (name, v) :: s.bindings }

end Scope

/-- Why a name could not be used. -/
inductive NameFault where
  /-- No scope in reach binds it. -/
  | unbound (name : Text)
  /-- The scope binds it already. -/
  | alreadyDeclared (name : Text)
  deriving DecidableEq, Repr

/-- The wording of a fault. -/
def NameFault.message : NameFault → Text
  | .unbound name => "unbound variable: " ++ name
  | .alreadyDeclared name => name ++ " is already declared in this scope"

/-- All scopes, by index. -/
structure Store where
  scopes : Array Scope

namespace Store

/-- A store with one scope, which has no parent. -/
def initial : Store := ⟨#[⟨none, []⟩]⟩

/-- The index of the scope around all others. -/
def global : Nat := 0

/-- The scope with an index. -/
def scope (s : Store) (i : Nat) : Scope := s.scopes[i]?.getD ⟨none, []⟩

/-- The index of the next scope to be opened. -/
def fresh (s : Store) : Nat := s.scopes.size

/-- Opens a scope. -/
def push (s : Store) (parent : Option Nat) : Store := ⟨s.scopes.push ⟨parent, []⟩⟩

/-- Binds or rebinds a name in a scope. -/
def define (s : Store) (i : Nat) (name : Text) (v : Value) : Store :=
  ⟨s.scopes.modify i fun sc => sc.put name v⟩

/-- Binds or rebinds names in a scope, one after the other. -/
def defineAll (s : Store) (i : Nat) (bindings : List (Text × Value)) : Store :=
  bindings.foldl (fun st (name, v) => st.define i name v) s

/-- The innermost scope from `i` outwards that binds the name, looked for in at most
`fuel` scopes. -/
def ownerWithin? (s : Store) (name : Text) : Nat → Nat → Option Nat
  | 0, _ => none
  | fuel + 1, i =>
    let sc := s.scope i
    if sc.binds name then some i
    else
      match sc.parent with
      | some p => ownerWithin? s name fuel p
      | none => none

/-- The innermost scope from `i` outwards that binds the name. -/
def owner? (s : Store) (i : Nat) (name : Text) : Option Nat :=
  s.ownerWithin? name (s.scopes.size + 1) i

/-- The value of a name as seen from a scope. -/
def get (s : Store) (i : Nat) (name : Text) : Except NameFault Value :=
  match s.owner? i name with
  | some j => .ok (((s.scope j).get? name).getD .nil)
  | none => .error (.unbound name)

/-- Changes the value of a name as seen from a scope. -/
def set (s : Store) (i : Nat) (name : Text) (v : Value) : Except NameFault Store :=
  match s.owner? i name with
  | some j => .ok (s.define j name v)
  | none => .error (.unbound name)

/-- A name cannot be introduced in a scope that binds it. Only the scope around all others lets a
name be introduced again. -/
def forbids (s : Store) (i : Nat) (name : Text) : Bool :=
  let sc := s.scope i
  sc.binds name && sc.parent.isSome

/-- Introduces a name in a scope. -/
def declare (s : Store) (i : Nat) (name : Text) (v : Value) : Except NameFault Store :=
  if s.forbids i name then .error (.alreadyDeclared name) else .ok (s.define i name v)

/-- The number of scopes around a scope, counted in at most `fuel` of them. -/
def depthWithin (s : Store) : Nat → Nat → Nat
  | 0, _ => 0
  | fuel + 1, i =>
    match (s.scope i).parent with
    | some p => depthWithin s fuel p + 1
    | none => 0

/-- The number of scopes around a scope. -/
def depth (s : Store) (i : Nat) : Nat := s.depthWithin (s.scopes.size + 1) i

/-- The scope around a scope; the outermost is around itself. -/
def outer (s : Store) (i : Nat) : Nat := (s.scope i).parent.getD i

end Store

end Scriptlet
