import Scriptlet.Forest.Lower
import Scriptlet.Proofs.Yield

/-!
# What a tree that is lowered looks like

Lowering refuses most trees. Where it succeeds, the tree has one of a few forms, and its parts have
been lowered to the parts of the node. These forms are read off lowering once: `LowersTo` for
expressions, `LowersArgs` for arguments and `LowersSimple` for statements other than braces. What is
proved of lowered trees goes by them.

## Contents

- §1 expressions
- §2 statements
-/

namespace Scriptlet

open Scriptlet.Tree

variable {t : Tree} {n : Node}

/-! ## §1 Expressions -/

/-- The tree and the expression it is lowered to. -/
inductive LowersTo : Tree → Node → Prop where
  | token {u : Token} {n : Node} (h : lowerToken u = .ok n) : LowersTo (.leaf u) n
  | group {x : Tree} {n : Node} (loc : Location) (h : lowerExpr x = .ok n) :
      LowersTo (.group .parenthesis [x] loc) n
  | negate {x : Tree} {m : Node} (loc : Location) (h : lowerExpr x = .ok m) :
      LowersTo (.unary (.leading .minus) x loc) (.unary .negate m loc)
  | not {x : Tree} {m : Node} (loc : Location) (h : lowerExpr x = .ok m) :
      LowersTo (.unary (.leading .bang) x loc) (.unary .not m loc)
  /-- A plus sign leaves no trace. -/
  | plus {x : Tree} {m : Node} (loc : Location) (h : lowerExpr x = .ok m) :
      LowersTo (.unary (.leading .plus) x loc) m
  | callNone (name : Text) (i level : Nat) (nameLoc : Location) (f : Family) (at_ loc : Location) :
      LowersTo (.binary .call (.leaf ⟨.name name, i, level, nameLoc⟩) (.group f [] at_) loc)
        (Node.ofCall name [] nameLoc)
  | call {name : Text} {c : Tree} {more : List Tree} {ns : List Node} (i level : Nat)
      (nameLoc : Location) (f : Family) (at_ loc : Location)
      (h : lowerArgs name loc (c :: more) = .ok ns) :
      LowersTo
        (.binary .call (.leaf ⟨.name name, i, level, nameLoc⟩) (.group f (c :: more) at_) loc)
        (Node.ofCall name ns nameLoc)
  | between {op : Operator} {bin : BinaryOp} {x y : Tree} {left right : Node} (tier : Tier)
      (loc : Location) (hop : op.toBinary? = some bin) (hleft : lowerExpr x = .ok left)
      (hright : lowerExpr y = .ok right) :
      LowersTo (.binary (.between tier op) x y loc) (.binary bin left right loc)

/-- What lowering a tree to an expression can have done. -/
theorem lowersTo_of_lowerExpr (h : lowerExpr t = .ok n) : LowersTo t n := by
  rw [lowerExpr.eq_def] at h
  split at h
  · exact .token h
  · exact .group _ h
  · cases h
  · obtain ⟨m, hm, h⟩ := bind_eq_ok.mp h
    split at h <;> cases h
    · exact .negate _ hm
    · exact .not _ hm
    · exact .plus _ hm
  · cases h
  · split at h
    · split at h
      · cases h
        exact .callNone ..
      · obtain ⟨ns, hns, h⟩ := bind_eq_ok.mp h
        cases h
        exact .call _ _ _ _ _ _ hns
    · cases h
  · split at h
    · next bin hbin =>
      obtain ⟨left, hleft, h⟩ := bind_eq_ok.mp h
      obtain ⟨right, hright, h⟩ := bind_eq_ok.mp h
      cases h
      exact .between _ _ hbin hleft hright
    · cases h
  · cases h

/-- The trees and the arguments they are lowered to. -/
inductive LowersArgs (callee : Text) (loc : Location) : List Tree → List Node → Prop where
  | one {c : Tree} {m : Node} (h : lowerExpr c = .ok m) : LowersArgs callee loc [c] [m]
  | more {c sep : Tree} {rest : List Tree} {m : Node} {ms : List Node}
      (hsep : sep.isOperator .comma = true) (h : lowerExpr c = .ok m)
      (hrest : lowerArgs callee loc rest = .ok ms) :
      LowersArgs callee loc (c :: sep :: rest) (m :: ms)

/-- What lowering the arguments of a call can have done. -/
theorem lowersArgs_of_lowerArgs {callee : Text} {loc : Location} {cs : List Tree} {ns : List Node}
    (h : lowerArgs callee loc cs = .ok ns) : LowersArgs callee loc cs ns := by
  match cs, h with
  | [c], h =>
    rw [lowerArgs] at h
    split at h
    · cases h
    · obtain ⟨m, hm, h⟩ := bind_eq_ok.mp h
      cases h
      exact .one hm
  | c :: sep :: rest, h =>
    rw [lowerArgs] at h
    split at h
    · cases h
    · next hcomma =>
      simp only [Bool.or_eq_true, Bool.not_eq_true', not_or, Bool.not_eq_false] at hcomma
      obtain ⟨m, hm, h⟩ := bind_eq_ok.mp h
      obtain ⟨ms, hms, h⟩ := bind_eq_ok.mp h
      cases h
      exact .more hcomma.2 hm hms

/-! ## §2 Statements -/

/-- A declaration assigns a value to a name. -/
theorem exists_of_lowerDeclaration {whole rest : Tree} {k : Keyword} {at_ : Location}
    (h : lowerDeclaration whole k at_ rest = .ok n) :
    ∃ name i level nameLoc value loc m,
      rest = .binary (.between .assignment .assign) (.leaf ⟨.name name, i, level, nameLoc⟩) value
        loc ∧
      lowerExpr value = .ok m ∧ n = .declare name m at_ := by
  unfold lowerDeclaration at h
  split at h
  · next name i level nameLoc value loc =>
    obtain ⟨m, hm, h⟩ := bind_eq_ok.mp h
    cases h
    exact ⟨name, i, level, nameLoc, value, loc, m, rfl, hm, rfl⟩
  · cases h

/-- The target of an assignment, which is a name, and the statement. -/
inductive LowersAssignment (op : Operator) (value : Tree) (loc : Location) :
    Tree → Node → Prop where
  | assign {m : Node} (name : Text) (i level : Nat) (nameLoc : Location) (hop : op.compound? = none)
      (h : lowerExpr value = .ok m) :
      LowersAssignment op value loc (.leaf ⟨.name name, i, level, nameLoc⟩) (.assign name m loc)
  | update {m : Node} {bin : BinaryOp} (name : Text) (i level : Nat) (nameLoc : Location)
      (hop : op.compound? = some bin) (h : lowerExpr value = .ok m) :
      LowersAssignment op value loc (.leaf ⟨.name name, i, level, nameLoc⟩)
        (.assign name (.binary bin (.ident name nameLoc) m loc) loc)

/-- What lowering an assignment can have done, by its operator and its target. -/
theorem lowersAssignment_of_lowerAssignment {op : Operator} {target value : Tree} {loc : Location}
    (h : lowerAssignment op target value loc = .ok n) : LowersAssignment op value loc target n := by
  unfold lowerAssignment at h
  split at h
  · obtain ⟨m, hm, h⟩ := bind_eq_ok.mp h
    split at h
    · next hop =>
      cases h
      exact .update _ _ _ _ hop hm
    · next hop =>
      cases h
      exact .assign _ _ _ _ hop hm
  · cases h

/-- The tree and the statement other than braces it is lowered to. -/
inductive LowersSimple (t : Tree) : Node → Prop where
  | giveBack {at_ : Location} {rest : Tree} {m : Node}
      (hlift : liftKeyword t = some (.returnWord, at_, rest)) (h : lowerExpr rest = .ok m) :
      LowersSimple t (.giveBack m at_)
  | declare {k : Keyword} {at_ : Location} {rest : Tree} {n : Node}
      (hk : k = .letWord ∨ k = .varWord) (hlift : liftKeyword t = some (k, at_, rest))
      (h : lowerDeclaration t k at_ rest = .ok n) : LowersSimple t n
  | assignment {op : Operator} {target value : Tree} {loc : Location} {n : Node}
      (ht : t = .binary (.between .assignment op) target value loc)
      (h : lowerAssignment op target value loc = .ok n) : LowersSimple t n
  | expression {n : Node} (h : lowerExpr t = .ok n) : LowersSimple t n

/-- What lowering a tree to a simple statement can have done. -/
theorem lowersSimple_of_lowerSimple (h : lowerSimple t = .ok n) : LowersSimple t n := by
  unfold lowerSimple at h
  split at h
  · next hlift =>
    obtain ⟨m, hm, h⟩ := bind_eq_ok.mp h
    cases h
    exact .giveBack hlift hm
  · next hlift => exact .declare (.inl rfl) hlift h
  · next hlift => exact .declare (.inr rfl) hlift h
  · cases h
  · split at h
    · exact .assignment rfl h
    · exact .expression h

end Scriptlet
