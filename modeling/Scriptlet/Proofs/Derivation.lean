import Scriptlet.Proofs.Symbol
import Scriptlet.Decimal.Reading

/-!
# The grammar of expressions as derivations

`Derives k xs n` says that the symbols `xs` are an expression of level `k` and that `n` is the node
it stands for, without places. The rules are those of the language and of no particular reader:
redundant parentheses and plus signs are allowed, powers group to the right, and the operators of a
level from 3 on form chains that group to the left.

Both readers are compared with this relation: what the forest reader accepts is derivable, and what
is derivable the grammar reads in exactly one way.

## Contents

- §1 nodes without places
- §2 derivations
- §3 derived rules
-/

namespace Scriptlet

/-! ## §1 Nodes without places -/

namespace Node

theorem clearedAll_eq_map (ns : List Node) : clearedAll ns = ns.map cleared := by
  induction ns with
  | nil => rfl
  | cons n ns ih => rw [clearedAll, ih, List.map_cons]

theorem cleared_ofCall (t : Text) (args : List Node) (loc : Location) :
    (ofCall t args loc).cleared = ofCall t (args.map cleared) .nowhere := by
  match args with
  | [] => rfl
  | [a] =>
    simp only [ofCall, List.map_cons, List.map_nil]
    split <;> rfl
  | a :: b :: args => simp only [ofCall, List.map_cons, cleared, clearedAll_eq_map]

end Node

/-! ## §2 Derivations -/

/-- Symbol lists with a comma between neighbours. -/
def commas : List (List Symbol) → List Symbol
  | [] => []
  | [xs] => xs
  | xs :: rest => xs ++ .mark "," :: commas rest

/-- An operator with the operand behind it: the symbols and node of the latter. -/
structure Link where
  op : BinaryOp
  symbols : List Symbol
  node : Node

namespace Link

/-- The symbols of an operator and its operand. -/
def spelled (l : Link) : List Symbol := .mark l.op.symbol :: l.symbols

/-- The chain so far with one more operand. -/
def join (left : Node) (l : Link) : Node := .binary l.op left l.node .nowhere

end Link

/-- The number that a numeral stands for. -/
def numeralValue (text : Text) : Float := (Decimal.readNearest? text).getD 0

/-- The symbols are an expression of the level, and the node without places is what it
stands for. -/
inductive Derives : Nat → List Symbol → Node → Prop where
  | number (text : Text) (h : IsNumeral text) :
      Derives 0 [.number text] (.number (numeralValue text) .nowhere)
  | string (v : Text) : Derives 0 [.string v] (.string v .nowhere)
  | name (t : Text) (h : isReserved t = false) : Derives 0 [.word t] (.ident t .nowhere)
  | call (t : Text) (args : List (List Symbol × Node)) (h : isReserved t = false)
      (hargs : ∀ a ∈ args, Derives 7 a.1 a.2) :
      Derives 0 (.word t :: .mark "(" :: (commas (args.map Prod.fst) ++ [.mark ")"]))
        (Node.ofCall t (args.map Prod.snd) .nowhere)
  | group (xs : List Symbol) (n : Node) (h : Derives 7 xs n) :
      Derives 0 (.mark "(" :: (xs ++ [.mark ")"])) n
  /-- An atom needs no operator before it. -/
  | atom (xs : List Symbol) (n : Node) (h : Derives 0 xs n) : Derives 1 xs n
  | leading (op : UnaryOp) (sign : op = .not ∨ op = .negate) (xs : List Symbol) (n : Node)
      (h : Derives 1 xs n) : Derives 1 (.mark op.symbol :: xs) (.unary op n .nowhere)
  /-- A plus sign leaves no trace. -/
  | plus (xs : List Symbol) (n : Node) (h : Derives 1 xs n) : Derives 1 (.mark "+" :: xs) n
  | base (xs : List Symbol) (n : Node) (h : Derives 1 xs n) : Derives 2 xs n
  | raised (xs ys : List Symbol) (m n : Node) (hx : Derives 1 xs m) (hy : Derives 2 ys n) :
      Derives 2 (xs ++ .mark "**" :: ys) (.binary .power m n .nowhere)
  /-- A first operand and any number of operators of the level, each with an operand of the next
  tighter one. -/
  | chain (k : Nat) (xs : List Symbol) (n : Node) (links : List Link) (hx : Derives (k + 2) xs n)
      (hops : ∀ l ∈ links, l.op.level = k + 3)
      (hlinks : ∀ l ∈ links, Derives (k + 2) l.symbols l.node) :
      Derives (k + 3) (xs ++ links.flatMap Link.spelled) (links.foldl Link.join n)

namespace Derives

variable {k l : Nat} {xs ys : List Symbol} {m n : Node}

/-! ## §3 Derived rules -/

/-- What is derivable at a level is derivable at the next looser one. -/
theorem loosen (h : Derives k xs n) : Derives (k + 1) xs n := by
  match k with
  | 0 => exact .atom xs n h
  | 1 => exact .base xs n h
  | k + 2 =>
    have := Derives.chain k xs n [] h (by simp) (by simp)
    simpa using this

theorem mono (h : Derives k xs n) (hkl : k ≤ l) : Derives l xs n := by
  induction hkl with
  | refl => exact h
  | step _ ih => exact ih.loosen

/-- One more operator and operand at the end of a chain. -/
theorem extend {op : BinaryOp} (hx : Derives (k + 3) xs m) (hop : op.level = k + 3)
    (hy : Derives (k + 2) ys n) :
    Derives (k + 3) (xs ++ .mark op.symbol :: ys) (.binary op m n .nowhere) := by
  cases hx with
  | chain _ xs m links hx hops hlinks =>
    -- the old links and the new one are all of the level of the chain
    have h := Derives.chain k xs m (links ++ [⟨op, ys, n⟩]) hx
      (by
        intro l hl
        rcases List.mem_append.mp hl with hl | hl
        · exact hops l hl
        · rw [List.mem_singleton.mp hl]; exact hop)
      (by
        intro l hl
        rcases List.mem_append.mp hl with hl | hl
        · exact hlinks l hl
        · rw [List.mem_singleton.mp hl]; exact hy)
    simpa [Link.spelled, Link.join] using h

/-- No operator has a level beyond 7, so nothing more is derivable there. -/
theorem tighten (h : Derives 8 xs n) : Derives 7 xs n := by
  cases h with
  | chain _ xs n links hx hops hlinks =>
    match links, hops with
    | [], _ => simpa using hx
    | l :: _, hops =>
      have hl := hops l (by simp)
      cases hop : l.op <;> simp [BinaryOp.level, hop] at hl

end Derives

end Scriptlet
