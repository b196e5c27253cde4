import Scriptlet.Proofs.Moves
import Scriptlet.Proofs.Number

/-!
# Order and equality of numbers

The operators of order look at which of two numbers is less, and where neither is, count them as
equal. For numbers that can be compared that is what they are, so `<=` holds exactly where `<` or
`==` does. Not-a-number is not equal to anything, but neither less nor greater either, so on it
`<=` and `>=` hold although `<`, `>` and `==` do not.

The operators are looked at as they are evaluated, between any two expressions that have numbers as
values.

## Contents

- §1 how two numbers compare
- §2 evaluating operators
- §3 the main result
-/

namespace Scriptlet

open Float.Model (UnpackedFloat)
open Float.Model.UnpackedFloat (Sign)

/-! ## §1 How two numbers compare -/

/-- Comparing the other way round turns the order round. -/
theorem compare_swap (f g : UnpackedFloat) : (f.compare g).map Ordering.swap = g.compare f := by
  cases f with
  | notANumber => cases g <;> rfl
  | infinity s =>
    cases g with
    | infinity t => cases s <;> cases t <;> rfl
    | _ => cases s <;> rfl
  | zero s =>
    cases g with
    | infinity t | finite t => cases t <;> rfl
    | _ => rfl
  | finite s m e hm =>
    cases g with
    | notANumber => cases s <;> rfl
    | infinity t => cases s <;> cases t <;> rfl
    | zero t => cases s <;> rfl
    | finite t n k hn =>
      -- signs decide, then exponents and mantissas
      have hsizes : ((compare e k).then (compare m n)).swap = (compare k e).then (compare n m) := by
        rw [Ordering.swap_then, ← Std.OrientedCmp.eq_swap, ← Std.OrientedCmp.eq_swap]
      cases s <;> cases t <;> simp [UnpackedFloat.compare, ← hsizes]

/-- Only not-a-number cannot be compared. -/
theorem compare_eq_none_iff (f g : UnpackedFloat) :
    f.compare g = none ↔ f = .notANumber ∨ g = .notANumber := by
  cases f with
  -- the order of two floats is found from kinds and signs before their sizes
  | notANumber => simp [UnpackedFloat.compare]
  | infinity s => cases g <;> cases s <;> simp [UnpackedFloat.compare]
  | zero s =>
    cases g with
    | infinity t | finite t => cases t <;> simp [UnpackedFloat.compare]
    | _ => simp [UnpackedFloat.compare]
  | finite s m e hm =>
    cases g with
    | infinity t | finite t => cases s <;> cases t <;> simp [UnpackedFloat.compare]
    | _ => cases s <;> simp [UnpackedFloat.compare]

/-- How two numbers compare, if they do. -/
def comparison (a b : Float) : Option Ordering := a.toModel.unpack.compare b.toModel.unpack

variable {a b : Float}

theorem lt_iff_comparison : a < b ↔ comparison a b = some .lt := by
  change decide ((a.toModel.unpack.compare b.toModel.unpack == some .lt) = true) = true ↔ _
  rw [decide_eq_true_iff, beq_iff_eq, comparison]

theorem beq_iff_comparison : (a == b) = true ↔ comparison a b = some .eq := by
  change (a.toModel.unpack.compare b.toModel.unpack == some .eq) = true ↔ _
  rw [beq_iff_eq, comparison]

theorem gt_iff_comparison : b < a ↔ comparison a b = some .gt := by
  rw [lt_iff_comparison, comparison, comparison, ← compare_swap a.toModel.unpack]
  cases a.toModel.unpack.compare b.toModel.unpack with
  | none => simp
  | some o => cases o <;> simp

/-- Not-a-number is all that does not equal itself. -/
theorem isNumber_iff_unpack : IsNumber a ↔ a.toModel.unpack ≠ .notANumber := by
  rw [IsNumber, beq_iff_comparison, comparison]
  constructor
  · intro h hnan
    rw [(compare_eq_none_iff _ _).mpr (.inl hnan)] at h
    cases h
  · intro hnan
    -- a number compares with itself, and turning the order round changes nothing
    have hswap := compare_swap a.toModel.unpack a.toModel.unpack
    cases h : a.toModel.unpack.compare a.toModel.unpack with
    | none =>
      rw [compare_eq_none_iff, or_self] at h
      exact absurd h hnan
    | some o =>
      rw [h] at hswap
      cases o <;> simp_all

theorem comparison_eq_none_iff : comparison a b = none ↔ ¬ (IsNumber a ∧ IsNumber b) := by
  rw [comparison, compare_eq_none_iff, isNumber_iff_unpack, isNumber_iff_unpack]
  tauto

/-- The order that operators go by. -/
theorem numberOrder_eq_getD : numberOrder a b = (comparison a b).getD .eq := by
  unfold numberOrder
  simp only [lt_iff_comparison (a := a), gt_iff_comparison]
  cases comparison a b with
  | none => rfl
  | some o => cases o <;> rfl

/-- The operators of equality and order. -/
def BinaryOp.comparisons : List BinaryOp := [.equal, .less, .lessEqual, .greater, .greaterEqual]

/-- When one of these operators gives true, by how the numbers compare. -/
def BinaryOp.holdsOf : BinaryOp → Option Ordering → Bool
  | .equal, o => o == some .eq
  | op, o => op.accepts (o.getD .eq)

theorem BinaryOp.apply_numbers {op : BinaryOp} (hop : op ∈ comparisons) :
    op.apply (.number a) (.number b) = .ok (.bool (op.holdsOf (comparison a b))) := by
  have hequal : (a == b) = (comparison a b == some .eq) := by
    rw [Bool.eq_iff_iff, beq_iff_comparison, beq_iff_eq]
  simp only [comparisons, List.mem_cons, List.not_mem_nil, or_false] at hop
  rcases hop with rfl | rfl | rfl | rfl | rfl
  · exact congrArg (Except.ok <| Value.bool ·) hequal
  all_goals
    change Except.ok (Value.bool (BinaryOp.accepts _ (numberOrder a b))) = _
    rw [numberOrder_eq_getD]
    rfl

/-! ## §2 Evaluating operators -/

namespace Config

variable {below : List Frame} {c c' : Config} {f : Frame}

/-- An evaluation above more frames is one above fewer. -/
theorem Reaches.above (h : c.Reaches (f :: below) c') : c.Reaches below c' := by
  induction h with
  | refl => exact .refl
  | tail _ hgo ih => exact ih.tail ⟨fun ho => Nat.lt_of_succ_lt (hgo.1 ho), hgo.2⟩

/-- An evaluation above frames has one outcome. -/
theorem Reaches.unique {o o' : Control} {s s' : Session} (h : c.Reaches below ⟨o, below, s⟩)
    (h' : c.Reaches below ⟨o', below, s'⟩) (ho : o.isOutcome = true) (ho' : o'.isOutcome = true) :
    o = o' ∧ s = s' := by
  -- steps are functional, so of two paths from one configuration one goes on from the other
  have hunique : Relator.RightUnique fun c c' : Config => c.IsAbove below ∧ c.step = .next c' :=
    fun _ _ _ h h' => Step.next.inj (h.2.symm.trans h'.2)
  have hstop {o o' : Control} {s s' : Session} (ho : o.isOutcome = true)
      (h : Reaches below ⟨o, below, s⟩ ⟨o', below, s'⟩) : o = o' ∧ s = s' := by
    rcases Relation.ReflTransGen.cases_head h with heq | ⟨_, ⟨habove, -⟩, -⟩
    · cases heq
      exact ⟨rfl, rfl⟩
    · exact absurd (habove ho) (Nat.lt_irrefl _)
  rcases Relation.ReflTransGen.total_of_right_unique hunique h h' with h | h
  · exact hstop ho h
  · exact (hstop ho' h).imp Eq.symm Eq.symm

end Config

/-- Whatever waits for its value, the node is evaluated in the scope to the value, and the session
goes over to another. -/
def Node.Evaluates (x : Node) (scope : Nat) (s : Session) (v : Value) (s' : Session) : Prop :=
  ∀ below, Config.Reaches below ⟨.eval x scope, below, s⟩ ⟨.deliver v, below, s'⟩

section

variable {x y : Node} {scope : Nat} {s s₁ s₂ : Session} {v w u : Value} {op : BinaryOp}
  {loc : Location}

/-- An operator is evaluated by evaluating its operands from left to right and applying it. -/
theorem Config.reaches_binary (hand : op ≠ .and) (hor : op ≠ .or) (hx : x.Evaluates scope s v s₁)
    (hy : y.Evaluates scope s₁ w s₂) (loc : Location) (below : List Frame) :
    Config.Reaches below ⟨.eval (.binary op x y loc) scope, below, s⟩
      (ofResult (op.apply v w) loc below s₂) := by
  have hbegin : Config.Reaches below ⟨.eval (.binary op x y loc) scope, below, s⟩
      ⟨.eval x scope, .left op y scope loc :: below, s⟩ :=
    .single ⟨fun h => (by cases h), rfl⟩
  have hright : Config.Reaches below ⟨.deliver v, .left op y scope loc :: below, s₁⟩
      ⟨.eval y scope, .right op v loc :: below, s₁⟩ := by
    refine .single ⟨fun _ => Nat.lt_succ_self _, ?_⟩
    cases op <;> first | rfl | contradiction
  have hend : Config.Reaches below ⟨.deliver w, .right op v loc :: below, s₂⟩
      (ofResult (op.apply v w) loc below s₂) :=
    .single ⟨fun _ => Nat.lt_succ_self _, rfl⟩
  exact hbegin.trans ((hx _).above.trans (hright.trans ((hy _).above.trans hend)))

/-- The value of an operator between two expressions is that of their values. -/
theorem Node.evaluates_binary_iff (hand : op ≠ .and) (hor : op ≠ .or)
    (hx : x.Evaluates scope s v s₁) (hy : y.Evaluates scope s₁ w s₂) :
    (Node.binary op x y loc).Evaluates scope s u s₂ ↔ op.apply v w = .ok u := by
  have hreaches := Config.reaches_binary hand hor hx hy loc
  constructor
  · intro h
    have hreaches := hreaches []
    cases hresult : op.apply v w with
    -- a result and a fault end in different configurations
    | ok u' =>
      rw [hresult] at hreaches
      cases (Config.Reaches.unique (h []) hreaches rfl rfl).1
      rfl
    | error fault =>
      rw [hresult] at hreaches
      cases (Config.Reaches.unique (h []) hreaches rfl rfl).1
  · intro h below
    have hreaches := hreaches below
    rwa [h] at hreaches

/-- When one of these operators gives true between two expressions. -/
theorem Node.evaluates_true_iff (hop : op ∈ BinaryOp.comparisons)
    (hx : x.Evaluates scope s (.number a) s₁) (hy : y.Evaluates scope s₁ (.number b) s₂) :
    (Node.binary op x y loc).Evaluates scope s (.bool true) s₂ ↔
      op.holdsOf (comparison a b) = true := by
  have hand : op ≠ .and := by rintro rfl; simp [BinaryOp.comparisons] at hop
  have hor : op ≠ .or := by rintro rfl; simp [BinaryOp.comparisons] at hop
  rw [Node.evaluates_binary_iff hand hor hx hy, BinaryOp.apply_numbers hop, Except.ok.injEq,
    Value.bool.injEq]

end

/-! ## §3 The main result -/

/-- **Order and equality.** Between any two expressions with numbers as values, `<=` gives true
exactly if `<` or `==` does or one of the values is not-a-number, and `>=` exactly if `>` or `==`
does or one is. On not-a-number none of `<`, `>` and `==` gives true. -/
theorem order_and_equality {x y : Node} {scope : Nat} {s s₁ s₂ : Session}
    (hx : x.Evaluates scope s (.number a) s₁) (hy : y.Evaluates scope s₁ (.number b) s₂)
    (loc : Location) :
    let gives (op : BinaryOp) := (Node.binary op x y loc).Evaluates scope s (.bool true) s₂
    (gives .lessEqual ↔ gives .less ∨ gives .equal ∨ ¬ (IsNumber a ∧ IsNumber b)) ∧
      (gives .greaterEqual ↔ gives .greater ∨ gives .equal ∨ ¬ (IsNumber a ∧ IsNumber b)) ∧
      (¬ (IsNumber a ∧ IsNumber b) → ¬ gives .less ∧ ¬ gives .greater ∧ ¬ gives .equal) := by
  intro gives
  have hgives {op : BinaryOp} (hop : op ∈ BinaryOp.comparisons) :
      gives op ↔ op.holdsOf (comparison a b) = true := Node.evaluates_true_iff hop hx hy
  rw [hgives (by decide), hgives (by decide), hgives (by decide), hgives (by decide),
    hgives (by decide), ← comparison_eq_none_iff]
  -- all that is left to look at is how the two numbers compare
  cases comparison a b with
  | none => decide
  | some o => cases o <;> decide

/-- A call that makes a number of a text. -/
def numberCall (t : Text) : Node := .call "num" [.string t .nowhere] .nowhere

theorem numberCall_evaluates {t : Text} {v : Float} (h : (Decimal.read t.trim).toOption = some v)
    (out : Sink) :
    (numberCall t).Evaluates Store.global (.start out) (.number v) (.start out) := by
  intro below
  -- the frame that waits for the one argument of the call
  let waiting : Frame := .argument (.primitive (some .num)) "num" [] [] Store.global .nowhere
  have hargument : Config.Reaches below ⟨.eval (numberCall t) Store.global, below, .start out⟩
      ⟨.eval (.string t .nowhere) Store.global, waiting :: below, .start out⟩ :=
    .single ⟨fun h => (by cases h), rfl⟩
  have hstring : Config.Reaches below
      ⟨.eval (.string t .nowhere) Store.global, waiting :: below, .start out⟩
      ⟨.deliver (.string t), waiting :: below, .start out⟩ :=
    .single ⟨fun h => (by cases h), rfl⟩
  have hnumber : Config.deliverTo (.string t) waiting below (.start out)
      = ⟨.deliver (.number v), below, .start out⟩ := by
    have hvalue : (soleArgument [.string t] >>= numberFrom?) = .ok (.number v) := by
      cases hread : Decimal.read t.trim with
      | ok w =>
        rw [hread] at h
        cases h
        simp only [soleArgument, bind, Except.bind, numberFrom?, hread]
      | error e =>
        rw [hread] at h
        cases h
    simp only [waiting, Config.deliverTo, Config.nextArgument, List.reverse_singleton,
      Config.applyValue, Config.callPrimitive, hvalue]
  have hdeliver : Config.Reaches below ⟨.deliver (.string t), waiting :: below, .start out⟩
      ⟨.deliver (.number v), below, .start out⟩ :=
    .single ⟨fun _ => Nat.lt_succ_self _, congrArg Step.next hnumber⟩
  exact hargument.trans (hstring.trans hdeliver)

theorem number_evaluates (v : Float) (s : Session) :
    (Node.number v .nowhere).Evaluates Store.global s (.number v) s :=
  fun _ => .single ⟨fun h => (by cases h), rfl⟩

/-- The two zeros are equal, so one is at most the other without being less. -/
theorem order_and_equality_zeros :
    let s := Session.start .unlimited
    let gives (op : BinaryOp) :=
      (Node.binary op (numberCall "-0") (.number 0 .nowhere) .nowhere).Evaluates Store.global s
        (.bool true) s
    (numberCall "-0").Evaluates Store.global s (.number (-0)) s ∧
      (Node.number 0 .nowhere).Evaluates Store.global s (.number 0) s ∧
      gives .equal ∧ ¬ gives .less ∧ gives .lessEqual ∧ gives .greaterEqual := by
  intro s gives
  have hx : (numberCall "-0").Evaluates Store.global s (.number (-0)) s :=
    numberCall_evaluates rfl .unlimited
  have hy := number_evaluates 0 s
  obtain ⟨hle, hge, -⟩ := order_and_equality hx hy .nowhere
  have hequal : gives .equal := (Node.evaluates_true_iff (by decide) hx hy).mpr rfl
  have hless : ¬ gives .less := fun h =>
    Bool.false_ne_true ((Node.evaluates_true_iff (by decide) hx hy).mp h)
  exact ⟨hx, hy, hequal, hless, hle.mpr (.inr (.inl hequal)), hge.mpr (.inr (.inl hequal))⟩

/-- It is not so that `<=` gives true exactly if `<` or `==` does, nor `>=` exactly if `>` or `==`
does: not-a-number is at most and at least one, but neither less nor greater nor equal. -/
theorem order_without_equality :
    ¬ ∀ (x y : Node) (scope : Nat) (s s₁ s₂ : Session) (a b : Float),
      x.Evaluates scope s (.number a) s₁ → y.Evaluates scope s₁ (.number b) s₂ →
      let gives (op : BinaryOp) := (Node.binary op x y .nowhere).Evaluates scope s (.bool true) s₂
      (gives .lessEqual ↔ gives .less ∨ gives .equal) ∧
        (gives .greaterEqual ↔ gives .greater ∨ gives .equal) := by
  intro h
  -- the literal is read as not-a-number, which no operator of order but these two lets through
  have hx : (numberCall "nan").Evaluates Store.global (.start .unlimited)
      (.number Decimal.notANumber) (.start .unlimited) := numberCall_evaluates rfl .unlimited
  have hy := number_evaluates 1 (.start .unlimited)
  rcases (h _ _ _ _ _ _ _ _ hx hy).1.mp
    ((Node.evaluates_true_iff (by decide) hx hy).mpr rfl) with hless | hequal
  · exact Bool.false_ne_true ((Node.evaluates_true_iff (by decide) hx hy).mp hless)
  · exact Bool.false_ne_true ((Node.evaluates_true_iff (by decide) hx hy).mp hequal)

end Scriptlet
