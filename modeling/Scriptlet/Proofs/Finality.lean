import Scriptlet.Proofs.Agreement
import Scriptlet.Proofs.Appending
import Scriptlet.Proofs.Crashes
import Scriptlet.Proofs.Folding
import Scriptlet.Proofs.Onward

/-!
# Final errors

A source that the reducer refuses may be a program once there is more of it. The error says so where
something is open at the end: a string, a comment, an escape or a delimiter. It does not say so
where a construct lacks something behind the last token, although more could complete that just as
well. Every other error is final: whatever follows the source, it stays refused.

The argument goes against the steps of reading. Where the whole is a program, its tokens, its groups
and its reduced forest begin with those of the source, up to how its last tree grows. And what a
tree becomes by growing is an expression or a statement only if the tree is one already.

## Contents

- §1 what the end of a source may lack
- §2 expressions and statements that grow
- §3 forests that go on
- §4 the main result
-/

namespace Scriptlet

open Scriptlet.Tree

/-! ## §1 What the end of a source may lack -/

/-- The token is an operator that stands before an operand. -/
def Token.isSign (t : Token) : Bool := (Tree.leaf t).isSign

/-- The token is a name that is not reserved. -/
def Token.isName (t : Token) : Bool := (Tree.leaf t).isName

/-- The place of a fault of the kind where it is due to the end of the tokens: something is missing
behind the last token, behind a reserved word with only signs behind it, or behind a name with a
declaring word before it. -/
def ConstructFault.endLoc? (tokens : List Token) : ConstructFault → Option Location
  | .missingProperty | .missingRight | .missingAfterLeading => tokens.getLast?.map Token.loc
  | .missingAfterKeyword => (tokens.rdropWhile Token.isSign).getLast?.map Token.loc
  | .declarationForm _ =>
    if tokens.getLast?.any Token.isName then tokens.dropLast.getLast?.map Token.loc else none
  | _ => none

/-- What the construct lacks is missing where the tokens end. -/
def ConstructError.isAtEnd (tokens : List Token) (e : ConstructError) : Bool :=
  e.fault.endLoc? tokens == some e.loc

/-- What the source lacks is missing where it ends. -/
def SourceError.isAtEnd (source : Text) : SourceError → Bool
  | .construct e =>
    match tokenize source with
    | .ok tokens => e.isAtEnd tokens
    | .error _ => false
  | _ => false

/-! ## §2 Expressions and statements that grow -/

variable {x y : Tree}

/-- Only names are called. -/
theorem name_of_lowerExpr_call {f : Family} {loc : Location} {n : Node}
    (hgroup : y.isGroup f = true) (h : lowerExpr (.binary .call x y loc) = .ok n) :
    ∃ name i level loc, x = .leaf ⟨.name name, i, level, loc⟩ := by
  cases y with
  | group g cs groupLoc =>
    cases lowersTo_of_lowerExpr h with
    | callNone name i level nameLoc => exact ⟨name, i, level, nameLoc, rfl⟩
    | @call name _ _ _ i level nameLoc => exact ⟨name, i, level, nameLoc, rfl⟩
  | _ => cases hgroup

/-- What an expression has grown out of is an expression. -/
theorem lowerExpr_of_grows (h : Grows x y) {n : Node} (hy : lowerExpr y = .ok n) :
    ∃ m, lowerExpr x = .ok m := by
  induction h generalizing n with
  | refl t => exact ⟨n, hy⟩
  | keyword k loc _ _ => cases hy
  | leading op loc h ih =>
    rw [lowerExpr]
    cases lowersTo_of_lowerExpr hy with
    | negate _ hx | not _ hx | plus _ hx =>
      obtain ⟨m, hm⟩ := ih hx
      rw [hm]
      exact ⟨_, rfl⟩
  | between tier op left loc h ih =>
    cases lowersTo_of_lowerExpr hy with
    | between _ _ hop hleft hright =>
      obtain ⟨m, hm⟩ := ih hright
      rw [lowerExpr, hop]
      exact ⟨_, bind_eq_ok.mpr ⟨_, hleft, bind_eq_ok.mpr ⟨m, hm, rfl⟩⟩⟩
  | @joined x left t parts hx hleft hjoins ih =>
    -- of the constructs an operand can come first in, only calls and these operators are lowered
    cases hjoins with
    | member | index | function | trailing => cases hy
    | keyword => cases hleft
    | leading hop =>
      rw [not_isOperand_of_operator? hop] at hleft
      cases hleft
    | call hgroup =>
      obtain ⟨name, i, level, loc, rfl⟩ := name_of_lowerExpr_call hgroup hy
      obtain rfl := hx.eq_of_isLeaf rfl
      exact ⟨.ident name loc, rfl⟩
    | between =>
      cases lowersTo_of_lowerExpr hy with
      | between _ _ _ hleft _ => exact ih hleft

/-- A reserved word of what has grown is one of what it has grown out of. -/
theorem liftKeyword_of_grows (h : Grows x y) (hy : y.loose.isSound = true) {k : Keyword}
    {at_ : Location} {rest' : Tree} (hlift : liftKeyword y = some (k, at_, rest')) :
    ∃ rest, liftKeyword x = some (k, at_, rest) ∧ Grows rest rest' := by
  induction h generalizing rest' with
  | refl t => exact ⟨rest', hlift, .refl _⟩
  | keyword word loc hgrows =>
    cases hlift
    exact ⟨_, rfl, hgrows⟩
  | leading => cases hlift
  | between tier op left loc hgrows =>
    obtain ⟨⟨word, wordLoc, inner⟩, hinner, heq⟩ := Option.map_eq_some_iff.mp hlift
    cases heq
    refine ⟨_, ?_, .between tier op inner loc hgrows⟩
    rw [liftKeyword, hinner]
    rfl
  | @joined x left t parts hx hleft hjoins ih =>
    cases hjoins with
    | keyword => cases hleft
    | between hop _ hright =>
      obtain ⟨⟨word, wordLoc, inner⟩, hinner, heq⟩ := Option.map_eq_some_iff.mp hlift
      cases heq
      obtain ⟨-, hsound, -⟩ := isSound_between hy
      obtain ⟨rest, hrest, hgrows⟩ := ih hsound hinner
      -- without the word the operator still stands between operands
      have hoperand := (isSound_liftKeyword hsound hinner).1
      exact ⟨rest, hrest, hgrows.joined hoperand (.between hop hoperand hright)⟩
    | _ => cases hlift

/-- An expression is a statement. -/
theorem lowerSimple_of_lowerExpr (hx : x.loose.isSound = true) {n : Node}
    (h : lowerExpr x = .ok n) : lowerSimple x = .ok n := by
  unfold lowerSimple
  rw [liftKeyword_of_lowerExpr h]
  simp only
  split
  · -- the operators of assignments are none of expressions
    next op target value loc =>
    rw [lowerExpr, toBinary?_of_assignment (isSound_between hx).1] at h
    cases h
  · exact h

/-- The tree is a reserved word and a name, and the error is that a declaration takes more. -/
def LacksValue (t : Tree) (e : ConstructError) : Prop :=
  ∃ k u loc, t = .unary (.keyword k) (.leaf u) loc ∧ u.isName = true ∧
    e = ⟨.unsupported, [], .declarationForm k, loc⟩

theorem eq_unary_of_liftKeyword {k : Keyword} {at_ : Location} {u : Token}
    (h : liftKeyword x = some (k, at_, .leaf u)) : x = .unary (.keyword k) (.leaf u) at_ := by
  unfold liftKeyword at h
  split at h
  · cases h
    rfl
  · obtain ⟨_, -, heq⟩ := Option.map_eq_some_iff.mp h
    cases heq
  · cases h

/-- Where more than its name and the sign could be missing, a declaration is refused like this. -/
theorem lowerDeclaration_of_grows {whole whole' rest rest' : Tree} (k : Keyword) (at_ : Location)
    (h : Grows rest rest') {n : Node} (hok : lowerDeclaration whole' k at_ rest' = .ok n) :
    (∃ m, lowerDeclaration whole k at_ rest = .ok m) ∨ rest.isName = true ∧
      lowerDeclaration whole k at_ rest = whole.refuse (.declarationForm k) := by
  obtain ⟨name, i, level, nameLoc, value, loc, v, rfl, hv, -⟩ := exists_of_lowerDeclaration hok
  cases h with
  | refl => exact .inl ⟨_, bind_eq_ok.mpr ⟨v, hv, rfl⟩⟩
  | between _ _ _ _ hgrows =>
    obtain ⟨w, hw⟩ := lowerExpr_of_grows hgrows hv
    exact .inl ⟨_, bind_eq_ok.mpr ⟨w, hw, rfl⟩⟩
  | joined hgrows _ hjoins =>
    -- all there is of the assignment is its target
    cases hjoins
    obtain rfl := hgrows.eq_of_isLeaf rfl
    exact .inr ⟨rfl, rfl⟩

theorem lacksValue_of_grows {k : Keyword} {at_ : Location} {rest rest' : Tree}
    (hlift : liftKeyword x = some (k, at_, rest)) (h : Grows rest rest') {n : Node}
    (hok : lowerDeclaration y k at_ rest' = .ok n) :
    (∃ m, lowerDeclaration x k at_ rest = .ok m) ∨
      ∃ e, lowerDeclaration x k at_ rest = .error e ∧ LacksValue x e := by
  refine (lowerDeclaration_of_grows k at_ h hok).imp_right ?_
  rintro ⟨hname, hrefuse⟩
  cases rest with
  | leaf u =>
    obtain rfl := eq_unary_of_liftKeyword hlift
    exact ⟨_, hrefuse, k, u, at_, rfl, hname, rfl⟩
  | _ => cases hname

/-- Only names are assigned to, and the value may be what it has grown out of. -/
theorem name_of_lowerAssignment {op : Operator} {target value : Tree} {loc : Location} {n : Node}
    (h : lowerAssignment op target value loc = .ok n) :
    (∃ name i level nameLoc, target = .leaf ⟨.name name, i, level, nameLoc⟩) ∧
      ∀ v, Grows v value → ∃ m, lowerAssignment op target v loc = .ok m := by
  cases lowersAssignment_of_lowerAssignment h with
  | assign name i level nameLoc hop ha | update name i level nameLoc hop ha =>
    refine ⟨⟨name, i, level, nameLoc, rfl⟩, fun v hgrows => ?_⟩
    -- the value has grown out of an expression that lowers as well
    obtain ⟨b, hb⟩ := lowerExpr_of_grows hgrows ha
    exact ⟨_, bind_eq_ok.mpr ⟨b, hb, by rw [hop]; rfl⟩⟩

/-- What a statement has grown out of is a statement, unless it is a declaration without a value. -/
theorem lowerSimple_of_grows (h : Grows x y) (hx : x.loose.isSound = true)
    (hy : y.loose.isSound = true) {n : Node} (hok : lowerSimple y = .ok n) :
    (∃ m, lowerSimple x = .ok m) ∨ ∃ e, lowerSimple x = .error e ∧ LacksValue x e := by
  cases lowersSimple_of_lowerSimple hok with
  | @giveBack at_ _ _ hlift hvalue =>
    obtain ⟨rest, hrest, hgrows⟩ := liftKeyword_of_grows h hy hlift
    obtain ⟨w, hw⟩ := lowerExpr_of_grows hgrows hvalue
    refine .inl ⟨.giveBack w at_, ?_⟩
    unfold lowerSimple
    rw [hrest]
    exact bind_eq_ok.mpr ⟨w, hw, rfl⟩
  | declare hk hlift hdeclare =>
    obtain ⟨rest, hrest, hgrows⟩ := liftKeyword_of_grows h hy hlift
    unfold lowerSimple
    rw [hrest]
    rcases hk with rfl | rfl
    · exact lacksValue_of_grows hrest hgrows hdeclare
    · exact lacksValue_of_grows hrest hgrows hdeclare
  | assignment hwhole hassign =>
    subst hwhole
    obtain ⟨⟨name, i, level, nameLoc, rfl⟩, hvalue⟩ := name_of_lowerAssignment hassign
    cases h with
    | refl => exact .inl ⟨n, hok⟩
    | between _ _ _ _ hgrows => exact .inl (hvalue _ hgrows)
    | joined hgrows _ hjoins =>
      -- the target by itself is an expression
      cases hjoins
      obtain rfl := hgrows.eq_of_isLeaf rfl
      exact .inl ⟨.ident name nameLoc, rfl⟩
  | expression hexpr =>
    obtain ⟨m, hm⟩ := lowerExpr_of_grows h hexpr
    exact .inl ⟨m, lowerSimple_of_lowerExpr hx hm⟩

theorem lowerStatement_of_grows (h : Grows x y) (hx : x.loose.isSound = true)
    (hy : y.loose.isSound = true) {n : Node} (hok : lowerStatement y = .ok n) :
    (∃ m, lowerStatement x = .ok m) ∨ ∃ e, lowerStatement x = .error e ∧ LacksValue x e := by
  have hbraces : ∀ t : Tree, t.isGroup .brace = false → lowerStatement t = lowerSimple t := by
    intro t ht
    rw [lowerStatement]
    rintro cs loc rfl
    cases ht
  cases hgroup : y.isGroup .brace with
  | true =>
    obtain rfl := h.eq_of_isGroup hgroup
    exact .inl ⟨n, hok⟩
  | false =>
    rw [hbraces y hgroup] at hok
    have hsimple := lowerSimple_of_grows h hx hy hok
    -- braces grow into larger trees, but those are no statements
    have hx' : x.isGroup .brace = false := by
      rcases hsimple with ⟨m, hm⟩ | ⟨e, -, k, u, loc, rfl, -⟩
      · rw [Bool.eq_false_iff]
        intro hbrace
        cases x with
        | group f cs loc =>
          obtain rfl : .brace = f := by simpa [isGroup] using hbrace
          cases hm
        | _ => cases hbrace
      · rfl
    rwa [hbraces x hx']

/-! ## §3 Forests that go on -/

/-- There is nothing behind a statement, or a semicolon. -/
def Continues (ts : List Tree) : Prop := ∀ t ∈ ts.head?, t.isOperator .semicolon = true

variable {t : Tree} {ts : List Tree}

theorem lowerStatements_cons (ht : t.isOperator .semicolon = false) (hts : Continues ts) :
    lowerStatements (t :: ts) = lowerStatement t >>= fun x =>
      lowerStatements ts >>= fun xs => .ok (x :: xs) := by
  cases ts with
  | nil =>
    rw [lowerStatements, lowerStatements, ht]
    rfl
  | cons next rest =>
    rw [lowerStatements, ht, hts next rfl]
    rfl

theorem continues_of_lowerStatements {ns : List Node} (ht : t.isOperator .semicolon = false)
    (h : lowerStatements (t :: ts) = .ok ns) : Continues ts := by
  cases ts with
  | nil => exact fun _ h => nomatch h
  -- the next tree was tested for a semicolon before the rest was lowered
  | cons next rest =>
    rw [lowerStatements, ht] at h
    simp only [Bool.false_eq_true, if_false] at h
    split at h
    · next hnext =>
      rintro u ⟨⟩
      exact hnext
    · cases h

theorem not_isOperand_of_isOperator {op : Operator} (h : t.isOperator op = true) :
    t.isOperand = false := by
  unfold isOperator at h
  split at h
  · rfl
  · cases h

/-- In a program there are no two operands in a row. -/
theorem not_broken_of_lowerStatements {ns : List Node} (h : lowerStatements ts = .ok ns) :
    ¬ Broken ts := by
  induction ts generalizing ns with
  | nil => exact fun hbroken => nomatch hbroken
  | cons t ts ih =>
    intro hbroken
    cases hsemi : t.isOperator .semicolon with
    | true =>
      rw [lowerStatements_of_semicolon hsemi] at h
      -- the pair is at the head of the row or behind it, and the head is a semicolon or a statement
      cases hbroken with
      | here _ _ _ hx =>
        rw [not_isOperand_of_isOperator hsemi] at hx
        cases hx
      | later _ hbroken => exact ih h hbroken
    | false =>
      have hnext := continues_of_lowerStatements hsemi h
      rw [lowerStatements_cons hsemi hnext] at h
      obtain ⟨_, -, h⟩ := bind_eq_ok.mp h
      obtain ⟨xs, hxs, -⟩ := bind_eq_ok.mp h
      cases hbroken with
      | here _ y _ _ hy =>
        have hoperand := hy.1
        rw [not_isOperand_of_isOperator (hnext y rfl)] at hoperand
        cases hoperand
      | later _ hbroken => exact ih hxs hbroken

/-- An operator has not grown from anything. -/
theorem eq_of_grows_of_isOperator {x y : Tree} {op : Operator} (h : Grows x y)
    (hy : y.isOperator op = true) : x = y :=
  h.eq_of_isLeaf (isLeaf_of_not_isOperand (not_isOperand_of_isOperator hy))

theorem Ahead.continues {short long : List Tree} (h : Ahead short long) (hlong : Continues long) :
    Continues short := by
  rcases h.cases_head with ⟨x, y, behind, rfl, rfl, hgrows⟩ | ⟨u, short', long', rfl, rfl, -⟩
  · have hsemi := hlong y rfl
    rwa [← eq_of_grows_of_isOperator hgrows hsemi] at hlong
  · exact hlong

/-- Where the longer forest is a program, the shorter one is, or its last tree is a declaration
without a value. -/
theorem lowerStatements_of_ahead {short long : List Tree} (h : Ahead short long)
    (hshort : ∀ t ∈ short, t.loose.isSound = true) (hlong : ∀ t ∈ long, t.loose.isSound = true)
    {ns : List Node} (hok : lowerStatements long = .ok ns) :
    (∃ ms, lowerStatements short = .ok ms) ∨
      ∃ e before t, lowerStatements short = .error e ∧ short = before ++ [t] ∧ LacksValue t e := by
  -- by induction on what the forests have in common, where both are lowered alike
  induction short generalizing long ns with
  | nil => exact .inl ⟨[], by rw [lowerStatements]⟩
  | cons t short ih =>
    rw [List.forall_mem_cons] at hshort
    rcases h.cases_head with ⟨x, y, behind, hone, rfl, hgrows⟩ | ⟨u, short', long', heq, rfl, hrest⟩
    · -- the last tree of the short forest
      obtain ⟨rfl, rfl⟩ := List.cons.inj hone
      rw [List.forall_mem_cons] at hlong
      cases hsemi : t.isOperator .semicolon with
      | true =>
        rw [lowerStatements_of_semicolon hsemi]
        exact .inl ⟨[], by rw [lowerStatements]⟩
      | false =>
        have hsemi' : y.isOperator .semicolon = false := by
          rw [Bool.eq_false_iff]
          intro htrue
          rw [eq_of_grows_of_isOperator hgrows htrue, htrue] at hsemi
          cases hsemi
        rw [lowerStatements_cons hsemi' (continues_of_lowerStatements hsemi' hok)] at hok
        obtain ⟨n, hn, -⟩ := bind_eq_ok.mp hok
        rw [lowerStatements_cons hsemi (by simp [Continues])]
        rcases lowerStatement_of_grows hgrows hshort.1 hlong.1 hn with ⟨m, hm⟩ | ⟨e, he, hlacks⟩
        · exact .inl ⟨[m], bind_eq_ok.mpr ⟨m, hm, by rw [lowerStatements]; rfl⟩⟩
        · exact .inr ⟨e, [], t, by rw [he]; rfl, rfl, hlacks⟩
    · obtain ⟨rfl, rfl⟩ := List.cons.inj heq
      rw [List.forall_mem_cons] at hlong
      have hbehind : ∀ ns, lowerStatements long' = .ok ns →
          (∃ ms, lowerStatements short = .ok ms) ∨ ∃ e before last,
            lowerStatements short = .error e ∧ t :: short = before ++ [last] ∧
              LacksValue last e := by
        intro ns hns
        refine (ih hrest hshort.2 hlong.2 hns).imp_right ?_
        rintro ⟨e, before, last, he, rfl, hlacks⟩
        exact ⟨e, t :: before, last, he, rfl, hlacks⟩
      cases hsemi : t.isOperator .semicolon with
      | true =>
        rw [lowerStatements_of_semicolon hsemi] at hok ⊢
        exact hbehind ns hok
      | false =>
        have hnext := continues_of_lowerStatements hsemi hok
        rw [lowerStatements_cons hsemi hnext] at hok
        obtain ⟨n, hn, hok⟩ := bind_eq_ok.mp hok
        obtain ⟨xs, hxs, -⟩ := bind_eq_ok.mp hok
        rw [lowerStatements_cons hsemi (hrest.continues hnext), hn]
        rcases hbehind xs hxs with ⟨ms, hms⟩ | ⟨e, before, last, he, hlast, hlacks⟩
        · exact .inl ⟨n :: ms, by rw [hms]; rfl⟩
        · exact .inr ⟨e, before, last, by rw [he]; rfl, hlast, hlacks⟩

/-- A declaration without a value is missing something at the end. -/
theorem atEnd_of_lacksValue {ts us before : List Tree} {e : ConstructError}
    (hts : ∀ t ∈ ts, t.Bare) (h : Reduces ts us) (hus : us = before ++ [t]) (ht : LacksValue t e) :
    e.AtEnd ts := by
  obtain ⟨k, u, loc, rfl, hname, rfl⟩ := ht
  rcases word_and_name_of_reduces h hus with ⟨before', rfl⟩ | ⟨before', word, rfl, rfl⟩
  · -- nothing has been recognised in the forest of tokens
    have hbare := hts _ (List.mem_append_right _ List.mem_cons_self)
    cases hbare
  · exact .declaration before' word u rfl ⟨k, rfl⟩ hname

/-! ## §4 The main result -/

theorem writtenAll_append (ts us : List Tree) :
    writtenAll (ts ++ us) = writtenAll ts ++ writtenAll us := by
  induction ts with
  | nil => rfl
  | cons t ts ih => rw [List.cons_append, writtenAll, writtenAll, ih, List.append_assoc]

/-- The tokens differ in their numbers and levels only. -/
def Token.Agrees (t u : Token) : Prop := t.lexeme = u.lexeme ∧ t.loc = u.loc

theorem Token.agrees_of_written {t u : Token} (h : t.written = (u.lexeme, some u.loc)) :
    t.Agrees u := by
  unfold Token.written at h
  obtain ⟨hlexeme, hloc⟩ := Prod.mk.inj h
  refine ⟨hlexeme, ?_⟩
  split at hloc
  · cases hloc
  · exact Option.some.inj hloc

theorem Token.Agrees.isSign_eq {t u : Token} (h : t.Agrees u) : t.isSign = u.isSign := by
  obtain ⟨x, i, level, loc⟩ := t
  obtain ⟨x', i', level', loc'⟩ := u
  obtain ⟨rfl, rfl⟩ : x = x' ∧ loc = loc' := h
  cases x <;> rfl

theorem Token.Agrees.isName_eq {t u : Token} (h : t.Agrees u) : t.isName = u.isName := by
  obtain ⟨x, i, level, loc⟩ := t
  obtain ⟨x', i', level', loc'⟩ := u
  obtain ⟨rfl, rfl⟩ : x = x' ∧ loc = loc' := h
  cases x <;> rfl

/-- The leaves at the end of the groups are the last tokens. -/
theorem tokens_of_leaves {tokens : List Token} {before : List Tree} (us : List Token)
    (h : foldGroups tokens = .ok (before ++ us.map .leaf)) :
    ∃ first last, tokens = first ++ last ∧ List.Forall₂ Token.Agrees last us := by
  have hleaves : ∀ {last us : List Token}, last.map Token.written = writtenAll (us.map .leaf) →
      List.Forall₂ Token.Agrees last us := by
    intro last us hlast
    induction us generalizing last with
    | nil =>
      obtain rfl := List.map_eq_nil_iff.mp hlast
      exact .nil
    | cons u us ih =>
      obtain ⟨t, rest, rfl, ht, hrest⟩ := List.map_eq_cons_iff.mp hlast
      exact .cons (Token.agrees_of_written ht) (ih hrest)
  -- the leaves written out are the last of the tokens written out
  have hwritten := writtenAll_of_foldGroups h
  rw [writtenAll_append] at hwritten
  obtain ⟨first, last, rfl, -, hlast⟩ := List.map_eq_append_iff.mp hwritten.symm
  exact ⟨first, last, rfl, hleaves hlast⟩

/-- Operators before operands are leaves. -/
theorem exists_leaves_of_isSign {signs : List Tree} (h : ∀ u ∈ signs, u.isSign = true) :
    ∃ us : List Token, signs = us.map .leaf ∧ ∀ u ∈ us, u.isSign = true := by
  induction signs with
  | nil => exact ⟨[], rfl, by simp⟩
  | cons t signs ih =>
    rw [List.forall_mem_cons] at h
    obtain ⟨us, rfl, hus⟩ := ih h.2
    obtain ⟨_, hop⟩ := Option.isSome_iff_exists.mp h.1
    obtain ⟨u, rfl, -⟩ := leaf_of_operator? hop
    exact ⟨u :: us, rfl, List.forall_mem_cons.mpr ⟨h.1, hus⟩⟩

theorem rdropWhile_isSign {first signs : List Token} {t : Token} (ht : t.isSign = false)
    (hsigns : ∀ u ∈ signs, u.isSign = true) :
    (first ++ t :: signs).rdropWhile Token.isSign = first ++ [t] := by
  rw [List.rdropWhile, List.reverse_append, List.reverse_cons, List.append_assoc,
    List.dropWhile_append_of_pos (by simpa using hsigns), List.singleton_append,
    List.dropWhile_cons_of_neg (by simp [ht]), List.reverse_cons, List.reverse_reverse]

/-- What is missing at the end of the groups is missing where the tokens end. -/
theorem ConstructError.AtEnd.isAtEnd {tokens : List Token} {groups : List Tree} {e : ConstructError}
    (hgroups : foldGroups tokens = .ok groups) (h : e.AtEnd groups) : e.isAtEnd tokens = true := by
  unfold ConstructError.isAtEnd
  rw [beq_iff_eq]
  -- what is missing at the end of the groups is one token, or a word with its signs, or a name
  cases h with
  | last before t hloc hfault =>
    obtain ⟨first, last, rfl, hlast⟩ := tokens_of_leaves [t] hgroups
    cases hlast with
    | cons ht hnil =>
      cases hnil
      simp only [List.mem_cons, List.not_mem_nil, or_false] at hfault
      rcases hfault with hfault | hfault | hfault <;>
        simp [hfault, hloc, ConstructFault.endLoc?, ht.2]
  | keyword before t signs hloc hfault ht hsigns =>
    obtain ⟨k, hk⟩ := ht
    obtain ⟨us, rfl, hus⟩ := exists_leaves_of_isSign hsigns
    obtain ⟨first, last, rfl, hlast⟩ := tokens_of_leaves (t :: us) hgroups
    cases hlast with
    | @cons word _ rest _ hword hrest =>
      have hno : word.isSign = false := by
        rw [hword.isSign_eq]
        obtain ⟨x, i, level, loc⟩ := t
        obtain rfl : x = .keyword k := hk
        rfl
      have hsigns' : ∀ u ∈ rest, u.isSign = true := by
        clear hgroups hsigns
        induction hrest with
        | nil => simp
        | cons hsame _ ih =>
          rw [List.forall_mem_cons] at hus ⊢
          exact ⟨hsame.isSign_eq.trans hus.1, ih hus.2⟩
      rw [hfault, hloc, ConstructFault.endLoc?, rdropWhile_isSign hno hsigns']
      simp [hword.2]
  | declaration before word name hloc hfault hname =>
    obtain ⟨first, last, rfl, hlast⟩ := tokens_of_leaves [word, name] hgroups
    cases hlast with
    | cons hword hlast =>
      cases hlast with
      | @cons last _ _ _ hlast hnil =>
        cases hnil
        obtain ⟨k, hk⟩ := hfault
        have hname' : last.isName = true := hlast.isName_eq.trans hname
        simp [hk, hloc, ConstructFault.endLoc?, hname', hword.2]

section

variable {source : Text} {tokens : List Token} {groups forest : List Tree} {e : ConstructError}

theorem readProgram_lexical {e : LexError} (h : tokenize source = .error e) :
    readProgram .reducer source = .error (.lexical e) := by
  have htokens : tokensOf source = .error (.lexical e) := by rw [tokensOf, h]; rfl
  rw [readProgram, readForest, forestOf, groupsOf, htokens]
  rfl

theorem readProgram_unbalanced {e : UnbalancedError} (htokens : tokenize source = .ok tokens)
    (h : foldGroups tokens = .error e) :
    readProgram .reducer source = .error (.unbalanced e) := by
  have hgroups : groupsOf source = .error (.unbalanced e) := by
    rw [groupsOf, tokensOf, htokens]
    exact (congrArg (Except.mapError _) h)
  rw [readProgram, readForest, forestOf, hgroups]
  rfl

theorem readProgram_reduce (htokens : tokenize source = .ok tokens)
    (hgroups : foldGroups tokens = .ok groups) (h : reduce groups = .error e) :
    readProgram .reducer source = .error (.construct e) := by
  have hgroupsOf : groupsOf source = .ok groups :=
    bind_eq_ok.mpr ⟨tokens, mapError_eq_ok.mpr htokens, mapError_eq_ok.mpr hgroups⟩
  have hforest : forestOf source = .error (.construct e) := by
    rw [forestOf, hgroupsOf]
    exact (congrArg (Except.mapError _) h)
  rw [readProgram, readForest, hforest]
  rfl

theorem readProgram_lower (htokens : tokenize source = .ok tokens)
    (hgroups : foldGroups tokens = .ok groups) (hforest : reduce groups = .ok forest)
    (h : lower forest = .error e) : readProgram .reducer source = .error (.construct e) := by
  have hgroupsOf : groupsOf source = .ok groups :=
    bind_eq_ok.mpr ⟨tokens, mapError_eq_ok.mpr htokens, mapError_eq_ok.mpr hgroups⟩
  have hforestOf : forestOf source = .ok forest :=
    bind_eq_ok.mpr ⟨groups, hgroupsOf, mapError_eq_ok.mpr hforest⟩
  rw [readProgram, readForest, hforestOf]
  exact (congrArg (Except.mapError _) h)

end

/-- Where the groups are those of a program up to what follows, they are a program by themselves,
or something is missing at their end. -/
theorem lower_of_append {tokens tokens' : List Token} {ts more forest : List Tree} {p : Program}
    (hts : foldGroups tokens = .ok ts) (hlong : foldGroups tokens' = .ok (ts ++ more))
    (hforest : reduce (ts ++ more) = .ok forest) (hp : lower forest = .ok p) :
    (∃ short q, reduce ts = .ok short ∧ lower short = .ok q) ∨
      (∃ e, reduce ts = .error e ∧ e.AtEnd ts) ∨
      ∃ short e, reduce ts = .ok short ∧ lower short = .error e ∧ e.AtEnd ts := by
  obtain ⟨ns, hns, -⟩ := bind_eq_ok.mp hp
  by_cases hempty : ts = []
  · subst hempty
    exact .inl ⟨[], ⟨[], .nowhere⟩, rfl, rfl⟩
  -- reduction keeps up with the longer row, and so does lowering
  rcases keepsUp_reduce ts more hempty forest hforest with
    hbroken | ⟨short, hshort, hahead⟩ | herror
  · exact absurd hbroken (not_broken_of_lowerStatements hns)
  · rcases lowerStatements_of_ahead hahead (isSound_reduce hts hshort)
      (isSound_reduce hlong hforest) hns with ⟨ms, hms⟩ | ⟨e, before, t, he, hlast, hlacks⟩
    · exact .inl ⟨short, _, hshort, bind_eq_ok.mpr ⟨ms, hms, rfl⟩⟩
    · refine .inr (.inr ⟨short, e, hshort, ?_, ?_⟩)
      · rw [lower, he]
        rfl
      · exact atEnd_of_lacksValue (bare_of_foldGroups hts) (reduces_reduce hshort) hlast hlacks
  · exact .inr (.inl herror)

/-- Where a source that ends in a line end begins a program, it is a program itself, or something is
open or missing at its end. -/
theorem readProgram_of_append {source more : Text} {p : Program}
    (hline : source.getLast? = some Text.newline)
    (h : readProgram .reducer (source ++ more) = .ok p) :
    (∃ q, readProgram .reducer source = .ok q) ∨ ∃ e, readProgram .reducer source = .error e ∧
      (e.isIncomplete = true ∨ e.isAtEnd source = true) := by
  obtain ⟨tokens', groups', forest, htokens', hgroups', hforest, hp⟩ := readProgram_reducer.mp h
  -- each step of reading the whole succeeds for the source alone, or something is open or missing
  rcases prefix_of_tokenize hline htokens' with ⟨tokens, htokens, us, rfl⟩ | ⟨e, he, hopen⟩
  swap
  · exact .inr ⟨_, readProgram_lexical he, .inl hopen⟩
  rcases prefix_of_foldGroups hgroups' with ⟨groups, hgroups, vs, rfl⟩ | ⟨e, he, hopen⟩
  swap
  · exact .inr ⟨_, readProgram_unbalanced htokens he, .inl hopen⟩
  have hend : ∀ e : ConstructError, e.AtEnd groups →
      (SourceError.construct e).isAtEnd source = true := by
    intro e he
    rw [SourceError.isAtEnd, htokens]
    exact he.isAtEnd hgroups
  rcases lower_of_append hgroups hgroups' hforest hp with
    ⟨short, q, hshort, hq⟩ | ⟨e, he, hmissing⟩ | ⟨short, e, hshort, he, hmissing⟩
  · exact .inl ⟨q, readProgram_reducer.mpr ⟨tokens, groups, short, htokens, hgroups, hshort, hq⟩⟩
  · exact .inr ⟨_, readProgram_reduce htokens hgroups he, .inr (hend e hmissing)⟩
  · exact .inr ⟨_, readProgram_lower htokens hgroups hshort he, .inr (hend e hmissing)⟩

/-- **An error that is not about the end is final.** Where the reducer refuses a source that ends in
a line end, nothing is open there, and nothing is missing behind its last tokens, then the reducer
refuses the source with any text behind it. -/
theorem readProgram_append_error (source more : Text) (e : SourceError)
    (hline : source.getLast? = some Text.newline) (h : readProgram .reducer source = .error e)
    (hclosed : e.isIncomplete = false) (hend : e.isAtEnd source = false) :
    ∃ e', readProgram .reducer (source ++ more) = .error e' := by
  -- a longer source with a program would make the error one about the end
  cases hlong : readProgram .reducer (source ++ more) with
  | error e' => exact ⟨e', rfl⟩
  | ok p =>
    rcases readProgram_of_append hline hlong with ⟨q, hq⟩ | ⟨e', he', hmore⟩
    · rw [hq] at h
      cases h
    · obtain rfl : e = e' := Except.error.inj (h.symm.trans he')
      rw [hclosed, hend] at hmore
      rcases hmore with hmore | hmore <;> cases hmore

/-- Two statements without a semicolon between them are refused whatever follows. -/
theorem readProgram_append_error_juxtaposed :
    let source : Text := "let x = 1 2;\n"
    ∃ e, readProgram .reducer source = .error e ∧
      ∃ e', readProgram .reducer (source ++ "+ 3;") = .error e' := by
  intro source
  have hfinal : (match readProgram .reducer source with
    | .error e => !e.isIncomplete && !e.isAtEnd source
    | .ok _ => false) = true := by decide +kernel
  split at hfinal
  · next e h =>
    rw [Bool.and_eq_true, Bool.not_eq_true', Bool.not_eq_true'] at hfinal
    exact ⟨e, h, readProgram_append_error source _ e (by decide) h hfinal.1 hfinal.2⟩
  · cases hfinal

/-- A sum without its second operand is refused, and nothing says that more could complete it, but
the operand may follow in the next line. -/
theorem not_readProgram_append_error :
    ¬ ∀ (source more : Text) (e : SourceError), source.getLast? = some Text.newline →
      readProgram .reducer source = .error e → e.isIncomplete = false →
        ∃ e', readProgram .reducer (source ++ more) = .error e' := by
  intro hall
  have hrefused : (match readProgram .reducer "1 +\n" with
    | .error e => !e.isIncomplete
    | .ok _ => false) = true := by decide +kernel
  have hread : (readProgram .reducer (("1 +\n" : Text) ++ "2;\n")).isOk = true := by decide +kernel
  split at hrefused
  · next e h =>
    rw [Bool.not_eq_true'] at hrefused
    obtain ⟨e', he'⟩ := hall "1 +\n" "2;\n" e (by decide) h hrefused
    rw [he'] at hread
    cases hread
  · cases hrefused

end Scriptlet
