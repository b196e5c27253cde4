import Scriptlet.Proofs.Completion
import Scriptlet.Proofs.Segment

/-!
# What the grammar has read is derivable

`Covers` says of a parser and a language of symbols that whatever the parser reads is a word of the
language. Unlike a viable parser it may have met the end of the stream on the way, so this is what
is known of a source that is accepted. The rules of expressions cover the languages of derivations.

A statement that is none of the forms that statements have of their own was read by the last
alternative, the one for expressions. So where a whole source is one such statement and has no
semicolon, its symbols derive an expression.

## Contents

- §1 runs that succeed
- §2 the judgement
- §3 terminals, choice and repetition
- §4 expressions
- §5 values of parsers
- §6 forms of statements
- §7 sources that are one expression
-/

namespace Scriptlet

open scoped Computability

namespace Parser

variable {α β : Type} {s : Stream} {pos fin : Nat} {t t' : Trace}

/-! ## §1 Runs that succeed -/

/-- A value comes of a value or of a failure. -/
theorem onward_done {out : Reply α × Trace} {f : α → Nat → Trace → Reply β × Trace}
    {g : Trace → Reply β × Trace} {b : β} (h : onward out f g = (.done b fin, t')) :
    (∃ a mid t₁, out = (.done a mid, t₁) ∧ f a mid t₁ = (.done b fin, t')) ∨
      ∃ t₁, out = (.failed, t₁) ∧ g t₁ = (.done b fin, t') := by
  obtain ⟨reply, t₁⟩ := out
  cases reply with
  | done a mid => exact .inl ⟨a, mid, t₁, rfl, h⟩
  | failed => exact .inr ⟨t₁, rfl, h⟩
  | unfinished => cases h

/-- A sequence that succeeds has succeeded with its first part. -/
theorem bind_done {p : Parser α} {f : α → Parser β} {b : β}
    (h : (p >>= f) s pos t = (.done b fin, t')) :
    ∃ a mid t₁, p s pos t = (.done a mid, t₁) ∧ f a s mid t₁ = (.done b fin, t') := by
  rw [bind_onward] at h
  rcases onward_done h with hdone | ⟨t₁, -, hfailed⟩
  · exact hdone
  · cases hfailed

/-- A choice that succeeds has succeeded with one of its parsers. -/
theorem firstOf_done {ps : List (Parser α)} {a : α} (h : firstOf ps s pos t = (.done a fin, t')) :
    ∃ p ∈ ps, ∃ t₁, p s pos t₁ = (.done a fin, t') := by
  induction ps generalizing t with
  | nil => cases h
  | cons p ps ih =>
    rw [firstOf_onward] at h
    rcases onward_done h with ⟨b, mid, t₁, hp, hdone⟩ | ⟨t₁, -, hmore⟩
    · cases hdone
      exact ⟨p, by simp, t, hp⟩
    · obtain ⟨q, hq, hrun⟩ := ih hmore
      exact ⟨q, List.mem_cons_of_mem _ hq, hrun⟩

/-- A repetition has read nothing, or one round and then the others. -/
theorem manyUpTo_done {p : Parser α} {count : Nat} {as : List α}
    (h : manyUpTo p count s pos t = (.done as fin, t')) :
    as = [] ∧ fin = pos ∨ ∃ a more mid t₁ n, as = a :: more ∧ p s pos t = (.done a mid, t₁) ∧
      manyUpTo p n s mid t₁ = (.done more fin, t') := by
  cases count with
  | zero =>
    cases h
    exact .inl ⟨rfl, rfl⟩
  | succ count =>
    -- a round that read nothing ended the repetition, as a failed one does
    rw [manyUpTo_onward] at h
    rcases onward_done h with ⟨a, mid, t₁, hp, hdone⟩ | ⟨t₁, -, hnone⟩
    · split at hdone
      · cases hdone
        exact .inl ⟨rfl, rfl⟩
      · rcases onward_done hdone with ⟨more, stop, t₂, hmore, hall⟩ | ⟨t₂, -, hfailed⟩
        · cases hall
          exact .inr ⟨a, more, mid, t₁, count, rfl, hp, hmore⟩
        · cases hfailed
    · cases hnone
      exact .inl ⟨rfl, rfl⟩

/-! ## §2 The judgement -/

/-- Whatever the parser reads is a word of the language. -/
def Covers (s : Stream) (p : Parser α) (l : Language Symbol) : Prop :=
  ∀ pos ≤ s.items.size, ∀ t a fin t', p s pos t = (.done a fin, t') → Spans s pos fin l

namespace Covers

variable {p : Parser α} {ps : List (Parser α)} {f : α → Parser β} {l m : Language Symbol}

/-- What covers a language covers a larger one. -/
theorem mono (h : Covers s p l) (hle : l ≤ m) : Covers s p m :=
  fun pos hpos t a fin t' hrun => (h pos hpos t a fin t' hrun).mono hle

theorem pure (a : α) : Covers s (Pure.pure a : Parser α) 1 := by
  intro pos hpos t b fin t' hrun
  cases hrun
  exact .refl hpos

/-- One parser behind the other covers their languages joined. -/
theorem bind (hp : Covers s p l) (hf : ∀ a, Covers s (f a) m) : Covers s (p >>= f) (l * m) := by
  intro pos hpos t b fin t' hrun
  obtain ⟨a, mid, t₁, hfirst, hrest⟩ := bind_done hrun
  have hspans := hp pos hpos t a mid t₁ hfirst
  exact hspans.mul (hf a mid hspans.le t₁ b fin t' hrest)

theorem map {g : α → β} (hp : Covers s p l) : Covers s (p >>= fun a => Pure.pure (g a)) l := by
  intro pos hpos t b fin t' hrun
  obtain ⟨a, mid, t₁, hfirst, hrest⟩ := bind_done hrun
  cases hrest
  exact hp pos hpos t a _ _ hfirst

/-! ## §3 Terminals, choice and repetition -/

/-- A terminal that is not the end. -/
theorem satisfy {q : Terminal → Bool} {what : Text} (hproper : ∀ x ∈ s.items.toList, x.Proper)
    (hend : ∀ loc, q ⟨.ending, [], loc⟩ = false)
    (hmem : ∀ x : Terminal, x.Proper → q x = true → [x.symbol] ∈ l) :
    Covers s (satisfy q what) l := by
  intro pos hpos t a fin t' hrun
  simp only [Parser.satisfy] at hrun
  split at hrun
  · next hread =>
    -- the end is refused, so the terminal read is one of the stream
    rcases Nat.lt_or_eq_of_le hpos with hlt | rfl
    · rw [Stream.next_of_lt hlt] at hrun
      cases hrun
      exact ⟨hlt, _, hmem _ (Stream.proper_peek hproper hlt) hread, Stream.left_of_lt hlt⟩
    · rw [Stream.peek_of_le (Nat.le_refl _), hend] at hread
      cases hread
  · cases hrun

/-- A choice covers what each of its parsers covers. -/
theorem choice (h : ∀ p ∈ ps, Covers s p l) : Covers s (firstOf ps) l := by
  intro pos hpos t a fin t' hrun
  obtain ⟨p, hp, t₁, hdone⟩ := firstOf_done hrun
  exact h p hp pos hpos t₁ a fin t' hdone

theorem withDefault {a : α} (hp : Covers s p l) : Covers s (withDefault p a) (l + 1) := by
  refine choice (List.forall_mem_cons.mpr ⟨hp.mono le_self_add, ?_⟩)
  exact List.forall_mem_singleton.mpr ((Covers.pure a).mono le_add_self)

/-- A repetition covers any number of texts, by induction on its rounds. -/
theorem many (hp : Covers s p l) : Covers s (many p) l∗ := by
  have hcount : ∀ (as : List α) count pos, pos ≤ s.items.size → ∀ t fin t',
      manyUpTo p count s pos t = (.done as fin, t') → Spans s pos fin l∗ := by
    intro as
    -- the rounds that were taken are counted by what they yielded, not by the bound
    induction as with
    | nil =>
      intro count pos hpos t fin t' hrun
      rcases manyUpTo_done hrun with ⟨-, rfl⟩ | ⟨a, more, mid, t₁, n, heq, -⟩
      · exact (Spans.refl hpos).mono one_le_kstar
      · cases heq
    | cons a as ih =>
      intro count pos hpos t fin t' hrun
      rcases manyUpTo_done hrun with ⟨heq, -⟩ | ⟨b, more, mid, t₁, n, heq, hfirst, hrest⟩
      · cases heq
      · cases heq
        have hspans := hp pos hpos t a mid t₁ hfirst
        exact (hspans.mul (ih n mid hspans.le t₁ fin t' hrest)).mono mul_kstar_le_kstar
  exact fun pos hpos t as fin t' hrun => hcount as _ pos hpos t fin t' hrun

section

variable (hproper : ∀ x ∈ s.items.toList, x.Proper)

include hproper

theorem punct (text : Text) : Covers s (punct text) (single (.mark text)) := by
  refine satisfy hproper (fun _ => rfl) fun x _ hx => ?_
  simp only [Bool.and_eq_true, Bool.or_eq_true, beq_iff_eq] at hx
  rw [symbol_eq_mark.mpr hx]
  rfl

/-- A list with commas covers a list of what its items cover. -/
theorem commaList (hp : Covers s p l) : Covers s (commaList p) (listed l) :=
  (hp.bind fun _ => ((punct hproper ",").bind fun _ => hp).many.map).withDefault

/-- A part between two marks covers an enclosed text. -/
theorem between {opening closing : Text} (hp : Covers s p l) :
    Covers s (between opening p closing) (enclosed opening closing l) :=
  (punct hproper opening).bind fun _ => hp.bind fun _ => (punct hproper closing).map

end

end Covers

end Parser

namespace Grammar

open Scriptlet.Parser

variable {s : Stream} {rules : Rules} {k : Nat}

/-! ## §4 Expressions -/

section

variable (hproper : ∀ x ∈ s.items.toList, x.Proper)

include hproper

theorem ident_covers : Covers s ident names := by
  refine Covers.satisfy hproper (fun _ => rfl) fun x _ hx => ?_
  simp only [Bool.and_eq_true, beq_iff_eq, Bool.not_eq_true'] at hx
  exact ⟨x.text, hx.2, congrArg (fun y => [y]) (symbol_eq_word.mpr ⟨hx.1, rfl⟩)⟩

theorem number_covers : Covers s number (derivable 0) := by
  refine (Covers.satisfy hproper (fun _ => rfl) fun x hx hkind => ?_).map
  have hkind : x.kind = .number := by simpa using hkind
  rw [symbol_eq_number.mpr ⟨hkind, rfl⟩]
  exact ⟨_, .number x.text (hx.numeral hkind)⟩

theorem string_covers : Covers s string (derivable 0) := by
  refine (Covers.satisfy hproper (fun _ => rfl) fun x _ hkind => ?_).map
  have hkind : x.kind = .string := by simpa using hkind
  rw [symbol_eq_string.mpr ⟨hkind, rfl⟩]
  exact ⟨_, .string _⟩

/-- One of several signs is read as one of their texts. -/
theorem signs_covers (texts : List Text) : Covers s (firstOf (texts.map punct)) (oneOf texts) := by
  refine Covers.choice (List.forall_mem_map.mpr fun t ht => (Covers.punct hproper t).mono ?_)
  rintro _ rfl
  exact ⟨t, ht, rfl⟩

variable (hexpression : Covers s (rules .expression) (derivable 7))
  (hunary : Covers s (rules .unary) (derivable 1)) (hpower : Covers s (rules .power) (derivable 2))

include hexpression

/-- Atoms are derived at the tightest level. -/
theorem atom_covers : Covers s (atom rules) (derivable 0) := by
  have hcall : Covers s (call rules) (derivable 0) := by
    refine Covers.mono ?_ call_le
    exact (ident_covers hproper).bind fun _ =>
      ((hexpression.commaList hproper).between hproper).map
  have hname : Covers s identifier (derivable 0) := by
    refine (ident_covers hproper).map.mono ?_
    rintro _ ⟨t, ht, rfl⟩
    exact ⟨_, .name t ht⟩
  -- the atoms in the order they are tried: a call comes before a plain name
  refine Covers.choice ?_
  simp only [List.forall_mem_cons]
  exact ⟨hcall, hname, number_covers hproper, string_covers hproper,
    (hexpression.between hproper).mono group_le, List.forall_mem_nil _⟩

include hunary

/-- Signs and an atom are derived one level above. -/
theorem unary_covers : Covers s (unary rules) (derivable 1) := by
  have hleading (op : UnaryOp) (hop : op = .not ∨ op = .negate) :
      Covers s (leadingOp rules op.symbol op) (derivable 1) := by
    refine Covers.mono ?_ (leading_le hop)
    exact (Covers.punct hproper op.symbol).bind fun _ => hunary.map
  have hplus : Covers s (do let _ ← punct "+"; rules .unary) (derivable 1) :=
    ((Covers.punct hproper "+").bind fun _ => hunary).mono plus_le
  have hatom := (atom_covers hproper hexpression).mono (derivable_mono (Nat.zero_le 1))
  refine Covers.choice ?_
  simp only [List.forall_mem_cons]
  exact ⟨hleading .not (.inl rfl), hleading .negate (.inr rfl), hplus, hatom,
    List.forall_mem_nil _⟩

omit hexpression

include hpower

/-- Powers are derived one level further. -/
theorem power_covers : Covers s (power rules) (derivable 2) := by
  refine Covers.mono (hunary.bind fun base => Covers.withDefault ?_) power_le
  exact (Covers.punct hproper "**").bind fun _ => hpower.map

omit hunary

/-- Chains over chains, up to the loosest level. -/
theorem levelParser_covers : Covers s (levelParser rules (k + 2)) (derivable (k + 2)) := by
  induction k with
  | zero => exact hpower
  | succ k ih =>
    refine Covers.mono (ih.bind fun first => (Covers.many ?_).map) chain_le
    exact (signs_covers hproper (signsAt (k + 3))).bind fun _ => ih.map

end

/-- What the unfolded rules of expressions read is in their languages. -/
theorem unfold_covers (hproper : ∀ x ∈ s.items.toList, x.Proper) (n : Nat) {r : Rule}
    (hr : r ≠ .statement) : Covers s (unfold n r) (language r) := by
  induction n generalizing r with
  | zero =>
    intro pos _ t a fin t' hrun
    cases hrun
  | succ n ih =>
    -- a rule cannot use itself before one unfolding, so all that it calls is covered by induction
    have hexpression := ih (r := .expression) (by decide)
    have hunary := ih (r := .unary) (by decide)
    have hpower := ih (r := .power) (by decide)
    cases r with
    | expression => exact levelParser_covers hproper hpower (k := 5)
    | statement => exact absurd rfl hr
    | unary => exact unary_covers hproper hexpression hunary
    | power => exact power_covers hproper hunary hpower

end Grammar

/-! ## §5 Values of parsers -/

namespace Parser

variable {α β : Type} {p : Parser α} {f : α → Parser β} {ps : List (Parser α)} {P : α → Prop}
  {Q : β → Prop}

/-- On the stream whatever value the parser gives has the property. -/
def YieldsOn (s : Stream) (p : Parser α) (P : α → Prop) : Prop :=
  ∀ pos t a fin t', p s pos t = (.done a fin, t') → P a

namespace YieldsOn

variable {s : Stream}

theorem pure {a : α} (h : P a) : YieldsOn s (Pure.pure a) P := by
  intro pos t b fin t' hrun
  cases hrun
  exact h

theorem trivial (p : Parser α) : YieldsOn s p fun _ => True := fun _ _ _ _ _ _ => True.intro

/-- What holds of every value of the second parser holds of the sequence. -/
theorem bind (hp : YieldsOn s p P) (hf : ∀ a, P a → YieldsOn s (f a) Q) :
    YieldsOn s (p >>= f) Q := by
  intro pos t b fin t' hrun
  obtain ⟨a, mid, t₁, hfirst, hrest⟩ := bind_done hrun
  exact hf a (hp pos t a mid t₁ hfirst) mid t₁ b fin t' hrest

/-- The last of two parsers decides. -/
theorem behind (hf : ∀ a, YieldsOn s (f a) Q) : YieldsOn s (p >>= f) Q :=
  (trivial p).bind fun a _ => hf a

/-- What holds of the values of each parser holds of the choice. -/
theorem choice (h : ∀ p ∈ ps, YieldsOn s p P) : YieldsOn s (firstOf ps) P := by
  intro pos t a fin t' hrun
  obtain ⟨p, hp, t₁, hdone⟩ := firstOf_done hrun
  exact h p hp pos t₁ a fin t' hdone

theorem mono {Q : α → Prop} (hp : YieldsOn s p P) (h : ∀ a, P a → Q a) : YieldsOn s p Q :=
  fun pos t a fin t' hrun => h a (hp pos t a fin t' hrun)

/-- A terminal that is not the end is one of the stream. -/
theorem satisfy {q : Terminal → Bool} {what : Text} {P : Terminal → Prop}
    (hend : ∀ loc, q ⟨.ending, [], loc⟩ = false) (h : ∀ x ∈ s.items.toList, q x = true → P x) :
    YieldsOn s (satisfy q what) P := by
  intro pos t a fin t' hrun
  simp only [Parser.satisfy] at hrun
  split at hrun
  · next hread =>
    cases hrun
    -- the terminal read is one of the items, for the end that stands behind them is refused
    rcases Nat.lt_or_ge pos s.items.size with hlt | hge
    · refine h _ ?_ hread
      rw [Stream.peek, Array.getElem?_eq_getElem hlt, Option.getD_some]
      exact Array.getElem_mem_toList hlt
    · rw [Stream.peek_of_le hge, hend] at hread
      cases hread
  · cases hrun

theorem withDefault {a : α} (hp : YieldsOn s p P) (ha : P a) : YieldsOn s (withDefault p a) P :=
  choice (List.forall_mem_cons.mpr ⟨hp, List.forall_mem_singleton.mpr (.pure ha)⟩)

/-- What holds of the items holds of all values of a repetition. -/
theorem many (hp : YieldsOn s p P) : YieldsOn s (many p) fun as => ∀ a ∈ as, P a := by
  have hcount : ∀ (as : List α) count pos t fin t',
      manyUpTo p count s pos t = (.done as fin, t') → ∀ a ∈ as, P a := by
    intro as
    induction as with
    | nil => simp
    | cons a as ih =>
      intro count pos t fin t' hrun
      rcases manyUpTo_done hrun with ⟨heq, -⟩ | ⟨b, more, mid, t₁, n, heq, hfirst, hrest⟩
      · cases heq
      · cases heq
        exact List.forall_mem_cons.mpr ⟨hp pos t a mid t₁ hfirst, ih n mid t₁ fin t' hrest⟩
  exact fun pos t as fin t' hrun => hcount as _ pos t fin t' hrun

theorem commaList (hp : YieldsOn s p P) : YieldsOn s (commaList p) fun as => ∀ a ∈ as, P a :=
  withDefault (hp.bind fun _ ha => (many (behind fun _ => hp)).bind fun _ has =>
    .pure (List.forall_mem_cons.mpr ⟨ha, has⟩)) (List.forall_mem_nil _)

theorem between {opening closing : Text} (hp : YieldsOn s p P) :
    YieldsOn s (between opening p closing) P :=
  .behind fun _ => hp.bind fun _ ha => .behind fun _ => .pure ha

end YieldsOn

/-- Whatever value the parser gives has the property. -/
def Yields (p : Parser α) (P : α → Prop) : Prop :=
  ∀ s pos t a fin t', p s pos t = (.done a fin, t') → P a

namespace Yields

theorem pure {a : α} (h : P a) : Yields (Pure.pure a) P := fun _ => YieldsOn.pure h

theorem bind (hp : Yields p P) (hf : ∀ a, P a → Yields (f a) Q) : Yields (p >>= f) Q :=
  fun s => YieldsOn.bind (hp s) fun a ha => hf a ha s

/-- The last of two parsers decides. -/
theorem behind (hf : ∀ a, Yields (f a) Q) : Yields (p >>= f) Q :=
  fun s => YieldsOn.behind fun a => hf a s

theorem choice (h : ∀ p ∈ ps, Yields p P) : Yields (firstOf ps) P :=
  fun s => YieldsOn.choice fun p hp => h p hp s

end Yields

end Parser

/-! ## §6 Forms of statements -/

/-- The node has one of the forms that only statements have. -/
def Node.isStatement : Node → Bool
  | .giveBack .. | .block .. | .choice .. | .loop .. | .declare .. | .assign .. | .function ..
  | .main .. => true
  | _ => false

namespace Grammar

open Scriptlet.Parser

variable {s : Stream} {rules : Rules} {pos fin : Nat} {t t' : Trace} {e : Node}

/-- The semicolon leaves the value as it is. -/
theorem terminated_yields {p : Parser Node} {P : Node → Prop} (h : Yields p P) :
    Yields (terminated p) P :=
  h.bind fun _ hx => .behind fun _ => .pure hx

/-- What is built is a statement, for declarations and assignments. -/
theorem binding_yields {sign : Parser Terminal} {build : Terminal → Terminal → Node → Node}
    (h : ∀ name op value, (build name op value).isStatement = true) :
    Yields (binding rules sign build) fun n => n.isStatement = true :=
  .behind fun name => .behind fun op => terminated_yields <|
    .behind fun value => .pure (h name op value)

/-- The alternatives for statements, the one for expressions apart. -/
def forms (rules : Rules) : List (Parser Node) :=
  [ returnStmt rules, functionStmt rules, ifStmt rules, whileStmt rules, varStmt rules,
    assignStmt rules, (do let (stmts, loc) ← braces rules; return .block stmts loc) ]

/-- A statement is one of the forms, or else an expression. -/
theorem statement_eq (rules : Rules) :
    statement rules = firstOf (forms rules ++ [terminated (rules .expression)]) := rfl

/-- Each of the forms gives a statement. -/
theorem forms_yield : ∀ p ∈ forms rules, Yields p fun n => n.isStatement = true := by
  simp only [forms, List.forall_mem_cons]
  refine ⟨?_, ?_, ?_, ?_, ?_, ?_, ?_, List.forall_mem_nil _⟩
  · exact .behind fun _ => terminated_yields (.behind fun _ => .pure rfl)
  · refine .behind fun _ => .behind fun name => .behind fun _ => .behind fun _ => ?_
    -- a function of either kind is a statement
    show Yields (if name.text = "main" then _ else _) _
    split <;> exact .pure rfl
  · exact .behind fun _ => .behind fun _ => .behind fun _ => .behind fun _ => .pure rfl
  · exact .behind fun _ => .behind fun _ => .behind fun _ => .pure rfl
  · exact .behind fun _ => binding_yields fun _ _ _ => rfl
  · refine binding_yields fun name op value => ?_
    split <;> rfl
  · exact .behind fun _ => .pure rfl

/-- A statement without a form of its own was read as an expression. -/
theorem statement_done (h : statement rules s pos t = (.done e fin, t'))
    (he : e.isStatement = false) :
    ∃ t₁, terminated (rules .expression) s pos t₁ = (.done e fin, t') := by
  rw [statement_eq] at h
  obtain ⟨p, hp, t₁, hrun⟩ := firstOf_done h
  rcases List.mem_append.mp hp with hp | hp
  · have hform : e.isStatement = true := forms_yield p hp s pos t₁ e fin t' hrun
    rw [he] at hform
    cases hform
  · rw [List.mem_singleton.mp hp] at hrun
    exact ⟨t₁, hrun⟩

/-! ## §7 Sources that are one expression -/

/-- Without semicolons a statement ends only where the source does. -/
theorem size_le_of_terminator {x : Terminal} (hproper : ∀ x ∈ s.items.toList, x.Proper)
    (hsemicolon : .mark ";" ∉ s.left pos) (h : terminator s pos t = (.done x fin, t')) :
    s.items.size ≤ pos := by
  by_contra hlt
  rw [Nat.not_le] at hlt
  obtain ⟨p, hp, t₁, hrun⟩ := firstOf_done h
  -- either a semicolon was read, and none is left, or the end, which stands only behind the items
  rcases List.mem_pair.mp hp with rfl | rfl
  · obtain ⟨-, xs, hxs, hleft⟩ := Covers.punct hproper ";" pos (Nat.le_of_lt hlt) t₁ x fin t' hrun
    rw [mem_single.mp hxs] at hleft
    exact hsemicolon (by rw [hleft]; exact List.mem_cons_self)
  · rw [ending_of_lt hproper hlt] at hrun
    cases hrun

/-- **What is accepted as one expression is derivable**: without semicolons, the symbols of a source
whose only statement has no form of its own derive that statement. -/
theorem derives_of_accepted {p : Program} (hproper : ∀ x ∈ s.items.toList, x.Proper)
    (hok : parseStream s = .ok p) (hp : p.stmts = [e]) (he : e.isStatement = false)
    (hsemicolon : .mark ";" ∉ s.left 0) : Derives 7 (s.left 0) e.cleared := by
  -- the run of the grammar, taken apart down to the rule for expressions
  have hrun : (program (unfoldings s)).run s = .ok [e] := by
    obtain ⟨stmts, hstmts, heq⟩ := bind_eq_ok.mp hok
    cases heq
    rw [hstmts, ← hp]
  obtain ⟨mid, t₁, hmany⟩ : ∃ mid t₁, program (unfoldings s) s 0 .empty = (.done [e] mid, t₁) := by
    unfold Parser.run at hrun
    simp only at hrun
    split at hrun
    · next hwhole =>
      cases hrun
      obtain ⟨stmts, mid, t₁, hstmts, hrest⟩ := bind_done hwhole
      obtain ⟨_, _, _, _, hpure⟩ := bind_done hrest
      cases hpure
      exact ⟨mid, t₁, hstmts⟩
    · cases hrun
    · cases hrun
  obtain ⟨t₂, hstatement⟩ : ∃ t₂, unfold (unfoldings s) .statement s 0 .empty
      = (.done e mid, t₂) := by
    rcases manyUpTo_done hmany with ⟨hnil, -⟩ | ⟨a, more, stop, t₂, n, heq, hone, hmore⟩
    · cases hnil
    · cases heq
      rcases manyUpTo_done hmore with ⟨-, rfl⟩ | ⟨a, more, _, _, _, heq, -⟩
      · exact ⟨t₂, hone⟩
      · cases heq
  obtain ⟨t₃, hterminated⟩ : ∃ t₃, terminated (unfold (4 * s.items.size + 7) .expression) s 0 t₃
      = (.done e mid, t₂) := statement_done hstatement he
  obtain ⟨a, stop, t₄, hexpression, hrest⟩ := bind_done hterminated
  obtain ⟨x, last, t₅, hterminator, hpure⟩ := bind_done hrest
  cases hpure
  -- what the rule read is derivable, and behind it there is nothing
  obtain ⟨hstop, xs, ⟨n, hn⟩, hleft⟩ := unfold_covers hproper _ (r := .expression) (by decide) 0
    (Nat.zero_le _) t₃ _ stop t₄ hexpression
  have hbehind : .mark ";" ∉ s.left stop := fun hmem => hsemicolon (by simp [hleft, hmem])
  obtain rfl := Nat.le_antisymm hstop (size_le_of_terminator hproper hbehind hterminator)
  rw [Stream.left_size, List.append_nil] at hleft
  -- and the node is the derived one, since derivable symbols are read in one way
  have hstmts := stmts_of_segmented (.last _ _ (.expression _ _ (hleft ▸ hn))) hok
  rw [hp, List.map_singleton, List.singleton_inj] at hstmts
  rw [hstmts, hleft]
  exact hn

end Grammar

end Scriptlet
