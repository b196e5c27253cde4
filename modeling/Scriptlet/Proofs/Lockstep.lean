import Mathlib
import Scriptlet.Eval.Machine
import Scriptlet.Proofs.Translation
import Scriptlet.Proofs.Words

/-!
# The evaluator and words in step

A run of the evaluator is followed by the meaning of the program over words, node by node. Values
stand for words, and each name stands for the value that was stored last under it, whatever scope
that happened in. This holds up to the first step at which the two meanings part: a number leaves
the range of words, a name finds a value other than the one stored last, an operator or a check
looks at something that words do not tell apart.

## Contents

- §1 conditions on a run
- §2 runs that end
- §3 expressions
- §4 more rounds
- §5 statements
-/

namespace Scriptlet

open Assembly (Word truth logical? word?_logical word?_operands Emit.integer?)

/-! ## §1 Conditions on a run -/

/-- The values stored last under names. -/
abbrev Latest := Text → Option Value

namespace Value

/-- The value is a truth value or the number of one. -/
def isVerdict : Value → Bool
  | .bool _ => true
  | .number x => Emit.integer? x == some 0 || Emit.integer? x == some 1
  | _ => false

/-- The values are the same truth value or the same number. -/
def same : Value → Value → Bool
  | .bool a, .bool b => a == b
  | .number x, .number y => x = y
  | _, _ => false

/-- Values that are the same, are one value. -/
theorem eq_of_same {v u : Value} (h : v.same u = true) : v = u := by
  cases v with
  | bool a =>
    cases u with
    | bool b => exact congrArg Value.bool (beq_iff_eq.mp h)
    | _ => cases h
  | number x =>
    cases u with
    | number y => exact congrArg Value.number (of_decide_eq_true h)
    | _ => cases h
  | _ => cases h

end Value

namespace Config

/-- The values stored last after a step: a declaration or an assignment stores what it is handed. -/
def stored (latest : Latest) (c : Config) : Latest :=
  match c with
  | ⟨.deliver v, .declare name _ _ :: _, _⟩ => Function.update latest name (some v)
  | ⟨.deliver v, .assign name _ _ :: _, _⟩ => Function.update latest name (some v)
  | _ => latest

/-- A number that has been found is an integer in range. -/
def bounded (_ : Latest) (c : Config) : Bool :=
  match c.control with
  | .deliver v => v.isBounded
  | _ => true

/-- What is looked at is the same for words: a name finds the value stored last under it, an
operator is undisputed on its operands, and a check is handed a truth value or the number of one. -/
def undisputed (latest : Latest) (c : Config) : Bool :=
  match c with
  | ⟨.eval (.ident name _) scope, _, s⟩ =>
    match s.store.get scope name with
    | .ok v => (latest name).any v.same
    | .error _ => true
  | ⟨.deliver w, .right op v _ :: _, _⟩ => op.undisputed v w
  | ⟨.deliver v, .mark :: _, _⟩ => v.isVerdict
  | _ => true

/-- The condition holds throughout the first steps of a configuration, given the values stored last
before them. -/
def throughout (p : Latest → Config → Bool) : Nat → Latest → Config → Bool
  | 0, _, _ => true
  | steps + 1, latest, c =>
    p latest c &&
      match c.step with
      | .next c' => throughout p steps (c.stored latest) c'
      | .done _ _ => true

end Config

/-! ## §2 Runs that end -/

/-- The configuration ends with a value within some steps, in a session, and words can follow. -/
structure Ends (latest : Latest) (c : Config) (steps : Nat) (final : Session) : Prop where
  value : ∃ v, Config.run steps c = some (.value v, final)
  bounded : Config.throughout Config.bounded steps latest c = true
  undisputed : Config.throughout Config.undisputed steps latest c = true

namespace Ends

variable {latest : Latest} {c c' : Config} {frames : List Frame} {s final : Session} {n : Nat}
  {v : Value}

/-- A run that ends takes a step at least. -/
theorem steps_pos (h : Ends latest c n final) : 0 < n := by
  cases n with
  | zero =>
    obtain ⟨v, hv⟩ := h.value
    cases hv
  | succ n => exact n.succ_pos

/-- What holds along a run that ends, holds where it is. -/
theorem here (h : Ends latest c n final) :
    c.bounded latest = true ∧ c.undisputed latest = true := by
  obtain ⟨k, rfl⟩ := Nat.exists_eq_add_one.mpr h.steps_pos
  exact ⟨(Bool.and_eq_true_iff.mp h.bounded).1, (Bool.and_eq_true_iff.mp h.undisputed).1⟩

/-- What holds along a run, holds along the rest of it. -/
theorem throughout_next {p : Latest → Config → Bool}
    (h : Config.throughout p (n + 1) latest c = true) (hstep : c.step = .next c') :
    Config.throughout p n (c.stored latest) c' = true := by
  rw [Config.throughout, hstep, Bool.and_eq_true] at h
  exact h.2

/-- The end of a run is the end of the run after its first step. -/
theorem next (h : Ends latest c n final) (hstep : c.step = .next c') :
    ∃ k < n, Ends (c.stored latest) c' k final := by
  obtain ⟨k, rfl⟩ := Nat.exists_eq_add_one.mpr h.steps_pos
  refine ⟨k, k.lt_succ_self, ?_, throughout_next h.bounded hstep, throughout_next h.undisputed hstep⟩
  obtain ⟨v, hv⟩ := h.value
  rw [Config.run, hstep] at hv
  exact ⟨v, hv⟩

/-- A failure does not end with a value. -/
theorem not_fail {e : EvalError} : ¬ Ends latest ⟨.fail e, frames, s⟩ n final := by
  intro h
  -- a failure unwinds the frames, and without frames it is an outcome
  induction frames generalizing n s latest with
  | nil =>
    obtain ⟨v, hv⟩ := h.value
    cases n with
    | zero => cases hv
    | succ n => cases hv
  | cons f frames ih =>
    obtain ⟨k, -, hk⟩ := h.next rfl
    cases f with
    | _ => exact ih hk

/-- A result that is used is not a fault. -/
theorem ofResult {r : Except Fault Value} {loc : Location}
    (h : Ends latest (Config.ofResult r loc frames s) n final) :
    ∃ v, r = .ok v ∧ Ends latest ⟨.deliver v, frames, s⟩ n final := by
  cases r with
  | ok v => exact ⟨v, rfl, h⟩
  | error fault => exact absurd h not_fail

theorem isBounded (h : Ends latest ⟨.deliver v, frames, s⟩ n final) : v.isBounded = true := h.here.1

end Ends

/-! ## §3 Expressions -/

/-- Expressions of numbers, variables and operators, powers apart. -/
def Node.isArithmetic : Node → Bool
  | .number _ _ | .ident _ _ => true
  | .unary _ x _ => x.isArithmetic
  | .binary op x y _ => op != .power && x.isArithmetic && y.isArithmetic
  | _ => false

/-- The values stored last stand for the slots of their names. -/
def Latest.Means (latest : Latest) (slots : Slots) : Prop :=
  ∀ name v, latest name = some v → v.Means (slots name)

section

variable {latest : Latest} {slots : Slots} {frames : List Frame} {s final : Session} {n : Nat}

/-- A deciding operator answers at once, or goes on with its other operand. -/
theorem afterLeft_logical {op : BinaryOp} {cond : Assembly.Cond} {b : Bool}
    (h : logical? op = some (cond, b)) (v : Value) (y : Node) (scope : Nat) (loc : Location) :
    Config.afterLeft op v y scope loc frames s
      = if v.isTruthy = b then ⟨.deliver (.bool b), frames, s⟩
        else ⟨.eval y scope, .truth :: frames, s⟩ := by
  cases op with
  | and | or =>
    cases h
    cases hv : v.isTruthy <;> simp [Config.afterLeft, hv]
  | _ => cases h

/-- The other operators go on with their right operand. -/
theorem afterLeft_operands {op : BinaryOp} (h : logical? op = none) (v : Value) (y : Node)
    (scope : Nat) (loc : Location) :
    Config.afterLeft op v y scope loc frames s = ⟨.eval y scope, .right op v loc :: frames, s⟩ := by
  cases op with
  | and | or => cases h
  | _ => rfl

/-- What the evaluation of an expression has come to: the value stands for the word, and the rest of
the run is shorter. -/
def Ends.Yields (latest : Latest) (slots : Slots) (x : Node) (frames : List Frame) (s : Session)
    (n : Nat) (final : Session) : Prop :=
  ∃ k < n, ∃ (v : Value) (w : Word), x.word? slots = some w ∧ v.Means w ∧
    Ends latest ⟨.deliver v, frames, s⟩ k final

/-- **Expressions in step.** An expression changes nothing and finds the value of its word. -/
theorem Ends.expression (hmeans : latest.Means slots) : ∀ {x : Node}, x.isArithmetic = true →
    ∀ {n : Nat} {frames : List Frame} {scope : Nat},
      Ends latest ⟨.eval x scope, frames, s⟩ n final → Yields latest slots x frames s n final
  | .number x loc, _, n, frames, scope, h => by
    obtain ⟨k, hk, hnext⟩ := h.next rfl
    obtain ⟨m, hm⟩ := Value.fitsWord_of_isBounded hnext.isBounded
    refine ⟨k, hk, _, _, ?_, .number hm, hnext⟩
    rw [Node.word?, hm.integer]
    rfl
  | .ident name loc, _, n, frames, scope, h => by
    obtain ⟨k, hk, hnext⟩ := h.next rfl
    obtain ⟨v, hv, hnext⟩ := hnext.ofResult
    have hfound : s.store.get scope name = .ok v := by
      cases hget : s.store.get scope name with
      | ok u =>
        rw [hget] at hv
        cases hv
        rfl
      | error fault =>
        rw [hget] at hv
        cases hv
    -- the scopes find what was stored last, and that stands for the slot
    have hlast : (latest name).any v.same = true := by
      have hundisputed := h.here.2
      simp only [Config.undisputed, hfound] at hundisputed
      exact hundisputed
    obtain ⟨u, hu, hsame⟩ := (Option.any_eq_true _ _).mp hlast
    rw [← Value.eq_of_same hsame] at hu
    exact ⟨k, hk, v, _, rfl, hmeans name v hu, hnext⟩
  | .unary op x loc, hx, n, frames, scope, h => by
    obtain ⟨k, hk, hoperand⟩ := h.next rfl
    obtain ⟨k', hk', v, w, hword, hv, hdeliver⟩ := Ends.expression (x := x) hmeans hx hoperand
    obtain ⟨k'', hk'', hresult⟩ := hdeliver.next rfl
    obtain ⟨u, hu, hresult⟩ := hresult.ofResult
    obtain ⟨w', hword', hmeans'⟩ := UnaryOp.means hv hu hresult.isBounded
    refine ⟨k'', by omega, u, w', ?_, hmeans', hresult⟩
    rw [Node.word?, hword]
    exact hword'
  | .binary op x y loc, hx, n, frames, scope, h => by
    rw [Node.isArithmetic, Bool.and_eq_true, Bool.and_eq_true, bne_iff_ne] at hx
    obtain ⟨⟨hpower, hx⟩, hy⟩ := hx
    obtain ⟨k, hk, hleft⟩ := h.next rfl
    obtain ⟨k₁, hk₁, v, w, hword, hv, hdeliver⟩ := Ends.expression hmeans hx hleft
    obtain ⟨k₂, hk₂, hafter⟩ := hdeliver.next rfl
    change Ends latest (Config.afterLeft op v y scope loc frames s) k₂ final at hafter
    cases hop : logical? op with
    | some decision =>
      obtain ⟨cond, b⟩ := decision
      rw [afterLeft_logical hop, hv.isTruthy] at hafter
      by_cases hdecided : (w != 0) = b
      · rw [if_pos hdecided] at hafter
        refine ⟨k₂, by omega, _, _, ?_, .bool b, hafter⟩
        rw [word?_logical hop, hword, Option.bind_some, if_pos hdecided]
      · rw [if_neg hdecided] at hafter
        obtain ⟨k₃, hk₃, u, w', hword', hu, hright⟩ := Ends.expression hmeans hy hafter
        obtain ⟨k₄, hk₄, hresult⟩ := hright.next rfl
        refine ⟨k₄, by omega, _, _, ?_, .bool u.isTruthy, hresult⟩
        rw [word?_logical hop, hword, Option.bind_some, if_neg hdecided, hword', Option.map_some,
          hu.isTruthy]
    | none =>
      rw [afterLeft_operands hop] at hafter
      obtain ⟨k₃, hk₃, u, w', hword', hu, hright⟩ := Ends.expression hmeans hy hafter
      obtain ⟨k₄, hk₄, hresult⟩ := hright.next rfl
      obtain ⟨z, hz, hresult⟩ := hresult.ofResult
      obtain ⟨c, hc, hmeans'⟩ := BinaryOp.means hv hu hright.here.2 hz hresult.isBounded hpower
      refine ⟨k₄, by omega, z, c, ?_, hmeans', hresult⟩
      rw [word?_operands hop, hword, hword']
      exact hc

end

/-! ## §4 More rounds -/

/-- What follows later may be known in a longer run. -/
theorem Progress.andThen_mono {p r : Progress} {f g : Slots → Option Progress}
    (hfg : ∀ s q, f s = some q → g s = some q) (h : p.andThen f = some r) : p.andThen g = some r := by
  unfold Progress.andThen at h ⊢
  cases hresult : p.result with
  | some w =>
    rw [hresult] at h
    exact h
  | none =>
    rw [hresult] at h
    obtain ⟨q, hq, rfl⟩ := Option.map_eq_some_iff.mp h
    simp only [hfg _ _ hq, Option.map_some]

/-- More rounds give what fewer rounds give. -/
theorem Progress.rounds_mono {cond : Slots → Option Word} {body body' : Slots → Option Progress}
    (hbody : ∀ s p, body s = some p → body' s = some p) :
    ∀ {bound bound' : Nat}, bound ≤ bound' → ∀ {s : Slots} {p : Progress},
      rounds cond body bound s = some p → rounds cond body' bound' s = some p
  | 0, _, _, _, _, h => by cases h
  | bound + 1, 0, hle, _, _, _ => by omega
  | bound + 1, bound' + 1, hle, s, p, h => by
    -- both bounds allow the round, and what follows it has one less of each
    obtain ⟨w, hw, h⟩ := Option.bind_eq_some_iff.mp h
    rw [rounds, hw, Option.bind_some]
    split at h
    · next hzero =>
      rw [if_pos hzero]
      exact h
    · next hzero =>
      obtain ⟨q, hq, h⟩ := Option.bind_eq_some_iff.mp h
      rw [if_neg hzero, hbody s q hq, Option.bind_some]
      refine Progress.andThen_mono ?_ h
      intro s' p' h'
      exact rounds_mono hbody (by omega) h'

mutual

/-- What a statement does within a number of rounds, it does within more. -/
theorem Node.perform?_mono {bound bound' : Nat} (hle : bound ≤ bound') : ∀ (x : Node) {s : Slots}
    {p : Progress}, x.perform? bound s = some p → x.perform? bound' s = some p
  | .block stmts loc, s, p, h => by
    rw [Node.perform?] at h ⊢
    exact Node.performAll?_mono hle stmts h
  | .choice cond yes no loc, s, p, h => by
    rw [Node.perform?] at h ⊢
    obtain ⟨w, hw, h⟩ := Option.bind_eq_some_iff.mp h
    rw [hw, Option.bind_some]
    split at h
    · next hzero =>
      rw [if_pos hzero]
      exact Node.perform?_mono hle no h
    · next hzero =>
      rw [if_neg hzero]
      exact Node.perform?_mono hle yes h
  | .loop cond body loc, s, p, h => by
    rw [Node.perform?] at h ⊢
    refine Progress.rounds_mono ?_ hle h
    intro s' p' h'
    exact Node.perform?_mono hle body h'
  | .missing, _, _, h => h
  | .number _ _, _, _, h => h
  | .string _ _, _, _, h => h
  | .ident _ _, _, _, h => h
  | .unary _ _ _, _, _, h => h
  | .binary _ _ _ _, _, _, h => h
  | .call _ _ _, _, _, h => h
  | .giveBack _ _, _, _, h => h
  | .declare _ _ _, _, _, h => h
  | .assign _ _ _, _, _, h => h
  | .function _ _ _ _ _, _, _, h => h
  | .prototype _ _ _, _, _, h => h
  | .main _ _, _, _, h => h
  | .assert _ _, _, _, h => h

/-- Statements give with a larger bound what they give with a smaller one. -/
theorem Node.performAll?_mono {bound bound' : Nat} (hle : bound ≤ bound') : ∀ (xs : List Node)
    {s : Slots} {p : Progress}, Node.performAll? bound s xs = some p →
      Node.performAll? bound' s xs = some p
  | [], _, _, h => h
  | x :: xs, s, p, h => by
    rw [Node.performAll?] at h ⊢
    obtain ⟨q, hq, h⟩ := Option.bind_eq_some_iff.mp h
    rw [Node.perform?_mono hle x hq, Option.bind_some]
    refine Progress.andThen_mono ?_ h
    intro s' p' h'
    exact Node.performAll?_mono hle xs h'

end

/-! ## §5 Statements -/

mutual

/-- Statements made of expressions, declarations, assignments, blocks, choices, loops and checks. -/
def Node.isCommon : Node → Bool
  | .missing => true
  | .block stmts _ => Node.allCommon stmts
  | .choice cond yes no _ => cond.isArithmetic && yes.isCommon && no.isCommon
  | .loop cond body _ => cond.isArithmetic && body.isCommon
  | .declare _ x _ | .assign _ x _ | .assert x _ => x.isArithmetic
  | x => x.isArithmetic

/-- Sequences of such statements. -/
def Node.allCommon : List Node → Bool
  | [] => true
  | x :: xs => x.isCommon && Node.allCommon xs

end

/-- The rest of a run after the program over words has got as far as the progress: its slots are
those of the values stored last, and its marks have been written. -/
structure Ends.Onward (p : Progress) (frames : List Frame) (out : Sink) (n : Nat) (final : Session) :
    Prop where
  going : p.result = none
  rest : ∃ k < n, ∃ (v : Value) (latest : Latest) (s : Session), latest.Means p.slots ∧
    s.out.contents = out.contents ++ p.marks ∧ Ends latest ⟨.deliver v, frames, s⟩ k final

namespace Ends

variable {latest : Latest} {slots : Slots} {frames frames' : List Frame} {s final : Session}
  {n k : Nat} {v : Value} {out : Sink} {p : Progress}

/-- A value that is handed on keeps the slots as they are. -/
theorem onward_still (h : Ends latest ⟨.deliver v, frames, s⟩ k final)
    (hmeans : latest.Means slots) (hout : s.out = out) (hk : k < n) :
    Onward (.still slots) frames out n final :=
  ⟨rfl, k, hk, v, latest, s, hmeans, by rw [hout]; exact (List.append_nil _).symm, h⟩

/-- What is reached within a bound is reached within a larger one. -/
theorem Onward.weaken {m : Nat} (h : Onward p frames out n final) (hnm : n ≤ m) :
    Onward p frames out m final := by
  obtain ⟨hgoing, k, hk, h⟩ := h
  exact ⟨hgoing, k, by omega, h⟩

/-- One part of a program and then the next. -/
theorem Onward.andThen {f : Nat → Slots → Option Progress}
    (hmono : ∀ {bound bound'}, bound ≤ bound' → ∀ {s q}, f bound s = some q → f bound' s = some q)
    {first : Nat → Option Progress}
    (hfirst : ∀ {bound bound'}, bound ≤ bound' → ∀ {q}, first bound = some q → first bound' = some q)
    {b : Nat} (hb : first b = some p) (h : Onward p frames out n final)
    (hrest : ∀ k < n, ∀ (v : Value) (latest : Latest) (s : Session), latest.Means p.slots →
      Ends latest ⟨.deliver v, frames, s⟩ k final →
      ∃ bound q, f bound p.slots = some q ∧ Onward q frames' s.out k final) :
    ∃ bound q, ((first bound).bind fun p => p.andThen (f bound)) = some q ∧
      Onward q frames' out n final := by
  obtain ⟨hgoing, k, hk, v, latest, s, hmeans, hcontents, hends⟩ := h
  obtain ⟨b', q, hq, hgoing', k', hk', v', latest', s', hmeans', hcontents', hends'⟩ :=
    hrest k hk v latest s hmeans hends
  refine ⟨max b b', { q with marks := p.marks ++ q.marks }, ?_, hgoing', k', by omega, v', latest', s',
    hmeans', ?_, hends'⟩
  -- the greater bound is enough for both parts
  · rw [hfirst (le_max_left b b') hb, Option.bind_some, Progress.andThen, hgoing]
    simp only [hmono (le_max_right b b') hq, Option.map_some]
  · rw [hcontents', hcontents, List.append_assoc]

/-- The verdict of a check is a dot exactly if its word is one. -/
theorem mark_of_isVerdict {w : Word} (hv : v.Means w) (hverdict : v.isVerdict = true) :
    (if v.isTruthy then (".": Text) else "F") = (Progress.mark slots w).marks := by
  have hiff : v.isTruthy = true ↔ w = 1 := by
    -- a verdict stands for zero or one, so being true and being one agree
    rw [hv.isTruthy_iff]
    cases hv with
    | bool b => cases b <;> decide
    | @number x m hx =>
      rw [Value.isVerdict, hx.integer, Bool.or_eq_true, beq_iff_eq, beq_iff_eq] at hverdict
      rcases hverdict with hzero | hone
      · rw [Option.some.inj hzero]
        decide
      · rw [Option.some.inj hone]
        decide
  simp only [hiff, Progress.mark]

/-- A variable and its slot are changed together. -/
theorem means_update {w : Word} (hmeans : latest.Means slots) (hv : v.Means w) (name : Text) :
    Latest.Means (Function.update latest name (some v)) (Function.update slots name w) := by
  intro other u hu
  by_cases hname : other = name
  · subst hname
    rw [Function.update_self] at hu ⊢
    cases hu
    exact hv
  · rw [Function.update_of_ne hname] at hu ⊢
    exact hmeans other u hu

end Ends

/-- The configuration that goes on with more statements after a value. -/
def Config.resume (v : Value) (xs : List Node) (scope : Nat) (frames : List Frame) (s : Session) :
    Config :=
  match xs with
  | [] => ⟨.deliver v, frames, s⟩
  | x :: rest => ⟨.eval x scope, .sequence rest scope :: frames, s⟩

/-- A row of statements begins as if a statement had gone before it. -/
theorem Config.sequence_eq_resume (xs : List Node) (scope : Nat) (frames : List Frame)
    (s : Session) : Config.sequence xs scope frames s = .resume .nil xs scope frames s := by
  cases xs <;> rfl

/-- Words follow the statement, wherever a run comes to it. -/
def Node.Followed (x : Node) : Prop :=
  ∀ {n : Nat} {latest : Latest} {slots : Slots} {frames : List Frame} {scope : Nat}
    {s final : Session}, latest.Means slots → Ends latest ⟨.eval x scope, frames, s⟩ n final →
      ∃ bound p, x.perform? bound slots = some p ∧ Ends.Onward p frames s.out n final

/-- Words follow the statements one after the other, wherever a run comes to them. -/
def Node.AllFollowed (xs : List Node) : Prop :=
  ∀ {n : Nat} {latest : Latest} {slots : Slots} {frames : List Frame} {scope : Nat}
    {s final : Session} {v : Value}, latest.Means slots →
      Ends latest (.resume v xs scope frames s) n final →
        ∃ bound p, Node.performAll? bound slots xs = some p ∧
          Ends.Onward p frames s.out (n + 1) final

namespace Node

open Ends (onward_still means_update mark_of_isVerdict not_fail)

variable {x cond yes no body : Node} {xs : List Node} {name : Text} {loc : Location}

theorem followed_missing : Followed .missing := by
  intro n latest slots frames scope s final hmeans h
  obtain ⟨k, hk, hnext⟩ := h.next rfl
  exact ⟨0, _, rfl, onward_still hnext hmeans rfl hk⟩

/-- An expression follows its word, for both sides evaluate it and drop it. -/
theorem followed_expression (hx : x.isArithmetic = true)
    (hperform : ∀ slots, x.perform? 0 slots = (x.word? slots).map fun _ => .still slots) :
    x.Followed := by
  intro n latest slots frames scope s final hmeans h
  obtain ⟨k, hk, v, w, hword, -, hnext⟩ := Ends.expression hmeans hx h
  refine ⟨0, .still slots, ?_, onward_still hnext hmeans rfl hk⟩
  rw [hperform, hword, Option.map_some]

/-- A declaration stores the word that its value means. -/
theorem followed_declare (hx : x.isArithmetic = true) : Followed (.declare name x loc) := by
  intro n latest slots frames scope s final hmeans h
  obtain ⟨k, hk, hnext⟩ := h.next rfl
  obtain ⟨k₁, hk₁, v, w, hword, hv, hdeclare⟩ := Ends.expression (x := x) hmeans hx hnext
  obtain ⟨k₂, hk₂, hdone⟩ := hdeclare.next rfl
  simp only [Config.deliverTo, Config.declareName] at hdone
  split at hdone
  · exact absurd hdone not_fail
  · refine ⟨0, _, ?_, onward_still hdone (means_update hmeans hv name) rfl (by omega)⟩
    rw [Node.perform?, hword, Option.map_some]

/-- An assignment stores the word that its value means. -/
theorem followed_assign (hx : x.isArithmetic = true) : Followed (.assign name x loc) := by
  intro n latest slots frames scope s final hmeans h
  obtain ⟨k, hk, hnext⟩ := h.next rfl
  obtain ⟨k₁, hk₁, v, w, hword, hv, hassign⟩ := Ends.expression (x := x) hmeans hx hnext
  obtain ⟨k₂, hk₂, hdone⟩ := hassign.next rfl
  simp only [Config.deliverTo, Config.assignName] at hdone
  split at hdone
  · refine ⟨0, _, ?_, onward_still hdone (means_update hmeans hv name) rfl (by omega)⟩
    rw [Node.perform?, hword, Option.map_some]
  · exact absurd hdone not_fail

/-- A check writes the mark of its word. -/
theorem followed_assert (hx : x.isArithmetic = true) : Followed (.assert x loc) := by
  intro n latest slots frames scope s final hmeans h
  obtain ⟨k, hk, hnext⟩ := h.next rfl
  obtain ⟨k₁, hk₁, v, w, hword, hv, hmark⟩ := Ends.expression (x := x) hmeans hx hnext
  have hverdict : v.isVerdict = true := hmark.here.2
  obtain ⟨k₂, hk₂, hdone⟩ := hmark.next rfl
  simp only [Config.deliverTo, Config.leaveMark] at hdone
  split at hdone
  · next out hout =>
    refine ⟨0, .mark slots w, ?_, rfl, k₂, by omega, _, _, _, hmeans, ?_, hdone⟩
    · rw [Node.perform?, hword, Option.map_some]
    -- the mark is written unless the sink refuses it, and then the run would have failed
    · rw [← mark_of_isVerdict hv hverdict]
      exact Sink.contents_write hout
  · exact absurd hdone not_fail

/-- The scope of a block makes no difference to the values stored last. -/
theorem followed_block (hxs : AllFollowed xs) : Followed (.block xs loc) := by
  intro n latest slots frames scope s final hmeans h
  obtain ⟨k, hk, hnext⟩ := h.next rfl
  simp only [Config.evalNode, Config.sequence_eq_resume] at hnext
  obtain ⟨bound, p, hp, honward⟩ := hxs hmeans hnext
  exact ⟨bound, p, by rw [Node.perform?, hp], honward.weaken hk⟩

/-- A choice follows whichever branch its test takes. -/
theorem followed_choice (hcond : cond.isArithmetic = true) (hyes : yes.Followed)
    (hno : no.Followed) : Followed (.choice cond yes no loc) := by
  intro n latest slots frames scope s final hmeans h
  obtain ⟨k, hk, hnext⟩ := h.next rfl
  obtain ⟨k₁, hk₁, v, w, hword, hv, hchoose⟩ := Ends.expression hmeans hcond hnext
  obtain ⟨k₂, hk₂, hbranch⟩ := hchoose.next rfl
  -- the word decides for one branch where the value does
  simp only [Node.perform?, hword, Option.bind_some]
  simp only [Config.deliverTo] at hbranch
  by_cases hw : w = 0
  · rw [if_neg (mt hv.isTruthy_iff.mp (not_not_intro hw))] at hbranch
    obtain ⟨bound, p, hp, honward⟩ := hno hmeans hbranch
    exact ⟨bound, p, by rw [if_pos hw, hp], honward.weaken (by omega)⟩
  · rw [if_pos (hv.isTruthy_iff.mpr hw)] at hbranch
    obtain ⟨bound, p, hp, honward⟩ := hyes hmeans hbranch
    exact ⟨bound, p, by rw [if_neg hw, hp], honward.weaken (by omega)⟩

/-- Each round of a loop is a round over words. -/
theorem followed_rounds (hcond : cond.isArithmetic = true) (hbody : body.Followed) :
    ∀ {n : Nat} {latest : Latest} {slots : Slots} {frames : List Frame} {scope : Nat}
      {s final : Session}, latest.Means slots →
      Ends latest ⟨.eval cond scope, .test cond body scope :: frames, s⟩ n final →
        ∃ bound p, Progress.rounds cond.word? (body.perform? bound) bound slots = some p ∧
          Ends.Onward p frames s.out n final := by
  intro n
  -- a round takes steps, so the rest of the run is shorter
  induction n using Nat.strong_induction_on with
  | _ n ih =>
    intro latest slots frames scope s final hmeans h
    obtain ⟨k, hk, v, w, hword, hv, htest⟩ := Ends.expression hmeans hcond h
    obtain ⟨k₁, hk₁, hnext⟩ := htest.next rfl
    simp only [Config.deliverTo] at hnext
    by_cases hw : w = 0
    · rw [if_neg (mt hv.isTruthy_iff.mp (not_not_intro hw))] at hnext
      refine ⟨1, .still slots, ?_, onward_still hnext hmeans rfl (by omega)⟩
      rw [Progress.rounds, hword, Option.bind_some, if_pos hw]
    · rw [if_pos (hv.isTruthy_iff.mpr hw)] at hnext
      obtain ⟨b, p, hp, honward⟩ := hbody hmeans hnext
      obtain ⟨bound, q, hq, honward'⟩ := honward.andThen
        (f := fun b => Progress.rounds cond.word? (body.perform? b) b)
        (fun hle _ _ => Progress.rounds_mono (fun _ _ => Node.perform?_mono hle body) hle)
        (fun hle _ => Node.perform?_mono hle body) hp
        (by
          intro k₂ hk₂ u latest' s' hmeans' hagain
          obtain ⟨k₃, hk₃, hnext'⟩ := hagain.next rfl
          obtain ⟨bound, q, hq, hrest⟩ := ih k₃ (by omega) hmeans' hnext'
          exact ⟨bound, q, hq, hrest.weaken hk₃.le⟩)
      refine ⟨bound + 1, q, ?_, honward'.weaken (by omega)⟩
      apply Progress.rounds_mono (fun _ _ => Node.perform?_mono bound.le_succ body) le_rfl
      rw [Progress.rounds, hword, Option.bind_some, if_neg hw]
      exact hq

/-- A loop follows its rounds, by induction on the steps that are left. -/
theorem followed_loop (hcond : cond.isArithmetic = true) (hbody : body.Followed) :
    Followed (.loop cond body loc) := by
  intro n latest slots frames scope s final hmeans h
  obtain ⟨k, hk, hnext⟩ := h.next rfl
  obtain ⟨bound, p, hp, honward⟩ := followed_rounds hcond hbody hmeans hnext
  exact ⟨bound, p, by rw [Node.perform?, hp], honward.weaken hk.le⟩

theorem allFollowed_nil : AllFollowed [] := by
  intro n latest slots frames scope s final v hmeans h
  exact ⟨0, _, rfl, onward_still h hmeans rfl n.lt_succ_self⟩

/-- Statements are followed one after the other. -/
theorem allFollowed_cons (hx : x.Followed) (hxs : AllFollowed xs) : AllFollowed (x :: xs) := by
  intro n latest slots frames scope s final v hmeans h
  obtain ⟨b, p, hp, honward⟩ := hx hmeans h
  simp only [Node.performAll?]
  apply (honward.weaken n.le_succ).andThen (f := fun b slots => Node.performAll? b slots xs)
    (fun hle _ _ => Node.performAll?_mono hle xs) (fun hle _ => Node.perform?_mono hle x) hp
  -- the value of a statement is dropped, and the next starts with the names as they are left
  intro k _ u latest' s' hmeans' hends
  obtain ⟨k', hk', hnext⟩ := hends.next rfl
  have hresume : Ends latest' (.resume u xs scope frames s') k' final := by
    cases xs with
    | nil => exact hnext
    | cons y ys => exact hnext
  obtain ⟨bound, q, hq, honward'⟩ := hxs hmeans' hresume
  exact ⟨bound, q, hq, honward'.weaken hk'⟩

mutual

/-- **Statements in step.** -/
theorem followed_of_isCommon : ∀ x : Node, x.isCommon = true → x.Followed
  -- the common statements, each with the lemma of its kind
  | .missing, _ => followed_missing
  | .number _ _, hx => followed_expression hx fun _ => rfl
  | .ident _ _, hx => followed_expression hx fun _ => rfl
  | .unary _ _ _, hx => followed_expression hx fun _ => rfl
  | .binary _ _ _ _, hx => followed_expression hx fun _ => rfl
  | .block xs _, hx => followed_block (allFollowed_of_allCommon xs hx)
  | .choice cond yes no _, hx => by
    rw [Node.isCommon, Bool.and_eq_true, Bool.and_eq_true] at hx
    exact followed_choice hx.1.1 (followed_of_isCommon yes hx.1.2) (followed_of_isCommon no hx.2)
  | .loop cond body _, hx => by
    rw [Node.isCommon, Bool.and_eq_true] at hx
    exact followed_loop hx.1 (followed_of_isCommon body hx.2)
  | .declare _ _ _, hx => followed_declare hx
  | .assign _ _ _, hx => followed_assign hx
  | .assert _ _, hx => followed_assert hx

/-- All common statements are followed. -/
theorem allFollowed_of_allCommon : ∀ xs : List Node, Node.allCommon xs = true → AllFollowed xs
  | [], _ => allFollowed_nil
  | x :: xs, hxs => by
    rw [Node.allCommon, Bool.and_eq_true] at hxs
    exact allFollowed_cons (followed_of_isCommon x hxs.1) (allFollowed_of_allCommon xs hxs.2)

end

end Node

end Scriptlet
