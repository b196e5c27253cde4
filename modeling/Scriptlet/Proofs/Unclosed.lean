import Scriptlet.Proofs.Phrases

/-!
# Delimiters can still be closed, or never pair up

Levels are assigned with a stack of what is open. They fail in the middle of a row only at a closing
delimiter that does not fit the top of the stack, and what stands behind it is not read. So such a
row fails with the same error whatever follows. A row that fails at its end has read everything, and
only what is left on the stack is wrong: closing that, the innermost first, makes the row pair up.

Both are proved for a row that is read where some delimiters are open already, by induction on the
row: a token passes and the rest decides, or the rest does not matter (`levelsFrom_cons`).

## Contents

- §1 closing what is open
- §2 the main result
-/

namespace Scriptlet

variable {stack : List Opened} {opens closes : Nat} {ts : List Token} {e : UnbalancedError}

/-! ## §1 Closing what is open -/

/-- A token that closes a delimiter of the family. -/
def Token.closing (f : Family) : Token := ⟨.delimiter f .right, 0, 0, .nowhere⟩

theorem paired_closing (families : List Family) :
    Paired families ((families.map Token.closing).map Token.lexeme) := by
  induction families with
  | nil => exact .nil
  | cons f families ih => exact .right f _ _ ih

/-- A row that fails because something is open pairs up once that is closed. -/
theorem paired_of_isIncomplete (h : levelsFrom stack opens closes ts = .error e)
    (hopen : e.cause.isIncomplete = true) :
    ∃ families : List Family, families ≠ [] ∧
      Paired (stack.map Prod.fst) ((ts ++ families.map Token.closing).map Token.lexeme) := by
  induction ts generalizing stack opens closes with
  | nil =>
    cases stack with
    | nil => cases h
    | cons top stack => exact ⟨(top :: stack).map Prod.fst, by simp, paired_closing _⟩
  | cons t ts ih =>
    -- the token passes, and what is open behind it is closed at the end
    rcases levelsFrom_cons stack opens closes t with
      ⟨stack', hpasses⟩ | ⟨e', hfinal, hstep⟩
    · obtain ⟨opens', closes', hstep⟩ := levelsFrom_of_passesTo hpasses opens closes
      rw [hstep] at h
      obtain ⟨families, hne, hpaired⟩ := ih (map_eq_error.mp h)
      exact ⟨families, hne, hpasses.paired hpaired⟩
    · -- a token that does not fit is no lack of closing delimiters
      rw [hstep] at h
      cases h
      rw [hfinal] at hopen
      cases hopen

/-- A row that fails otherwise fails whatever follows, with the same error. -/
theorem levelsFrom_append_of_final (h : levelsFrom stack opens closes ts = .error e)
    (hfinal : e.cause.isIncomplete = false) (more : List Token) :
    levelsFrom stack opens closes (ts ++ more) = .error e := by
  induction ts generalizing stack opens closes with
  | nil =>
    cases stack with
    | nil => cases h
    | cons top stack =>
      cases h
      cases hfinal
  | cons t ts ih =>
    rw [List.cons_append]
    rcases levelsFrom_cons stack opens closes t with
      ⟨stack', hpasses⟩ | ⟨e', -, hstep⟩
    · obtain ⟨opens', closes', hstep⟩ := levelsFrom_of_passesTo hpasses opens closes
      rw [hstep] at h ⊢
      rw [ih (map_eq_error.mp h)]
      rfl
    · rw [hstep] at h ⊢
      exact h

/-! ## §2 The main result -/

/-- Where levels cannot be assigned, the error says exactly whether closing delimiters behind the
row can help. -/
theorem isIncomplete_exact (h : assignLevels ts = .error e) :
    (e.cause.isIncomplete = true → ∃ closers : List Token, closers ≠ [] ∧
      (∀ c ∈ closers, ∃ f, c.lexeme = .delimiter f .right) ∧
      ∃ levelled, assignLevels (ts ++ closers) = .ok levelled) ∧
    (e.cause.isIncomplete = false → ∀ more, assignLevels (ts ++ more) = .error e) := by
  constructor
  · intro hopen
    obtain ⟨families, hne, hpaired⟩ := paired_of_isIncomplete h hopen
    refine ⟨families.map Token.closing, by simpa using hne, ?_, ?_⟩
    · intro c hc
      obtain ⟨f, -, rfl⟩ := List.mem_map.mp hc
      exact ⟨f, rfl⟩
    · exact levelsFrom_of_paired [] 0 0 hpaired
  · exact levelsFrom_append_of_final h

/-- In `({` two delimiters are open; in `(}` the second does not close the first. -/
theorem isIncomplete_open_and_crossed :
    let token (f : Family) (side : Side) : Token := ⟨.delimiter f side, 0, 0, .nowhere⟩
    let opened := [token .parenthesis .left, token .brace .left]
    let crossed := [token .parenthesis .left, token .brace .right]
    (∃ e, assignLevels opened = .error e ∧ ∃ closers levelled,
      assignLevels (opened ++ closers) = .ok levelled) ∧
    ∃ e, assignLevels crossed = .error e ∧ ∀ more, assignLevels (crossed ++ more) = .error e := by
  intro token opened crossed
  have hopened : assignLevels opened = .error ⟨.unclosed .brace, .nowhere, 2, 0⟩ := rfl
  have hcrossed : assignLevels crossed
      = .error ⟨.mismatched .parenthesis .nowhere .brace, .nowhere, 1, 1⟩ := rfl
  obtain ⟨closers, -, -, hclosed⟩ := (isIncomplete_exact hopened).1 rfl
  exact ⟨⟨_, hopened, closers, hclosed⟩, _, hcrossed, (isIncomplete_exact hcrossed).2 rfl⟩

end Scriptlet
