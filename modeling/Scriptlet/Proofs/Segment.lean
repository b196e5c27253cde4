import Mathlib.Data.List.Chain
import Scriptlet.Proofs.Statement

/-!
# Statements with semicolons between them

For the forest reader semicolons separate: they may be missing behind the last statement of a block
and there may be more than needed. For the grammar they end statements, and a block has none behind
it. `Segmented` describes the wider form. On symbols of that form the grammar either reads
everything and finds the same statements, or its loop stops in the middle, at a symbol at which
neither a block nor a source ends.

## Contents

- §1 segments
- §2 reading to the end or stopping early
- §3 segments that the grammar reads whole
-/

namespace Scriptlet

/-! ## §1 Segments -/

/-- The symbols are simple statements and blocks with semicolons between neighbours, some perhaps
empty. -/
inductive Segmented : List Symbol → List Node → Prop where
  | nil : Segmented [] []
  /-- Nothing before a semicolon. -/
  | skip (xs : List Symbol) (ns : List Node) (h : Segmented xs ns) : Segmented (.mark ";" :: xs) ns
  | last (xs : List Symbol) (n : Node) (h : Simple xs n) : Segmented xs [n]
  | next (xs ys : List Symbol) (n : Node) (ns : List Node) (h : Simple xs n)
      (hmore : Segmented ys ns) : Segmented (xs ++ .mark ";" :: ys) (n :: ns)
  | blockLast (xs : List Symbol) (ms : List Node) (h : Segmented xs ms) :
      Segmented (.mark "\x7b" :: (xs ++ [.mark "\x7d"])) [.block ms .nowhere]
  | blockNext (xs ys : List Symbol) (ms ns : List Node) (h : Segmented xs ms)
      (hmore : Segmented ys ns) :
      Segmented (.mark "\x7b" :: (xs ++ [.mark "\x7d"]) ++ .mark ";" :: ys)
        (.block ms .nowhere :: ns)

namespace Grammar

open Scriptlet.Parser

variable {s : Stream} {f : Nat} {xs rest : List Symbol} {ns : List Node}

/-! ## §2 Reading to the end or stopping early -/

/-- The symbols behind a block or at the end of the source. -/
def Leaves (rest : List Symbol) : Prop := rest = [] ∨ ∃ more, rest = .mark "\x7d" :: more

theorem Leaves.closed (h : Leaves rest) : Closed rest := by
  rcases h with rfl | ⟨more, rfl⟩
  · exact .inl rfl
  · exact Closed.brace more

/-- The repeated parser stops at a symbol of `xs` that is no closing brace. -/
def Stalls (s : Stream) (p : Parser Node) (xs rest : List Symbol) : Prop :=
  ∃ ys x zs, xs = ys ++ x :: zs ∧ x ≠ .mark "\x7d" ∧ x ≠ .ending ∧
    Repeats s p ys (x :: (zs ++ rest)) fun _ => True

theorem Stalls.now {p : Parser Node} {x : Symbol} (hx : x ≠ .mark "\x7d") (hend : x ≠ .ending)
    (hp : Rejects s p (x :: (xs ++ rest))) : Stalls s p (x :: xs) rest :=
  ⟨[], x, xs, rfl, hx, hend, Repeats.stop hp trivial⟩

/-- Where the loop stops behind a statement it stops behind all of what it has read. -/
theorem Stalls.later {p : Parser Node} {Q : Node → Prop} {ys : List Symbol} (hne : xs ≠ [])
    (hp : Takes s p xs (ys ++ rest) Q) (h : Stalls s p ys rest) : Stalls s p (xs ++ ys) rest := by
  obtain ⟨zs, x, more, rfl, hx, hend, hr⟩ := h
  rw [List.append_assoc] at hp
  exact ⟨xs ++ zs, x, more, by simp, hx, hend, Repeats.round hne hp fun _ _ => hr⟩

/-- A block whose statements the loop does not read to the end is no statement. -/
theorem block_rejects_of_stalls (hf : 3 < f) (h : Stalls s (unfold f .statement) xs rest) :
    Rejects s (unfold (f + 1) .statement) (.mark "\x7b" :: (xs ++ rest)) := by
  obtain ⟨ys, x, zs, rfl, hx, _, hr⟩ := h
  have hbraces : Rejects s (braces (unfold f)) (.mark "\x7b" :: (ys ++ x :: zs ++ rest)) := by
    refine (punct_takes "\x7b").cons_rejects fun _ _ => ?_
    rw [List.append_assoc]
    exact hr.takes.bind_rejects fun _ _ => (punct_rejects (by simpa using hx)).bind
  exact statement_rejects_at_brace hbraces (by omega)

/-- A block whose statements are read is read. -/
theorem block_takes_of_repeats {ms : List Node}
    (h : Repeats s (unfold f .statement) xs (.mark "\x7d" :: rest) (·.map Node.cleared = ms)) :
    Takes s (unfold (f + 1) .statement) (.mark "\x7b" :: (xs ++ [.mark "\x7d"])) rest
      (·.cleared = .block ms .nowhere) := by
  refine statement_takes_at_brace ?_
  refine (punct_takes "\x7b").cons fun _ _ => h.takes.bind fun ns hns => ?_
  exact (punct_takes "\x7d").map fun _ _ => hns

/-- A simple statement may be the last of a source. -/
theorem last_repeats {n : Node} (h : Simple xs n) (hf : 2 * xs.length + 4 ≤ f) :
    Repeats s (unfold f .statement) xs [] (·.map Node.cleared = [n]) := by
  have hone : Takes s (unfold f .statement) (xs ++ []) [] (·.cleared = n) :=
    (simple_ended h hf).takes (.inr ⟨rfl, rfl⟩)
  rw [List.append_nil] at hone
  obtain ⟨x, more, rfl, _, _, _⟩ := h.head
  refine Repeats.once (by simp) hone (statement_rejects (.inl rfl) (by omega)) fun a ha => ?_
  rw [List.map_cons, ha, List.map_nil]

/-- The loop over statements reads all of what is segmented, or it stops in the middle. -/
theorem segmented_repeats_or_stalls (h : Segmented xs ns) (hf : 2 * xs.length + 4 ≤ f)
    (hrest : Leaves rest) :
    Repeats s (unfold f .statement) xs rest (·.map Node.cleared = ns) ∨
      Stalls s (unfold f .statement) xs rest := by
  -- by induction on the segments; once the loop has stalled, what follows does not matter
  induction h generalizing f rest with
  | nil => exact .inl (Repeats.stop (statement_rejects hrest.closed (by omega)) rfl)
  | skip xs ns h ih =>
    -- no statement is empty
    refine .inr (Stalls.now (by decide) (by simp) (statement_rejects ?_ (by omega)))
    exact .inr ⟨_, _, .inl rfl, rfl⟩
  | last xs n h =>
    have hended := simple_ended (s := s) h hf
    obtain ⟨x, more, rfl, _, hx, hend⟩ := h.head
    -- only the end of the source may stand for the last semicolon, not a closing brace
    rcases hrest with rfl | ⟨behind, rfl⟩
    · exact .inl (last_repeats h hf)
    · exact .inr (Stalls.now hx hend (hended.rejects behind))
  | next xs ys n ns h hmore ih =>
    simp only [List.length_append, List.length_cons] at hf
    have hone : Takes s (unfold f .statement) (xs ++ [.mark ";"]) (ys ++ rest) (·.cleared = n) :=
      (simple_ended h (by omega)).takes (.inl rfl)
    have hsplit : xs ++ .mark ";" :: ys = (xs ++ [.mark ";"]) ++ ys := by simp
    rw [hsplit]
    rcases ih (f := f) (by omega) hrest with hall | hstall
    · refine .inl (Repeats.round (by simp) hone fun a ha => hall.imp fun as has => ?_)
      rw [List.map_cons, ha, has]
    · exact .inr (hstall.later (by simp) hone)
  | blockLast xs ms h ih =>
    obtain ⟨f, rfl⟩ : ∃ g, f = g + 1 := ⟨f - 1, by omega⟩
    simp only [List.length_cons, List.length_append, List.length_nil] at hf
    -- if the statements of the block are not read to its end, neither is the block
    have hinner : Leaves (.mark "\x7d" :: rest) := .inr ⟨rest, rfl⟩
    rcases ih (f := f) (by omega) hinner with hall | hstall
    · refine .inl (Repeats.once (by simp) (block_takes_of_repeats hall)
        (statement_rejects hrest.closed (by omega)) fun a ha => ?_)
      rw [List.map_cons, ha, List.map_nil]
    · refine .inr (Stalls.now (by decide) (by simp) ?_)
      rw [List.append_assoc]
      exact block_rejects_of_stalls (by omega) hstall
  | blockNext xs ys ms ns h hmore ih _ =>
    obtain ⟨f, rfl⟩ : ∃ g, f = g + 1 := ⟨f - 1, by omega⟩
    simp only [List.length_cons, List.length_append, List.length_nil] at hf
    have hinner : Leaves (.mark "\x7d" :: (.mark ";" :: ys ++ rest)) := .inr ⟨_, rfl⟩
    rcases ih (f := f) (by omega) hinner with hall | hstall
    · -- the block is read, and behind it the semicolon is no statement
      refine .inr (Stalls.later (by simp) (block_takes_of_repeats hall) ?_)
      refine Stalls.now (by decide) (by simp) (statement_rejects ?_ (by omega))
      exact .inr ⟨_, _, .inl rfl, rfl⟩
    · refine .inr (Stalls.now (by decide) (by simp) ?_)
      have hsame : xs ++ [.mark "\x7d"] ++ .mark ";" :: ys ++ rest
          = xs ++ .mark "\x7d" :: (.mark ";" :: ys ++ rest) := by simp
      show Rejects s _ (_ :: (xs ++ [.mark "\x7d"] ++ .mark ";" :: ys ++ rest))
      rw [hsame]
      exact block_rejects_of_stalls (by omega) hstall

/-- A program of segmented symbols has the statements of the segments. -/
theorem stmts_of_segmented {p : Program} (h : Segmented (s.left 0) ns)
    (hok : parseStream s = .ok p) : p.stmts.map Node.cleared = ns := by
  have hf := le_unfoldings s
  have hrun : (program (unfoldings s)).run s = .ok p.stmts := by
    unfold parseStream at hok
    cases hr : (program (unfoldings s)).run s with
    | ok stmts => rw [hr] at hok; cases hok; rfl
    | error e => rw [hr] at hok; cases hok
  -- a loop that stalls leaves a symbol, so the source would not have been accepted
  rcases segmented_repeats_or_stalls (s := s) h hf (.inl rfl) with hall | hstall
  · obtain ⟨stmts, hstmts, hr⟩ := run_of_takes hall.takes
    rw [program, hr] at hrun
    cases hrun
    exact hstmts
  · obtain ⟨ys, x, zs, hleft, _, hend, hr⟩ := hstall
    rw [List.append_nil] at hr
    exact absurd hrun (run_of_stops hr.takes hleft hend)

/-! ## §3 Segments that the grammar reads whole -/

/-- There are no braces and no empty segments among the symbols, the last one apart. -/
structure Plain (xs : List Symbol) : Prop where
  noBrace : .mark "\x7b" ∉ xs
  noFirst : xs.head? ≠ some (.mark ";")
  noDouble : xs.IsChain fun x y => x = .mark ";" → y ≠ .mark ";"

theorem Plain.of_not_mem (hbrace : .mark "\x7b" ∉ xs) (hsemicolon : .mark ";" ∉ xs) : Plain xs := by
  refine ⟨hbrace, fun hhead => hsemicolon (List.mem_of_mem_head? hhead), ?_⟩
  refine (List.pairwise_of_forall_mem_list fun x hx y _ heq => ?_).isChain
  exact absurd (heq ▸ hx) hsemicolon

/-- Plain segments are statements that end. -/
theorem segmented_repeats_of_plain (h : Segmented xs ns) (hplain : Plain xs)
    (hf : 2 * xs.length + 4 ≤ f) :
    Repeats s (unfold f .statement) xs [] (·.map Node.cleared = ns) := by
  induction h generalizing f with
  | nil => exact Repeats.stop (statement_rejects (.inl rfl) (by omega)) rfl
  | skip xs ns h ih => exact absurd rfl hplain.noFirst
  | last xs n h => exact last_repeats h hf
  -- the statement is taken with its semicolon, and what follows is plain by itself
  | next xs ys n ns h hmore ih =>
    simp only [List.length_append, List.length_cons] at hf
    have hone : Takes s (unfold f .statement) (xs ++ [.mark ";"]) (ys ++ []) (·.cleared = n) :=
      (simple_ended h (by omega)).takes (.inl rfl)
    obtain ⟨hhead, hdouble⟩ := List.isChain_cons.mp (List.isChain_append.mp hplain.noDouble).2.1
    have hmore : Plain ys :=
      ⟨fun hmem => hplain.noBrace (by simp [hmem]), fun h => hhead _ h rfl rfl, hdouble⟩
    have hsplit : xs ++ .mark ";" :: ys = (xs ++ [.mark ";"]) ++ ys := by simp
    rw [hsplit]
    refine Repeats.round (by simp) hone fun a ha => (ih hmore (by omega)).imp fun as has => ?_
    rw [List.map_cons, ha, has]
  -- a block has braces, and a plain source has none
  | blockLast xs ms h ih => exact absurd (by simp) hplain.noBrace
  | blockNext xs ys ms ns h hmore ih _ => exact absurd (by simp) hplain.noBrace

/-- Plain segments are a program. -/
theorem parseStream_of_plain (h : Segmented (s.left 0) ns) (hplain : Plain (s.left 0)) :
    ∃ p, parseStream s = .ok p := by
  have hall := (segmented_repeats_of_plain (s := s) h hplain (le_unfoldings s)).takes
  obtain ⟨stmts, _, hrun⟩ := run_of_takes hall
  refine ⟨⟨stmts, .nowhere⟩, ?_⟩
  rw [parseStream, program, hrun]
  rfl

end Grammar

end Scriptlet
