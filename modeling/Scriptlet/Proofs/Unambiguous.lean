import Scriptlet.Proofs.Quoting

/-!
# S-expressions can be read in one way

An s-expression is an atom, a quoted text or a list in parentheses. Atoms have no space, quote or
parenthesis in them, quoted texts show where they end, and lists end at the parenthesis that closes
them; so no text is the writing of two s-expressions, even if more may follow behind it.

## Contents

- §1 s-expressions
- §2 how they start
- §3 reading them in one way
-/

namespace Scriptlet

/-! ## §1 S-expressions -/

/-- An s-expression. -/
inductive SExpr where
  /-- Characters as they are. -/
  | bare (cs : List Char)
  /-- A text between quotes. -/
  | text (t : Text)
  /-- Items in parentheses. -/
  | list (items : List SExpr)

namespace SExpr

mutual

/-- The characters of an s-expression. -/
def chars : SExpr → List Char
  | .bare cs => cs
  | .text t => t.quotedChars
  | .list items => '(' :: (charsBehind items).tail ++ [')']

/-- The characters of items with a space before each. -/
def charsBehind : List SExpr → List Char
  | [] => []
  | x :: xs => ' ' :: x.chars ++ charsBehind xs

end

/-- The characters that no atom has. -/
def separators : List Char := [' ', '(', ')', '"']

/-- All atoms are shown as they are. -/
inductive Plain : SExpr → Prop where
  | bare (cs : List Char) (hne : cs ≠ []) (h : ∀ c ∈ cs, c ∉ separators) : Plain (.bare cs)
  | text (t : Text) : Plain (.text t)
  | list (items : List SExpr) (h : ∀ x ∈ items, Plain x) : Plain (.list items)

/-! ## §2 How they start -/

variable {x : SExpr}

/-- What an s-expression that is no atom opens with. -/
def opening? : SExpr → Option Char
  | .bare _ => none
  | .text _ => some '"'
  | .list _ => some '('

/-- The first character shows whether an atom, a text or a list follows. -/
theorem Plain.exists_chars (h : x.Plain) : ∃ c cs, x.chars = c :: cs ∧
    x.opening? = separators.find? (· == c) ∧ c ≠ ' ' ∧ c ≠ ')' := by
  cases h with
  | bare cs hne hcs =>
    obtain ⟨c, cs, rfl⟩ := List.exists_cons_of_ne_nil hne
    have hc := hcs c List.mem_cons_self
    refine ⟨c, cs, rfl, ?_, ?_, ?_⟩
    -- no separator is among the characters of an atom
    · refine (List.find?_eq_none.mpr fun d hd hdc => hc ?_).symm
      rwa [← beq_iff_eq.mp hdc]
    · rintro rfl
      exact hc (by decide)
    · rintro rfl
      exact hc (by decide)
  | text t => exact ⟨_, _, rfl, rfl, by decide, by decide⟩
  | list items _ => exact ⟨_, _, rfl, rfl, by decide, by decide⟩

theorem opening?_eq {y : SExpr} {rest rest' : List Char} (hx : x.Plain) (hy : y.Plain)
    (h : x.chars ++ rest = y.chars ++ rest') : x.opening? = y.opening? := by
  obtain ⟨c, cs, hcs, hopen, -⟩ := hx.exists_chars
  obtain ⟨d, ds, hds, hopen', -⟩ := hy.exists_chars
  rw [hcs, hds] at h
  rw [hopen, hopen', (List.cons.inj h).1]

/-- The characters follow an atom: there are none, or a space or parenthesis comes first. -/
def Follows (cs : List Char) : Prop := ∀ c, cs.head? = some c → c = ' ' ∨ c = ')'

theorem follows_nil : Follows [] := fun _ h => nomatch h

theorem follows_behind (xs : List SExpr) (rest : List Char) :
    Follows (charsBehind xs ++ ')' :: rest) := by
  intro c hc
  cases xs with
  | nil =>
    cases hc
    exact .inr rfl
  | cons x xs =>
    rw [charsBehind] at hc
    cases hc
    exact .inl rfl

/-- Where an atom ends. -/
theorem takeWhile_bare {cs rest : List Char} (h : ∀ c ∈ cs, c ∉ separators) (hrest : Follows rest) :
    (cs ++ rest).takeWhile (fun c => !separators.contains c) = cs := by
  rw [List.takeWhile_append_of_pos fun c hc => by simpa using h c hc]
  cases rest with
  | nil => simp
  | cons c rest =>
    have hc : c ∈ separators := by
      rcases hrest c rfl with rfl | rfl <;> decide
    simp [hc]

/-! ## §3 Reading them in one way -/

/-- Only between items there are spaces, but whether there is an item at all can be seen. -/
theorem charsBehind_of_tail {xs ys : List SExpr} {rest rest' : List Char}
    (hxs : ∀ x ∈ xs, x.Plain) (hys : ∀ y ∈ ys, y.Plain)
    (h : (charsBehind xs).tail ++ ')' :: rest = (charsBehind ys).tail ++ ')' :: rest') :
    charsBehind xs ++ ')' :: rest = charsBehind ys ++ ')' :: rest' := by
  -- no item starts with the parenthesis that closes the list
  have hempty {x : SExpr} {xs : List SExpr} {behind behind' : List Char} (hx : x.Plain)
      (h : ')' :: behind = (charsBehind (x :: xs)).tail ++ behind') : False := by
    obtain ⟨c, cs, hcs, -, -, hc⟩ := hx.exists_chars
    rw [charsBehind, hcs] at h
    exact hc (List.cons.inj h).1.symm
  match xs, ys with
  | [], [] => exact h
  | [], y :: ys => exact (hempty (hys y List.mem_cons_self) h).elim
  | x :: xs, [] => exact (hempty (hxs x List.mem_cons_self) h.symm).elim
  | x :: xs, y :: ys => exact congrArg (' ' :: ·) h

mutual

/-- **S-expressions can be read in one way**, whatever follows them. -/
theorem eq_of_chars (x y : SExpr) {rest rest' : List Char} (hx : x.Plain) (hy : y.Plain)
    (hrest : Follows rest) (hrest' : Follows rest') (h : x.chars ++ rest = y.chars ++ rest') :
    x = y ∧ rest = rest' := by
  -- both open alike, so they are of one kind
  match x, y, hx, hy, opening?_eq hx hy h with
  | .bare cs, .bare ds, .bare _ _ hcs, .bare _ _ hds, _ =>
    rw [chars, chars] at h
    obtain rfl : cs = ds := by rw [← takeWhile_bare hcs hrest, h, takeWhile_bare hds hrest']
    exact ⟨rfl, List.append_cancel_left h⟩
  | .text t, .text u, _, _, _ =>
    obtain ⟨rfl, hbehind⟩ := Text.eq_of_quotedChars h
    exact ⟨rfl, hbehind⟩
  | .list xs, .list ys, .list _ hxs, .list _ hys, _ =>
    have hitems : charsBehind xs ++ ')' :: rest = charsBehind ys ++ ')' :: rest' := by
      refine charsBehind_of_tail hxs hys ?_
      rw [chars, chars] at h
      simpa using h
    obtain ⟨rfl, hbehind⟩ := eq_of_charsBehind xs ys hxs hys hitems
    exact ⟨rfl, hbehind⟩

/-- Items in parentheses can be read in one way. -/
theorem eq_of_charsBehind (xs ys : List SExpr) {rest rest' : List Char} (hxs : ∀ x ∈ xs, x.Plain)
    (hys : ∀ y ∈ ys, y.Plain)
    (h : charsBehind xs ++ ')' :: rest = charsBehind ys ++ ')' :: rest') :
    xs = ys ∧ rest = rest' := by
  match xs, ys with
  -- the lists end together, since a parenthesis is no space
  | [], [] => exact ⟨rfl, (List.cons.inj h).2⟩
  | [], y :: ys | x :: xs, [] =>
    rw [charsBehind, charsBehind] at h
    cases (List.cons.inj h).1
  | x :: xs, y :: ys =>
    obtain ⟨hx, hxs⟩ := List.forall_mem_cons.mp hxs
    obtain ⟨hy, hys⟩ := List.forall_mem_cons.mp hys
    rw [charsBehind, charsBehind, List.cons_append, List.cons_append, List.append_assoc,
      List.append_assoc] at h
    obtain ⟨hfirst, hmore⟩ := eq_of_chars x y hx hy (follows_behind _ _) (follows_behind _ _)
      (List.cons.inj h).2
    obtain ⟨hothers, hbehind⟩ := eq_of_charsBehind xs ys hxs hys hmore
    exact ⟨by rw [hfirst, hothers], hbehind⟩

end

end SExpr

end Scriptlet
