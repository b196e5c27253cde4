import Mathlib.Data.List.Forall2
import Scriptlet.Proofs.WellFormed

/-!
# Tokens written out and read again

Tokens are written out with a space between neighbours: strings between double quotes, everything
else by its value. Nothing that a token says is lost on the way. The escapes that are written are
those that the scanner takes back, a space completes whatever is pending and keeps slashes and stars
apart, and how a sign is marked depends on the lexemes before it, which come back one by one. So
what was written out is read as tokens that say the same, at places of their own.

## Contents

- §1 what a token says
- §2 what is written out
- §3 reading it again
-/

namespace Scriptlet

/-! ## §1 What a token says -/

/-- The tokens agree in everything but their places, indices and levels. -/
structure Token.SaysSame (t u : Token) : Prop where
  kind : t.lexeme.kind = u.lexeme.kind
  subkind : t.lexeme.subkind = u.lexeme.subkind
  family : t.lexeme.family? = u.lexeme.family?
  value : t.lexeme.value = u.lexeme.value
  null : t.lexeme.isNull = u.lexeme.isNull

theorem Keyword.spelling_injective : Function.Injective spelling := by
  intro k l h
  cases k <;> cases l <;> first | rfl | (revert h; decide)

/-- Kind, subkind, family, value and the flag of empty strings settle a lexeme. -/
theorem Lexeme.eq_of_parts {x y : Lexeme} (hkind : x.kind = y.kind)
    (hsubkind : x.subkind = y.subkind) (hfamily : x.family? = y.family?)
    (hvalue : x.value = y.value) (hnull : x.isNull = y.isNull) : x = y := by
  -- the value settles what a lexeme of its kind says, and the subkind how a sign is marked
  cases x with
  | name t => cases y <;> simp_all [kind, subkind, value]
  | keyword k => cases y <;> simp_all [kind, subkind, value, Keyword.spelling_injective.eq_iff]
  | number t => cases y <;> simp_all [kind, value]
  | string t => cases y <;> simp_all [kind, value, isNull]
  | operator op f =>
    cases y with
    | operator op' f' =>
      obtain rfl := Operator.spelling_injective hvalue
      cases f <;> cases f' <;> first | rfl | cases hsubkind
    | _ => cases hkind
  | delimiter f s =>
    cases y with
    | delimiter g s' =>
      obtain rfl := Option.some.inj hfamily
      cases s <;> cases s' <;> first | rfl | cases hsubkind
    | _ => cases hkind

theorem Token.saysSame_iff {t u : Token} : t.SaysSame u ↔ t.lexeme = u.lexeme := by
  constructor
  · exact fun h => Lexeme.eq_of_parts h.kind h.subkind h.family h.value h.null
  · intro h
    constructor <;> rw [h]

/-! ## §2 What is written out -/

/-- The lexeme as it is written out: a string stands between double quotes, with a backslash before
each double quote and backslash, and everything else is its value. -/
def Lexeme.writtenOut (x : Lexeme) : Text :=
  match x.kind with
  | .string => Text.ofChars ('"' :: (x.value.chars.flatMap escape ++ ['"']))
  | _ => x.value

/-- The tokens written out with single spaces between them. -/
def writtenOut (tokens : List Token) : Text := Text.words (tokens.map (·.lexeme.writtenOut))

namespace Lexeme

/-- A lexeme is written out as the characters of its symbol. -/
theorem writtenOut_of_writable {x : Lexeme} (hx : x.symbol.Writable) :
    x.writtenOut = Text.ofChars x.symbol.chars := by
  cases x with
  | string v => rfl
  | name | keyword => exact (hx.ofChars_chars (.inl rfl)).symm
  | number => exact (hx.ofChars_chars (.inr (.inl rfl))).symm
  | operator | delimiter => exact (hx.ofChars_chars (.inr (.inr rfl))).symm

end Lexeme

theorem writtenOut_eq_spaced {tokens : List Token}
    (h : ∀ t ∈ tokens, t.lexeme.symbol.Writable) :
    writtenOut tokens = spaced (tokens.map (·.lexeme.symbol)) := by
  unfold writtenOut spaced
  rw [List.map_map]
  exact congrArg Text.words
    (List.map_congr_left fun t ht => Lexeme.writtenOut_of_writable (h t ht))

/-! ## §3 Reading it again -/

/-- **Tokens written out are read again**: the text has as many tokens, and one by one they say the
same. -/
theorem tokenize_writtenOut {source : Text} {tokens : List Token}
    (h : tokenize source = .ok tokens) :
    ∃ again, tokenize (writtenOut tokens) = .ok again ∧
      again.length = tokens.length ∧ List.Forall₂ Token.SaysSame tokens again := by
  -- marking signs changes no symbol, so what is written are the symbols of the scanned lexemes
  obtain ⟨raw, -, hmarked, hscanned, hsymbols, -⟩ := lexemes_of_tokenize h
  have hwritable := writable_of_tokenize h
  have htext : writtenOut tokens = spaced (raw.map Lexeme.symbol) := by
    rw [writtenOut_eq_spaced (List.forall_mem_map.mp hwritable), hsymbols]
  rw [hsymbols] at hwritable
  obtain ⟨marks, again, -, -, hagain, hsame⟩ := tokenize_spaced hwritable
  rw [map_lexeme_of_scanned hscanned, hmarked] at hsame
  refine ⟨again, by rw [htext, hagain], ?_, ?_⟩
  · simpa using congrArg List.length hsame
  · have hpairs : List.Forall₂ (fun t u : Token => t.lexeme = u.lexeme) tokens again := by
      rw [← List.forall₂_map_left_iff (f := Token.lexeme) (R := fun x u => x = Token.lexeme u),
        ← List.forall₂_map_right_iff (f := Token.lexeme) (R := fun x y => x = y),
        List.forall₂_eq_eq_eq]
      exact hsame.symm
    exact hpairs.imp fun t u => Token.saysSame_iff.mpr

/-- A point behind a number and its point, an escaped quote, a line end inside a string and a sign
behind a sign. -/
theorem tokenize_writtenOut_quoted :
    let source : Text := "1../**/x - -'\\'\"\\n'"
    let out : Text := "1. . x - - \"'\\\"\n\""
    ∃ tokens again, tokenize source = .ok tokens ∧ writtenOut tokens = out ∧
      tokenize (writtenOut tokens) = .ok again ∧ again.length = tokens.length ∧
        List.Forall₂ Token.SaysSame tokens again := by
  intro source out
  have hsource : tokenize source = .ok [⟨.number "1.", 0, 0, ⟨0, 1, 1⟩⟩,
      ⟨.operator .dot .dual, 1, 0, ⟨2, 1, 3⟩⟩, ⟨.name "x", 2, 0, ⟨7, 1, 8⟩⟩,
      ⟨.operator .minus .dual, 3, 0, ⟨9, 1, 10⟩⟩, ⟨.operator .minus .leading, 4, 0, ⟨11, 1, 12⟩⟩,
      ⟨.string "'\"\n", 5, 0, ⟨12, 1, 13⟩⟩] := by
    decide +kernel
  obtain ⟨again, hagain, hlength, hsame⟩ := tokenize_writtenOut hsource
  exact ⟨_, again, hsource, by decide +kernel, hagain, hlength, hsame⟩

end Scriptlet
