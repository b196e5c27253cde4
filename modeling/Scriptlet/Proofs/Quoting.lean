import Scriptlet.Decimal.Reading
import Scriptlet.Text.Quoted
import Scriptlet.Proofs.Encoding

/-!
# Quoted texts can be read back

What a glyph is written as between quotes can be read back from the front, whatever follows, so a
quoted text ends in one place only and shows which bytes it stands for.

Only glyphs of a text are read back: a stray byte below `0x80` would be written like the control of
its number, but such a byte is never stray.

## Contents

- §1 hexadecimal digits
- §2 one glyph
- §3 quoted texts
-/

namespace Scriptlet

open Decimal (natOf)

namespace Text

/-! ## §1 Hexadecimal digits -/

/-- A digit behind the others counts once, and those sixteen times. -/
theorem natOf_append_digit (cs : List Char) {d : Nat} (hd : d < 16) :
    natOf 16 (cs ++ [d.digitChar]) = natOf 16 cs * 16 + d := by
  have hvalue : ∀ d < 16, Decimal.digitValue? 16 (Nat.digitChar d) = some d := by decide
  rw [natOf, List.foldl_append, List.foldl_cons, List.foldl_nil, hvalue d hd]
  rfl

/-- A number is read back from its digits. -/
theorem natOf_toDigits (n : Nat) : natOf 16 (Nat.toDigits 16 n) = n := by
  induction n using Nat.strongRecOn with
  | ind n ih =>
    rcases Nat.lt_or_ge n 16 with hlt | hge
    · rw [Nat.toDigits_of_lt_base hlt, ← List.nil_append [_], natOf_append_digit _ hlt]
      exact Nat.zero_add n
    · rw [Nat.toDigits_of_base_le (by decide) hge, natOf_append_digit _ (Nat.mod_lt _ (by decide)),
        ih (n / 16) (by omega)]
      omega

/-- Zeros in front of digits count nothing. -/
theorem natOf_hex (width n : Nat) : natOf 16 (hex width n) = n := by
  have hzeros (k : Nat) (cs : List Char) : natOf 16 (List.replicate k '0' ++ cs) = natOf 16 cs := by
    induction k with
    | zero => rfl
    | succ k ih => exact ih
  rw [hex, hzeros, natOf_toDigits]

/-- Numbers that fit are written with exactly the digits asked for. -/
theorem length_hex (width : Nat) {n : Nat} (hwidth : 0 < width) (h : n < 16 ^ width) :
    (hex width n).length = width := by
  have hle := (Nat.length_toDigits_le_iff (by decide) hwidth).mpr h
  rw [hex, List.length_append, List.length_replicate]
  omega

/-! ## §2 One glyph -/

/-- The control that a letter names after a backslash. -/
def controlOf? : Char → Option Char
  | 'a' => some (Char.ofNat 7)
  | 'b' => some (Char.ofNat 8)
  | 't' => some (Char.ofNat 9)
  | 'n' => some (Char.ofNat 10)
  | 'v' => some (Char.ofNat 11)
  | 'f' => some (Char.ofNat 12)
  | 'r' => some (Char.ofNat 13)
  | _ => none

/-- Reads what a glyph is written as between quotes, from the front. -/
def readGlyph : List Char → Option (Glyph × List Char)
  | [] => none
  | [c] => some (.char c, [])
  | c :: mark :: rest =>
    if c = '\\' then
      if mark = 'x' then
        let n := natOf 16 (rest.take 2)
        some (if n < 0x80 then .char (Char.ofNat n) else .stray (UInt8.ofNat n), rest.drop 2)
      else if mark = 'u' then some (.char (Char.ofNat (natOf 16 (rest.take 4))), rest.drop 4)
      else if mark = 'U' then some (.char (Char.ofNat (natOf 16 (rest.take 8))), rest.drop 8)
      else some (.char ((controlOf? mark).getD mark), rest)
    else some (.char c, mark :: rest)

/-- The letter of a control character leads back to it, and is none of the numbered escapes. -/
theorem controlOf?_letter {c letter : Char} (h : controlLetter c = some letter) :
    controlOf? letter = some c ∧ letter ≠ 'x' ∧ letter ≠ 'u' ∧ letter ≠ 'U' := by
  unfold controlLetter at h
  split at h <;> cases h <;>
    exact ⟨by rw [← Char.ofNat_toNat c, ‹c.toNat = _›]; rfl, by decide, by decide, by decide⟩

theorem readGlyph_plain {c : Char} (h : c ≠ '\\') (rest : List Char) :
    readGlyph (c :: rest) = some (.char c, rest) := by
  cases rest with
  | nil => rfl
  | cons d rest => rw [readGlyph, if_neg h]

/-- A byte is read back from its two digits, as a character of ASCII or as a stray byte. -/
theorem readGlyph_hex {n : Nat} (h : n < 256) (rest : List Char) :
    readGlyph (['\\', 'x'] ++ hex 2 n ++ rest)
      = some (if n < 0x80 then .char (Char.ofNat n) else .stray (UInt8.ofNat n), rest) := by
  have hlength := length_hex 2 (by decide) h
  simp only [List.cons_append, List.nil_append, readGlyph, if_true, List.take_left' hlength,
    List.drop_left' hlength, natOf_hex]

/-- A character is read back from its number. -/
theorem readGlyph_numbered (c : Char) (rest : List Char) :
    readGlyph (numbered c ++ rest) = some (.char c, rest) := by
  have hvalid : IsScalar c.toNat := c.valid
  unfold IsScalar at hvalid
  -- the three widths of a number: two digits, four, and eight
  unfold numbered
  simp only
  split
  · next hlow =>
    have hlt : c.toNat < 0x80 := by
      simp only [Bool.or_eq_true, decide_eq_true_eq, beq_iff_eq] at hlow
      omega
    rw [readGlyph_hex (by omega), if_pos hlt, Char.ofNat_toNat]
  · split
    · next hshort =>
      have hlength := length_hex 4 (by decide) hshort
      simp [readGlyph, List.take_left' hlength, List.drop_left' hlength, natOf_hex,
        Char.ofNat_toNat]
    · have hlength := length_hex 8 (n := c.toNat) (by decide) (by omega)
      simp [readGlyph, List.take_left' hlength, List.drop_left' hlength, natOf_hex,
        Char.ofNat_toNat]

/-- **What a glyph is written as can be read back**, whatever follows. -/
theorem readGlyph_quotedGlyph {g : Glyph} (hg : ∀ b, g = .stray b → 0x80 ≤ b.toNat)
    (rest : List Char) : readGlyph (quotedGlyph '"' g ++ rest) = some (g, rest) := by
  cases g with
  | stray b =>
    have hb := hg b rfl
    rw [quotedGlyph, readGlyph_hex b.toNat_lt, if_neg (by omega), UInt8.ofNat_toNat]
  | char c =>
    -- a quote or backslash is escaped, a plain character stays, any other has a letter or a number
    rw [quotedGlyph]
    unfold quotedChar
    split
    · next hmark =>
      rcases hmark with rfl | rfl <;> rfl
    next hmark =>
    split
    · exact readGlyph_plain (fun h => hmark (.inr h)) rest
    · cases hletter : controlLetter c with
      | none => exact readGlyph_numbered c rest
      | some letter =>
        obtain ⟨hcontrol, hx, hu, hU⟩ := controlOf?_letter hletter
        simp [readGlyph, hx, hu, hU, hcontrol]

/-- No glyph is written with a quote in front. -/
theorem exists_quotedGlyph (g : Glyph) : ∃ c cs, quotedGlyph '"' g = c :: cs ∧ c ≠ '"' := by
  have hslash : '\\' ≠ '"' := by decide
  cases g with
  -- a glyph is either itself, and no quote, or it is written with a backslash
  | stray b => exact ⟨_, _, rfl, hslash⟩
  | char c =>
    rw [quotedGlyph]
    unfold quotedChar
    split
    · exact ⟨_, _, rfl, hslash⟩
    next hmark =>
    split
    · exact ⟨_, _, rfl, fun h => hmark (.inl h)⟩
    · split
      · exact ⟨_, _, rfl, hslash⟩
      · unfold numbered
        simp only
        split
        · exact ⟨_, _, rfl, hslash⟩
        · split <;> exact ⟨_, _, rfl, hslash⟩

/-! ## §3 Quoted texts -/

/-- A stray byte begins no character. -/
theorem exists_of_stray_mem {t : Text} {b : UInt8} {passed : Nat}
    (h : .stray b ∈ glyphsFrom passed t) : ∃ rest, scalar? (b :: rest) = none := by
  induction t generalizing passed with
  | nil => cases passed <;> cases h
  | cons a t ih =>
    cases passed with
    | succ passed => exact ih h
    -- a stray byte is one where no scalar starts
    | zero =>
      rw [glyphsFrom] at h
      cases hscalar : scalar? (a :: t) with
      | none =>
        rw [hscalar] at h
        rcases List.mem_cons.mp h with heq | hmem
        · cases heq
          exact ⟨t, hscalar⟩
        · exact ih hmem
      | some read =>
        rw [hscalar] at h
        exact ih (List.mem_of_ne_of_mem (by simp) h)

/-- A byte below `0x80` is a character of its own. -/
theorem le_of_stray_mem {t : Text} {b : UInt8} (h : .stray b ∈ t.glyphs) : 0x80 ≤ b.toNat := by
  obtain ⟨rest, hrest⟩ := exists_of_stray_mem h
  by_contra hlt
  rw [scalar?_one (Nat.lt_of_not_le hlt)] at hrest
  cases hrest

/-- The characters of a text between double quotes. -/
def quotedChars (t : Text) : List Char :=
  ['"'] ++ t.glyphs.flatMap (quotedGlyph '"') ++ ['"']

/-- Quoted glyphs are read back in order, up to the closing quote. -/
theorem eq_of_quotedGlyphs {gs hs : List Glyph} {rest rest' : List Char}
    (hgs : ∀ b, .stray b ∈ gs → 0x80 ≤ b.toNat) (hhs : ∀ b, .stray b ∈ hs → 0x80 ≤ b.toNat)
    (h : gs.flatMap (quotedGlyph '"') ++ '"' :: rest
      = hs.flatMap (quotedGlyph '"') ++ '"' :: rest') : gs = hs ∧ rest = rest' := by
  induction gs generalizing hs with
  | nil =>
    -- a text that is over shows its quote, and no glyph starts with one
    cases hs with
    | nil => exact ⟨rfl, (List.cons.inj h).2⟩
    | cons g hs =>
      obtain ⟨c, cs, hg, hc⟩ := exists_quotedGlyph g
      rw [List.flatMap_cons, hg] at h
      exact absurd (List.cons.inj h).1.symm hc
  | cons g gs ih =>
    cases hs with
    | nil =>
      obtain ⟨c, cs, hg, hc⟩ := exists_quotedGlyph g
      rw [List.flatMap_cons, hg] at h
      exact absurd (List.cons.inj h).1 hc
    | cons g' hs =>
      have hg := readGlyph_quotedGlyph (fun b hb => hgs b (hb ▸ List.mem_cons_self))
        (gs.flatMap (quotedGlyph '"') ++ '"' :: rest)
      rw [← List.append_assoc, ← List.flatMap_cons, h, List.flatMap_cons, List.append_assoc,
        readGlyph_quotedGlyph fun b hb => hhs b (hb ▸ List.mem_cons_self)] at hg
      obtain ⟨rfl, hbehind⟩ := Prod.mk.inj (Option.some.inj hg)
      obtain ⟨rfl, hrest⟩ := ih (fun b hb => hgs b (by simp [hb]))
        (fun b hb => hhs b (by simp [hb])) hbehind.symm
      exact ⟨rfl, hrest⟩

/-- **A quoted text can be read back** from the front, whatever follows. -/
theorem eq_of_quotedChars {t u : Text} {rest rest' : List Char}
    (h : t.quotedChars ++ rest = u.quotedChars ++ rest') : t = u ∧ rest = rest' := by
  have hbody : t.glyphs.flatMap (quotedGlyph '"') ++ '"' :: rest
      = u.glyphs.flatMap (quotedGlyph '"') ++ '"' :: rest' := by
    simpa [quotedChars] using h
  obtain ⟨hglyphs, hrest⟩ := eq_of_quotedGlyphs (fun _ => le_of_stray_mem)
    (fun _ => le_of_stray_mem) hbody
  exact ⟨by rw [← text_glyphs t, hglyphs, text_glyphs], hrest⟩

end Text

end Scriptlet
