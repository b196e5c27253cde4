import Mathlib
import Scriptlet.Text.Glyph

/-!
# Texts and their characters

Reading the bytes of characters gives the characters back, and a text without stray bytes is the
text of its characters.

## Contents

- §1 bytes as numbers
- §2 encodings of one to four bytes
- §3 reading what was written
- §4 writing what was read
- §5 texts of characters
- §6 line ends
-/

namespace Scriptlet

namespace Text

variable {a b c d : UInt8} {rest : Text} {v : Nat}

/-! ## §1 Bytes as numbers -/

theorem toNat_ofNat (h : v < 256) : (UInt8.ofNat v).toNat = v := by
  rw [UInt8.toNat_ofNat', Nat.mod_eq_of_lt h]

theorem ofNat_eq (h : v = a.toNat) : UInt8.ofNat v = a := by
  rw [h, UInt8.ofNat_toNat]

/-- The bytes that continue a sequence. -/
theorem isTail_iff : isTail b = true ↔ 0x80 ≤ b.toNat ∧ b.toNat ≤ 0xBF := by
  simp only [isTail, Bool.and_eq_true, decide_eq_true_eq, UInt8.le_iff_toNat_le, UInt8.reduceToNat]

/-- The second byte of three, with the leading bytes that leave it less room. -/
theorem fitsThree_iff : fitsThree a b = true ↔ isTail b = true ∧
    (a.toNat = 0xE0 → 0xA0 ≤ b.toNat) ∧ (a.toNat = 0xED → b.toNat ≤ 0x9F) := by
  simp only [fitsThree, Bool.and_eq_true, Bool.or_eq_true, bne_iff_ne, ne_eq, ← UInt8.toNat_inj,
    decide_eq_true_eq, UInt8.le_iff_toNat_le, UInt8.reduceToNat, and_assoc]
  refine and_congr_right fun _ => ?_
  omega

/-- The second byte of four, with the leading bytes that leave it less room. -/
theorem fitsFour_iff : fitsFour a b = true ↔ isTail b = true ∧
    (a.toNat = 0xF0 → 0x90 ≤ b.toNat) ∧ (a.toNat = 0xF4 → b.toNat ≤ 0x8F) := by
  simp only [fitsFour, Bool.and_eq_true, Bool.or_eq_true, bne_iff_ne, ne_eq, ← UInt8.toNat_inj,
    decide_eq_true_eq, UInt8.le_iff_toNat_le, UInt8.reduceToNat, and_assoc]
  refine and_congr_right fun _ => ?_
  omega

theorem leadsTwo_iff : (0xC2 ≤ a && a ≤ 0xDF) = true ↔ 0xC2 ≤ a.toNat ∧ a.toNat ≤ 0xDF := by
  simp only [Bool.and_eq_true, decide_eq_true_eq, UInt8.le_iff_toNat_le, UInt8.reduceToNat]

theorem leadsThree_iff : (0xE0 ≤ a && a ≤ 0xEF) = true ↔ 0xE0 ≤ a.toNat ∧ a.toNat ≤ 0xEF := by
  simp only [Bool.and_eq_true, decide_eq_true_eq, UInt8.le_iff_toNat_le, UInt8.reduceToNat]

theorem leadsFour_iff : (0xF0 ≤ a && a ≤ 0xF4) = true ↔ 0xF0 ≤ a.toNat ∧ a.toNat ≤ 0xF4 := by
  simp only [Bool.and_eq_true, decide_eq_true_eq, UInt8.le_iff_toNat_le, UInt8.reduceToNat]

theorem isTail_ofNat (v : Nat) : isTail (UInt8.ofNat (v % 64 + 128)) = true := by
  rw [isTail_iff, toNat_ofNat (by omega)]
  omega

theorem tailBits_ofNat (v : Nat) : tailBits (UInt8.ofNat (v % 64 + 128)) = v % 64 := by
  rw [tailBits, toNat_ofNat (by omega)]
  omega

/-! ## §2 Encodings of one to four bytes -/

/-- The number of a character is neither a surrogate nor too large. -/
def IsScalar (v : Nat) : Prop := v < 0xD800 ∨ 0xDFFF < v ∧ v < 0x110000

/-- A character is known from its scalar. -/
theorem toNat_val_ofNat (hv : IsScalar v) : (Char.ofNat v).val.toNat = v := by
  have h : v.isValidChar := hv
  simp [Char.ofNat, h, Char.ofNatAux]

/-- One byte for the characters of ASCII. -/
theorem ofChar_one (h : v < 0x80) : ofChar (Char.ofNat v) = [UInt8.ofNat v] := by
  unfold ofChar String.utf8EncodeChar
  simp only [toNat_val_ofNat (.inl (by omega) : IsScalar v)]
  rw [if_pos (by omega)]

/-- Two bytes for the characters below U+0800. -/
theorem ofChar_two (hlo : 0x80 ≤ v) (hhi : v < 0x800) :
    ofChar (Char.ofNat v) = [UInt8.ofNat (v / 64 % 32 + 192), UInt8.ofNat (v % 64 + 128)] := by
  unfold ofChar String.utf8EncodeChar
  simp only [toNat_val_ofNat (.inl (by omega) : IsScalar v)]
  rw [if_neg (by omega), if_pos (by omega)]

/-- Three bytes for the other characters of the basic plane. -/
theorem ofChar_three (hlo : 0x800 ≤ v) (hhi : v < 0x10000) (hv : IsScalar v) :
    ofChar (Char.ofNat v) = [UInt8.ofNat (v / 4096 % 16 + 224), UInt8.ofNat (v / 64 % 64 + 128),
      UInt8.ofNat (v % 64 + 128)] := by
  unfold ofChar String.utf8EncodeChar
  simp only [toNat_val_ofNat hv]
  rw [if_neg (by omega), if_neg (by omega), if_pos (by omega)]

/-- Four bytes for the characters beyond it. -/
theorem ofChar_four (hlo : 0x10000 ≤ v) (hv : IsScalar v) :
    ofChar (Char.ofNat v) = [UInt8.ofNat (v / 262144 % 8 + 240), UInt8.ofNat (v / 4096 % 64 + 128),
      UInt8.ofNat (v / 64 % 64 + 128), UInt8.ofNat (v % 64 + 128)] := by
  unfold ofChar String.utf8EncodeChar
  simp only [toNat_val_ofNat hv]
  rw [if_neg (by omega), if_neg (by omega), if_neg (by omega)]

theorem ofChar_ne_nil (ch : Char) : ofChar ch ≠ [] := String.utf8EncodeChar_ne_nil

/-- Only the first byte of a character continues none. -/
theorem exists_lead (c : Char) : ∃ lead tail, ofChar c = lead :: tail ∧ isTail lead = false ∧
    ∀ b ∈ tail, isTail b = true := by
  have hv : IsScalar c.toNat := c.valid
  have hc : Char.ofNat c.toNat = c := Char.ofNat_toNat c
  generalize c.toNat = v at hv hc
  subst hc
  have hlead {n : Nat} (h : n < 256) (h' : n < 0x80 ∨ 0xBF < n) :
      isTail (UInt8.ofNat n) = false := by
    rw [Bool.eq_false_iff, ne_eq, isTail_iff, toNat_ofNat h]
    omega
  -- the four ranges of code points with one, two, three and four bytes
  rcases Nat.lt_or_ge v 0x80 with h1 | h1
  · exact ⟨_, _, ofChar_one h1, hlead (by omega) (by omega), by simp⟩
  rcases Nat.lt_or_ge v 0x800 with h2 | h2
  · refine ⟨_, _, ofChar_two h1 h2, hlead (by omega) (by omega), ?_⟩
    simp only [List.forall_mem_cons, isTail_ofNat, List.not_mem_nil, false_implies, implies_true,
      and_self]
  rcases Nat.lt_or_ge v 0x10000 with h3 | h3
  · refine ⟨_, _, ofChar_three h2 h3 hv, hlead (by omega) (by omega), ?_⟩
    simp only [List.forall_mem_cons, isTail_ofNat, List.not_mem_nil, false_implies, implies_true,
      and_self]
  · refine ⟨_, _, ofChar_four h3 hv, hlead (by omega) (by omega), ?_⟩
    simp only [List.forall_mem_cons, isTail_ofNat, List.not_mem_nil, false_implies, implies_true,
      and_self]

/-- A byte of ASCII stands for itself. -/
theorem scalar?_one (ha : a.toNat < 0x80) : scalar? (a :: rest) = some (Char.ofNat a.toNat, 1) := by
  have hlt : a < 0x80 := UInt8.lt_iff_toNat_lt.mpr ha
  unfold scalar?
  exact if_pos hlt

theorem not_lt_of_le (ha : 0x80 ≤ a.toNat) : ¬ a < 0x80 := by
  rw [UInt8.lt_iff_toNat_lt]
  exact Nat.not_lt.mpr ha

/-- Two bytes that fit are decoded to one character. -/
theorem scalar?_two (ha : 0xC2 ≤ a.toNat ∧ a.toNat ≤ 0xDF) (hb : isTail b = true) :
    scalar? (a :: b :: rest) = some (Char.ofNat (a.toNat % 32 * 64 + tailBits b), 2) := by
  rw [scalar?, if_neg (not_lt_of_le (by omega)), if_pos (leadsTwo_iff.mpr ha)]
  simp only [hb, if_true]

/-- Three bytes that fit are decoded to one character. -/
theorem scalar?_three (ha : 0xE0 ≤ a.toNat ∧ a.toNat ≤ 0xEF) (hb : fitsThree a b = true)
    (hc : isTail c = true) :
    scalar? (a :: b :: c :: rest)
      = some (Char.ofNat (a.toNat % 16 * 4096 + tailBits b * 64 + tailBits c), 3) := by
  rw [scalar?, if_neg (not_lt_of_le (by omega)), if_neg (by rw [leadsTwo_iff]; omega),
    if_pos (leadsThree_iff.mpr ha)]
  simp only [hb, hc, Bool.and_self, if_true]

/-- Four bytes that fit are decoded to one character. -/
theorem scalar?_four (ha : 0xF0 ≤ a.toNat ∧ a.toNat ≤ 0xF4) (hb : fitsFour a b = true)
    (hc : isTail c = true) (hd : isTail d = true) :
    scalar? (a :: b :: c :: d :: rest) = some (Char.ofNat
      (a.toNat % 8 * 262144 + tailBits b * 4096 + tailBits c * 64 + tailBits d), 4) := by
  rw [scalar?, if_neg (not_lt_of_le (by omega)), if_neg (by rw [leadsTwo_iff]; omega),
    if_neg (by rw [leadsThree_iff]; omega), if_pos (leadsFour_iff.mpr ha)]
  simp only [hb, hc, hd, Bool.and_self, if_true]

/-! ## §3 Reading what was written -/

/-- A character that is encoded is decoded, with its length, whatever follows. -/
theorem scalar?_ofChar (ch : Char) (rest : Text) :
    scalar? (ofChar ch ++ rest) = some (ch, (ofChar ch).length) := by
  have hv : IsScalar ch.toNat := ch.valid
  have hch : Char.ofNat ch.toNat = ch := Char.ofNat_toNat ch
  generalize ch.toNat = v at hv hch
  subst hch
  unfold IsScalar at hv
  -- one case for each length of encoding; in each the bits taken apart are the bits put together
  rcases Nat.lt_or_ge v 0x80 with h1 | h1
  · have ha : (UInt8.ofNat v).toNat = v := toNat_ofNat (by omega)
    rw [ofChar_one h1, List.cons_append, scalar?_one (by omega), ha]
    rfl
  rcases Nat.lt_or_ge v 0x800 with h2 | h2
  · have ha : (UInt8.ofNat (v / 64 % 32 + 192)).toNat = v / 64 % 32 + 192 :=
      toNat_ofNat (by omega)
    have hsum : (v / 64 % 32 + 192) % 32 * 64 + v % 64 = v := by omega
    rw [ofChar_two h1 h2, List.cons_append, List.cons_append,
      scalar?_two (by omega) (isTail_ofNat v), ha, tailBits_ofNat, hsum]
    rfl
  rcases Nat.lt_or_ge v 0x10000 with h3 | h3
  · have ha : (UInt8.ofNat (v / 4096 % 16 + 224)).toNat = v / 4096 % 16 + 224 :=
      toNat_ofNat (by omega)
    have hb : (UInt8.ofNat (v / 64 % 64 + 128)).toNat = v / 64 % 64 + 128 := toNat_ofNat (by omega)
    have hfits : fitsThree (UInt8.ofNat (v / 4096 % 16 + 224)) (UInt8.ofNat (v / 64 % 64 + 128))
        = true := by
      rw [fitsThree_iff, ha, hb]
      exact ⟨isTail_ofNat _, by omega, by omega⟩
    have hsum : (v / 4096 % 16 + 224) % 16 * 4096 + v / 64 % 64 * 64 + v % 64 = v := by omega
    rw [ofChar_three h2 h3 hv, List.cons_append, List.cons_append, List.cons_append,
      scalar?_three (by omega) hfits (isTail_ofNat v), ha, tailBits_ofNat, tailBits_ofNat, hsum]
    rfl
  · have ha : (UInt8.ofNat (v / 262144 % 8 + 240)).toNat = v / 262144 % 8 + 240 :=
      toNat_ofNat (by omega)
    have hb : (UInt8.ofNat (v / 4096 % 64 + 128)).toNat = v / 4096 % 64 + 128 :=
      toNat_ofNat (by omega)
    have hfits : fitsFour (UInt8.ofNat (v / 262144 % 8 + 240)) (UInt8.ofNat (v / 4096 % 64 + 128))
        = true := by
      rw [fitsFour_iff, ha, hb]
      exact ⟨isTail_ofNat _, by omega, by omega⟩
    have hsum : (v / 262144 % 8 + 240) % 8 * 262144 + v / 4096 % 64 * 4096 + v / 64 % 64 * 64
        + v % 64 = v := by omega
    rw [ofChar_four h3 hv, List.cons_append, List.cons_append, List.cons_append, List.cons_append,
      scalar?_four (by omega) hfits (isTail_ofNat _) (isTail_ofNat v), ha, tailBits_ofNat,
      tailBits_ofNat, tailBits_ofNat, hsum]
    rfl

/-! ## §4 Writing what was read -/

/-- The bounds on the first byte exclude overlong encodings. -/
theorem ofChar_of_two (ha : 0xC2 ≤ a.toNat ∧ a.toNat ≤ 0xDF) (hb : isTail b = true) :
    ofChar (Char.ofNat (a.toNat % 32 * 64 + tailBits b)) = [a, b] := by
  rw [isTail_iff] at hb
  unfold tailBits
  rw [ofChar_two (by omega) (by omega), ofNat_eq (a := a) (by omega), ofNat_eq (a := b) (by omega)]

/-- The bounds on the second byte exclude overlong encodings and surrogates. -/
theorem ofChar_of_three (ha : 0xE0 ≤ a.toNat ∧ a.toNat ≤ 0xEF) (hb : fitsThree a b = true)
    (hc : isTail c = true) :
    ofChar (Char.ofNat (a.toNat % 16 * 4096 + tailBits b * 64 + tailBits c)) = [a, b, c] := by
  rw [fitsThree_iff, isTail_iff] at hb
  rw [isTail_iff] at hc
  unfold tailBits
  rw [ofChar_three (by omega) (by omega) (by unfold IsScalar; omega), ofNat_eq (a := a) (by omega),
    ofNat_eq (a := b) (by omega), ofNat_eq (a := c) (by omega)]

/-- The bounds on the second byte exclude overlong encodings and what is beyond the last scalar. -/
theorem ofChar_of_four (ha : 0xF0 ≤ a.toNat ∧ a.toNat ≤ 0xF4) (hb : fitsFour a b = true)
    (hc : isTail c = true) (hd : isTail d = true) :
    ofChar (Char.ofNat (a.toNat % 8 * 262144 + tailBits b * 4096 + tailBits c * 64 + tailBits d))
      = [a, b, c, d] := by
  rw [fitsFour_iff, isTail_iff] at hb
  rw [isTail_iff] at hc hd
  unfold tailBits
  rw [ofChar_four (by omega) (by unfold IsScalar; omega), ofNat_eq (a := a) (by omega),
    ofNat_eq (a := b) (by omega), ofNat_eq (a := c) (by omega), ofNat_eq (a := d) (by omega)]

/-- What is decoded to a character begins with the bytes of that character. -/
theorem eq_ofChar_of_scalar? {t : Text} {ch : Char} {n : Nat} (h : scalar? t = some (ch, n)) :
    ∃ rest, t = ofChar ch ++ rest ∧ n = (ofChar ch).length := by
  -- it is enough to know the bytes of the character
  suffices hbytes : ∃ bytes rest, ofChar ch = bytes ∧ t = bytes ++ rest ∧ n = bytes.length by
    obtain ⟨bytes, rest, hch, ht, hn⟩ := hbytes
    exact ⟨rest, by rw [hch, ht], by rw [hch, hn]⟩
  match t with
  | [] => cases h
  | a :: rest =>
    have ha := a.toNat_lt
    -- the first byte decides how many follow
    by_cases hone : a.toNat < 0x80
    · rw [scalar?_one hone] at h
      cases h
      exact ⟨[a], rest, by rw [ofChar_one hone, UInt8.ofNat_toNat], rfl, rfl⟩
    unfold scalar? at h
    simp only [if_neg (not_lt_of_le (Nat.not_lt.mp hone))] at h
    split at h
    · next htwo =>
      rw [leadsTwo_iff] at htwo
      split at h
      · next b more =>
        split at h
        · next hb =>
          cases h
          exact ⟨[a, b], more, ofChar_of_two htwo hb, rfl, rfl⟩
        · cases h
      · cases h
    split at h
    · next hthree =>
      rw [leadsThree_iff] at hthree
      split at h
      · next b c more =>
        split at h
        · next hbc =>
          cases h
          rw [Bool.and_eq_true] at hbc
          exact ⟨[a, b, c], more, ofChar_of_three hthree hbc.1 hbc.2, rfl, rfl⟩
        · cases h
      · cases h
    split at h
    · next hfour =>
      rw [leadsFour_iff] at hfour
      split at h
      · next b c d more =>
        split at h
        · next hbcd =>
          cases h
          rw [Bool.and_eq_true, Bool.and_eq_true] at hbcd
          exact ⟨[a, b, c, d], more, ofChar_of_four hfour hbcd.1.1 hbcd.1.2 hbcd.2, rfl, rfl⟩
        · cases h
      · cases h
    · cases h

/-! ## §5 Texts of characters -/

theorem glyphs_nil : glyphs [] = [] := rfl

/-- A byte that begins no character is stray, and the next one is tried. -/
theorem glyphs_stray {b : UInt8} {t : Text} (h : scalar? (b :: t) = none) :
    glyphs (b :: t) = .stray b :: t.glyphs := by
  rw [glyphs, glyphsFrom, h]
  rfl

/-- Bytes that are passed over leave the glyphs of the rest. -/
theorem glyphsFrom_append (bytes rest : Text) :
    glyphsFrom bytes.length (bytes ++ rest) = glyphsFrom 0 rest := by
  induction bytes with
  | nil => rfl
  | cons b bytes ih => rw [List.length_cons, List.cons_append, glyphsFrom, ih]

/-- The bytes of a character, in front of anything, are its glyph. -/
theorem glyphs_ofChar_append (ch : Char) (rest : Text) :
    (ofChar ch ++ rest).glyphs = .char ch :: rest.glyphs := by
  have hscalar := scalar?_ofChar ch rest
  obtain ⟨b, bytes, hbytes⟩ := List.exists_cons_of_ne_nil (ofChar_ne_nil ch)
  rw [hbytes] at hscalar ⊢
  rw [glyphs, List.cons_append, glyphsFrom, ← List.cons_append, hscalar]
  show _ :: glyphsFrom bytes.length (bytes ++ rest) = _
  rw [glyphsFrom_append, glyphs]

/-- The glyphs of a text are its bytes. -/
theorem text_glyphs (t : Text) : Glyph.text t.glyphs = t := by
  match t with
  | [] => rfl
  | b :: t =>
    cases hscalar : scalar? (b :: t) with
    | none =>
      rw [glyphs_stray hscalar]
      exact congrArg (b :: ·) (text_glyphs t)
    | some read =>
      obtain ⟨c, n⟩ := read
      obtain ⟨rest, hrest, -⟩ := eq_ofChar_of_scalar? hscalar
      -- at least one byte was read, so what is left is shorter
      have hshorter : rest.length < (b :: t).length := by
        rw [hrest, List.length_append]
        have := List.length_pos_iff.mpr (ofChar_ne_nil c)
        omega
      rw [hrest, glyphs_ofChar_append]
      exact congrArg (ofChar c ++ ·) (text_glyphs rest)
termination_by t.length
decreasing_by
  · simp
  · exact hshorter

@[simp] theorem glyphs_ofChars (cs : List Char) : (ofChars cs).glyphs = cs.map .char := by
  induction cs with
  | nil => rfl
  | cons c cs ih => rw [ofChars_cons, glyphs_ofChar_append, ih, List.map_cons]

@[simp] theorem chars_ofChars (cs : List Char) : (ofChars cs).chars = cs := by
  rw [chars, glyphs_ofChars, List.map_map]
  exact List.map_id'' (fun _ => rfl) cs

/-- A text without stray bytes is the text of its characters. -/
theorem ofChars_chars {t : Text} (h : t.isUtf8 = true) : ofChars t.chars = t := by
  match t, h with
  | [], _ => rfl
  | b :: rest, h =>
    cases hscalar : scalar? (b :: rest) with
    | none => simp [isUtf8, glyphs, glyphsFrom, hscalar] at h
    | some read =>
      obtain ⟨ch, n⟩ := read
      obtain ⟨more, heq, _⟩ := eq_ofChar_of_scalar? hscalar
      -- at least one byte was read, so what is left is shorter
      have hshorter : more.length < (b :: rest).length := by
        rw [heq, List.length_append]
        have := List.length_pos_iff.mpr (ofChar_ne_nil ch)
        omega
      rw [heq] at h ⊢
      rw [isUtf8, glyphs_ofChar_append, List.all_cons, Bool.and_eq_true] at h
      rw [chars, glyphs_ofChar_append, List.map_cons, ofChars_cons]
      exact congrArg _ (ofChars_chars (t := more) h.2)
termination_by t.length
decreasing_by exact hshorter

/-- Every character has bytes. -/
@[simp] theorem isEmpty_ofChars (cs : List Char) : (ofChars cs).isEmpty = cs.isEmpty := by
  cases cs with
  | nil => rfl
  | cons c cs =>
    obtain ⟨b, bytes, hbytes⟩ := List.exists_cons_of_ne_nil (ofChar_ne_nil c)
    rw [ofChars_cons, hbytes]
    rfl

/-! ## §6 Line ends -/

/-- The line end is no continuation byte. -/
theorem newline_not_mem_tail (c : Char) : newline ∉ (ofChar c).tail := by
  obtain ⟨lead, tail, hchar, -, htail⟩ := exists_lead c
  rw [hchar, List.tail_cons]
  exact fun hmem => absurd (htail newline hmem) (by decide)

/-- Only the line end has the byte of the line end. -/
theorem eq_newline_of_mem {c : Char} (h : newline ∈ ofChar c) : c = '\n' := by
  obtain ⟨b, bytes, hbytes⟩ := List.exists_cons_of_ne_nil (ofChar_ne_nil c)
  have htail := newline_not_mem_tail c
  rw [hbytes] at h htail
  obtain rfl : newline = b := (List.mem_cons.mp h).resolve_right htail
  have hscalar := scalar?_ofChar c []
  rw [hbytes] at hscalar
  exact (congrArg Prod.fst (Option.some.inj hscalar)).symm

/-- A text of characters other than the line end has no line end. -/
theorem newline_not_mem_ofChars {cs : List Char} (h : '\n' ∉ cs) : newline ∉ ofChars cs := by
  intro hmem
  obtain ⟨c, hc, hbyte⟩ := List.mem_flatMap.mp hmem
  exact h (eq_newline_of_mem hbyte ▸ hc)

end Text

end Scriptlet
