import Scriptlet.Proofs.Pieces
import Scriptlet.Proofs.Relocation

/-!
# The contents of string literals

The contents of a literal are its bytes if it has no backslash; otherwise it is decoded character by
character, and every byte that belongs to no character becomes U+FFFD. Where two bodies are put
together, the contents are those of the one followed by those of the other as long as both are
UTF-8. With bytes that are not, three things can go wrong: a body that is kept as it is alone is
rewritten beside one with a backslash, on either side, and bytes at the seam may join to a
character.

## Contents

- §1 the bytes of a character
- §2 texts put together
- §3 decoding
- §4 literals
- §5 bodies put together
-/

namespace Scriptlet

/-! ## §1 The bytes of a character -/

namespace Text

/-- A byte that continues a character starts none. -/
theorem scalar?_of_isTail {b : UInt8} (h : isTail b = true) (t : Text) :
    scalar? (b :: t) = none := by
  cases hscalar : scalar? (b :: t) with
  | none => rfl
  | some read =>
    obtain ⟨rest, hrest, -⟩ := eq_ofChar_of_scalar? hscalar
    obtain ⟨lead, tail, hchar, hlead, -⟩ := exists_lead read.1
    rw [hchar, List.cons_append] at hrest
    rw [(List.cons.inj hrest).1, hlead] at h
    cases h

theorem glyphs_of_isTail {u : Text} (h : ∀ b ∈ u, isTail b = true) (t : Text) :
    glyphs (u ++ t) = u.map Glyph.stray ++ t.glyphs := by
  induction u with
  | nil => rfl
  | cons b u ih =>
    obtain ⟨hb, hu⟩ := List.forall_mem_cons.mp h
    rw [List.cons_append, glyphs_stray (scalar?_of_isTail hb _), ih hu, List.map_cons,
      List.cons_append]

/-- The two parts of a character that was cut are stray. -/
theorem glyphs_of_cut {c : Char} {u v : Text} (h : ofChar c = u ++ v) (hu : u ≠ []) (hv : v ≠ []) :
    glyphs u = u.map Glyph.stray ∧ ∀ t, glyphs (v ++ t) = v.map Glyph.stray ++ t.glyphs := by
  obtain ⟨lead, tail, hchar, -, htail⟩ := exists_lead c
  obtain ⟨b, u, rfl⟩ := List.exists_cons_of_ne_nil hu
  rw [hchar, List.cons_append] at h
  obtain ⟨rfl, rfl⟩ := List.cons.inj h
  have hnone : scalar? (lead :: u) = none := by
    cases hscalar : scalar? (lead :: u) with
    | none => rfl
    | some read =>
      -- the whole character would already stand in its first bytes
      obtain ⟨d, n⟩ := read
      obtain ⟨rest, hrest, -⟩ := eq_ofChar_of_scalar? hscalar
      have hd := scalar?_ofChar d (rest ++ v)
      have hc := scalar?_ofChar c []
      rw [← List.append_assoc, ← hrest, List.cons_append] at hd
      rw [hchar, List.append_nil, hd] at hc
      have hsame : d = c := congrArg Prod.fst (Option.some.inj hc)
      have hlength := congrArg List.length hrest
      rw [hsame, hchar] at hlength
      have hpos := List.length_pos_iff.mpr hv
      simp only [List.length_cons, List.length_append] at hlength
      omega
  have htails : glyphs u = u.map Glyph.stray := by
    have h := glyphs_of_isTail (fun b hb => htail b (List.mem_append_left v hb)) []
    rwa [List.append_nil, glyphs_nil, List.append_nil] at h
  refine ⟨by rw [glyphs_stray hnone, htails, List.map_cons], ?_⟩
  exact glyphs_of_isTail fun b hb => htail b (List.mem_append_right u hb)

/-! ## §2 Texts put together -/

/-- The bytes of a character with its first ones at the end of a text and the others at the start
of the next. -/
structure Splits (a b : Text) (before : List Glyph) (c : Char) (u v : Text) (behind : List Glyph) :
    Prop where
  bytes : ofChar c = u ++ v
  left_ne : u ≠ []
  right_ne : v ≠ []
  left : a.glyphs = before ++ u.map Glyph.stray
  right : b.glyphs = v.map Glyph.stray ++ behind
  whole : (a ++ b).glyphs = before ++ .char c :: behind

/-- Texts put together have the glyphs of both, unless the bytes at the seam join to a character. -/
theorem glyphs_append_or (a b : Text) : glyphs (a ++ b) = a.glyphs ++ b.glyphs ∨
    ∃ before c u v behind, Splits a b before c u v behind := by
  match a with
  | [] => exact .inl rfl
  | x :: a =>
    cases hscalar : scalar? (x :: (a ++ b)) with
    | none =>
      -- the first byte is stray with and without what follows
      have halone : scalar? (x :: a) = none := by
        cases hread : scalar? (x :: a) with
        | none => rfl
        | some read =>
          obtain ⟨rest, hrest, -⟩ := eq_ofChar_of_scalar? hread
          rw [← List.cons_append, hrest, List.append_assoc, scalar?_ofChar] at hscalar
          cases hscalar
      rw [List.cons_append, glyphs_stray hscalar, glyphs_stray halone]
      rcases glyphs_append_or a b with heq | ⟨before, c, u, v, behind, h⟩
      · exact .inl (by rw [heq, List.cons_append])
      · refine .inr ⟨.stray x :: before, c, u, v, behind, h.bytes, h.left_ne, h.right_ne, ?_,
          h.right, ?_⟩
        · rw [glyphs_stray halone, h.left, List.cons_append]
        · rw [List.cons_append, glyphs_stray hscalar, h.whole, List.cons_append]
    | some read =>
      obtain ⟨c, n⟩ := read
      obtain ⟨rest, hrest, -⟩ := eq_ofChar_of_scalar? hscalar
      rw [← List.cons_append] at hrest
      rcases List.append_eq_append_iff.mp hrest with ⟨v, hchar, rfl⟩ | ⟨a', ha, rfl⟩
      · by_cases hv : v = []
        · -- the character ends where the first text ends
          subst hv
          rw [List.append_nil] at hchar
          have halone := glyphs_ofChar_append c []
          rw [List.append_nil] at halone
          left
          rw [← hchar, List.nil_append, glyphs_ofChar_append, halone, glyphs_nil,
            List.singleton_append]
        · obtain ⟨hleft, hright⟩ := glyphs_of_cut hchar (by simp) hv
          refine .inr ⟨[], c, x :: a, v, rest.glyphs, hchar, by simp, hv, hleft, hright rest, ?_⟩
          rw [hrest, glyphs_ofChar_append, List.nil_append]
      · have hshorter : a'.length < (x :: a).length := by
          rw [ha, List.length_append]
          have := List.length_pos_iff.mpr (ofChar_ne_nil c)
          omega
        rw [ha, List.append_assoc, glyphs_ofChar_append, glyphs_ofChar_append]
        rcases glyphs_append_or a' b with heq | ⟨before, d, u, v, behind, h⟩
        · exact .inl (by rw [heq, List.cons_append])
        · refine .inr ⟨.char c :: before, d, u, v, behind, h.bytes, h.left_ne, h.right_ne, ?_,
            h.right, ?_⟩
          · rw [glyphs_ofChar_append, h.left, List.cons_append]
          · rw [List.append_assoc, glyphs_ofChar_append, h.whole, List.cons_append]
termination_by a.length
decreasing_by
  · simp
  · exact hshorter

theorem isUtf8_iff {t : Text} : t.isUtf8 = true ↔ ∀ b, .stray b ∉ t.glyphs := by
  rw [isUtf8, List.all_eq_true]
  constructor
  · intro h b hb
    cases h _ hb
  · intro h g hg
    cases g with
    | char c => rfl
    | stray b => exact absurd hg (h b)

theorem isUtf8_ofChars (cs : List Char) : (ofChars cs).isUtf8 = true := by
  rw [isUtf8_iff, glyphs_ofChars]
  simp

/-- Where either text is UTF-8, no bytes join. -/
theorem glyphs_append {a b : Text} (h : a.isUtf8 = true ∨ b.isUtf8 = true) :
    glyphs (a ++ b) = a.glyphs ++ b.glyphs := by
  rcases glyphs_append_or a b with heq | ⟨before, c, u, v, behind, hsplit⟩
  · exact heq
  exfalso
  rcases h with h | h
  · obtain ⟨x, u, rfl⟩ := List.exists_cons_of_ne_nil hsplit.left_ne
    exact isUtf8_iff.mp h x (by simp [hsplit.left])
  · obtain ⟨x, v, rfl⟩ := List.exists_cons_of_ne_nil hsplit.right_ne
    exact isUtf8_iff.mp h x (by simp [hsplit.right])

theorem isUtf8_append {a b : Text} (h : a.isUtf8 = true ∨ b.isUtf8 = true) :
    isUtf8 (a ++ b) = true ↔ a.isUtf8 = true ∧ b.isUtf8 = true := by
  simp only [isUtf8, glyphs_append h, List.all_append, Bool.and_eq_true]

/-- A text without the byte of a backslash has no backslash. -/
theorem backslash_not_mem_chars {t : Text} (h : 92 ∉ t) : '\\' ∉ t.chars := by
  intro hmem
  obtain ⟨g, hg, hshown⟩ := List.mem_map.mp hmem
  obtain rfl : g = .char '\\' := by
    cases g with
    | char c => exact congrArg Glyph.char hshown
    | stray b => cases hshown
  refine h ?_
  rw [← text_glyphs t]
  exact List.mem_flatMap.mpr ⟨_, hg, by decide⟩

end Text

/-! ## §3 Decoding -/

theorem decodeEscapes_cons {c : Char} (hc : c ≠ '\\') (cs : List Char) :
    decodeEscapes (c :: cs) = c :: decodeEscapes cs := by
  rw [decodeEscapes.eq_def]
  split
  · contradiction
  · next heq => exact absurd (List.cons.inj heq).1 hc
  · next heq => rw [(List.cons.inj heq).1, (List.cons.inj heq).2]

theorem decodeEscapes_of_plain {cs : List Char} (h : '\\' ∉ cs) : decodeEscapes cs = cs := by
  induction cs with
  | nil => rfl
  | cons c cs ih =>
    obtain ⟨hc, hcs⟩ := not_or.mp (mt List.mem_cons.mpr h)
    rw [decodeEscapes_cons (Ne.symm hc), ih hcs]

theorem decodeEscapes_replicate {c : Char} (hc : c ≠ '\\') (n : Nat) (cs : List Char) :
    decodeEscapes (List.replicate n c ++ cs) = List.replicate n c ++ decodeEscapes cs := by
  induction n with
  | zero => rfl
  | succ n ih =>
    rw [List.replicate_succ, List.cons_append, decodeEscapes_cons hc, ih, List.cons_append]

/-- A character that stands for itself with and without a backslash cuts what is decoded: what
stands before it is decoded alike, whichever such character it is and whatever is behind it. -/
theorem exists_decoded (cs : List Char) : ∃ ds, ∀ c, c ≠ '\\' → escapedChar c = c → ∀ rest,
    decodeEscapes (cs ++ c :: rest) = ds ++ c :: decodeEscapes rest := by
  match cs with
  | [] => exact ⟨[], fun c hc _ rest => decodeEscapes_cons hc rest⟩
  | x :: cs =>
    -- a backslash takes the character behind it along
    by_cases hx : x = '\\'
    · subst hx
      match cs with
      | [] => exact ⟨[], fun c _ hself rest => by simp [decodeEscapes, hself]⟩
      | y :: cs =>
        obtain ⟨ds, hds⟩ := exists_decoded cs
        refine ⟨escapedChar y :: ds, fun c hc hself rest => ?_⟩
        rw [List.cons_append, List.cons_append, decodeEscapes, hds c hc hself, List.cons_append]
    · obtain ⟨ds, hds⟩ := exists_decoded cs
      refine ⟨x :: ds, fun c hc hself rest => ?_⟩
      rw [List.cons_append, decodeEscapes_cons hx, hds c hc hself, List.cons_append]

/-- Characters of more than one byte stand for themselves. -/
theorem escapedChar_of_long {c : Char} (h : 1 < (Text.ofChar c).length) :
    c ≠ '\\' ∧ escapedChar c = c := by
  constructor
  · rintro rfl
    exact absurd h (by decide)
  · unfold escapedChar
    split <;> first | rfl | exact absurd h (by decide)

theorem Glyph.shown_ne_backslash {g : Glyph} (h : g.is '\\' = false) : g.shown ≠ '\\' := by
  cases g with
  | char c => exact beq_eq_false_iff_ne.mp ((char_beq c '\\').symm.trans h)
  | stray b => exact (by decide : '\uFFFD' ≠ '\\')

/-- What ends with its first quote ends with no open backslash, so more can be decoded behind it. -/
theorem decodeEscapes_append {q : Char} {gs : List Glyph}
    (h : quoteEnd? q (gs ++ [.char q]) = some (gs.length + 1)) (cs : List Char) :
    decodeEscapes (gs.map Glyph.shown ++ cs)
      = decodeEscapes (gs.map Glyph.shown) ++ decodeEscapes cs := by
  match gs with
  | [] => rfl
  | g :: gs =>
    rw [List.cons_append, quoteEnd?.eq_def] at h
    simp only at h
    split at h
    · -- a quote would end the literal
      cases h
    split at h
    · next hslash =>
      obtain rfl := beq_iff_eq.mp hslash
      match gs with
      | [] => cases h
      | x :: gs =>
        obtain ⟨m, hm, heq⟩ := Option.map_eq_some_iff.mp h
        rw [List.length_cons, List.length_cons] at heq
        obtain rfl : m = gs.length + 1 := by omega
        simp only [List.map_cons, List.cons_append, Glyph.shown, decodeEscapes,
          decodeEscapes_append hm cs]
    · next hslash =>
      obtain ⟨m, hm, heq⟩ := Option.map_eq_some_iff.mp h
      rw [List.length_cons] at heq
      obtain rfl : m = gs.length + 1 := by omega
      have hne := Glyph.shown_ne_backslash (Bool.eq_false_iff.mpr hslash)
      rw [List.map_cons, List.cons_append, decodeEscapes_cons hne, decodeEscapes_cons hne,
        decodeEscapes_append hm cs, List.cons_append]

/-! ## §4 Literals -/

/-- The body between two quotes. -/
def literal (q : Char) (body : Text) : Text := Text.ofChar q ++ body ++ Text.ofChar q

/-- The body between the quotes is one literal and nothing else. -/
structure IsLiteral (q : Char) (body : Text) : Prop where
  quote : Mark.isQuoteChar q = true
  single : ∃ ending,
    scanTerminals (literal q body) = .ok ⟨#[⟨.string, literal q body, .start⟩], ending⟩

theorem glyphs_literal (q : Char) (body : Text) :
    (literal q body).glyphs = .char q :: (body.glyphs ++ [.char q]) := by
  have hend := Text.glyphs_ofChars [q]
  rw [Text.ofChars_cons, Text.ofChars_nil, List.append_nil] at hend
  have hutf : (Text.ofChar q).isUtf8 = true := by rw [Text.isUtf8, hend]; rfl
  rw [literal, List.append_assoc, Text.glyphs_ofChar_append, Text.glyphs_append (.inr hutf), hend]
  rfl

theorem Glyph.length_le_of_text_take {gs : List Glyph} {n : Nat}
    (h : Glyph.text (gs.take n) = Glyph.text gs) : gs.length ≤ n := by
  -- no glyph is written as nothing, so only nothing is left out
  have hrest : Glyph.text (gs.drop n) = [] := by
    have hwhole : Glyph.text (gs.take n) ++ Glyph.text (gs.drop n) = Glyph.text gs := by
      rw [Glyph.text, Glyph.text, ← List.flatMap_append, List.take_append_drop]
      rfl
    rw [h] at hwhole
    exact List.append_right_eq_self.mp hwhole
  refine List.drop_eq_nil_iff.mp (List.eq_nil_iff_forall_not_mem.mpr fun g hg => ?_)
  have hnil := List.flatMap_eq_nil_iff.mp hrest g hg
  cases g with
  | char c => exact Text.ofChar_ne_nil c hnil
  | stray b => cases hnil

/-- The first quote behind the opening one that no backslash shields is the last glyph. -/
theorem IsLiteral.quoteEnd?_glyphs {q : Char} {body : Text} (h : IsLiteral q body) :
    quoteEnd? q (body.glyphs ++ [.char q]) = some (body.glyphs.length + 1) := by
  obtain ⟨ending, hscan⟩ := h.single
  have hglyphs := glyphs_literal q body
  have hbytes := Text.text_glyphs (literal q body)
  unfold scanTerminals at hscan
  rw [hglyphs] at hscan hbytes
  rw [scanFrom, firstRule?_literal h.quote] at hscan
  cases hend : quoteEnd? q (body.glyphs ++ [.char q]) with
  | none =>
    rw [hend] at hscan
    cases hscan
  | some n =>
    rw [hend] at hscan
    have hle := quoteEnd?_le hend
    rw [List.length_append, List.length_singleton] at hle
    -- the terminal has all bytes of the literal, so it has all its glyphs
    have htext : Glyph.text ((.char q :: (body.glyphs ++ [.char q])).take (n + 1))
        = literal q body := by
      simp only at hscan
      cases hmore : scanFrom (Location.start.after (.char q)) (n + 1 - 1)
          (body.glyphs ++ [.char q]) with
      | error e =>
        rw [hmore] at hscan
        cases hscan
      | ok r =>
        rw [hmore] at hscan
        have htexts := congrArg (fun s => s.items.toList.map Terminal.text) (Except.ok.inj hscan)
        exact (List.cons.inj htexts).1
    have hall := Glyph.length_le_of_text_take (htext.trans hbytes.symm)
    rw [List.length_cons, List.length_append, List.length_singleton] at hall
    rw [Nat.le_antisymm hle (by omega)]

theorem unquote_literal_eq {q : Char} (hq : Mark.isQuoteChar q = true) (body : Text) :
    unquote (literal q body)
      = if 92 ∈ body then Text.ofChars (decodeEscapes body.chars) else body := by
  obtain ⟨b, hb⟩ : ∃ b, Text.ofChar q = [b] := by
    simp only [Mark.isQuoteChar, Bool.or_eq_true, beq_iff_eq] at hq
    rcases hq with (rfl | rfl) | rfl <;> exact ⟨_, rfl⟩
  simp [unquote, literal, hb]

/-! ## §5 Bodies put together -/

/-- The text decoded character by character. -/
def decoded (body : Text) : Text := Text.ofChars (decodeEscapes body.chars)

section

variable {q : Char} {a b : Text}

/-- A body is kept as it is only where that is what decoding gives, unless it is not UTF-8. -/
theorem unquote_eq_decoded (hq : Mark.isQuoteChar q = true) (h : 92 ∈ a ∨ a.isUtf8 = true) :
    unquote (literal q a) = decoded a := by
  rw [unquote_literal_eq hq]
  split
  · rfl
  · next hplain =>
    rw [decoded, decodeEscapes_of_plain (Text.backslash_not_mem_chars hplain),
      Text.ofChars_chars (h.resolve_left hplain)]

theorem decoded_append (ha : IsLiteral q a) (h : Text.glyphs (a ++ b) = a.glyphs ++ b.glyphs) :
    decoded (a ++ b) = decoded a ++ decoded b := by
  rw [decoded, Text.chars, h, List.map_append, decodeEscapes_append ha.quoteEnd?_glyphs,
    Text.ofChars_append]
  rfl

/-- Bytes that join at the seam are one character instead of two stray bytes or more. -/
theorem decoded_append_ne {before behind : List Glyph} {c : Char} {u v : Text} (ha : IsLiteral q a)
    (h : Text.Splits a b before c u v behind) : decoded (a ++ b) ≠ decoded a ++ decoded b := by
  intro heq
  have hleft := List.length_pos_iff.mpr h.left_ne
  have hright := List.length_pos_iff.mpr h.right_ne
  obtain ⟨hslash, hself⟩ : c ≠ '\\' ∧ escapedChar c = c := by
    refine escapedChar_of_long ?_
    rw [h.bytes, List.length_append]
    omega
  obtain ⟨ds, hds⟩ := exists_decoded (before.map Glyph.shown)
  have hstray (w : Text) :
      (w.map Glyph.stray).map Glyph.shown = List.replicate w.length '\uFFFD' := by
    rw [List.map_map]
    exact List.map_const' ..
  -- what is decoded of both is a character for each stray byte
  have happart : decodeEscapes a.chars ++ decodeEscapes b.chars
      = ds ++ List.replicate (u.length + v.length) '\uFFFD'
        ++ decodeEscapes (behind.map Glyph.shown) := by
    rw [Text.chars, ← decodeEscapes_append ha.quoteEnd?_glyphs, Text.chars, h.left, h.right,
      List.map_append, List.map_append, hstray, hstray, List.append_assoc, ← List.append_assoc
      (List.replicate _ _), List.replicate_append_replicate]
    obtain ⟨n, hn⟩ : ∃ n, u.length + v.length = n + 1 := ⟨u.length + v.length - 1, by omega⟩
    rw [hn, List.replicate_succ, List.cons_append, hds _ (by decide) rfl,
      decodeEscapes_replicate (by decide), List.append_assoc, List.cons_append]
  rw [decoded, decoded, decoded, ← Text.ofChars_append, happart, Text.chars, h.whole,
    List.map_append, List.map_cons] at heq
  have hchars := congrArg Text.chars heq
  rw [Text.chars_ofChars, Text.chars_ofChars] at hchars
  have hlength := congrArg List.length hchars
  rw [Glyph.shown, hds c hslash hself] at hlength
  simp only [List.length_append, List.length_cons, List.length_replicate] at hlength
  omega

theorem unquote_append (ha : IsLiteral q a) (hleft : 92 ∈ a ∨ a.isUtf8 = true)
    (hright : 92 ∈ b ∨ b.isUtf8 = true) (h : Text.glyphs (a ++ b) = a.glyphs ++ b.glyphs) :
    unquote (literal q (a ++ b)) = unquote (literal q a) ++ unquote (literal q b) := by
  have hboth : 92 ∈ a ++ b ∨ Text.isUtf8 (a ++ b) = true := by
    rcases hleft with hl | hl
    · exact .inl (List.mem_append_left b hl)
    rcases hright with hr | hr
    · exact .inl (List.mem_append_right a hr)
    · exact .inr ((Text.isUtf8_append (.inl hl)).mpr ⟨hl, hr⟩)
  rw [unquote_eq_decoded ha.quote hboth, unquote_eq_decoded ha.quote hleft,
    unquote_eq_decoded ha.quote hright, decoded_append ha h]

/-- Bodies of UTF-8 can be decoded apart or together. -/
theorem unquote_append_of_isUtf8 (ha : IsLiteral q a) (hl : a.isUtf8 = true)
    (hr : b.isUtf8 = true) :
    unquote (literal q (a ++ b)) = unquote (literal q a) ++ unquote (literal q b) :=
  unquote_append ha (.inr hl) (.inr hr) (Text.glyphs_append (.inl hl))

/-- **Decoding apart and together.** The contents of two bodies put together are those of the one
followed by those of the other exactly if no body has a backslash, or if each of them is decoded
alone as well, or could be, and no bytes join at the seam. -/
theorem unquote_append_iff (ha : IsLiteral q a) (hb : IsLiteral q b) :
    unquote (literal q (a ++ b)) = unquote (literal q a) ++ unquote (literal q b) ↔
      (92 ∉ a ∧ 92 ∉ b) ∨ ((92 ∈ a ∨ a.isUtf8 = true) ∧ (92 ∈ b ∨ b.isUtf8 = true) ∧
        Text.glyphs (a ++ b) = a.glyphs ++ b.glyphs) := by
  constructor
  · intro heq
    by_cases hplain : 92 ∉ a ∧ 92 ∉ b
    · exact .inl hplain
    right
    have hmem : 92 ∈ a ++ b := by
      rw [List.mem_append]
      tauto
    rw [unquote_eq_decoded ha.quote (.inl hmem)] at heq
    -- a body that was kept is part of a text that was decoded
    have hright : 92 ∈ b ∨ b.isUtf8 = true := by
      by_cases hbs : 92 ∈ b
      · exact .inl hbs
      have hleft : 92 ∈ a := (List.mem_append.mp hmem).resolve_right hbs
      rw [unquote_eq_decoded ha.quote (.inl hleft), unquote_literal_eq hb.quote, if_neg hbs] at heq
      have hutf : Text.isUtf8 (decoded a ++ b) = true := by
        rw [← heq]
        exact Text.isUtf8_ofChars _
      exact .inr ((Text.isUtf8_append (.inl (Text.isUtf8_ofChars _))).mp hutf).2
    have hleft : 92 ∈ a ∨ a.isUtf8 = true := by
      by_cases has : 92 ∈ a
      · exact .inl has
      rw [unquote_eq_decoded hb.quote hright, unquote_literal_eq ha.quote, if_neg has] at heq
      have hutf : Text.isUtf8 (a ++ decoded b) = true := by
        rw [← heq]
        exact Text.isUtf8_ofChars _
      exact .inr ((Text.isUtf8_append (.inr (Text.isUtf8_ofChars _))).mp hutf).1
    refine ⟨hleft, hright, ?_⟩
    rw [unquote_eq_decoded ha.quote hleft, unquote_eq_decoded hb.quote hright] at heq
    rcases Text.glyphs_append_or a b with hglyphs | ⟨before, c, u, v, behind, hsplit⟩
    · exact hglyphs
    · exact absurd heq (decoded_append_ne ha hsplit)
  · rintro (⟨hleft, hright⟩ | ⟨hleft, hright, hglyphs⟩)
    · have hnone : 92 ∉ a ++ b := by simp [hleft, hright]
      rw [unquote_literal_eq ha.quote, unquote_literal_eq ha.quote, unquote_literal_eq ha.quote,
        if_neg hleft, if_neg hright, if_neg hnone]
    · exact unquote_append ha hleft hright hglyphs

end

/-- An escape and a letter of two bytes, each between quotes and then together. -/
theorem unquote_append_iff_escaped :
    (IsLiteral '"' [92, 110] ∧ IsLiteral '"' [0xC3, 0xA9]) ∧
      (unquote (literal '"' ([92, 110] ++ [0xC3, 0xA9])) = [10, 0xC3, 0xA9] ∧
        (unquote (literal '"' ([92, 110] ++ [0xC3, 0xA9]))
            = unquote (literal '"' [92, 110]) ++ unquote (literal '"' [0xC3, 0xA9]) ↔
          (92 ∉ ([92, 110] : Text) ∧ 92 ∉ ([0xC3, 0xA9] : Text)) ∨
            ((92 ∈ ([92, 110] : Text) ∨ Text.isUtf8 [92, 110] = true) ∧
              (92 ∈ ([0xC3, 0xA9] : Text) ∨ Text.isUtf8 [0xC3, 0xA9] = true) ∧
              Text.glyphs ([92, 110] ++ [0xC3, 0xA9])
                = Text.glyphs [92, 110] ++ Text.glyphs [0xC3, 0xA9]))) := by
  have hescape : IsLiteral '"' [92, 110] := ⟨rfl, ⟨⟨4, 1, 5⟩, by decide⟩⟩
  have hletter : IsLiteral '"' [0xC3, 0xA9] := ⟨rfl, ⟨⟨4, 1, 4⟩, by decide⟩⟩
  exact ⟨⟨hescape, hletter⟩, by decide, unquote_append_iff hescape hletter⟩

/-- Beside a backslash a byte of no character is rewritten, though it is kept alone. -/
theorem not_unquote_append : IsLiteral '"' [0xFF] ∧ IsLiteral '"' [92, 110] ∧
    unquote (literal '"' ([0xFF] ++ [92, 110]))
      ≠ unquote (literal '"' [0xFF]) ++ unquote (literal '"' [92, 110]) :=
  ⟨⟨rfl, ⟨⟨3, 1, 4⟩, by decide⟩⟩, ⟨rfl, ⟨⟨4, 1, 5⟩, by decide⟩⟩, by decide⟩

end Scriptlet
