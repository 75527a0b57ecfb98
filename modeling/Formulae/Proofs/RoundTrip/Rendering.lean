import Formulae.Proofs.Expectation.Viability
import Formulae.Proofs.Grammar.Acceptance
import Formulae.Proofs.RoundTrip.Spelling

/-!
# Renderings

The formulas that `Expr.text` writes, as a syntax of their own: numerals with or without a sign,
names, calls, and operators between two operands in parentheses. A rendering has characters, it is a
row of pieces, and it is a phrase.

These three belong together. The characters spell the row (`Rendering.spells`), and the row is
derived as the phrase, which is always an operand (`Rendering.derives`). So the text of a rendering
is parsed as its phrase in every scope (`Settings.parse_of_rendering`). Nothing depends on
precedence, since operators come with parentheses of their own, and next to no name or numeral
stands a character that could be part of it.
-/

namespace Formulae

/-! ### Operators and their glyphs -/

/-- The glyph of an operator. -/
def Operator.glyph : Operator → Glyph
  | add => .plus
  | sub => .minus
  | mul => .star
  | div => .slash
  | pow => .caret

/-- The tier of an operator. -/
def Operator.tier : Operator → Tier
  | add => .additive
  | sub => .additive
  | mul => .multiplicative
  | div => .multiplicative
  | pow => .exponent

theorem Operator.toList_symbol (op : Operator) : op.symbol.toList = [op.glyph.char] := by
  cases op <;> rfl

/-- An operator is read back from its glyph, in its own tier. -/
theorem Operator.operator?_glyph (op : Operator) :
    op.tier.operator? (.glyph op.glyph) = some op := by
  cases op <;> rfl

/-! ### What is left of a row -/

/-- From a position on, a row consists of the given pieces. -/
structure Remains (row : List Piece) (i : Nat) (pieces : List Piece) : Prop where
  drop_eq : row.drop i = pieces
  le : i ≤ row.length

namespace Remains

variable {row pieces : List Piece} {i : Nat} {piece : Piece}

theorem all (row : List Piece) : Remains row 0 row :=
  ⟨rfl, Nat.zero_le _⟩

/-- What remains begins with the piece at the position. -/
theorem getElem? (h : Remains row i pieces) : row[i]? = pieces.head? := by
  rw [← h.drop_eq, List.head?_drop]

theorem tokenAt? (h : Remains row i (piece :: pieces)) :
    Formulae.tokenAt? row i = some piece.token := by
  rw [Formulae.tokenAt?, h.getElem?]
  rfl

/-- Whether a call is opened can be read off what remains. -/
theorem opens_iff (h : Remains row i pieces) :
    Opens row i ↔ pieces.head? = some ⟨.glyph .openParen, true⟩ := by
  rw [Opens, h.getElem?]

theorem succ (h : Remains row i (piece :: pieces)) : Remains row (i + 1) pieces where
  drop_eq := by rw [← List.drop_drop, h.drop_eq, List.drop_one, List.tail_cons]
  le := lt_length_of_tokenAt? h.tokenAt?

/-- Nothing remains at the end only. -/
theorem eq_length (h : Remains row i []) : i = row.length :=
  Nat.le_antisymm h.le (List.drop_eq_nil_iff.1 h.drop_eq)

end Remains

/-! ### Renderings -/

/-- A formula as it is written for a tree. -/
inductive Rendering where
  | number (numeral : Numeral)
  | negative (numeral : Numeral)
  | name (name : Identifier)
  | call₁ (name : Identifier) (argument : Rendering)
  | call₂ (name : Identifier) (first second : Rendering)
  | operation (op : Operator) (first second : Rendering)

namespace Rendering

/-- The characters of a rendering. -/
def chars : Rendering → List Char
  | number numeral => numeral.chars
  | negative numeral => '-' :: numeral.chars
  | name word => word.text.toList
  | call₁ word argument => word.text.toList ++ '(' :: (argument.chars ++ [')'])
  | call₂ word first second =>
    word.text.toList ++ '(' :: (first.chars ++ ',' :: ' ' :: (second.chars ++ [')']))
  | operation op first second =>
    '(' :: (first.chars ++ ' ' :: op.glyph.char :: ' ' :: (second.chars ++ [')']))

/-- The pieces of a rendering, of which the first may touch something before it. -/
def pieces (touches : Bool) : Rendering → List Piece
  | number numeral => [⟨.number numeral.value, touches⟩]
  | negative numeral => [⟨.glyph .minus, touches⟩, ⟨.number numeral.value, true⟩]
  | name word => [⟨.identifier word.text, touches⟩]
  | call₁ word argument =>
    ⟨.identifier word.text, touches⟩ :: ⟨.glyph .openParen, true⟩ ::
      (argument.pieces true ++ [⟨.glyph .closeParen, true⟩])
  | call₂ word first second =>
    ⟨.identifier word.text, touches⟩ :: ⟨.glyph .openParen, true⟩ ::
      (first.pieces true ++ ⟨.glyph .comma, true⟩ ::
        (second.pieces false ++ [⟨.glyph .closeParen, true⟩]))
  | operation op first second =>
    ⟨.glyph .openParen, touches⟩ ::
      (first.pieces true ++ ⟨.glyph op.glyph, false⟩ ::
        (second.pieces false ++ [⟨.glyph .closeParen, true⟩]))

/-- The phrase that a rendering is. -/
def phrase : Rendering → Phrase
  | number numeral => .number numeral.value
  | negative numeral => .negative (.number numeral.value)
  | name word => .name word.text
  | call₁ word argument => .call₁ word.text argument.phrase
  | call₂ word first second => .call₂ word.text first.phrase second.phrase
  | operation op first second => .parens (.joined (.written op) first.phrase second.phrase)

/-- The characters of a rendering spell its pieces, in front of anything that does not go on where a
name or a numeral ends. -/
theorem spells (rendering : Rendering) {touches : Bool} {rest : List Char} {row : List Piece}
    (hrest : Delimited rest) (h : Spells true rest row) :
    Spells touches (rendering.chars ++ rest) (rendering.pieces touches ++ row) := by
  have hglyph (glyph : Glyph) (cs : List Char) : Delimited (glyph.char :: cs) :=
    delimited_cons (isNameChar_char glyph)
  have hspace (cs : List Char) : Delimited (' ' :: cs) := delimited_cons (by decide)
  -- Each term names the tokens in the order of the text, and what delimits each part.
  induction rendering generalizing touches rest row with
  | number numeral => exact h.number numeral hrest
  | negative numeral => exact (h.number numeral hrest).glyph .minus
  | name word => exact h.identifier word.isIdentifier hrest
  | call₁ word argument ih =>
    simp only [chars, pieces, List.append_assoc, List.cons_append, List.nil_append]
    exact .identifier word.isIdentifier (hglyph .openParen _) <| .glyph .openParen <|
      ih (hglyph .closeParen _) <| .glyph .closeParen h
  | call₂ word first second ih₁ ih₂ =>
    simp only [chars, pieces, List.append_assoc, List.cons_append, List.nil_append]
    exact .identifier word.isIdentifier (hglyph .openParen _) <| .glyph .openParen <|
      ih₁ (hglyph .comma _) <| .glyph .comma <| .space <|
      ih₂ (hglyph .closeParen _) <| .glyph .closeParen h
  | operation op first second ih₁ ih₂ =>
    simp only [chars, pieces, List.append_assoc, List.cons_append, List.nil_append]
    exact .glyph .openParen <|
      ih₁ (hspace _) <| .space <| .glyph op.glyph <| .space <|
      ih₂ (hglyph .closeParen _) <| .glyph .closeParen h

variable {row rest : List Piece} {implied touches : Bool} {i : Nat}

/-- Where the pieces of a rendering stand, its phrase is derived as an operand, if what follows does
not call a name at their end. -/
theorem derives (rendering : Rendering) (h : Remains row i (rendering.pieces touches ++ rest))
    (hrest : rest.head? ≠ some ⟨.glyph .openParen, true⟩) :
    ∃ j, Remains row j rest ∧ Derives row implied .operand i j rendering.phrase := by
  -- Behind a part stands an operator, a comma or a closing parenthesis, none of which calls it.
  induction rendering generalizing touches rest i with
  | number numeral => exact ⟨i + 1, h.succ, .number h.tokenAt?⟩
  | negative numeral =>
    have htouches : Touches row (i + 1) := by
      rw [Touches, h.succ.getElem?]
      rfl
    exact ⟨i + 2, h.succ.succ, .negative h.tokenAt? htouches (.number h.succ.tokenAt?)⟩
  | name word => exact ⟨i + 1, h.succ, .name h.tokenAt? (mt h.succ.opens_iff.1 hrest)⟩
  | call₁ word argument ih =>
    simp only [pieces, List.append_assoc, List.cons_append, List.nil_append] at h
    obtain ⟨j, hclose, hargument⟩ := ih h.succ.succ (by simp)
    exact ⟨j + 1, hclose.succ, .call₁ h.tokenAt? (h.succ.opens_iff.2 rfl)
      (hargument.tier_of_operand .additive) hclose.tokenAt?⟩
  | call₂ word first second ih₁ ih₂ =>
    simp only [pieces, List.append_assoc, List.cons_append, List.nil_append] at h
    obtain ⟨j, hcomma, hfirst⟩ := ih₁ h.succ.succ (by simp)
    obtain ⟨k, hclose, hsecond⟩ := ih₂ hcomma.succ (by simp)
    exact ⟨k + 1, hclose.succ, .call₂ h.tokenAt? (h.succ.opens_iff.2 rfl)
      (hfirst.tier_of_operand .additive) hcomma.tokenAt?
      (hsecond.tier_of_operand .additive) hclose.tokenAt?⟩
  | operation op first second ih₁ ih₂ =>
    simp only [pieces, List.append_assoc, List.cons_append, List.nil_append] at h
    obtain ⟨j, hop, hfirst⟩ := ih₁ h.succ (by simp)
    obtain ⟨k, hclose, hsecond⟩ := ih₂ hop.succ (by simp)
    exact ⟨k + 1, hclose.succ, .parens h.tokenAt?
      (hfirst.joined_of_operands (.written hop.tokenAt? op.operator?_glyph) hsecond)
      hclose.tokenAt?⟩

end Rendering

/-- The text of a rendering is parsed as its phrase, if the limit allows for how deep it nests. -/
theorem Settings.parse_of_rendering {settings : Settings} {text : String} {rendering : Rendering}
    (htext : text.toList = rendering.chars)
    (hlimit : rendering.phrase.nesting ≤ settings.depthLimit) :
    settings.parse text =
      .ok ⟨rendering.phrase.expr settings.scope, settings.implied, settings.vocabulary⟩ := by
  have hspells : Spells false text.toList (rendering.pieces false) := by
    rw [htext, ← List.append_nil rendering.chars, ← List.append_nil (rendering.pieces false)]
    exact rendering.spells delimited_nil .nil
  obtain ⟨lexemes, hscan, hrow⟩ := hspells.exists_scan
  have hremains : Remains (row lexemes) 0 (rendering.pieces false ++ []) := by
    rw [List.append_nil, ← hrow]
    exact .all _
  obtain ⟨j, hend, hderives⟩ : ∃ j, Remains (row lexemes) j [] ∧
      Derives (row lexemes) settings.implied .operand 0 j rendering.phrase :=
    rendering.derives hremains nofun
  obtain rfl := hend.eq_length
  refine parse_eq_ok_iff.2 ⟨lexemes, rendering.phrase, hscan, ?_, hlimit, rfl⟩
  rw [← length_row]
  exact hderives.tier_of_operand .additive

end Formulae
