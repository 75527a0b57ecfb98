import Formulae.Evaluation
import Formulae.Lexeme
import Mathlib.Order.MinMax

/-!
# Derivations

The grammar of formulas as a relation, apart from any way of parsing. It is a relation over a
**row** of pieces: tokens, each with the note whether it touches the one before it. That note is
all that the grammar reads off the places of lexemes.

```text
tier t  := inner t, rest t
rest t  := nothing | operator of t, inner t, rest t
```

is what a chain `inner t (operator of t, inner t)*` amounts to. The nonterminal `rest t lhs` carries
the operand behind which the rest stands, so that the direction of the fold is part of the rules:
on the left, `lhs` is everything before; on the right, it is the last operand alone.

A `Phrase` records each rule that was used and folds nothing, so it is the derivation itself. What
a phrase means is given by `Phrase.expr`, the tree with every known name resolved and every known
call computed; how deep it nests is `Phrase.nesting`.
-/

namespace Formulae

/-! ### Rows -/

/-- A token, and whether it touches the one before it. -/
structure Piece where
  token : Token
  touches : Bool
deriving DecidableEq

/-- Lexemes without their places. The first one touches nothing. -/
def row (lexemes : List Lexeme) : List Piece :=
  List.zipWith (fun previous? lexeme ↦ ⟨lexeme.token, previous?.any (·.touches lexeme)⟩)
    (none :: lexemes.map some) lexemes

/-- The token at a position of a row. -/
def tokenAt? (row : List Piece) (i : Nat) : Option Token :=
  row[i]?.map Piece.token

/-- The piece at a position touches the one before it. -/
def Touches (row : List Piece) (i : Nat) : Prop :=
  row[i]?.map Piece.touches = some true

/-- The piece at a position is a parenthesis that touches the piece before it. -/
def Opens (row : List Piece) (i : Nat) : Prop :=
  row[i]? = some ⟨.glyph .openParen, true⟩

@[simp]
theorem length_row (lexemes : List Lexeme) : (row lexemes).length = lexemes.length := by
  simp [row]

/-- What opens a call is a parenthesis. -/
theorem tokenAt?_of_opens {row : List Piece} {i : Nat} (h : Opens row i) :
    tokenAt? row i = some (.glyph .openParen) := by
  rw [tokenAt?, h]
  rfl

theorem Opens.of_eq {row row' : List Piece} {i : Nat} (hrow : row'[i]? = row[i]?)
    (h : Opens row' i) : Opens row i := by
  rwa [Opens, hrow] at h

/-- Tokens stand within the row. -/
theorem lt_length_of_tokenAt? {row : List Piece} {i : Nat} {token : Token}
    (h : tokenAt? row i = some token) : i < row.length := by
  obtain ⟨piece, hpiece, -⟩ := Option.map_eq_some_iff.1 h
  exact (List.getElem?_eq_some_iff.1 hpiece).1

/-! ### Parts of rows -/

section

variable {row row' : List Piece} {i j k l : Nat}

theorem getElem?_take_of_lt (hij : i < j) : (row.take j)[i]? = row[i]? := by
  rw [List.getElem?_take, if_pos hij]

theorem tokenAt?_take_of_lt (hij : i < j) : tokenAt? (row.take j) i = tokenAt? row i := by
  rw [tokenAt?, getElem?_take_of_lt hij, tokenAt?]

theorem lt_of_tokenAt?_take {token : Token} (h : tokenAt? (row.take j) i = some token) : i < j := by
  have hlt := lt_length_of_tokenAt? h
  rw [List.length_take] at hlt
  omega

/-- The first pieces of a row have its tokens. -/
theorem tokenAt?_of_take {token : Token} (h : tokenAt? (row.take j) i = some token) :
    tokenAt? row i = some token := by
  rwa [tokenAt?_take_of_lt (lt_of_tokenAt?_take h)] at h

/-- What is opened in a beginning is opened in the whole row. -/
theorem opens_of_take (h : Opens (row.take j) i) : Opens row i :=
  h.of_eq (getElem?_take_of_lt (lt_of_tokenAt?_take (tokenAt?_of_opens h)))

/-- The second row has, `d` places further on, what the first one has between two places: the same
tokens, which touch alike except perhaps the first of them, and no parenthesis of its own that calls
a name at the end. -/
structure Copies (row row' : List Piece) (d i j : Nat) : Prop where
  token : ∀ k, i ≤ k → k < j → tokenAt? row' (d + k) = tokenAt? row k
  piece : ∀ k, i < k → k < j → row'[d + k]? = row[k]?
  opens : i < j → ∀ name, tokenAt? row (j - 1) = some (.identifier name) →
    Opens row' (d + j) → Opens row j

/-- A copy of a stretch is a copy of every stretch within. -/
theorem Copies.within {d : Nat} (h : Copies row row' d i j) (hik : i ≤ k) (hlj : l ≤ j) :
    Copies row row' d k l where
  token m hkm hml := h.token m (Nat.le_trans hik hkm) (Nat.lt_of_lt_of_le hml hlj)
  piece m hkm hml := h.piece m (Nat.lt_of_le_of_lt hik hkm) (Nat.lt_of_lt_of_le hml hlj)
  opens hkl name hname hopens := by
    rcases Nat.lt_or_eq_of_le hlj with hlt | rfl
    · rwa [Opens, h.piece l (Nat.lt_of_le_of_lt hik hkl) hlt] at hopens
    · exact h.opens (Nat.lt_of_le_of_lt hik hkl) name hname hopens

theorem not_opens_take (hij : j ≤ i) : ¬ Opens (row.take j) i := by
  rw [Opens, List.getElem?_take, if_neg (by omega)]
  exact nofun

end

/-! ### Phrases -/

/-- An operator between two operands. -/
inductive Joint where
  /-- An operator that is written. -/
  | written (op : Operator)
  /-- The operator of two factors with nothing between them. -/
  | implied
deriving DecidableEq

/-- The operator that a joint stands for. -/
def Joint.operator : Joint → Operator
  | written op => op
  | implied => .mul

/-- A formula as it is written: no name resolved, nothing computed. -/
inductive Phrase where
  | number (value : Float)
  | name (name : String)
  | call₁ (name : String) (argument : Phrase)
  | call₂ (name : String) (first second : Phrase)
  | parens (inner : Phrase)
  | negative (operand : Phrase)
  | joined (joint : Joint) (lhs rhs : Phrase)

namespace Phrase

/-- The number of operands around the deepest one, itself included. -/
def nesting : Phrase → Nat
  | .number _ => 1
  | .name _ => 1
  | .call₁ _ argument => argument.nesting + 1
  | .call₂ _ first second => max first.nesting second.nesting + 1
  | .parens inner => inner.nesting + 1
  | .negative operand => operand.nesting + 1
  | .joined _ lhs rhs => max lhs.nesting rhs.nesting

/-- The tree of a phrase, with everything resolved and computed that the scope knows. -/
def expr (scope : Scope) : Phrase → Expr
  | .number value => .constant value
  | .name word => scope.exprOfName word
  | .call₁ word argument => scope.exprOfCall₁ word (argument.expr scope)
  | .call₂ word first second => scope.exprOfCall₂ word (first.expr scope) (second.expr scope)
  | .parens inner => inner.expr scope
  | .negative operand => Operator.mul.combine (.constant (-1.0)) (operand.expr scope)
  | .joined joint lhs rhs => joint.operator.combine (lhs.expr scope) (rhs.expr scope)

/-- Every phrase stands on some level. -/
theorem nesting_pos (phrase : Phrase) : 0 < phrase.nesting := by
  induction phrase with
  | joined joint lhs rhs ihl ihr => exact lt_max_of_lt_left ihl
  | _ => exact Nat.succ_pos _

end Phrase

/-! ### Rules -/

/-- What rules are about. -/
inductive Nonterminal where
  /-- A chain of a tier. -/
  | tier (tier : Tier)
  /-- What follows an operand in a chain of a tier. -/
  | rest (tier : Tier) (lhs : Phrase)
  | operand

/-- The fewest pieces that a phrase of a nonterminal takes. -/
def Nonterminal.width : Nonterminal → Nat
  | rest _ _ => 0
  | _ => 1

/-- The operands of a tier. -/
def Tier.inner : Tier → Nonterminal
  | additive => .tier .multiplicative
  | multiplicative => .tier .exponent
  | exponent => .operand

namespace Nonterminal

@[simp] theorem width_tier (tier : Tier) : (Nonterminal.tier tier).width = 1 := rfl

@[simp] theorem width_rest (tier : Tier) (lhs : Phrase) : (rest tier lhs).width = 0 := rfl

@[simp] theorem width_operand : operand.width = 1 := rfl

end Nonterminal

@[simp]
theorem Tier.width_inner (tier : Tier) : tier.inner.width = 1 := by
  cases tier <;> rfl

/-- The tiers in a row are joined at `i`, and the next operand starts at `k`. Only factors are
joined by nothing, and not in front of a `-`. -/
inductive Joins (row : List Piece) (implied : Bool) : Tier → Nat → Nat → Joint → Prop where
  | written {tier : Tier} {i : Nat} {token : Token} {op : Operator}
      (htoken : tokenAt? row i = some token) (hop : tier.operator? token = some op) :
      Joins row implied tier i (i + 1) (.written op)
  | implied {i : Nat} (himplied : implied = true)
      (hminus : tokenAt? row i ≠ some (.glyph .minus)) :
      Joins row implied .multiplicative i i .implied

/-- `Derives row implied n i j phrase`: the pieces of the row from `i` up to `j` are a phrase of the
nonterminal `n`. -/
inductive Derives (row : List Piece) (implied : Bool) :
    Nonterminal → Nat → Nat → Phrase → Prop where
  | number {i : Nat} {value : Float} (htoken : tokenAt? row i = some (.number value)) :
      Derives row implied .operand i (i + 1) (.number value)
  | name {i : Nat} {name : String} (htoken : tokenAt? row i = some (.identifier name))
      (hopens : ¬ Opens row (i + 1)) :
      Derives row implied .operand i (i + 1) (.name name)
  | call₁ {i j : Nat} {name : String} {argument : Phrase}
      (htoken : tokenAt? row i = some (.identifier name)) (hopens : Opens row (i + 1))
      (hargument : Derives row implied (.tier .additive) (i + 2) j argument)
      (hclose : tokenAt? row j = some (.glyph .closeParen)) :
      Derives row implied .operand i (j + 1) (.call₁ name argument)
  | call₂ {i j k : Nat} {name : String} {first second : Phrase}
      (htoken : tokenAt? row i = some (.identifier name)) (hopens : Opens row (i + 1))
      (hfirst : Derives row implied (.tier .additive) (i + 2) j first)
      (hcomma : tokenAt? row j = some (.glyph .comma))
      (hsecond : Derives row implied (.tier .additive) (j + 1) k second)
      (hclose : tokenAt? row k = some (.glyph .closeParen)) :
      Derives row implied .operand i (k + 1) (.call₂ name first second)
  | parens {i j : Nat} {inner : Phrase} (hopen : tokenAt? row i = some (.glyph .openParen))
      (hinner : Derives row implied (.tier .additive) (i + 1) j inner)
      (hclose : tokenAt? row j = some (.glyph .closeParen)) :
      Derives row implied .operand i (j + 1) (.parens inner)
  | negative {i j : Nat} {operand : Phrase} (hminus : tokenAt? row i = some (.glyph .minus))
      (htouches : Touches row (i + 1)) (hoperand : Derives row implied .operand (i + 1) j operand) :
      Derives row implied .operand i j (.negative operand)
  | chain {tier : Tier} {i j k : Nat} {first phrase : Phrase}
      (hfirst : Derives row implied tier.inner i k first)
      (hrest : Derives row implied (.rest tier first) k j phrase) :
      Derives row implied (.tier tier) i j phrase
  | stop {tier : Tier} {i : Nat} {lhs : Phrase} : Derives row implied (.rest tier lhs) i i lhs
  | left {tier : Tier} {i j k l : Nat} {joint : Joint} {lhs rhs phrase : Phrase}
      (hleft : tier.associativity = .left) (hjoins : Joins row implied tier i k joint)
      (hrhs : Derives row implied tier.inner k l rhs)
      (hrest : Derives row implied (.rest tier (.joined joint lhs rhs)) l j phrase) :
      Derives row implied (.rest tier lhs) i j phrase
  | right {tier : Tier} {i j k l : Nat} {joint : Joint} {lhs rhs phrase : Phrase}
      (hright : tier.associativity = .right) (hjoins : Joins row implied tier i k joint)
      (hrhs : Derives row implied tier.inner k l rhs)
      (hrest : Derives row implied (.rest tier rhs) l j phrase) :
      Derives row implied (.rest tier lhs) i j (.joined joint lhs phrase)

/-- The whole row is an expression. -/
def Accepted (implied : Bool) (row : List Piece) : Prop :=
  ∃ phrase, Derives row implied (.tier .additive) 0 row.length phrase

theorem Joins.le {row : List Piece} {implied : Bool} {tier : Tier} {i k : Nat} {joint : Joint}
    (h : Joins row implied tier i k joint) : i ≤ k := by
  cases h with
  | written => exact Nat.le_succ i
  | implied => exact Nat.le_refl i

/-- A joint reads one token. -/
theorem Joins.shift {row row' : List Piece} {implied : Bool} {tier : Tier} {d i k : Nat}
    {joint : Joint} (h : Joins row implied tier i k joint)
    (htoken : tokenAt? row' (d + i) = tokenAt? row i) :
    Joins row' implied tier (d + i) (d + k) joint := by
  cases h with
  | written hop htier => exact .written (htoken.trans hop) htier
  | implied himplied hminus => exact .implied himplied (htoken ▸ hminus)

theorem Joins.congr {row row' : List Piece} {implied : Bool} {tier : Tier} {i k : Nat}
    {joint : Joint} (h : Joins row implied tier i k joint) (hrow : row'[i]? = row[i]?) :
    Joins row' implied tier i k joint := by
  have htoken : tokenAt? row' (0 + i) = tokenAt? row i := by
    rw [Nat.zero_add, tokenAt?, hrow, tokenAt?]
  simpa only [Nat.zero_add] using h.shift htoken

namespace Derives

variable {row row' : List Piece} {implied : Bool} {n : Nonterminal} {i j : Nat} {phrase : Phrase}

/-- A phrase takes at least one piece; only a rest may take none. -/
theorem add_width_le (h : Derives row implied n i j phrase) : i + n.width ≤ j := by
  induction h with
  | number => exact Nat.le_refl _
  | name => exact Nat.le_refl _
  | call₁ _ _ _ _ ih =>
    rw [Nonterminal.width_tier] at ih
    rw [Nonterminal.width_operand]
    omega
  | call₂ _ _ _ _ _ _ ih₁ ih₂ =>
    rw [Nonterminal.width_tier] at ih₁ ih₂
    rw [Nonterminal.width_operand]
    omega
  | parens _ _ _ ih =>
    rw [Nonterminal.width_tier] at ih
    rw [Nonterminal.width_operand]
    omega
  | negative _ _ _ ih => omega
  | chain _ _ ih₁ ih₂ =>
    rw [Tier.width_inner] at ih₁
    rw [Nonterminal.width_rest] at ih₂
    rw [Nonterminal.width_tier]
    omega
  | stop => exact Nat.le_refl _
  | left _ hjoins _ _ ih₁ ih₂ =>
    have hle := hjoins.le
    rw [Nonterminal.width_rest] at ih₂ ⊢
    omega
  | right _ hjoins _ _ ih₁ ih₂ =>
    have hle := hjoins.le
    rw [Nonterminal.width_rest] at ih₂ ⊢
    omega

/-- Derivations go from left to right. -/
theorem le (h : Derives row implied n i j phrase) : i ≤ j :=
  (Nat.le_add_right i n.width).trans h.add_width_le

/-- The operands of every tier have a piece at least. -/
theorem lt_of_inner {tier : Tier} (h : Derives row implied tier.inner i j phrase) : i < j := by
  have hle := h.add_width_le
  rwa [Tier.width_inner] at hle

/-- A derivation reads the pieces it takes, and behind a name the next one too, wherever they
stand. -/
theorem shift {d : Nat} (h : Derives row implied n i j phrase)
    (hcopies : Copies row row' d i j) : Derives row' implied n (d + i) (d + j) phrase := by
  induction h with
  | number htoken =>
    exact .number ((hcopies.token _ (Nat.le_refl _) (Nat.lt_succ_self _)).trans htoken)
  | @name i _ htoken hname =>
    exact .name ((hcopies.token i (Nat.le_refl _) (Nat.lt_succ_self _)).trans htoken)
      (mt (hcopies.opens (Nat.lt_succ_self i) _ htoken) hname)
  | @call₁ i j _ _ htoken hopen hargument hclose ih =>
    have hle := hargument.le
    exact .call₁ ((hcopies.token i (by omega) (by omega)).trans htoken)
      ((hcopies.piece (i + 1) (by omega) (by omega)).trans hopen)
      (ih (hcopies.within (by omega) (by omega)))
      ((hcopies.token j (by omega) (by omega)).trans hclose)
  | @call₂ i j k _ _ _ htoken hopen hfirst hcomma hsecond hclose ih₁ ih₂ =>
    have hle₁ := hfirst.le
    have hle₂ := hsecond.le
    exact .call₂ ((hcopies.token i (by omega) (by omega)).trans htoken)
      ((hcopies.piece (i + 1) (by omega) (by omega)).trans hopen)
      (ih₁ (hcopies.within (by omega) (by omega)))
      ((hcopies.token j (by omega) (by omega)).trans hcomma)
      (ih₂ (hcopies.within (by omega) (by omega)))
      ((hcopies.token k (by omega) (by omega)).trans hclose)
  | @parens i j _ hopen hinner hclose ih =>
    have hle := hinner.le
    exact .parens ((hcopies.token i (by omega) (by omega)).trans hopen)
      (ih (hcopies.within (by omega) (by omega)))
      ((hcopies.token j (by omega) (by omega)).trans hclose)
  | @negative i j _ hminus htouches hoperand ih =>
    have hlt : i + 1 < j := hoperand.add_width_le
    refine .negative ((hcopies.token i (by omega) (by omega)).trans hminus) ?_
      (ih (hcopies.within (by omega) (Nat.le_refl j)))
    exact (congrArg (Option.map Piece.touches) (hcopies.piece (i + 1) (by omega) hlt)).trans
      htouches
  | chain hfirst hrest ih₁ ih₂ =>
    exact .chain (ih₁ (hcopies.within (Nat.le_refl _) hrest.le))
      (ih₂ (hcopies.within hfirst.le (Nat.le_refl _)))
  | stop => exact .stop
  | @left tier i j k l joint lhs rhs phrase hleft hjoins hrhs hrest ih₁ ih₂ =>
    have hle := hjoins.le
    have hlt := hrhs.lt_of_inner
    have hle' := hrest.le
    exact .left hleft (hjoins.shift (hcopies.token i (Nat.le_refl i) (by omega)))
      (ih₁ (hcopies.within hle hle')) (ih₂ (hcopies.within (by omega) (Nat.le_refl _)))
  | @right tier i j k l joint lhs rhs phrase hright hjoins hrhs hrest ih₁ ih₂ =>
    have hle := hjoins.le
    have hlt := hrhs.lt_of_inner
    have hle' := hrest.le
    exact .right hright (hjoins.shift (hcopies.token i (Nat.le_refl i) (by omega)))
      (ih₁ (hcopies.within hle hle')) (ih₂ (hcopies.within (by omega) (Nat.le_refl _)))

/-- A derivation stays one in every row with the same pieces in the same places. -/
theorem congr (h : Derives row implied n i j phrase)
    (hpieces : ∀ k, i ≤ k → k < j → row'[k]? = row[k]?)
    (hopens : ∀ name, tokenAt? row (j - 1) = some (.identifier name) → Opens row' j → Opens row j) :
    Derives row' implied n i j phrase := by
  have hcopies : Copies row row' 0 i j := by
    refine ⟨fun k hik hkj ↦ ?_, fun k hik hkj ↦ ?_, fun _ ↦ ?_⟩
    · rw [Nat.zero_add, tokenAt?, hpieces k hik hkj, tokenAt?]
    · rw [Nat.zero_add, hpieces k (Nat.le_of_lt hik) hkj]
    · rw [Nat.zero_add]
      exact hopens
  simpa only [Nat.zero_add] using h.shift hcopies

/-- A link in front of a rest makes a longer one. -/
theorem exists_rest {tier : Tier} {k l : Nat} {joint : Joint} {rhs : Phrase}
    (hjoins : Joins row implied tier i k joint)
    (hrhs : Derives row implied tier.inner k l rhs)
    (hrest : ∀ lhs, ∃ phrase, Derives row implied (.rest tier lhs) l j phrase) (lhs : Phrase) :
    ∃ phrase, Derives row implied (.rest tier lhs) i j phrase := by
  rcases hassociativity : tier.associativity
  case left =>
    obtain ⟨phrase, hphrase⟩ := hrest (.joined joint lhs rhs)
    exact ⟨phrase, .left hassociativity hjoins hrhs hphrase⟩
  case right =>
    obtain ⟨phrase, hphrase⟩ := hrest rhs
    exact ⟨_, .right hassociativity hjoins hrhs hphrase⟩

/-- An operand is a chain of every tier, with no link in it. -/
theorem inner_of_operand (h : Derives row implied .operand i j phrase) (tier : Tier) :
    Derives row implied tier.inner i j phrase := by
  cases tier
  case additive => exact .chain (.chain h .stop) .stop
  case multiplicative => exact .chain h .stop
  case exponent => exact h

/-- An operand is a chain of one operand in every tier. -/
theorem tier_of_operand (h : Derives row implied .operand i j phrase) (tier : Tier) :
    Derives row implied (.tier tier) i j phrase :=
  .chain (h.inner_of_operand tier) .stop

/-- A chain of any tier is an expression. -/
theorem additive_of_tier {tier : Tier} (h : Derives row implied (.tier tier) i j phrase) :
    Derives row implied (.tier .additive) i j phrase := by
  cases tier
  case additive => exact h
  case multiplicative => exact .chain h .stop
  case exponent => exact .chain (.chain h .stop) .stop

/-- So are two operands with a joint between them. -/
theorem joined_of_operands {tier : Tier} {k l : Nat} {joint : Joint} {lhs rhs : Phrase}
    (hlhs : Derives row implied .operand i k lhs) (hjoins : Joins row implied tier k l joint)
    (hrhs : Derives row implied .operand l j rhs) :
    Derives row implied (.tier .additive) i j (.joined joint lhs rhs) := by
  have hfirst := hlhs.inner_of_operand tier
  have hsecond := hrhs.inner_of_operand tier
  suffices h : Derives row implied (.tier tier) i j (.joined joint lhs rhs) from
    h.additive_of_tier
  rcases hassociativity : tier.associativity
  case left => exact .chain hfirst (.left hassociativity hjoins hsecond .stop)
  case right => exact .chain hfirst (.right hassociativity hjoins hsecond .stop)

/-- A derivation in a beginning of a row is one in every longer beginning, unless a parenthesis that
is there now touches a name at its end. -/
theorem extend {k : Nat} (h : Derives (row.take j) implied n i j phrase) (hjk : j ≤ k)
    (hopens : ∀ name, tokenAt? row (j - 1) = some (.identifier name) → ¬ Opens (row.take k) j) :
    Derives (row.take k) implied n i j phrase := by
  refine h.congr (fun l _ hl ↦ ?_) fun name hname hopen ↦ ?_
  · rw [getElem?_take_of_lt hl, getElem?_take_of_lt (by omega)]
  · exact absurd hopen (hopens name (tokenAt?_of_take hname))

/-- So it is where another glyph stands behind it. -/
theorem extend_of_glyph {k : Nat} {glyph : Glyph} (h : Derives (row.take j) implied n i j phrase)
    (htoken : tokenAt? row j = some (.glyph glyph)) (hglyph : glyph ≠ .openParen) (hjk : j ≤ k) :
    Derives (row.take k) implied n i j phrase := by
  refine h.extend hjk fun _ _ hopen ↦ ?_
  have hparen := tokenAt?_of_take (tokenAt?_of_opens hopen)
  rw [htoken] at hparen
  cases hparen
  exact hglyph rfl

end Derives

end Formulae
