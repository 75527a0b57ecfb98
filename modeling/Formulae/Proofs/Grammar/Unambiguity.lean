import Formulae.Proofs.Grammar.Derivation

/-!
# Unambiguity

A row has at most one derivation. The grammar is not deterministic by itself — a chain may be left
at any of its joints — so the statement needs to say where a phrase is left: at a place that does
not continue it (`Nonterminal.Ends`). In a derivation of a whole row that is so everywhere, since
what stands behind a phrase there is a parenthesis, a comma, the end, or an operator of a looser
tier (`Derives.ends_inner`). Under implied multiplication this rests on a product not being implied
in front of a `-`.
-/

namespace Formulae

/-- The tokens that operands start with. -/
def Token.startsOperand : Token → Bool
  | .number _ => true
  | .identifier _ => true
  | .glyph .openParen => true
  | .glyph .minus => true
  | .glyph _ => false

/-- The tokens in front of which a chain of the tier, or of a tighter one, does not end. -/
def Tier.continuedBy (implied : Bool) : Tier → Token → Bool
  | _, .glyph .caret => true
  | .exponent, _ => false
  | _, .glyph .star => true
  | _, .glyph .slash => true
  | .additive, .glyph .plus => true
  | .additive, .glyph .minus => true
  | _, .number _ => implied
  | _, .identifier _ => implied
  | _, .glyph .openParen => implied
  | _, .glyph _ => false

/-- A phrase of the nonterminal is not continued at the position. Operands never are. -/
def Nonterminal.Ends (row : List Piece) (implied : Bool) : Nonterminal → Nat → Prop
  | tier t, j => ∀ token, tokenAt? row j = some token → t.continuedBy implied token = false
  | rest t _, j => ∀ token, tokenAt? row j = some token → t.continuedBy implied token = false
  | operand, _ => True

theorem Tier.continuedBy_of_operator? {implied : Bool} {tier : Tier} {token : Token} {op : Operator}
    (hop : tier.operator? token = some op) : tier.continuedBy implied token = true := by
  unfold Tier.operator? at hop
  split at hop <;> first | rfl | cases hop

/-- An operator of a tier leaves the operands of that tier. -/
theorem Tier.ends_inner_of_operator? {row : List Piece} {implied : Bool} {tier : Tier} {j : Nat}
    {token : Token} {op : Operator} (htoken : tokenAt? row j = some token)
    (hop : tier.operator? token = some op) : tier.inner.Ends row implied j := by
  unfold Tier.operator? at hop
  split at hop
  case h_6 => cases hop
  all_goals
    first
    | trivial
    | intro token' htoken'
      rw [htoken] at htoken'
      cases htoken'
      rfl

/-- What does not continue a chain does not continue its operands. -/
theorem Tier.ends_inner {row : List Piece} {implied : Bool} {tier : Tier} {j : Nat}
    (h : (Nonterminal.tier tier).Ends row implied j) : tier.inner.Ends row implied j := by
  cases tier with
  | exponent => trivial
  | multiplicative =>
    intro token htoken
    have hends := h token htoken
    unfold Tier.continuedBy at hends ⊢
    split <;> simp_all
  | additive =>
    intro token htoken
    have hends := h token htoken
    unfold Tier.continuedBy at hends ⊢
    split <;> simp_all

namespace Derives

variable {row : List Piece} {implied : Bool} {n : Nonterminal} {tier : Tier} {joint : Joint}
  {i j k l : Nat} {lhs rhs phrase : Phrase}

/-- A phrase that takes a piece at all starts like an operand. -/
theorem exists_startsOperand (h : Derives row implied n i j phrase) (hn : n.width = 1) :
    ∃ token, tokenAt? row i = some token ∧ token.startsOperand = true := by
  induction h with
  | number htoken => exact ⟨_, htoken, rfl⟩
  | name htoken => exact ⟨_, htoken, rfl⟩
  | call₁ htoken => exact ⟨_, htoken, rfl⟩
  | call₂ htoken => exact ⟨_, htoken, rfl⟩
  | parens hopen => exact ⟨_, hopen, rfl⟩
  | negative hminus => exact ⟨_, hminus, rfl⟩
  | chain _ _ ih => exact ih (Tier.width_inner _)
  | stop => cases hn
  | left => cases hn
  | right => cases hn

/-- A joint with an operand behind it continues the chain. -/
theorem not_ends_of_joins (hrhs : Derives row implied tier.inner k l rhs)
    (hjoins : Joins row implied tier i k joint) :
    ¬ (Nonterminal.rest tier lhs).Ends row implied i := by
  intro hends
  cases hjoins with
  | written htoken hop =>
    have hfalse := hends _ htoken
    rw [Tier.continuedBy_of_operator? hop] at hfalse
    cases hfalse
  | implied himplied hminus =>
    obtain ⟨token, htoken, hstarts⟩ := hrhs.exists_startsOperand rfl
    have hfalse := hends token htoken
    subst himplied
    unfold Token.startsOperand at hstarts
    split at hstarts <;> simp_all [Tier.continuedBy]

/-- A joint leaves the operand before it. -/
theorem ends_inner_of_joins (hrhs : Derives row implied tier.inner k l rhs)
    (hjoins : Joins row implied tier i k joint) : tier.inner.Ends row implied i := by
  cases hjoins with
  | written htoken hop => exact Tier.ends_inner_of_operator? htoken hop
  | implied himplied hminus =>
    obtain ⟨token, htoken, hstarts⟩ := hrhs.exists_startsOperand rfl
    intro token' htoken'
    rw [htoken] at htoken'
    cases htoken'
    unfold Token.startsOperand at hstarts
    split at hstarts <;> first | rfl | cases hstarts

/-- The operand in front of a rest is left where the rest begins. -/
theorem ends_inner (h : Derives row implied (.rest tier lhs) i j phrase)
    (hends : (Nonterminal.rest tier lhs).Ends row implied j) : tier.inner.Ends row implied i := by
  cases h with
  | stop => exact Tier.ends_inner hends
  | left _ hjoins hrhs _ => exact hrhs.ends_inner_of_joins hjoins
  | right _ hjoins hrhs _ => exact hrhs.ends_inner_of_joins hjoins

/-- Where a product is implied, none is written. -/
theorem operator?_eq_none_of_implied {token : Token}
    (hrhs : Derives row implied (.tier .exponent) k l rhs)
    (htoken : tokenAt? row k = some token) : Tier.multiplicative.operator? token = none := by
  obtain ⟨token', htoken', hstarts⟩ := hrhs.exists_startsOperand rfl
  rw [htoken] at htoken'
  cases htoken'
  unfold Token.startsOperand at hstarts
  split at hstarts <;> first | rfl | cases hstarts

/-- There is one joint at a place, at most. -/
theorem joins_unique {joint' : Joint} {k' l' : Nat} {rhs' : Phrase}
    (hjoins : Joins row implied tier i k joint) (hrhs : Derives row implied tier.inner k l rhs)
    (hjoins' : Joins row implied tier i k' joint')
    (hrhs' : Derives row implied tier.inner k' l' rhs') : k' = k ∧ joint' = joint := by
  cases hjoins with
  | written htoken hop =>
    cases hjoins' with
    | written htoken' hop' =>
      rw [htoken] at htoken'
      cases htoken'
      rw [hop] at hop'
      cases hop'
      exact ⟨rfl, rfl⟩
    | implied =>
      rw [operator?_eq_none_of_implied hrhs' htoken] at hop
      cases hop
  | implied =>
    cases hjoins' with
    | written htoken hop =>
      rw [operator?_eq_none_of_implied hrhs htoken] at hop
      cases hop
    | implied => exact ⟨rfl, rfl⟩

/-- Nothing but a closing parenthesis or a comma stands behind a whole expression in parentheses,
and neither continues it. -/
theorem ends_of_glyph {glyph : Glyph} (hglyph : glyph = .closeParen ∨ glyph = .comma)
    (htoken : tokenAt? row j = some (.glyph glyph)) :
    (Nonterminal.tier .additive).Ends row implied j := by
  intro token htoken'
  rw [htoken] at htoken'
  cases htoken'
  rcases hglyph with rfl | rfl <;> rfl

/-- **The grammar is unambiguous.** Two phrases of a nonterminal that start at the same place, and
are both left where nothing continues them, are the same. -/
theorem unique (h : Derives row implied n i j phrase) (hends : n.Ends row implied j) {j' : Nat}
    {phrase' : Phrase} (h' : Derives row implied n i j' phrase') (hends' : n.Ends row implied j') :
    j' = j ∧ phrase' = phrase := by
  induction h generalizing j' phrase' with
  | number htoken =>
    cases h' <;> simp_all
  | name htoken hopens =>
    cases h' <;> simp_all
  | @call₁ i j name argument htoken hopens hargument hclose ih =>
    cases h' with
    | call₁ htoken' _ hargument' hclose' =>
      obtain ⟨rfl, rfl⟩ := ih (ends_of_glyph (.inl rfl) hclose) hargument'
        (ends_of_glyph (.inl rfl) hclose')
      simp_all
    | call₂ htoken' _ hfirst' hcomma' _ hclose' =>
      -- The first arguments are the same, but a comma cannot stand where the other is closed.
      obtain ⟨rfl, rfl⟩ := ih (ends_of_glyph (.inl rfl) hclose) hfirst'
        (ends_of_glyph (.inr rfl) hcomma')
      simp_all
    | _ => simp_all
  | @call₂ i j k name first second htoken hopens hfirst hcomma hsecond hclose ih₁ ih₂ =>
    cases h' with
    | call₁ htoken' _ hargument' hclose' =>
      obtain ⟨rfl, rfl⟩ := ih₁ (ends_of_glyph (.inr rfl) hcomma) hargument'
        (ends_of_glyph (.inl rfl) hclose')
      simp_all
    | call₂ htoken' _ hfirst' hcomma' hsecond' hclose' =>
      obtain ⟨rfl, rfl⟩ := ih₁ (ends_of_glyph (.inr rfl) hcomma) hfirst'
        (ends_of_glyph (.inr rfl) hcomma')
      obtain ⟨rfl, rfl⟩ := ih₂ (ends_of_glyph (.inl rfl) hclose) hsecond'
        (ends_of_glyph (.inl rfl) hclose')
      simp_all
    | _ => simp_all
  | @parens i j inner hopen hinner hclose ih =>
    cases h' with
    | parens _ hinner' hclose' =>
      obtain ⟨rfl, rfl⟩ := ih (ends_of_glyph (.inl rfl) hclose) hinner'
        (ends_of_glyph (.inl rfl) hclose')
      exact ⟨rfl, rfl⟩
    | _ => simp_all
  | negative hminus htouches hoperand ih =>
    cases h' with
    | negative _ _ hoperand' =>
      obtain ⟨rfl, rfl⟩ := ih trivial hoperand' trivial
      exact ⟨rfl, rfl⟩
    | _ => simp_all
  | chain hfirst hrest ih₁ ih₂ =>
    cases h' with
    | chain hfirst' hrest' =>
      -- Each rest shows that the operand in front of it is left where it begins.
      obtain ⟨rfl, rfl⟩ := ih₁ (hrest.ends_inner hends) hfirst' (hrest'.ends_inner hends')
      exact ih₂ hends hrest' hends'
  | stop =>
    cases h' with
    | stop => exact ⟨rfl, rfl⟩
    | left _ hjoins' hrhs' _ => exact absurd hends (hrhs'.not_ends_of_joins hjoins')
    | right _ hjoins' hrhs' _ => exact absurd hends (hrhs'.not_ends_of_joins hjoins')
  | left hleft hjoins hrhs hrest ih₁ ih₂ =>
    cases h' with
    | stop => exact absurd hends' (hrhs.not_ends_of_joins hjoins)
    | left _ hjoins' hrhs' hrest' =>
      obtain ⟨rfl, rfl⟩ := joins_unique hjoins hrhs hjoins' hrhs'
      obtain ⟨rfl, rfl⟩ := ih₁ (hrest.ends_inner hends) hrhs' (hrest'.ends_inner hends')
      exact ih₂ hends hrest' hends'
    | right hright _ _ _ =>
      rw [hleft] at hright
      cases hright
  | right hright hjoins hrhs hrest ih₁ ih₂ =>
    cases h' with
    | stop => exact absurd hends' (hrhs.not_ends_of_joins hjoins)
    | left hleft _ _ _ =>
      rw [hright] at hleft
      cases hleft
    | right _ hjoins' hrhs' hrest' =>
      obtain ⟨rfl, rfl⟩ := joins_unique hjoins hrhs hjoins' hrhs'
      obtain ⟨rfl, rfl⟩ := ih₁ (hrest.ends_inner hends) hrhs' (hrest'.ends_inner hends')
      obtain ⟨rfl, rfl⟩ := ih₂ hends hrest' hends'
      exact ⟨rfl, rfl⟩

/-- A whole row has one derivation, at most. -/
theorem unique_of_length (h : Derives row implied (.tier .additive) i row.length phrase)
    {phrase' : Phrase} (h' : Derives row implied (.tier .additive) i row.length phrase') :
    phrase' = phrase := by
  have hends : (Nonterminal.tier .additive).Ends row implied row.length := by
    intro token htoken
    exact absurd (lt_length_of_tokenAt? htoken) (Nat.lt_irrefl _)
  exact (h.unique hends h' hends).2

end Derives

end Formulae
