import Formulae.Proofs.Grammar.Completeness

/-!
# Soundness of the plain parser

What the plain parser reads can be derived. The statement has to be about beginnings of the row:
when a call turns out not to be one, its name is read alone, and a name with a touching parenthesis
behind it is no operand of the whole row. It is one of the row up to there (`List.take`), and
nothing is ever read behind it: the parenthesis does not open an expression in parentheses either,
or the call would have been one (`Blocked`). So wherever something else is read behind a phrase, the
phrase can be derived from the longer beginning too.

That a failed call blocks its parenthesis is where completeness is used.
-/

namespace Formulae

/-! ### Blocked places -/

/-- No expression in parentheses starts at the position. -/
def Blocked (row : List Piece) (implied : Bool) (i : Nat) : Prop :=
  ∀ k phrase, Derives row implied (.tier .additive) (i + 1) k phrase →
    tokenAt? row k ≠ some (.glyph .closeParen)

/-- If a parenthesis touches a name in front of the position, the position is blocked. -/
def Clear (row : List Piece) (implied : Bool) (i : Nat) : Prop :=
  ∀ name, tokenAt? row (i - 1) = some (.identifier name) → Opens row i → Blocked row implied i

namespace Derives

variable {row : List Piece} {implied : Bool} {n : Nonterminal} {tier : Tier} {i j k : Nat}
  {lhs phrase : Phrase}

/-- A phrase that starts with a parenthesis starts with an expression in parentheses. -/
theorem exists_parens (h : Derives row implied n i j phrase) (hn : n.width = 1)
    (hopen : tokenAt? row i = some (.glyph .openParen)) :
    ∃ k inner, Derives row implied (.tier .additive) (i + 1) k inner ∧
      tokenAt? row k = some (.glyph .closeParen) ∧ k < j := by
  induction h with
  | parens _ hinner hclose => exact ⟨_, _, hinner, hclose, Nat.lt_succ_self _⟩
  | chain hfirst hrest ih =>
    obtain ⟨k, inner, hinner, hclose, hlt⟩ := ih (Tier.width_inner _) hopen
    exact ⟨k, inner, hinner, hclose, Nat.lt_of_lt_of_le hlt hrest.le⟩
  | stop => cases hn
  | left => cases hn
  | right => cases hn
  | _ => simp_all

/-- Nothing is derived at a blocked parenthesis, whatever beginning of the row is looked at. -/
theorem ne_openParen_of_blocked {m : Nat} (h : Derives (row.take m) implied n i j phrase)
    (hn : n.width = 1) (hblocked : Blocked row implied i) :
    tokenAt? (row.take m) i ≠ some (.glyph .openParen) := by
  intro hopen
  obtain ⟨k, inner, hinner, hclose, -⟩ := h.exists_parens hn hopen
  have hlt := lt_of_tokenAt?_take hclose
  refine hblocked k inner (hinner.congr (fun l _ hl ↦ ?_) fun _ _ hopens ↦ ?_)
    (tokenAt?_of_take hclose)
  · exact (getElem?_take_of_lt (by omega)).symm
  · exact hopens.of_eq (getElem?_take_of_lt hlt).symm

/-- No link begins with a touching parenthesis behind a name that blocks it. -/
theorem not_opens_of_joins {m : Nat} {joint : Joint} {rhs : Phrase}
    (hrhs : Derives (row.take m) implied tier.inner k j rhs)
    (hjoins : Joins (row.take m) implied tier i k joint) (hclear : Clear row implied i)
    {name : String} (hname : tokenAt? row (i - 1) = some (.identifier name)) :
    ¬ Opens (row.take m) i := by
  intro hopens
  have hparen := tokenAt?_of_opens hopens
  cases hjoins with
  | written htoken hop =>
    rw [hparen] at htoken
    cases htoken
    cases tier <;> cases hop
  | implied =>
    exact hrhs.ne_openParen_of_blocked rfl (hclear name hname (opens_of_take hopens)) hparen

/-- Neither does a rest. -/
theorem not_opens_of_rest (h : Derives (row.take j) implied (.rest tier lhs) i j phrase)
    (hclear : Clear row implied i) {name : String}
    (hname : tokenAt? row (i - 1) = some (.identifier name)) : ¬ Opens (row.take j) i := by
  cases h with
  | stop => exact not_opens_take (Nat.le_refl _)
  | left _ hjoins hrhs _ => exact hrhs.not_opens_of_joins hjoins hclear hname
  | right _ hjoins hrhs _ => exact hrhs.not_opens_of_joins hjoins hclear hname

/-- A link and the rest behind it make a rest. -/
theorem exists_rest_of_link {l : Nat} {joint : Joint} {rhs : Phrase}
    (hjoins : Joins row implied tier i k joint)
    (hrhs : Derives (row.take l) implied tier.inner k l rhs) (hclear : Clear row implied l)
    (hrest : ∀ lhs', ∃ phrase, Derives (row.take j) implied (.rest tier lhs') l j phrase) :
    ∃ phrase, Derives (row.take j) implied (.rest tier lhs) i j phrase := by
  obtain ⟨phrase₁, hrest₁⟩ := hrest rhs
  have hle := hjoins.le
  have hlt := hrhs.lt_of_inner
  have hle' := hrest₁.le
  refine exists_rest (hjoins.congr (getElem?_take_of_lt (by omega))) (hrhs.extend hle' ?_) hrest lhs
  exact fun name hname ↦ hrest₁.not_opens_of_rest hclear hname

end Derives

/-! ### Chains -/

/-- Whatever the parser reads on the level can be derived as a phrase of the nonterminal from the
row up to there, and the place behind it is clear. -/
def Parser.Sound (input : Input) (depth : Nat) (n : Nonterminal) (p : Parser Expr) : Prop :=
  ∀ ⦃h h' : Head⦄ ⦃e : Expr⦄, p h = .ok e h' → h.depth = depth →
    (∃ phrase, Derives (input.row.take h'.position) input.scope.implied n h.position h'.position
      phrase) ∧ Clear input.row input.scope.implied h'.position

variable {input : Input} {depth : Nat} {tier : Tier} {operand : Parser Expr}

/-- A chain is continued by an operator of its tier that is written. In front of anything else it
notes that an operator is missing, and is continued by an implied one or not at all. -/
theorem Parser.continuation_cases (input : Input) (tier : Tier) (h : Head) :
    (∃ token op, input.token? h.position = some token ∧ tier.operator? token = some op ∧
      continuation input (tier.chain input.scope) h = .ok op h.advanced) ∨
    (∀ token, input.token? h.position = some token → tier.operator? token = none) ∧
      ((∃ op, tier = .multiplicative ∧ input.scope.implied = true ∧
          input.token? h.position ≠ some (.glyph .minus) ∧
          continuation input (tier.chain input.scope) h = .ok op (h.noted .operator)) ∨
        continuation input (tier.chain input.scope) h = .error .noMatch (h.noted .operator)) := by
  rw [continuation_apply]
  split
  · rename_i op hop
    obtain ⟨token, htoken, hop⟩ := Option.bind_eq_some_iff.1 hop
    exact .inl ⟨token, op, htoken, hop, rfl⟩
  · rename_i hnone
    refine .inr ⟨fun token htoken ↦ by rwa [htoken] at hnone, ?_⟩
    split
    · rename_i op himplied
      split
      · exact .inr rfl
      · rename_i hgo
        obtain ⟨rfl, hflag⟩ : tier = .multiplicative ∧ input.scope.implied = true := by
          by_contra hnot
          rw [Tier.chain, if_neg hnot] at himplied
          cases himplied
        exact .inl ⟨op, rfl, hflag, fun hminus ↦ hgo (.inr hminus), rfl⟩
    · exact .inr rfl

theorem joins_of_continuation {h h₁ : Head} {op : Operator}
    (hrun : Parser.continuation input (tier.chain input.scope) h = .ok op h₁) :
    ∃ joint, Joins input.row input.scope.implied tier h.position h₁.position joint := by
  rcases Parser.continuation_cases input tier h with
    ⟨token, op', htoken, hop, hresult⟩ | ⟨-, ⟨op', rfl, hflag, hminus, hresult⟩ | hresult⟩
  · rw [hresult] at hrun
    cases hrun
    exact ⟨.written op, .written ((input.tokenAt?_row _).trans htoken) hop⟩
  · rw [hresult] at hrun
    cases hrun
    exact ⟨.implied, .implied hflag (by rwa [input.tokenAt?_row])⟩
  · rw [hresult] at hrun
    cases hrun

theorem exists_of_link {chain : Chain} {h h₁ : Head} {op : Operator} {e : Expr}
    (hrun : Parser.link input chain operand h = .ok (op, e) h₁) :
    ∃ h₀, Parser.continuation input chain h = .ok op h₀ ∧ operand h₀ = .ok e h₁ := by
  rw [Parser.link_apply] at hrun
  split at hrun
  · rename_i op' h₀ hcontinuation
    split at hrun
    · rename_i e' h₁' hoperand
      cases hrun
      exact ⟨h₀, hcontinuation, hoperand⟩
    · cases hrun
  · cases hrun

/-- The loop of a chain reads a rest. -/
theorem derives_of_links (hsound : Parser.Sound input depth tier.inner operand)
    (hforward : Parser.Forward input depth 1 operand) {trials : Nat}
    {found more : List (Operator × Expr)} {h h' : Head} (hdepth : h.depth = depth)
    (hclear : Clear input.row input.scope.implied h.position)
    (hrun : Parser.links input (tier.chain input.scope) operand trials found h = .ok more h') :
    (∀ lhs, ∃ phrase, Derives (input.row.take h'.position) input.scope.implied (.rest tier lhs)
      h.position h'.position phrase) ∧ Clear input.row input.scope.implied h'.position := by
  induction trials generalizing found h with
  | zero =>
    cases hrun
    exact ⟨fun lhs ↦ ⟨lhs, .stop⟩, hclear⟩
  | succ trials ih =>
    rw [Parser.links_succ_apply] at hrun
    rcases hlink : Parser.link input (tier.chain input.scope) operand h with
      ⟨⟨op, e⟩, h₁⟩ | ⟨- | r, h₁⟩
    · rw [hlink] at hrun
      obtain ⟨h₀, hcontinuation, hoperand⟩ := exists_of_link hlink
      have hadv := (Parser.forward_continuation (tier.chain input.scope)).advanced hdepth
        hcontinuation
      have hdepth₀ := hadv.depth_eq.trans hdepth
      have hdepth₁ := (hforward.advanced hdepth₀ hoperand).depth_eq.trans hdepth₀
      obtain ⟨joint, hjoins⟩ := joins_of_continuation hcontinuation
      obtain ⟨⟨rhs, hrhs⟩, hclear₁⟩ := hsound hoperand hdepth₀
      obtain ⟨hrest, hclear'⟩ := ih (h := h₁.logged _) hdepth₁ hclear₁ hrun
      exact ⟨fun lhs ↦ hrhs.exists_rest_of_link hjoins hclear₁ hrest, hclear'⟩
    · -- a link that misses gives its place back
      rw [hlink] at hrun
      cases hrun
      exact ⟨fun lhs ↦ ⟨lhs, .stop⟩, hclear⟩
    · rw [hlink] at hrun
      cases hrun

theorem sound_chained (tier : Tier) (hsound : Parser.Sound input depth tier.inner operand)
    (hforward : Parser.Forward input depth 1 operand) :
    Parser.Sound input depth (.tier tier)
      (Parser.chained input (tier.chain input.scope) operand) := by
  intro h h' e hrun hdepth
  rw [Parser.chained_eq, Parser.bind_apply] at hrun
  rcases hfirst : operand h with ⟨first, h₁⟩ | ⟨stop, h₁⟩
  · rw [hfirst] at hrun
    dsimp only at hrun
    rw [Parser.linked_apply] at hrun
    obtain ⟨⟨phrase₁, hphrase₁⟩, hclear₁⟩ := hsound hfirst hdepth
    have hdepth₁ := (hforward.advanced hdepth hfirst).depth_eq.trans hdepth
    rcases hlinks : Parser.links input (tier.chain input.scope) operand
      (input.lexemes.size - h₁.position + 1) [] (h₁.logged [.firstOperand _ first]) with
      ⟨more, h₂⟩ | ⟨stop, h₂⟩
    · rw [hlinks] at hrun
      cases hrun
      obtain ⟨hrest, hclear₂⟩ := derives_of_links hsound hforward (h := h₁.logged _) hdepth₁
        hclear₁ hlinks
      obtain ⟨phrase, hphrase⟩ := hrest phrase₁
      refine ⟨⟨phrase, .chain (hphrase₁.extend hphrase.le fun name hname ↦ ?_) hphrase⟩, hclear₂⟩
      exact hphrase.not_opens_of_rest hclear₁ hname
    · rw [hlinks] at hrun
      cases hrun
  · rw [hfirst] at hrun
    cases hrun

theorem sound_expression (hsound : Parser.Sound input depth .operand operand)
    (hforward : Parser.Forward input depth 1 operand) :
    Parser.Sound input depth (.tier .additive) (Parser.expression input operand) :=
  have hforward₁ := Parser.forward_chained (Tier.exponent.chain input.scope) hforward
  sound_chained .additive
    (sound_chained .multiplicative (sound_chained .exponent hsound hforward) hforward₁)
    (Parser.forward_chained _ hforward₁)

/-! ### Operands -/

theorem clear_of_token {row : List Piece} {implied : Bool} {j : Nat} {token : Token}
    (htoken : tokenAt? row j = some token) (hname : ∀ name, token ≠ .identifier name) :
    Clear row implied (j + 1) := by
  intro name hname'
  rw [Nat.add_sub_cancel, htoken] at hname'
  cases hname'
  exact absurd rfl (hname name)

/-- What is read in front of a closing parenthesis. -/
theorem derives_of_closed (hsound : Parser.Sound input depth .operand operand)
    (hforward : Parser.Forward input depth 1 operand) {f : Expr → Expr} {h h' : Head} {e : Expr}
    (hrun : (Parser.expression input operand >>= fun a ↦ Parser.closed input (f a)) h = .ok e h')
    (hdepth : h.depth = depth) :
    ∃ phrase k, Derives (input.row.take k) input.scope.implied (.tier .additive) h.position k
      phrase ∧ tokenAt? input.row k = some (.glyph .closeParen) ∧ h'.position = k + 1 := by
  rw [Parser.bind_apply] at hrun
  rcases hfirst : Parser.expression input operand h with ⟨a, h₁⟩ | ⟨stop, h₁⟩
  · rw [hfirst] at hrun
    dsimp only at hrun
    rw [Parser.closed_apply] at hrun
    split at hrun
    · rename_i hclose
      cases hrun
      obtain ⟨⟨phrase, hphrase⟩, -⟩ := sound_expression hsound hforward hfirst hdepth
      exact ⟨phrase, _, hphrase, (input.tokenAt?_row _).trans hclose, rfl⟩
    · cases hrun
  · rw [hfirst] at hrun
    cases hrun

/-- A call with one argument that was read from a beginning of the row. -/
theorem derives_call₁_of_take {row : List Piece} {implied : Bool} {word : String} {i j : Nat}
    {argument : Phrase} (htoken : tokenAt? row i = some (.identifier word))
    (hopens : Opens row (i + 1))
    (hargument : Derives (row.take j) implied (.tier .additive) (i + 2) j argument)
    (hclose : tokenAt? row j = some (.glyph .closeParen)) :
    Derives (row.take (j + 1)) implied .operand i (j + 1) (.call₁ word argument) := by
  have hle := hargument.le
  refine .call₁ ?_ ?_ (hargument.extend_of_glyph hclose (by simp) (Nat.le_succ j)) ?_
  · rwa [tokenAt?_take_of_lt (by omega)]
  · exact hopens.of_eq (getElem?_take_of_lt (by omega)).symm
  · rwa [tokenAt?_take_of_lt (Nat.lt_succ_self j)]

/-- A call with two arguments that were read from beginnings of the row. -/
theorem derives_call₂_of_take {row : List Piece} {implied : Bool} {word : String} {i j k : Nat}
    {first second : Phrase} (htoken : tokenAt? row i = some (.identifier word))
    (hopens : Opens row (i + 1))
    (hfirst : Derives (row.take j) implied (.tier .additive) (i + 2) j first)
    (hcomma : tokenAt? row j = some (.glyph .comma))
    (hsecond : Derives (row.take k) implied (.tier .additive) (j + 1) k second)
    (hclose : tokenAt? row k = some (.glyph .closeParen)) :
    Derives (row.take (k + 1)) implied .operand i (k + 1) (.call₂ word first second) := by
  have hle := hfirst.le
  have hle' := hsecond.le
  refine .call₂ ?_ ?_ (hfirst.extend_of_glyph hcomma (by simp) (by omega)) ?_
    (hsecond.extend_of_glyph hclose (by simp) (Nat.le_succ k)) ?_
  · rwa [tokenAt?_take_of_lt (by omega)]
  · exact hopens.of_eq (getElem?_take_of_lt (by omega)).symm
  · rwa [tokenAt?_take_of_lt (by omega)]
  · rwa [tokenAt?_take_of_lt (Nat.lt_succ_self k)]

/-- What is read behind an opened call makes it a call. -/
theorem derives_of_arguments (hsound : Parser.Sound input depth .operand operand)
    (hforward : Parser.Forward input depth 1 operand) {word : String} {i : Nat} {h h' : Head}
    {e : Expr} (htoken : tokenAt? input.row i = some (.identifier word))
    (hopens : Opens input.row (i + 1))
    (hrun : Parser.arguments input operand word h = .ok e h') (hposition : h.position = i + 2)
    (hdepth : h.depth = depth) :
    (∃ phrase, Derives (input.row.take h'.position) input.scope.implied .operand i h'.position
      phrase) ∧ Clear input.row input.scope.implied h'.position := by
  rw [Parser.arguments, Parser.bind_apply] at hrun
  rcases hfirst : Parser.expression input operand h with ⟨first, h₁⟩ | ⟨stop, h₁⟩
  · rw [hfirst] at hrun
    dsimp only at hrun
    obtain ⟨⟨phrase₁, hphrase₁⟩, -⟩ := sound_expression hsound hforward hfirst hdepth
    rw [hposition] at hphrase₁
    rw [Parser.afterFirst_apply] at hrun
    split at hrun
    · rename_i hcomma
      rw [← input.tokenAt?_row] at hcomma
      obtain ⟨phrase₂, k, hphrase₂, hclose, hend⟩ := derives_of_closed hsound hforward hrun
        (((Parser.forward_expression hforward).advanced hdepth hfirst).depth_eq.trans hdepth)
      rw [hend]
      exact ⟨⟨_, derives_call₂_of_take htoken hopens hphrase₁ hcomma hphrase₂ hclose⟩,
        clear_of_token hclose (by simp)⟩
    split at hrun
    · rename_i hclose
      rw [← input.tokenAt?_row] at hclose
      cases hrun
      exact ⟨⟨_, derives_call₁_of_take htoken hopens hphrase₁ hclose⟩,
        clear_of_token hclose (by simp)⟩
    · cases hrun
  · rw [hfirst] at hrun
    cases hrun

/-- A call that does not match blocks its parenthesis. -/
theorem blocked_of_arguments {below : Nat} {word : String} {i : Nat} {h h' : Head}
    (hlimit : depth + below = input.limit)
    (hrun : Parser.arguments input (Parser.operandBy input id below) word h = .error .noMatch h')
    (hposition : h.position = i + 1) (hdepth : h.depth = depth) :
    Blocked input.row input.scope.implied i := by
  intro k phrase hphrase hclose
  rw [input.tokenAt?_row] at hclose
  -- Such an expression would have been read, and closed as the one argument of the call.
  have hread := reads_expression (complete_of_derives hphrase) (.inl rfl) hclose hlimit hposition
    hdepth
  rw [Parser.arguments, Parser.bind_apply] at hrun
  rcases hfirst : Parser.expression input (Parser.operandBy input id below) h with
    ⟨first, h₁⟩ | ⟨stop, h₁⟩ <;> rw [hfirst] at hread hrun
  · cases hread with
    | ok _ _ hposition₁ _ =>
      dsimp only at hrun
      rw [Parser.afterFirst_apply, hposition₁, if_neg (by rw [hclose]; decide), if_pos hclose]
        at hrun
      cases hrun
  · cases hread
    cases hrun

section

variable {below : Nat} {h h' : Head} {e : Expr}

/-- An operand that starts with a name is a call or that name. -/
theorem derives_of_identifier (hlimit : depth + below = input.limit)
    (hsound : Parser.Sound input depth .operand (Parser.operandBy input id below)) {word : String}
    (htoken : input.token? h.position = some (.identifier word))
    (hrun : Parser.alternatives input (Parser.operandBy input id below) h = .ok e h')
    (hdepth : h.depth = depth) :
    (∃ phrase, Derives (input.row.take h'.position) input.scope.implied .operand h.position
      h'.position phrase) ∧ Clear input.row input.scope.implied h'.position := by
  have hrow : tokenAt? input.row h.position = some (.identifier word) := by
    rwa [input.tokenAt?_row]
  have hname : Derives (input.row.take (h.position + 1)) input.scope.implied .operand
      h.position (h.position + 1) (.name word) := by
    refine .name ?_ (not_opens_take (Nat.le_refl _))
    rwa [tokenAt?_take_of_lt (Nat.lt_succ_self _)]
  by_cases hopens : input.opens (h.position + 1)
  · rw [Parser.alternatives_of_opens _ htoken hopens] at hrun
    rw [← input.opens_row_iff] at hopens
    rcases hargs : Parser.arguments input (Parser.operandBy input id below) word
      h.entered.advanced.advanced with ⟨e', h₁⟩ | ⟨- | r, h₁⟩
    · rw [hargs] at hrun
      cases hrun
      exact derives_of_arguments hsound (Parser.forward_operandBy_id (Nat.le_of_eq hlimit.symm))
        hrow hopens hargs rfl hdepth
    · -- The call is given up: its name is read alone, and nothing is read behind it.
      rw [hargs] at hrun
      cases hrun
      exact ⟨⟨_, hname⟩, fun _ _ _ ↦ blocked_of_arguments hlimit hargs rfl hdepth⟩
    · rw [hargs] at hrun
      cases hrun
  · rw [Parser.alternatives_of_name _ htoken hopens] at hrun
    cases hrun
    rw [← input.opens_row_iff] at hopens
    exact ⟨⟨_, hname⟩, fun _ _ hopens' ↦ absurd hopens' hopens⟩

/-- An operand that starts with a parenthesis is an expression in parentheses. -/
theorem derives_of_openParen (hlimit : depth + below = input.limit)
    (hsound : Parser.Sound input depth .operand (Parser.operandBy input id below))
    (htoken : input.token? h.position = some (.glyph .openParen))
    (hrun : Parser.alternatives input (Parser.operandBy input id below) h = .ok e h')
    (hdepth : h.depth = depth) :
    (∃ phrase, Derives (input.row.take h'.position) input.scope.implied .operand h.position
      h'.position phrase) ∧ Clear input.row input.scope.implied h'.position := by
  have hforward := Parser.forward_operandBy_id (Nat.le_of_eq hlimit.symm)
  rw [Parser.alternatives_of_openParen _ htoken] at hrun
  rw [← input.tokenAt?_row] at htoken
  rcases hinner : (Parser.expression input (Parser.operandBy input id below) >>=
    Parser.closed input) (h.entered.noted .identifier).advanced with ⟨e', h₁⟩ | ⟨- | r, h₁⟩
  · rw [hinner] at hrun
    cases hrun
    obtain ⟨phrase, k, hphrase, hclose, hend⟩ :=
      derives_of_closed hsound hforward (f := id) hinner hdepth
    have hle : h.position + 1 ≤ k := hphrase.le
    rw [hend]
    refine ⟨⟨.parens phrase, .parens ?_ (hphrase.extend_of_glyph hclose nofun (Nat.le_succ k)) ?_⟩,
      clear_of_token hclose nofun⟩
    · rwa [tokenAt?_take_of_lt (by omega)]
    · rwa [tokenAt?_take_of_lt (Nat.lt_succ_self k)]
  · rw [hinner] at hrun
    cases hrun
  · rw [hinner] at hrun
    cases hrun

/-- An operand that starts with a sign is a negation. -/
theorem derives_of_minus
    (hsound : Parser.Sound input depth .operand operand)
    (htoken : input.token? h.position = some (.glyph .minus))
    (hrun : Parser.alternatives input operand h = .ok e h') (hdepth : h.depth = depth) :
    (∃ phrase, Derives (input.row.take h'.position) input.scope.implied .operand h.position
      h'.position phrase) ∧ Clear input.row input.scope.implied h'.position := by
  rw [Parser.alternatives_of_minus _ htoken] at hrun
  rw [← input.tokenAt?_row] at htoken
  split at hrun
  · rename_i htouching
    rw [← input.touches_row_iff] at htouching
    rw [Parser.negated, Parser.bind_apply] at hrun
    rcases hoperand : operand (((((h.entered.noted .identifier).noted .openParen).noted
      .identifier).noted .number).advanced) with ⟨e', h₁⟩ | ⟨stop, h₁⟩
    · rw [hoperand] at hrun
      cases hrun
      obtain ⟨⟨phrase, hphrase⟩, hclear⟩ := hsound hoperand hdepth
      have hlt : h.position + 1 + 1 ≤ h'.position := hphrase.add_width_le
      refine ⟨⟨.negative phrase, .negative ?_ ?_ hphrase⟩, hclear⟩
      · rwa [tokenAt?_take_of_lt (by omega)]
      · rwa [Touches, getElem?_take_of_lt (by omega)]
    · rw [hoperand] at hrun
      cases hrun
  · cases hrun

end

theorem sound_alternatives {below : Nat} (hlimit : depth + below = input.limit)
    (hsound : Parser.Sound input depth .operand (Parser.operandBy input id below)) :
    Parser.Sound input depth .operand
      (Parser.alternatives input (Parser.operandBy input id below)) := by
  intro h h' e hrun hdepth
  by_cases hstarts : ∃ token, input.token? h.position = some token ∧ token.startsOperand = true
  · obtain ⟨token, htoken, hstarts⟩ := hstarts
    match token, hstarts with
    | .number value, _ =>
      rw [Parser.alternatives_of_number _ htoken] at hrun
      rw [← input.tokenAt?_row] at htoken
      cases hrun
      have htoken' := (tokenAt?_take_of_lt (Nat.lt_succ_self h.position)).trans htoken
      exact ⟨⟨.number value, .number htoken'⟩, clear_of_token htoken nofun⟩
    | .identifier word, _ => exact derives_of_identifier hlimit hsound htoken hrun hdepth
    | .glyph .openParen, _ => exact derives_of_openParen hlimit hsound htoken hrun hdepth
    | .glyph .minus, _ => exact derives_of_minus hsound htoken hrun hdepth
  · rw [Parser.alternatives_of_other] at hrun
    · cases hrun
    · intro token htoken
      by_contra hne
      exact hstarts ⟨token, htoken, Bool.of_not_eq_false hne⟩

/-- **The plain parser is sound.** -/
theorem sound_operandBy {levels : Nat} (hlimit : depth + levels = input.limit) :
    Parser.Sound input depth .operand (Parser.operandBy input id levels) := by
  induction levels generalizing depth with
  | zero =>
    intro h h' e hrun hdepth
    rw [Parser.operandBy_zero_apply, id, Parser.oneDeeper_apply, if_neg (by omega)] at hrun
    cases hrun
  | succ levels ih =>
    intro h h' e hrun hdepth
    have hbelow : depth + 1 + levels = input.limit := by omega
    have hdepth' : (h.atDepth (h.depth + 1)).depth = depth + 1 := congrArg (· + 1) hdepth
    rw [Parser.operandBy_succ_apply, id, Parser.oneDeeper_apply, if_pos (by omega)] at hrun
    rcases halternatives : Parser.alternatives input (Parser.operandBy input id levels)
      (h.atDepth (h.depth + 1)) with ⟨e', h₁⟩ | ⟨stop, h₁⟩
    · rw [halternatives] at hrun
      cases hrun
      have hsound := sound_alternatives hbelow (ih hbelow) halternatives hdepth'
      exact hsound
    · rw [halternatives] at hrun
      cases hrun

end Formulae
