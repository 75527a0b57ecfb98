import Formulae.Proofs.Expectation.Readiness

/-!
# Honest records

The plain parser expects nothing in vain that could not have followed. Its record is **honest**
when the row is viable up to the place of the record and every label there is truthful. Every parser
keeps the record honest from a ready place on (`Parser.Honest`), whether it matches or not, and so
no attempt that was given up has noted too much.

A parser that matches has to hand on one thing more. Where a name was read, a parenthesis may call
it, and the next parser has to be told what can then follow (`Callable`). This is what makes the
labels true that are noted when the parenthesis behind a failed call is tried as an operand.
-/

namespace Formulae

/-! ### Records -/

/-- What the head has recorded can follow there. -/
def Head.Honest (input : Input) (h : Head) : Prop :=
  ∀ e, h.furthest = some e → Viable input.scope.implied (input.row.take e.position) ∧
    ∀ label ∈ e.labels, Truthful input.scope.implied (input.row.take e.position) label

/-- A parser has kept the record honest and, if it matched, left a place where calls can go on. -/
def Parser.Result.Honest (input : Input) {α : Type} : Parser.Result α → Prop
  | .ok _ h => h.Honest input ∧ Callable input.row input.scope.implied h.position
  | .error .noMatch h => h.Honest input
  | .error (.rejected _) _ => True

/-- From every ready place on the level, the parser keeps the record honest. -/
def Parser.Honest (input : Input) (depth : Nat) (n : Nonterminal) (p : Parser Expr) : Prop :=
  ∀ ⦃admits : Piece → Prop⦄ ⦃h : Head⦄, Ready input.row input.scope.implied n admits h.position →
    h.depth = depth → h.Honest input → Result.Honest input (p h)

/-- A record after one more label is the same as before or lists only the new label and labels
of its own position. -/
theorem Expectation.add_cases {furthest : Option Expectation} {i : Nat} {label : Label}
    {e : Expectation} (he : add furthest i label = some e) :
    furthest = some e ∨ e.position = i ∧ ∀ label' ∈ e.labels, label' = label ∨
      ∃ e', furthest = some e' ∧ e'.position = i ∧ label' ∈ e'.labels := by
  rcases furthest with - | e'
  · cases he
    exact .inr ⟨rfl, fun label' hmem ↦ .inl (List.mem_singleton.1 hmem)⟩
  · rw [add] at he
    split at he
    · exact .inl he
    split at he
    · cases he
      exact .inr ⟨rfl, fun label' hmem ↦ .inl (List.mem_singleton.1 hmem)⟩
    split at he
    · exact .inl he
    · cases he
      refine .inr ⟨rfl, fun label' hmem ↦ (List.mem_append.1 hmem).symm.imp List.mem_singleton.1 ?_⟩
      exact fun hmem ↦ ⟨e', rfl, by omega, hmem⟩

section

variable {input : Input} {depth : Nat} {tier : Tier} {operand : Parser Expr} {h h₁ : Head}

/-- A truthful label keeps a record honest. -/
theorem Head.Honest.noted {label : Label} (hhonest : h.Honest input)
    (hlabel : Truthful input.scope.implied (input.row.take h.position) label) :
    (h.noted label).Honest input := by
  intro e he
  rcases Expectation.add_cases he with he | ⟨hposition, hlabels⟩
  · exact hhonest e he
  · rw [hposition]
    refine ⟨hlabel.viable, fun label' hmem ↦ ?_⟩
    rcases hlabels label' hmem with rfl | ⟨e', he', hposition', hmem'⟩
    · exact hlabel
    · rw [← hposition']
      exact (hhonest e' he').2 label' hmem'

theorem callable_of_token {token : Token} {row : List Piece} {implied : Bool} {i : Nat}
    (htoken : tokenAt? row i = some token) (hname : ∀ name, token ≠ .identifier name) :
    Callable row implied (i + 1) := by
  intro row' name phrase hshares hname' _ _
  rw [Nat.add_sub_cancel, hshares.tokenAt? (Nat.lt_succ_self i), htoken] at hname'
  cases hname'
  exact absurd rfl (hname name)

/-! ### Chains -/

/-- What the loop of a chain needs to know about the place where it stands. -/
structure Head.Linkable (input : Input) (tier : Tier) (h : Head) : Prop where
  le_length : h.position ≤ input.row.length
  clear : Clear input.row input.scope.implied h.position
  callable : Callable input.row input.scope.implied h.position
  continues : Continues input.row input.scope.implied tier h.position
  honest : h.Honest input

/-- A link keeps the record as its operand does. -/
theorem honest_link_of_operand {chain : Chain} {op : Operator}
    (hcontinuation : Parser.continuation input chain h = .ok op h₁)
    (hhonest : Parser.Result.Honest input (operand h₁)) :
    Parser.Result.Honest input (Parser.link input chain operand h) := by
  rw [Parser.link_apply, hcontinuation]
  dsimp only
  rcases hrun : operand h₁ with ⟨rhs, h₂⟩ | ⟨- | r, h₂⟩ <;> rw [hrun] at hhonest
  · exact hhonest
  · exact hhonest
  · trivial

theorem honest_link (hoperand : Parser.Honest input depth tier.inner operand)
    (hlinkable : h.Linkable input tier) (hdepth : h.depth = depth) :
    Parser.Result.Honest input (Parser.link input (tier.chain input.scope) operand h) := by
  have hnoted := hlinkable.honest.noted (hlinkable.continues.truthful_operator hlinkable.le_length)
  rcases Parser.continuation_cases input tier h with
    ⟨token, op, htoken, hop, hresult⟩ | ⟨-, ⟨op, rfl, himplied, hminus, hresult⟩ | hresult⟩
  · rw [← input.tokenAt?_row] at htoken
    have hready := hlinkable.continues.ready_of_written htoken hop
    exact honest_link_of_operand hresult (hoperand hready hdepth hlinkable.honest)
  · rw [← input.tokenAt?_row] at hminus
    have hready : Ready input.row input.scope.implied Tier.multiplicative.inner
        (·.token ≠ .glyph .minus) h.position := by
      obtain ⟨hle, hclear, hcallable, hcontinues, -⟩ := hlinkable
      rw [himplied] at hclear hcallable hcontinues ⊢
      exact hcontinues.ready_of_implied hle hclear hcallable hminus
    exact honest_link_of_operand hresult (hoperand hready hdepth hnoted)
  · rw [Parser.link_apply, hresult]
    exact hnoted

/-- Every link leaves a place for another one. -/
theorem Head.Linkable.link {op : Operator} {e : Expr} (hlinkable : h.Linkable input tier)
    (hoperand : Parser.Honest input depth tier.inner operand)
    (hsound : Parser.Sound input depth tier.inner operand)
    (hforward : Parser.Forward input depth 1 operand) (hdepth : h.depth = depth)
    (hrun : Parser.link input (tier.chain input.scope) operand h = .ok (op, e) h₁) :
    h₁.Linkable input tier := by
  have hhonest := honest_link hoperand hlinkable hdepth
  rw [hrun] at hhonest
  have hadv := (Parser.forward_link (tier.chain input.scope) hforward).advanced hdepth hrun
  obtain ⟨h₀, hcontinuation, hrun⟩ := exists_of_link hrun
  have hdepth₀ := ((Parser.forward_continuation (tier.chain input.scope)).advanced hdepth
    hcontinuation).depth_eq.trans hdepth
  obtain ⟨joint, hjoins⟩ := joins_of_continuation hcontinuation
  obtain ⟨⟨rhs, hrhs⟩, hclear⟩ := hsound hrun hdepth₀
  refine ⟨?_, hclear, hhonest.2, hlinkable.continues.link hlinkable.clear hjoins hrhs, hhonest.1⟩
  have hle := hadv.position_le
  have hle' := hlinkable.le_length
  rw [← input.length_row] at hle
  omega

/-- However many links the loop reads, its record stays honest. -/
theorem honest_links (hoperand : Parser.Honest input depth tier.inner operand)
    (hsound : Parser.Sound input depth tier.inner operand)
    (hforward : Parser.Forward input depth 1 operand) {trials : Nat}
    {found : List (Operator × Expr)} (hlinkable : h.Linkable input tier)
    (hdepth : h.depth = depth) :
    Parser.Result.Honest input
      (Parser.links input (tier.chain input.scope) operand trials found h) := by
  -- The invariant of the loop is `Linkable`; a link that misses gives the place back.
  induction trials generalizing found h with
  | zero => exact ⟨hlinkable.honest, hlinkable.callable⟩
  | succ trials ih =>
    have hhonest := honest_link hoperand hlinkable hdepth
    rw [Parser.links_succ_apply]
    rcases hrun : Parser.link input (tier.chain input.scope) operand h with
      ⟨⟨op, e⟩, h₁⟩ | ⟨- | r, h₁⟩
    · have hlinkable₁ := hlinkable.link hoperand hsound hforward hdepth hrun
      have hadv := (Parser.forward_link (tier.chain input.scope) hforward).advanced hdepth hrun
      have hlogged : (h₁.logged [.link tier op e]).Linkable input tier :=
        ⟨hlinkable₁.1, hlinkable₁.2, hlinkable₁.3, hlinkable₁.4, hlinkable₁.5⟩
      exact ih hlogged (hadv.depth_eq.trans hdepth)
    · rw [hrun] at hhonest
      exact ⟨hhonest, hlinkable.callable⟩
    · trivial

theorem honest_chained (tier : Tier) (hoperand : Parser.Honest input depth tier.inner operand)
    (hsound : Parser.Sound input depth tier.inner operand)
    (hforward : Parser.Forward input depth 1 operand) :
    Parser.Honest input depth (.tier tier)
      (Parser.chained input (tier.chain input.scope) operand) := by
  intro admits h hready hdepth hhonest
  have hfirst := hoperand hready.inner hdepth hhonest
  rw [Parser.chained_eq, Parser.bind_apply]
  rcases hrun : operand h with ⟨first, h₁⟩ | ⟨- | r, h₁⟩ <;> rw [hrun] at hfirst
  · have hadv := hforward.advanced hdepth hrun
    have hle := hadv.position_le
    have hle' := hready.le_length
    rw [← input.length_row] at hle
    obtain ⟨⟨phrase, hphrase⟩, hclear⟩ := hsound hrun hdepth
    have hlinkable : (h₁.logged [.firstOperand tier first]).Linkable input tier :=
      ⟨by rw [Head.logged_position]; omega, hclear, hfirst.2, hready.continues hphrase, hfirst.1⟩
    dsimp only
    rw [Parser.linked_apply]
    rcases hlinks : Parser.links input (tier.chain input.scope) operand
      (input.lexemes.size - h₁.position + 1) [] (h₁.logged [.firstOperand _ first]) with
      ⟨more, h₂⟩ | ⟨- | r, h₂⟩
    all_goals
      have hhonest₂ := hlinks ▸ honest_links hoperand hsound hforward hlinkable
        (hadv.depth_eq.trans hdepth)
    · exact hhonest₂
    · exact hhonest₂
    · trivial
  · exact hfirst
  · trivial

section

variable (hoperand : Parser.Honest input depth .operand operand)
  (hsound : Parser.Sound input depth .operand operand)
  (hforward : Parser.Forward input depth 1 operand)

include hoperand hsound hforward

theorem honest_expression :
    Parser.Honest input depth (.tier .additive) (Parser.expression input operand) := by
  have hsound₁ := sound_chained .exponent hsound hforward
  have hforward₁ := Parser.forward_chained (Tier.exponent.chain input.scope) hforward
  have hhonest₁ := honest_chained .exponent hoperand hsound hforward
  exact honest_chained .additive (honest_chained .multiplicative hhonest₁ hsound₁ hforward₁)
    (sound_chained .multiplicative hsound₁ hforward₁) (Parser.forward_chained _ hforward₁)

/-! ### Operands -/

/-- An expression that is to be closed, behind the piece that opens it. -/
theorem honest_closed {f : Expr → Expr} {i : Nat} {glyph : Glyph}
    (hcloses : Closes input.row input.scope.implied i)
    (htoken : tokenAt? input.row i = some (.glyph glyph)) (hposition : h.position = i + 1)
    (hdepth : h.depth = depth) (hhonest : h.Honest input) :
    Parser.Result.Honest input
      ((Parser.expression input operand >>= fun e ↦ Parser.closed input (f e)) h) := by
  have hready := hcloses.ready htoken
  rw [← hposition] at hready
  have hinner := honest_expression hoperand hsound hforward hready hdepth hhonest
  rw [Parser.bind_apply]
  rcases hrun : Parser.expression input operand h with ⟨e, h₁⟩ | ⟨- | r, h₁⟩ <;> rw [hrun] at hinner
  · dsimp only
    rw [Parser.closed_apply]
    split
    · rename_i hclose
      rw [← input.tokenAt?_row] at hclose
      exact ⟨hinner.1, callable_of_token hclose nofun⟩
    · obtain ⟨⟨phrase, hphrase⟩, -⟩ := sound_expression hsound hforward hrun hdepth
      rw [hposition] at hphrase
      have hle := ((Parser.forward_expression hforward).advanced hdepth hrun).position_le
      have hle' := hready.le_length
      rw [← input.length_row] at hle
      exact hinner.1.noted (hcloses.truthful_closeParen hphrase (by omega))
  · exact hinner
  · trivial

variable {admits : Piece → Prop}

/-- The arguments of a call, behind its opening parenthesis. -/
theorem honest_arguments {i : Nat} {word : String}
    (hready : Ready input.row input.scope.implied .operand admits i)
    (hname : tokenAt? input.row i = some (.identifier word)) (hopens : Opens input.row (i + 1))
    (hposition : h.position = i + 2) (hdepth : h.depth = depth) (hhonest : h.Honest input) :
    Parser.Result.Honest input (Parser.arguments input operand word h) := by
  have hcloses := (hready.callable_succ hname).closes hname hopens
  have hready₁ := hcloses.ready (tokenAt?_of_opens hopens)
  have hfirst := honest_expression hoperand hsound hforward (hposition ▸ hready₁) hdepth hhonest
  rw [Parser.arguments, Parser.bind_apply]
  rcases hrun : Parser.expression input operand h with ⟨e, h₁⟩ | ⟨- | r, h₁⟩ <;> rw [hrun] at hfirst
  · have hadv := (Parser.forward_expression hforward).advanced hdepth hrun
    have hle := hadv.position_le
    have hle' := hready₁.le_length
    rw [← input.length_row] at hle
    obtain ⟨⟨phrase, hphrase⟩, -⟩ := sound_expression hsound hforward hrun hdepth
    rw [hposition] at hphrase
    dsimp only
    rw [Parser.afterFirst_apply]
    split
    · rename_i hcomma
      rw [← input.tokenAt?_row] at hcomma
      exact honest_closed hoperand hsound hforward
        (hready.closes_second hname hopens hphrase hcomma) hcomma rfl
        (hadv.depth_eq.trans hdepth) hfirst.1
    split
    · rename_i hclose
      rw [← input.tokenAt?_row] at hclose
      exact ⟨hfirst.1, callable_of_token hclose (by simp)⟩
    · -- The call could go on in either way.
      have hcomma := hready.truthful_comma hname hopens hphrase (by omega)
      have hclose := hcloses.truthful_closeParen hphrase (by omega)
      exact (hfirst.1.noted hcomma).noted hclose
  · exact hfirst
  · trivial

variable (hready : Ready input.row input.scope.implied .operand admits h.position)
  (hdepth : h.depth = depth) (hhonest : h.Honest input)

include hready hdepth hhonest

/-- A name is an operand, called or not. -/
theorem honest_identifier {word : String}
    (htoken : input.token? h.position = some (.identifier word)) :
    Parser.Result.Honest input (Parser.alternatives input operand h) := by
  have hname := htoken
  rw [← input.tokenAt?_row] at hname
  have hcallable := hready.callable_succ hname
  have hopenParen := hready.truthful_openParen
  by_cases hopens : input.opens (h.position + 1)
  · rw [Parser.alternatives_of_opens _ htoken hopens]
    rw [← input.opens_row_iff] at hopens
    have harguments := honest_arguments hoperand hsound hforward (h := h.entered.advanced.advanced)
      hready hname hopens rfl hdepth hhonest
    rcases hrun : Parser.arguments input operand word h.entered.advanced.advanced with
      ⟨e, h₁⟩ | ⟨- | r, h₁⟩ <;> rw [hrun] at harguments
    · exact harguments
    · -- The call is given up and read as its name alone, but its parenthesis still opens a call.
      have hback : (h₁.backTo h.position).Honest input := harguments
      exact ⟨hback.noted hopenParen, hcallable⟩
    · trivial
  · rw [Parser.alternatives_of_name _ htoken hopens]
    have hlt := lt_length_of_tokenAt? hname
    have hcalled : (h.entered.advanced.noted .openParen).Honest input :=
      Head.Honest.noted (h := h.entered.advanced) hhonest (hcallable.truthful_openParen hlt
        ((tokenAt?_take_of_lt (Nat.lt_succ_self _)).trans hname))
    have hback : ((h.entered.advanced.noted .openParen).backTo h.position).Honest input := hcalled
    exact ⟨hback.noted hopenParen, hcallable⟩

/-- An operand starts with a parenthesis, unless that opens a call. -/
theorem honest_openParen (htoken : input.token? h.position = some (.glyph .openParen)) :
    Parser.Result.Honest input (Parser.alternatives input operand h) := by
  rw [Parser.alternatives_of_openParen _ htoken]
  rw [← input.tokenAt?_row] at htoken
  have hidentifier : (h.entered.noted .identifier).Honest input :=
    Head.Honest.noted (h := h.entered) hhonest hready.truthful_identifier
  have hinner := honest_closed hoperand hsound hforward (f := id)
    (h := (h.entered.noted .identifier).advanced) (hready.closes_of_openParen htoken) htoken rfl
    hdepth hidentifier
  have heq : (Parser.expression input operand >>= fun e ↦ Parser.closed input (id e)) =
    Parser.expression input operand >>= Parser.closed input := rfl
  rw [heq] at hinner
  rcases hrun : (Parser.expression input operand >>= Parser.closed input)
    (h.entered.noted .identifier).advanced with ⟨e, h₁⟩ | ⟨- | r, h₁⟩ <;> rw [hrun] at hinner
  · exact hinner
  · have hback : (h₁.backTo h.position).Honest input := hinner
    exact ((hback.noted hready.truthful_identifier).noted hready.truthful_number).noted
      hready.minus
  · trivial

omit hoperand hsound hforward hdepth in
/-- What is noted before a sign is looked for. -/
theorem Head.Honest.noted_number :
    ((((h.entered.noted .identifier).noted .openParen).noted .identifier).noted .number).Honest
      input :=
  have hentered : h.entered.Honest input := hhonest
  (((hentered.noted hready.truthful_identifier).noted hready.truthful_openParen).noted
    hready.truthful_identifier).noted hready.truthful_number

omit hsound hforward in
/-- A sign is an operand with the one that touches it. -/
theorem honest_minus (htoken : input.token? h.position = some (.glyph .minus)) :
    Parser.Result.Honest input (Parser.alternatives input operand h) := by
  have hnoted := Head.Honest.noted_number hready hhonest
  rw [Parser.alternatives_of_minus _ htoken]
  rw [← input.tokenAt?_row] at htoken
  split
  · rename_i htouching
    rw [← input.touches_row_iff] at htouching
    have hinner := hoperand (h := ((((h.entered.noted .identifier).noted .openParen).noted
      .identifier).noted .number).advanced) (hready.negated htoken htouching) hdepth hnoted
    rw [Parser.negated, Parser.bind_apply]
    rcases hrun : operand ((((h.entered.noted .identifier).noted .openParen).noted
      .identifier).noted .number).advanced with ⟨e, h₁⟩ | ⟨- | r, h₁⟩ <;> rw [hrun] at hinner
    · exact hinner
    · exact hinner
    · trivial
  · exact Head.Honest.noted (h := Head.advanced _) hnoted (hready.truthful_touchingOperand htoken)

omit hoperand hsound hforward hdepth in
/-- Nothing else is an operand. -/
theorem honest_other (htoken : ∀ token, input.token? h.position = some token →
      token.startsOperand = false) :
    Parser.Result.Honest input (Parser.alternatives input operand h) := by
  rw [Parser.alternatives_of_other _ htoken]
  exact (Head.Honest.noted_number hready hhonest).noted hready.minus

end

theorem honest_alternatives (hoperand : Parser.Honest input depth .operand operand)
    (hsound : Parser.Sound input depth .operand operand)
    (hforward : Parser.Forward input depth 1 operand) :
    Parser.Honest input depth .operand (Parser.alternatives input operand) := by
  intro admits h hready hdepth hhonest
  by_cases hstarts : ∃ token, input.token? h.position = some token ∧ token.startsOperand = true
  · obtain ⟨token, htoken, hstarts⟩ := hstarts
    match token, hstarts with
    | .number value, _ =>
      rw [Parser.alternatives_of_number _ htoken]
      rw [← input.tokenAt?_row] at htoken
      have hentered : h.entered.Honest input := hhonest
      exact ⟨((hentered.noted hready.truthful_identifier).noted hready.truthful_openParen).noted
        hready.truthful_identifier, callable_of_token htoken nofun⟩
    | .identifier word, _ =>
      exact honest_identifier hoperand hsound hforward hready hdepth hhonest htoken
    | .glyph .openParen, _ =>
      exact honest_openParen hoperand hsound hforward hready hdepth hhonest htoken
    | .glyph .minus, _ => exact honest_minus hoperand hready hdepth hhonest htoken
  · refine honest_other hready hhonest fun token htoken ↦ ?_
    by_contra hne
    exact hstarts ⟨token, htoken, Bool.of_not_eq_false hne⟩

/-- **The plain parser is honest.** -/
theorem honest_operandBy {levels : Nat} (hlimit : depth + levels = input.limit) :
    Parser.Honest input depth .operand (Parser.operandBy input id levels) := by
  induction levels generalizing depth with
  | zero =>
    intro admits h hready hdepth hhonest
    rw [Parser.operandBy_zero_apply, id, Parser.oneDeeper_apply, if_neg (by omega)]
    trivial
  | succ levels ih =>
    intro admits h hready hdepth hhonest
    have hbelow : depth + 1 + levels = input.limit := by omega
    have hinner := honest_alternatives (ih hbelow) (sound_operandBy hbelow)
      (Parser.forward_operandBy_id (Nat.le_of_eq hbelow.symm)) (h := h.atDepth (h.depth + 1))
      hready (congrArg (· + 1) hdepth) hhonest
    rw [Parser.operandBy_succ_apply, id, Parser.oneDeeper_apply, if_pos (by omega)]
    rcases hrun : Parser.alternatives input (Parser.operandBy input id levels)
      (h.atDepth (h.depth + 1)) with ⟨e, h₁⟩ | ⟨- | r, h₁⟩ <;> rw [hrun] at hinner
    · exact hinner
    · exact hinner
    · trivial

end

end Formulae
