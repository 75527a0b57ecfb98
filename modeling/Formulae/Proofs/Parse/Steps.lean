import Formulae.Formula
import Mathlib.Tactic.Simps.Basic

/-!
# What parsers do to the head

Every parser is a composition in a state monad, and every law about parsers is about heads. This
module turns the one into the other: for each parser there is an equation that gives its result as
a case distinction on the token at the head, with no monadic code left on the right.

The heads in these equations are written with four moves: a token is consumed (`Head.advanced`),
a position is taken back (`Head.backTo`), a label is noted (`Head.noted`), and the log grows
(`Head.logged`, `Head.entered`). Only `noted` touches what is expected, and only the first two touch
the position.

Where a parser goes on behind another one, the rest is named here and has an equation of its own:
`linked` behind the first operand of a chain, `arguments`, `afterFirst` and `closed` behind the
parts of a call, `negated` behind a sign, `ended` behind a whole expression.
-/

namespace Formulae

namespace Head

variable (h : Head)

/-- The head after one more token. -/
@[simps position depth furthest operands]
def advanced : Head :=
  { h with position := h.position + 1 }

/-- The head at another position. -/
@[simps position depth furthest operands]
def backTo (position : Nat) : Head :=
  { h with position := position }

/-- The head after a note of what was expected at its position. -/
@[simps position depth furthest operands]
def noted (label : Label) : Head :=
  { h with furthest := Expectation.add h.furthest h.position label }

/-- The head after some events. -/
@[simps position depth furthest operands]
def logged (events : List Event) : Head :=
  { h with log := events.reverse ++ h.log }

/-- The head after the body of an operand was begun. -/
@[simps position depth furthest operands]
def entered : Head :=
  { h with begun := h.site :: h.begun }

/-- The head at another depth. -/
@[simps position depth furthest operands]
def atDepth (depth : Nat) : Head :=
  { h with depth := depth }

end Head

namespace Input

variable {input : Input} {i : Nat}

/-- There is a token at every position in front of the end, and none from there on. -/
theorem token?_eq_none_iff : input.token? i = none ↔ input.lexemes.size ≤ i := by
  rw [token?, Option.map_eq_none_iff, Array.getElem?_eq_none_iff]

theorem lt_size_of_token? {token : Token} (h : input.token? i = some token) :
    i < input.lexemes.size := by
  refine Nat.lt_of_not_le fun hle ↦ ?_
  rw [token?_eq_none_iff.2 hle] at h
  cases h

end Input

/-- A parenthesis that opens a call stands at a position: it touches what is before it. -/
def Input.opens (input : Input) (position : Nat) : Prop :=
  input.touching position ∧ input.token? position = some (.glyph .openParen)

instance (input : Input) (position : Nat) : Decidable (input.opens position) :=
  inferInstanceAs (Decidable (_ ∧ _))

namespace Parser

variable {α β : Type} (input : Input) (chain : Chain) (operand : Parser Expr) (h : Head)

/-! ### Primitive parsers -/

/-- The second parser starts where the first one stops. It is not run if the first one fails. -/
theorem bind_apply (p : Parser α) (q : α → Parser β) :
    (p >>= q) h =
      match p h with
      | .ok a h' => q a h'
      | .error stop h' => .error stop h' := by
  show EStateM.bind p q h = _
  rw [EStateM.bind]
  rcases p h with _ | _ <;> rfl

theorem pure_apply (a : α) : (pure a : Parser α) h = .ok a h := rfl

theorem get_apply : (get : Parser Head) h = .ok h h := rfl

theorem note_apply (label : Label) : note label h = .ok () (h.noted label) := rfl

theorem miss_apply (label : Label) : (miss label : Parser α) h = .error .noMatch (h.noted label) :=
  rfl

theorem emit_apply (events : List Event) : emit events h = .ok () (h.logged events) := rfl

theorem next?_apply : next? input h = .ok (input.token? h.position) h := rfl

theorem touching_apply : touching input h = .ok (input.touching h.position) h := rfl

theorem atEnd_apply : atEnd input h = .ok (decide (input.lexemes.size ≤ h.position)) h := rfl

/-- The head moves on if there is a token, and stays at the end if there is none. -/
theorem take?_apply :
    take? input h =
      .ok (input.token? h.position)
        (if (input.token? h.position).isSome then h.advanced else h) := by
  simp only [take?, bind_apply, next?_apply]
  split <;> rfl

/-- A token that was not asked for is left where it is, and the one that was asked for is noted. -/
theorem exactly_apply (token : Token) (label : Label) :
    exactly input token label h =
      if input.token? h.position = some token then .ok () h.advanced
      else .error .noMatch (h.noted label) := by
  simp only [exactly, bind_apply, next?_apply]
  split <;> rfl

/-- The second parser starts at the position of the first one, with whatever was noted on the way.
It gets no chance if the text is rejected. -/
theorem either_apply (p q : Parser α) :
    either p q h =
      match p h with
      | .ok a h' => .ok a h'
      | .error .noMatch h' => q (h'.backTo h.position)
      | .error (.rejected r) h' => .error (.rejected r) h' := by
  simp only [either, bind_apply, optionally]
  rcases p h with ⟨a, h'⟩ | ⟨_ | r, h'⟩ <;> rfl

/-- Below the limit the result comes back from the level below. At the limit the text is rejected,
whatever the parser would do. -/
theorem oneDeeper_apply (p : Parser α) :
    oneDeeper input p h =
      if h.depth < input.limit then
        surfaced (p (h.atDepth (h.depth + 1)))
      else .error (.rejected (.tooDeep input.limit (input.column h.position))) h := by
  by_cases hd : h.depth < input.limit
  · simp only [oneDeeper, descend, if_pos hd]
    rfl
  · simp only [oneDeeper, descend, if_neg hd]

/-! ### The heads that combinators leave -/

/-- An answer from the store does nothing but move the head. -/
theorem head_of_replay? {result : Result Expr} (hreplay : replay? h = some result) :
    ∃ i, result.head = h.backTo i := by
  rw [replay?] at hreplay
  rcases hfound : h.operands[h.site]? with - | - | ⟨e, stop⟩ <;> rw [hfound] at hreplay <;>
    cases hreplay
  · exact ⟨h.position, rfl⟩
  · exact ⟨stop, rfl⟩

/-- All that is undone by rewinding is the position. -/
theorem head_rewound (result : Result α) :
    ∃ i, (rewound h result).head = result.head.backTo i := by
  rcases result with ⟨a, h'⟩ | ⟨- | r, h'⟩
  · exact ⟨h'.position, rfl⟩
  · exact ⟨h.position, rfl⟩
  · exact ⟨h'.position, rfl⟩

/-- All that changes on the way up is the depth. -/
theorem head_surfaced (result : Result α) :
    (surfaced result).head = result.head.atDepth (result.head.depth - 1) := by
  cases result <;> rfl

/-- An outcome is stored without a change of level. -/
theorem depth_remembered (result : Result Expr) :
    (remembered h result).head.depth = result.head.depth := by
  rcases result with ⟨e, h'⟩ | ⟨- | r, h'⟩ <;> rfl

/-! ### Chains -/

/-- An operator of the chain is consumed. If there is none, that is noted even where one is implied,
and none is implied at the end or in front of a `-`. -/
theorem continuation_apply :
    continuation input chain h =
      match (input.token? h.position).bind chain.operator? with
      | some op => .ok op h.advanced
      | none =>
        match chain.implied with
        | some op =>
          if input.token? h.position = none ∨ input.token? h.position = some (.glyph .minus) then
            .error .noMatch (h.noted .operator)
          else .ok op (h.noted .operator)
        | none => .error .noMatch (h.noted .operator) := by
  rw [continuation, bind_apply, next?_apply]
  rcases htoken : input.token? h.position with _ | token
  · rcases chain.implied with _ | op <;> rfl
  · rcases hop : chain.operator? token with _ | op
    · rcases chain.implied with _ | op
      · simp only [Option.bind_some, hop, bind_apply, note_apply]
        rfl
      · simp only [Option.bind_some, hop, bind_apply, note_apply]
        split <;> rfl
    · simp [hop, bind_apply, take?_apply, htoken, pure_apply]

/-- A link is an operator and its operand, and fails with either. -/
theorem link_apply :
    link input chain operand h =
      match continuation input chain h with
      | .ok op h' =>
        match operand h' with
        | .ok rhs h'' => .ok (op, rhs) h''
        | .error stop h'' => .error stop h''
      | .error stop h' => .error stop h' := by
  rw [link, bind_apply]
  rcases continuation input chain h with ⟨op, h'⟩ | ⟨stop, h'⟩
  · simp only [bind_apply]
    rcases operand h' with _ | _ <;> rfl
  · rfl

/-- A link that fails is the end of the chain, and the head goes back to where it was tried. -/
theorem links_succ_apply (trials : Nat) (found : List (Operator × Expr)) :
    links input chain operand (trials + 1) found h =
      match link input chain operand h with
      | .ok (op, rhs) h' =>
        links input chain operand trials ((op, rhs) :: found) (h'.logged [.link chain.tier op rhs])
      | .error .noMatch h' => .ok found.reverse (h'.backTo h.position)
      | .error (.rejected r) h' => .error (.rejected r) h' := by
  rw [links, bind_apply, optionally]
  rcases link input chain operand h with ⟨⟨op, rhs⟩, h'⟩ | ⟨_ | r, h'⟩ <;> rfl

/-- A chain behind its first operand. -/
def linked (first : Expr) : Parser Expr := do
  emit [.firstOperand chain.tier first]
  let left := input.lexemes.size - (← get).position
  let rest ← links input chain operand (left + 1) []
  let result := chain.associativity.fold first rest
  emit [.folded chain.tier result]
  return result

theorem chained_eq : chained input chain operand = operand >>= linked input chain operand := rfl

/-- There is one trial more than there are tokens left, so the chain ends before its trials do. -/
theorem linked_apply (first : Expr) :
    linked input chain operand first h =
      match links input chain operand (input.lexemes.size - h.position + 1) []
          (h.logged [.firstOperand chain.tier first]) with
      | .ok rest h' =>
        .ok (chain.associativity.fold first rest)
          (h'.logged [.folded chain.tier (chain.associativity.fold first rest)])
      | .error stop h' => .error stop h' := by
  simp only [linked, bind_apply, emit_apply, get_apply, Head.logged_position]
  rcases links input chain operand _ _ _ with _ | _ <;> rfl

/-! ### Operands -/

theorem identifier_apply :
    identifier input h =
      match input.token? h.position with
      | some (.identifier name) => .ok name h.advanced
      | _ => .error .noMatch (h.noted .identifier) := by
  rw [identifier, bind_apply, next?_apply]
  rcases htoken : input.token? h.position with _ | (_ | name | _)
  case some.identifier => simp [bind_apply, take?_apply, htoken, pure_apply]
  all_goals rfl

/-- A closing parenthesis after a tree. -/
def closed (e : Expr) : Parser Expr := do
  exactly input (.glyph .closeParen) .closeParen
  return e

/-- A call behind its first argument. -/
def afterFirst (name : String) (first : Expr) : Parser Expr := do
  match ← next? input with
  | some (.glyph .comma) =>
    let _ ← take? input
    let second ← expression input operand
    closed input (input.scope.exprOfCall₂ name first second)
  | some (.glyph .closeParen) =>
    let _ ← take? input
    emit (input.scope.callEvents name)
    return input.scope.exprOfCall₁ name first
  | _ =>
    note .comma
    miss .closeParen

/-- A call behind its opening parenthesis. -/
def arguments (name : String) : Parser Expr := do
  afterFirst input operand name (← expression input operand)

theorem closed_apply (e : Expr) :
    closed input e h =
      if input.token? h.position = some (.glyph .closeParen) then .ok e h.advanced
      else .error .noMatch (h.noted .closeParen) := by
  rw [closed, bind_apply, exactly_apply]
  by_cases hc : input.token? h.position = some (.glyph .closeParen)
  · simp only [if_pos hc, pure_apply]
  · simp only [if_neg hc]

/-- A first argument is followed by a comma or by the end of the call. Where neither follows, both
were expected. -/
theorem afterFirst_apply (name : String) (first : Expr) :
    afterFirst input operand name first h =
      if input.token? h.position = some (.glyph .comma) then
        (expression input operand >>= fun second ↦
          closed input (input.scope.exprOfCall₂ name first second)) h.advanced
      else if input.token? h.position = some (.glyph .closeParen) then
        .ok (input.scope.exprOfCall₁ name first)
          (h.advanced.logged (input.scope.callEvents name))
      else .error .noMatch ((h.noted .comma).noted .closeParen) := by
  rw [afterFirst, bind_apply, next?_apply]
  rcases htoken : input.token? h.position with _ | (_ | _ | g)
  case some.glyph =>
    cases g
    case comma => simp only [bind_apply, take?_apply, htoken, Option.isSome_some, if_true]
    case closeParen =>
      simp only [bind_apply, take?_apply, htoken, emit_apply, Option.isSome_some, if_true]
      rfl
    all_goals rfl
  all_goals rfl

/-- A name that no parenthesis opens behind is consumed all the same, so the parenthesis is noted
behind it. -/
theorem call_apply :
    call input operand h =
      match input.token? h.position with
      | some (.identifier name) =>
        if input.opens (h.position + 1) then arguments input operand name h.advanced.advanced
        else .error .noMatch (h.advanced.noted .openParen)
      | _ => .error .noMatch (h.noted .identifier) := by
  rw [call, bind_apply, identifier_apply]
  rcases input.token? h.position with _ | (_ | name | _)
  case some.identifier =>
    by_cases ht : input.touching (h.position + 1)
    · by_cases hp : input.token? (h.position + 1) = some (.glyph .openParen)
      · simp [Input.opens, bind_apply, touching_apply, ht, hp, exactly_apply, arguments]
        rfl
      · simp [Input.opens, bind_apply, touching_apply, ht, hp, exactly_apply]
    · simp [Input.opens, bind_apply, touching_apply, ht, miss_apply]
  all_goals rfl

theorem parenthesized_apply :
    parenthesized input operand h =
      if input.token? h.position = some (.glyph .openParen) then
        (expression input operand >>= closed input) h.advanced
      else .error .noMatch (h.noted .openParen) := by
  rw [parenthesized, bind_apply, exactly_apply]
  by_cases ho : input.token? h.position = some (.glyph .openParen)
  · simp only [if_pos ho]
    rfl
  · simp only [if_neg ho]

/-- A name is resolved as soon as it is read. -/
theorem name_apply :
    name input h =
      match input.token? h.position with
      | some (.identifier name) =>
        .ok (input.scope.exprOfName name) (h.advanced.logged (input.scope.nameEvents name))
      | _ => .error .noMatch (h.noted .identifier) := by
  rw [name, bind_apply, identifier_apply]
  rcases input.token? h.position with _ | (_ | name | _) <;> rfl

theorem number_apply :
    number input h =
      match input.token? h.position with
      | some (.number value) => .ok (.constant value) h.advanced
      | _ => .error .noMatch (h.noted .number) := by
  rw [number, bind_apply, next?_apply]
  rcases htoken : input.token? h.position with _ | (value | _ | _)
  case some.number => simp [bind_apply, take?_apply, htoken, pure_apply]
  all_goals rfl

/-- A negated operand behind its sign. -/
def negated : Parser Expr := do
  return Operator.mul.combine (.constant (-1.0)) (← operand)

/-- A `-` negates what touches it. If nothing does, the operand is noted behind the `-`. -/
theorem negation_apply :
    negation input operand h =
      if input.token? h.position = some (.glyph .minus) then
        if input.touching (h.position + 1) then negated operand h.advanced
        else .error .noMatch (h.advanced.noted .touchingOperand)
      else .error .noMatch (h.noted .minus) := by
  rw [negation, bind_apply, exactly_apply]
  by_cases hm : input.token? h.position = some (.glyph .minus)
  · by_cases ht : input.touching (h.position + 1)
    · simp only [if_pos hm, negated, bind_apply, touching_apply, Head.advanced_position, if_pos ht]
    · simp only [if_pos hm, bind_apply, touching_apply, Head.advanced_position, if_neg ht,
        miss_apply]
  · simp only [if_neg hm]

/-- The kinds of operands are tried in this order, all of them behind the record that one begins. -/
theorem alternatives_apply :
    alternatives input operand h =
      either (call input operand) (either (parenthesized input operand) <|
        either (name input) <| either (number input) <| negation input operand) h.entered := rfl

/-- An operand without levels left still looks at the limit first. -/
theorem operandBy_zero_apply (share : Parser Expr → Parser Expr) :
    operandBy input share 0 h = share (oneDeeper input (throw .noMatch)) h := rfl

/-- With levels left, an operand is one of the alternatives on the level below. -/
theorem operandBy_succ_apply (share : Parser Expr → Parser Expr) (levels : Nat) :
    operandBy input share (levels + 1) h =
      share (oneDeeper input (alternatives input (operandBy input share levels))) h := rfl

/-- The end of a text after its tree. -/
def ended (root : Expr) : Parser Expr := do
  if ← atEnd input then
    return root
  else
    miss .endOfInput

theorem ended_apply (root : Expr) :
    ended input root h =
      if input.lexemes.size ≤ h.position then .ok root h
      else .error .noMatch (h.noted .endOfInput) := by
  simp only [ended, bind_apply, atEnd_apply, decide_eq_true_eq]
  split <;> rfl

theorem complete_eq : complete input operand = expression input operand >>= ended input := rfl

end Parser

end Formulae
