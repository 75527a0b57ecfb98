import Formulae.Parse.Head

/-!
# Parsers

A parser moves the head and yields a value, or stops; either way it leaves a head. There are two
ways to stop. Where the input does not match, the head has noted what was expected, and the caller
may try something else. Where the text is rejected outright, the whole parse is over.

Stopping keeps the head, so what was noted survives, and only `optionally` takes the position back.
Each of the three combinators is a pure function around the result of another parser — `rewound`,
`surfaced`, `remembered` — so that whatever produces that result can be wrapped in the same way.
-/

namespace Formulae

/-- Why a parser stopped. -/
inductive Stop where
  /-- The input does not match here. -/
  | noMatch
  /-- The text is rejected, whatever is tried next. -/
  | rejected (rejection : Rejection)
deriving DecidableEq

/-- A parser of values. -/
abbrev Parser := EStateM Stop Head

/-- What a parser leaves: a value or the reason why it stopped, and a head. -/
abbrev Parser.Result := EStateM.Result Stop Head

/-- The head that a parser leaves. -/
def Parser.Result.head {α : Type} : Parser.Result α → Head
  | .ok _ h => h
  | .error _ h => h

/-- The same result with another head. -/
def Parser.Result.mapHead {α : Type} (f : Head → Head) : Parser.Result α → Parser.Result α
  | .ok a h => .ok a (f h)
  | .error stop h => .error stop (f h)

namespace Parser

/-! ### Notes -/

/-- Note that a label would have been accepted here. -/
def note (label : Label) : Parser Unit :=
  modify fun h ↦ { h with furthest := Expectation.add h.furthest h.position label }

/-- Stop because a label was expected here. -/
def miss {α : Type} (label : Label) : Parser α := do
  note label
  throw .noMatch

/-- Note some events. -/
def emit (events : List Event) : Parser Unit :=
  modify fun h ↦ { h with log := events.reverse ++ h.log }

section

variable (input : Input)

/-! ### Tokens -/

/-- The token that comes next. -/
def next? : Parser (Option Token) := do
  return input.token? (← get).position

/-- The token that comes next, consumed. -/
def take? : Parser (Option Token) := do
  let token? ← next? input
  if token?.isSome then
    modify fun h ↦ { h with position := h.position + 1 }
  return token?

/-- Whether every token has been consumed. -/
def atEnd : Parser Bool := do
  return input.lexemes.size ≤ (← get).position

/-- Whether the next token starts where the previous one stops. -/
def touching : Parser Bool := do
  return input.touching (← get).position

/-- Consume the given token. -/
def exactly (token : Token) (label : Label) : Parser Unit := do
  if (← next? input) = some token then
    modify fun h ↦ { h with position := h.position + 1 }
  else
    miss label

end

/-! ### Combinators -/

/-- The result of an optional part that started at a head: it is no reason to stop that the part
does not match, and the position is then the one at the start. -/
def rewound {α : Type} (start : Head) : Result α → Result (Option α)
  | .ok a h => .ok (some a) h
  | .error .noMatch h => .ok none { h with position := start.position }
  | .error (.rejected r) h => .error (.rejected r) h

/-- Run a parser if it matches. -/
def optionally {α : Type} (p : Parser α) : Parser (Option α) :=
  fun h ↦ rewound h (p h)

/-- Run a parser if it matches, and another one if it does not. -/
def either {α : Type} (p q : Parser α) : Parser α := do
  match ← optionally p with
  | some a => return a
  | none => q

/-- The head one level deeper, unless that exceeds the limit. -/
def descend (input : Input) (h : Head) : Except Rejection Head :=
  if h.depth < input.limit then .ok { h with depth := h.depth + 1 }
  else .error (.tooDeep input.limit (input.column h.position))

/-- The result of a deeper parser, back on the level above. -/
def surfaced {α : Type} : Result α → Result α :=
  Result.mapHead fun h ↦ { h with depth := h.depth - 1 }

/-- Run a parser one level deeper. A text that exceeds the limit is rejected. -/
def oneDeeper {α : Type} (input : Input) (p : Parser α) : Parser α :=
  fun h ↦
    match descend input h with
    | .ok h' => surfaced (p h')
    | .error r => .error (.rejected r) h

/-- The outcome stored for the site of a head, as a result: a stored tree moves the head to the
stored end, and a stored failure leaves it where it is. -/
def replay? (h : Head) : Option (Result Expr) :=
  match h.operands[h.site]? with
  | none => none
  | some none => some (.error .noMatch h)
  | some (some (e, stop)) => some (.ok e { h with position := stop })

/-- The result of an operand begun at a head, stored for its site unless the text is rejected. -/
def remembered (start : Head) : Result Expr → Result Expr
  | .ok e h => .ok e { h with operands := h.operands.insert start.site (some (e, h.position)) }
  | .error .noMatch h =>
    .error .noMatch { h with operands := h.operands.insert start.site none }
  | .error (.rejected r) h => .error (.rejected r) h

/-- Run a parser, unless an outcome is stored for the site of the head. -/
def onceBySite (p : Parser Expr) : Parser Expr :=
  fun h ↦
    match replay? h with
    | some result => result
    | none => remembered h (p h)

end Parser

end Formulae
