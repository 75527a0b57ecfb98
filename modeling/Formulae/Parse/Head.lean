import Formulae.Evaluation
import Formulae.Lexeme
import Std.Data.TreeMap

/-!
# The reading head

A parser moves a reading head over the lexemes of a text. What stays the same during a parse is its
`Input`; what changes is the `Head`: a position and a nesting depth, and three records that only
grow.

* `furthest` is the furthest position at which something was expected in vain, with the labels
  expected there, each once and in the order of their first mention. Expectations at a nearer
  position are dropped and one at a further position starts afresh, so this is all that a report
  needs. It survives when the position is taken back.
* `operands` holds the outcome of every operand parsed so far, by the **site** (position and depth)
  at which it was parsed.
* `log` holds the events, and `begun` the sites at which the body of an operand was begun, both
  with the latest first. Nothing is ever decided by them.
-/

namespace Formulae

/-- What a parse reads and never changes. -/
structure Input where
  lexemes : Array Lexeme
  /-- The number of characters in the text. -/
  length : Nat
  scope : Scope
  /-- How deeply operands may be nested. -/
  limit : Nat

namespace Input

/-- The token at a position. -/
def token? (input : Input) (position : Nat) : Option Token :=
  input.lexemes[position]?.map Lexeme.token

/-- The column just past the last character. -/
def endColumn (input : Input) : Nat :=
  input.length + 1

/-- The column of the lexeme at a position, or of the end. -/
def column (input : Input) (position : Nat) : Nat :=
  (input.lexemes[position]?.map Lexeme.column).getD input.endColumn

/-- The lexeme at a position starts where the one before it stops. -/
def touching (input : Input) (position : Nat) : Bool :=
  match input.lexemes[position - 1]?, input.lexemes[position]? with
  | some previous, some next => 0 < position && previous.touches next
  | _, _ => false

end Input

/-- A position among the lexemes and a nesting depth. -/
structure Site where
  position : Nat
  depth : Nat
deriving DecidableEq

namespace Site

instance : Ord Site where
  compare := compareLex (compareOn Site.position) (compareOn Site.depth)

instance : Std.TransOrd Site :=
  inferInstanceAs (Std.TransCmp (compareLex (compareOn Site.position) (compareOn Site.depth)))

instance : Std.LawfulEqOrd Site where
  eq_of_compare {a b} h := by
    have h : (compare a.position b.position).then (compare a.depth b.depth) = .eq := h
    rw [Ordering.then_eq_eq, Nat.compare_eq_eq, Nat.compare_eq_eq] at h
    cases a
    cases b
    simp_all

end Site

/-! ### Expectations -/

/-- What was expected in vain at a position. -/
structure Expectation where
  position : Nat
  labels : List Label
deriving DecidableEq

/-- The furthest expectation after one more label at a position. -/
def Expectation.add (furthest : Option Expectation) (position : Nat) (label : Label) :
    Option Expectation :=
  match furthest with
  | none => some ⟨position, [label]⟩
  | some e =>
    if position < e.position then some e
    else if e.position < position then some ⟨position, [label]⟩
    else if label ∈ e.labels then some e
    else some ⟨position, e.labels ++ [label]⟩

/-- A second mention of a label at a place changes nothing. -/
theorem Expectation.add_add (furthest : Option Expectation) (position : Nat) (label : Label) :
    add (add furthest position label) position label = add furthest position label := by
  cases furthest with
  | none => simp [add]
  | some e =>
    by_cases h₁ : position < e.position
    · simp [add, h₁]
    · by_cases h₂ : e.position < position
      · simp [add, h₁, h₂]
      · by_cases h₃ : label ∈ e.labels <;> simp [add, h₁, h₂, h₃]

/-! ### Heads -/

/-- The outcome of an operand: its tree and the position after it, or none if it does not match. -/
abbrev Operand := Option (Expr × Nat)

/-- The state of a parse. -/
structure Head where
  position : Nat := 0
  depth : Nat := 0
  furthest : Option Expectation := none
  operands : Std.TreeMap Site Operand := ∅
  log : List Event := []
  begun : List Site := []

namespace Head

/-- Where the head stands. -/
def site (head : Head) : Site :=
  ⟨head.position, head.depth⟩

/-- The rejection that is reported if nothing matches here. A parse that expected nothing is
reported as a missing expression. -/
def rejection (head : Head) (input : Input) : Rejection :=
  match head.furthest with
  | none => .incomplete [.expression] input.endColumn
  | some e =>
    match input.lexemes[e.position]? with
    | some lexeme => .unexpected lexeme.spelling e.labels lexeme.column
    | none => .incomplete e.labels input.endColumn

end Head

end Formulae
