import Formulae.Factors
import Formulae.OpenNames
import Formulae.Rejection

/-!
# The log

What parsing and evaluation report about their own progress. An event is kept as data, with the
trees and names it is about, and becomes a line of text only when it is written. Events have one of
two levels: the steps of a parse and the splits of a name are `trace`, and a failure that the
caller sees only as a missing value is `debug`.
-/

namespace Formulae

/-- How much detail a log holds. -/
inductive Level where
  | debug
  | trace
deriving DecidableEq

/-- Something that happened. -/
inductive Event where
  /-- A chain of a tier has its first operand. -/
  | firstOperand (tier : Tier) (operand : Expr)
  /-- A chain goes on with an operator and an operand. -/
  | link (tier : Tier) (op : Operator) (operand : Expr)
  /-- A chain ended and was folded. -/
  | folded (tier : Tier) (result : Expr)
  /-- A name was split at a known part. -/
  | nameSplit (part : List Char) (product : Factors)
  /-- The name of a call was split into a factor and a function. -/
  | callSplit (name : String) (factor : Float) (function : String)
  /-- The name of a call was split into a factor alone. -/
  | callFactor (name : String) (factor : Float)
  /-- A text is no formula. -/
  | rejected (text : String) (rejection : Rejection)
  /-- A tree has no value. -/
  | noValue (root : Expr) (unbound : Unbound)

namespace Event

/-- The level of an event. -/
def level : Event → Level
  | rejected .. => .debug
  | noValue .. => .debug
  | _ => .trace

/-- An event in words. -/
def message : Event → String
  | firstOperand tier operand => tier.name ++ ": first operand " ++ operand.text
  | link tier op operand => tier.name ++ ": " ++ op.symbol ++ " " ++ operand.text
  | folded tier result => tier.name ++ ": reduced to " ++ result.text
  | nameSplit part product =>
    "split '" ++ String.ofList product.word ++ "' at '" ++ String.ofList part ++ "' into " ++
      product.expr.text
  | callSplit name factor function =>
    "split call '" ++ name ++ "' into " ++ numberText factor ++ " * " ++ function
  | callFactor name factor => "split call '" ++ name ++ "' into factor " ++ numberText factor
  | rejected text rejection => "failed to parse '" ++ text ++ "': " ++ rejection.message
  | noValue root unbound => "evaluation of " ++ root.text ++ " yields NaN: " ++ unbound.message

/-- A line of the log. -/
def line (event : Event) : String :=
  (match event.level with
    | .debug => "DEBUG "
    | .trace => "TRACE ") ++ event.message

/-- Whether a log of the given detail shows the event. -/
def shownAt (event : Event) : Level → Bool
  | .trace => true
  | .debug => event.level = .debug

end Event

/-- The lines of a log at a level of detail. -/
def logLines (level : Level) (events : List Event) : List String :=
  (events.filter (·.shownAt level)).map Event.line

end Formulae
