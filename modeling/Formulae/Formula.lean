import Formulae.Parse.Grammar

/-!
# Formulas

The public face of the library: a text is parsed under `Settings` into a `Formula`, and a formula
is evaluated as often as needed, each time under overrides of its own.

A formula keeps the vocabulary and the splitting flag it was parsed with. Evaluation comes in two
manners: `evaluate` names the first symbol that means nothing, and `value` answers such a formula
with the float that is no number.
-/

namespace Formulae

/-- A parsed text, with everything of its settings that evaluation needs. -/
structure Formula where
  root : Expr
  implied : Bool := false
  vocabulary : Vocabulary := {}

namespace Formula

/-- The scope in which a formula is evaluated. -/
def scope (formula : Formula) (overrides : Vocabulary) : Scope where
  overrides := overrides
  vocabulary := formula.vocabulary
  implied := formula.implied

/-- The value of a formula, or the first symbol that means nothing. -/
def evaluate (formula : Formula) (overrides : Vocabulary) : Except Unbound Float :=
  Formulae.evaluate (formula.scope overrides) formula.root

/-- The value of a formula, or the float that is no number. -/
def value (formula : Formula) (overrides : Vocabulary) : Float :=
  match formula.evaluate overrides with
  | .ok x => x
  | .error _ => Numeric.nan

/-- The log of `value`. -/
def valueLog (formula : Formula) (overrides : Vocabulary) : List Event :=
  match observe (formula.scope overrides) formula.root with
  | (.ok _, log) => log
  | (.error u, log) => log ++ [.noValue formula.root u]

/-- The names that a formula leaves open. -/
def openNames (formula : Formula) : OpenNames :=
  formula.root.openNames

/-- A formula with its structure shown. -/
def inspect (formula : Formula) : String :=
  "Evaluator \x7b root: " ++ formula.root.inspect ++ ", implied_multiplication: " ++
    flagText formula.implied ++ ", tables: " ++ formula.vocabulary.inspect ++ " \x7d"

end Formula

/-- How texts are parsed. -/
structure Settings where
  vocabulary : Vocabulary := {}
  /-- Whether operands and names next to each other are multiplied. -/
  implied : Bool := false
  /-- How deeply operands may be nested. -/
  depthLimit : Nat := 64

namespace Settings

/-- The scope in which names are resolved during a parse. -/
def scope (settings : Settings) : Scope where
  vocabulary := settings.vocabulary
  implied := settings.implied

/-- A text with its lexemes as the input of a parse. -/
def input (settings : Settings) (text : String) (lexemes : List Lexeme) : Input where
  lexemes := lexemes.toArray
  length := text.length
  scope := settings.scope
  limit := settings.depthLimit

/-- The outcome of a parser of whole texts. A text that does not match is rejected at the furthest
place that was reached. -/
def conclude {α : Type} (input : Input) : Parser.Result α → Except Rejection α
  | .ok a _ => .ok a
  | .error (.rejected r) _ => .error r
  | .error .noMatch h => .error (h.rejection input)

/-- The result of parsing a whole text, with the outcomes of operands shared by `share`. -/
def runWith (share : Parser Expr → Parser Expr) (input : Input) : Parser.Result Expr :=
  Parser.complete input (Parser.operandBy input share input.limit) {}

/-- The result of parsing a whole text. -/
def run (input : Input) : Parser.Result Expr :=
  runWith Parser.onceBySite input

/-- Parse a text. The whole of it must be one expression. -/
def parse (settings : Settings) (text : String) : Except Rejection Formula := do
  let lexemes ← scan text
  let input := settings.input text lexemes
  let root ← conclude input (run input)
  return ⟨root, settings.implied, settings.vocabulary⟩

/-- The log of `parse`, with the rejection of the text. -/
def parseLog (settings : Settings) (text : String) : List Event :=
  let steps := match scan text with
    | .ok lexemes => (run (settings.input text lexemes)).head.log.reverse
    | .error _ => []
  match settings.parse text with
  | .ok _ => steps
  | .error r => steps ++ [.rejected text r]

end Settings

/-! ### One step -/

/-- Why a text has no value. -/
inductive Fault where
  /-- It is no formula. -/
  | rejected (rejection : Rejection)
  /-- A symbol of it means nothing. -/
  | unbound (unbound : Unbound)
deriving DecidableEq

/-- The report of a fault in one line. -/
def Fault.message : Fault → String
  | rejected r => r.message
  | unbound u => u.message

/-- Parse a text under the standard names alone. -/
def parse (text : String) : Except Rejection Formula :=
  Settings.parse {} text

/-- The value of a text under the standard names alone. -/
def valueOfText (text : String) : Except Fault Float := do
  let formula ← (parse text).mapError .rejected
  (formula.evaluate {}).mapError .unbound

end Formulae
