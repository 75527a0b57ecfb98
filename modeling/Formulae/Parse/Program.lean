import Formulae.Parse.Grammar

/-!
# Programs for the reading head

A parser is one fixed composition of the primitive parsers. A **program** is any other: a list of
steps, some of which are blocks with steps of their own. It is run step by step, and every step is
reported — what it answered or why it stopped, what its own steps did, and which token comes next
afterwards — so that nothing the head does stays hidden.

A step that stops ends the block it stands in, and the block then stops for the same reason; at the
top level the program goes on with the next step. Blocks are wrapped by the same functions that wrap
parsers (`Parser.rewound`, `Parser.surfaced`, `Parser.remembered`), applied to the result of the
inner steps.
-/

namespace Formulae

/-- The rules of the grammar that a step can ask for. -/
inductive Rule where
  | expression
  | additive
  | multiplicative
  | exponent
  | operand
deriving DecidableEq

/-- The parser of a rule. -/
def Rule.parser (input : Input) : Rule → Parser Expr
  | expression => Parser.expression input (Parser.operand input)
  | additive => Parser.additive input (Parser.operand input)
  | multiplicative => Parser.multiplicative input (Parser.operand input)
  | exponent => Parser.exponent input (Parser.operand input)
  | operand => Parser.operand input

/-- How a block ends once all its steps have answered. -/
inductive Ending where
  /-- With an answer. -/
  | answer
  /-- As if the input did not match. -/
  | noMatch
  /-- As if nested too deeply, at the first column and with a limit of zero. -/
  | rejected
deriving DecidableEq

/-- A step of a program. -/
inductive Step where
  | next
  | take
  | atEnd
  | touching
  | implied
  | exactly (token : Token) (label : Label)
  | note (label : Label)
  | miss (label : Label)
  | rule (rule : Rule)
  | chain (chain : Chain) (rule : Rule)
  /-- Run the inner steps, and take the position back if they do not match. -/
  | optionally (steps : List Step) (ending : Ending)
  /-- Run the inner steps one level deeper. -/
  | oneDeeper (steps : List Step) (ending : Ending)
  /-- Run the inner steps unless an outcome is stored here, and answer with the given tree. -/
  | onceBySite (tree : Expr) (steps : List Step) (ending : Ending)

/-- What a step answers. -/
inductive Answer where
  | token (token? : Option Token)
  | flag (flag : Bool)
  | flags (first second : Bool)
  | text (text : String)
  | tree (tree : Expr)

/-- What is told about a step. -/
inductive Report where
  /-- What a step came to, the reports of its inner steps, and the token that comes next. -/
  | step (outcome : Except Stop Answer) (inner : List Report) (next? : Option Token)
  /-- The inner steps of a block that is run once were run to their end. -/
  | ran

namespace Program

/-- The result of a parser, as the outcome of a step and the head it leaves. -/
def settle {α : Type} (answer : α → Answer) : Parser.Result α → Except Stop Answer × Head
  | .ok a h => (.ok (answer a), h)
  | .error stop h => (.error stop, h)

/-- What an ending comes to. -/
def finish {α : Type} (a : α) : Ending → Head → Parser.Result α
  | .answer => .ok a
  | .noMatch => .error .noMatch
  | .rejected => .error (.rejected (.tooDeep 0 1))

/-- The reason to stop that a report tells of. -/
def stop? : Report → Option Stop
  | .step (.error stop) _ _ => some stop
  | _ => none

/-- What a block that is run once adds to the reports of its steps. -/
def ranMark {α : Type} : Parser.Result α → List Report
  | .ok _ _ => [.ran]
  | .error _ _ => []

variable (input : Input)

/-- The report of a step that came to an outcome. -/
def report (inner : List Report) : Except Stop Answer × Head → Report × Head
  | (outcome, h) => (.step outcome inner (input.token? h.position), h)

mutual

/-- Run a step. -/
def runStep : Step → Head → Report × Head
  | .next, h => report input [] (settle .token (Parser.next? input h))
  | .take, h => report input [] (settle .token (Parser.take? input h))
  | .atEnd, h => report input [] (settle .flag (Parser.atEnd input h))
  | .touching, h => report input [] (settle .flag (Parser.touching input h))
  | .implied, h => report input [] (.ok (.flags input.scope.implied input.scope.implied), h)
  | .exactly token label, h =>
    report input [] (settle (fun _ ↦ .flag true) (Parser.exactly input token label h))
  | .note label, h => report input [] (settle (fun _ ↦ .flag true) (Parser.note label h))
  | .miss label, h =>
    report input [] (settle (fun _ : Unit ↦ .flag true) (Parser.miss label h))
  | .rule rule, h => report input [] (settle (.text ·.text) (rule.parser input h))
  | .chain chain rule, h =>
    report input [] (settle (.text ·.text) (Parser.chained input chain (rule.parser input) h))
  | .optionally steps ending, h =>
    let (inner, result) := runBlock steps (finish () ending) h
    report input inner (settle (.flag ·.isSome) (Parser.rewound h result))
  | .oneDeeper steps ending, h =>
    match Parser.descend input h with
    | .error r => report input [] (.error (.rejected r), h)
    | .ok h' =>
      let (inner, result) := runBlock steps (finish () ending) h'
      report input inner (settle (fun _ ↦ .flag true) (Parser.surfaced result))
  | .onceBySite tree steps ending, h =>
    match Parser.replay? h with
    | some result => report input [] (settle .tree result)
    | none =>
      let (inner, result) := runBlock steps (finish tree ending) h
      report input (inner ++ ranMark result) (settle .tree (Parser.remembered h result))

/-- Run steps until one stops, and end as told if none does. -/
def runBlock {α : Type} :
    List Step → (Head → Parser.Result α) → Head → List Report × Parser.Result α
  | [], ending, h => ([], ending h)
  | step :: rest, ending, h =>
    let (told, h') := runStep step h
    match stop? told with
    | some stop => ([told], .error stop h')
    | none =>
      let (later, result) := runBlock rest ending h'
      (told :: later, result)

end

/-- Run all steps, whether they stop or not. -/
def run : List Step → Head → List Report × Head
  | [], h => ([], h)
  | step :: rest, h =>
    let (told, h') := runStep input step h
    let (later, h'') := run rest h'
    (told :: later, h'')

end Program

end Formulae
