import Formulae.Formula
import Formulae.Text.Plain

/-!
# The command line

The program evaluates one expression, given as an argument or in a file, under variables bound on
the command line.

Arguments are read from left to right. A variable's binding is an option with a value; the value
given as an argument of its own waits until the next argument that means something, and only then
is it read. So a bad binding is reported before a missing expression, but not before an argument
that means nothing. To ask about the program ends the reading.

Everything the program answers is an `Outcome`: two texts and an exit code. Reading a file is the
only thing it needs from outside, and that comes in as a function.
-/

namespace Formulae

/-! ### Bindings -/

/-- Why an argument binds no variable. -/
inductive BindingError where
  /-- There is no `=` between a name and a value. -/
  | noValue (binding : String)
  /-- The value is no number. -/
  | badValue (name : String) (cause : Decimal.ReadError)
deriving DecidableEq

/-- The report of a binding that binds nothing. -/
def BindingError.message : BindingError → String
  | noValue binding => "expected NAME=VALUE, found '" ++ binding ++ "'"
  | badValue name cause => "invalid value for '" ++ name ++ "': " ++ cause.message

/-- The variable that an argument binds. The first `=` separates the name from the value, and both
are trimmed. -/
def readBinding (binding : String) : Except BindingError (String × Float) :=
  let cs := binding.toList
  let name := String.ofList (cs.takeWhile (· ≠ '='))
  match cs.dropWhile (· ≠ '=') with
  | [] => .error (.noValue binding)
  | _ :: value =>
    match Decimal.read (trimBlanks (String.ofList value)).toList with
    | .ok x => .ok (trimBlanks name, x)
    | .error cause => .error (.badValue name cause)

/-! ### Arguments -/

/-- The switches of the program. -/
inductive Switch where
  /-- The expression is in the file of that name. -/
  | file
  /-- Operands and names next to each other are multiplied. -/
  | implied
  /-- A name that means nothing is an error. -/
  | strict
  /-- The tree is shown before the value. -/
  | tree
deriving DecidableEq

namespace Switch

/-- The switch of a letter. -/
def ofLetter? : Char → Option Switch
  | 'f' => some file
  | 'i' => some implied
  | 's' => some strict
  | 't' => some tree
  | _ => none

/-- The switch of a word. -/
def ofWord? : String → Option Switch
  | "file" => some file
  | "implied" => some implied
  | "strict" => some strict
  | "tree" => some tree
  | _ => none

end Switch

/-- The letters of the options that ask about the program. -/
def informationLetters : List Char :=
  ['h', 'V']

/-- The words of the options that ask about the program. -/
def informationWords : List String :=
  ["help", "version"]

/-- What the arguments ask for. -/
structure Request where
  switches : List Switch := []
  /-- The variables, the latest first. -/
  bindings : List (String × Float) := []
  expression : String

/-- Why the arguments ask for no value. -/
inductive NoRequest where
  /-- They do not have the right form. -/
  | malformed
  /-- One that should bind a variable does not. -/
  | badBinding (argument : String) (cause : BindingError)
  /-- They ask what the program is, or how it is used. -/
  | information
deriving DecidableEq

/-- A binding that was announced. -/
inductive Pending where
  /-- Its value is the next argument. -/
  | announced
  /-- Its value was given, but is not read yet. -/
  | given (value : String)

namespace CommandLine

/-- The arguments read so far. -/
structure Progress where
  switches : List Switch := []
  bindings : List (String × Float) := []
  expression : Option String := none
  pending : Option Pending := none
  /-- Whether only expressions can follow. -/
  optionsEnded : Bool := false

/-- Bind a variable. -/
def bindVariable (p : Progress) (argument : String) : Except NoRequest Progress :=
  match readBinding argument with
  | .ok b => .ok { p with bindings := b :: p.bindings }
  | .error cause => .error (.badBinding argument cause)

/-- Read the binding that waits. -/
def settle (p : Progress) : Except NoRequest Progress :=
  match p.pending with
  | none => .ok p
  | some .announced => .error .malformed
  | some (.given value) => bindVariable { p with pending := none } value

/-- Set a switch. No switch can be set twice. -/
def setSwitch (p : Progress) (switch : Switch) : Except NoRequest Progress := do
  let p ← settle p
  if switch ∈ p.switches then throw .malformed
  return { p with switches := switch :: p.switches }

/-- Announce a binding, with its value or without. -/
def announce (p : Progress) (value? : Option String) : Except NoRequest Progress := do
  let p ← settle p
  match value? with
  | some value => bindVariable p value
  | none => return { p with pending := some .announced }

/-- Stop for information. -/
def inform (p : Progress) : Except NoRequest Progress := do
  let _ ← settle p
  throw .information

/-- Take an argument as the expression. There is only one. -/
def setExpression (p : Progress) (argument : String) : Except NoRequest Progress := do
  if p.expression.isSome then throw .malformed
  let p ← settle p
  return { p with expression := some argument }

/-- An option given by letters: switches, of which the last may be a binding with its value behind
the letter. One `=` in front of the value belongs to neither. -/
def readLetters (p : Progress) : List Char → Except NoRequest Progress
  | [] => .ok p
  | 'v' :: [] => announce p none
  | 'v' :: '=' :: value => announce p (some (String.ofList value))
  | 'v' :: value => announce p (some (String.ofList value))
  | letter :: rest =>
    match Switch.ofLetter? letter with
    | some switch => do readLetters (← setSwitch p switch) rest
    | none => if letter ∈ informationLetters then inform p else .error .malformed

/-- An option given by a word, with a value behind a `=` if it takes one. -/
def readWord (p : Progress) (word : List Char) : Except NoRequest Progress :=
  let name := String.ofList (word.takeWhile (· ≠ '='))
  let value? := match word.dropWhile (· ≠ '=') with
    | [] => none
    | _ :: value => some (String.ofList value)
  if name = "var" then announce p value?
  else if value?.isSome then .error .malformed
  else
    match Switch.ofWord? name with
    | some switch => setSwitch p switch
    | none => if name ∈ informationWords then inform p else .error .malformed

/-- Read one more argument. -/
def readArgument (p : Progress) (argument : String) : Except NoRequest Progress :=
  if p.optionsEnded then setExpression p argument
  else
    match argument.toList with
    | ['-', '-'] => .ok { p with optionsEnded := true }
    | '-' :: '-' :: word => readWord p word
    | '-' :: letter :: rest => readLetters p (letter :: rest)
    | _ =>
      match p.pending with
      | some .announced => .ok { p with pending := some (.given argument) }
      | _ => setExpression p argument

/-- What some arguments ask for. -/
def readArguments (arguments : List String) : Except NoRequest Request := do
  let p ← arguments.foldlM readArgument {}
  let p ← settle p
  match p.expression with
  | some expression => return ⟨p.switches, p.bindings, expression⟩
  | none => throw .malformed

end CommandLine

/-! ### Answers -/

/-- Why a file could not be read. -/
inductive FileError where
  | missing
  | directory
  /-- Something on the way to it is no directory. -/
  | notDirectory
  | nameTooLong
  | notUtf8
  /-- Any other reason, in words. -/
  | other (reason : String)

/-- The report of a file that could not be read. -/
def FileError.message : FileError → String
  | missing => "No such file or directory (os error 2)"
  | directory => "Is a directory (os error 21)"
  | notDirectory => "Not a directory (os error 20)"
  | nameTooLong => "File name too long (os error 36)"
  | notUtf8 => "stream did not contain valid UTF-8"
  | other reason => reason

/-- What the program answers. -/
structure Outcome where
  code : Nat := 0
  stdout : String := ""
  stderr : String := ""

/-- A text between a style and the end of all styles, as it is written for a terminal. -/
def styled (style text : String) : String :=
  "\x1b[" ++ style ++ "m" ++ text ++ "\x1b[0m"

/-- The whole report of a bad binding, as it is written for a terminal. -/
def bindingReport (argument : String) (cause : BindingError) : String :=
  styled "1;31" "error:" ++ " invalid value '" ++ styled "33" argument ++ "' for '" ++
    styled "1" "--var <VARIABLES>" ++ "': " ++ cause.message ++
    "\n\nFor more information, try '" ++ styled "1" "--help" ++ "'.\n"

/-- The answer to arguments that ask for no value. Only a bad binding is described, by the first
line of its report without what only a terminal understands. -/
def NoRequest.outcome : NoRequest → Outcome
  | .malformed => { code := 2 }
  | .badBinding argument cause =>
    { code := 2, stderr := firstLine (plain (bindingReport argument cause)) }
  | .information => {}

/-- The tree of a formula and the names it leaves open, if there are any. -/
def treeText (formula : Formula) : String :=
  "tree: " ++ formula.root.text ++ "\n" ++
    if formula.openNames.isEmpty then ""
    else "unresolved: " ++ formula.openNames.inspect ++ "\n"

/-- The settings that a request parses its expression under. -/
def Request.settings (request : Request) : Settings where
  vocabulary := { «variables» := some fun name ↦ request.bindings.lookup name }
  implied := .implied ∈ request.switches

/-- The answer to a request, given the text of its expression. -/
def Request.answer (request : Request) (text : String) : Outcome :=
  match request.settings.parse text with
  | .error e => { code := 1, stderr := e.annotate text ++ "\n" }
  | .ok formula =>
    let shown := if .tree ∈ request.switches then treeText formula else ""
    if .strict ∈ request.switches then
      match formula.evaluate {} with
      | .ok x => { stdout := shown ++ numberText x ++ "\n" }
      | .error e => { code := 1, stdout := shown, stderr := e.message ++ "\n" }
    else { stdout := shown ++ numberText (formula.value {}) ++ "\n" }

/-- The file that a request needs. -/
def Request.file? (request : Request) : Option String :=
  if .file ∈ request.switches then some request.expression else none

/-- The answer to a request whose file was read or not. -/
def Request.answerFile (request : Request) (contents : Except FileError ByteArray) : Outcome :=
  let text? := contents.bind fun bytes ↦
    match String.fromUTF8? bytes with
    | some text => .ok text
    | none => .error .notUtf8
  match text? with
  | .ok text => request.answer (trimBlanks text)
  | .error e =>
    { code := 1
      stderr := "Failed to read the input file '" ++ request.expression ++ "': " ++ e.message ++
        "\n" }

/-- The answer to some arguments, where `readFile` reads files. -/
def CommandLine.answer (readFile : String → Except FileError ByteArray)
    (arguments : List String) : Outcome :=
  match readArguments arguments with
  | .error e => e.outcome
  | .ok request =>
    match request.file? with
    | some path => request.answerFile (readFile path)
    | none => request.answer request.expression

end Formulae
