import Formulae.CommandLine

/-!
# The program

Reads the arguments, and the file if they name one, and writes the outcome.
-/

namespace Formulae

/-- The contents of a file. -/
def readFile (path : String) : IO (Except FileError ByteArray) := do
  try
    return .ok (← IO.FS.readBinFile path)
  catch
    | .noFileOrDirectory .. => return .error .missing
    | .inappropriateType _ 20 _ => return .error .notDirectory
    | .inappropriateType .. => return .error .directory
    | .invalidArgument _ 36 _ => return .error .nameTooLong
    | e => return .error (.other (toString e))

/-- Answer some arguments. -/
def runMain (arguments : List String) : IO UInt32 := do
  let contents ← match CommandLine.readArguments arguments with
    | .ok request => (request.file?.mapM readFile)
    | .error _ => pure none
  let outcome := CommandLine.answer (fun _ ↦ contents.getD (.error .missing)) arguments
  (← IO.getStdout).putStr outcome.stdout
  (← IO.getStderr).putStr outcome.stderr
  return outcome.code.toUInt32

end Formulae

/-- The entry point. -/
def main (arguments : List String) : IO UInt32 :=
  Formulae.runMain arguments
