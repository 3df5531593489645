import UnitySharp.CommandLine.Run

/-!
# The command line

Runs the converter on real files.
-/

namespace UnitySharp.CommandLine

/-- What a failure of the operating system comes down to. -/
def fileFaultOf : IO.Error → FileFault
  | .noFileOrDirectory _ _ _ => .notFound
  | .alreadyExists _ _ _ => .exists
  | .inappropriateType _ code _ => if code = 21 then .isDirectory else .notDirectory
  | .permissionDenied _ _ _ => .denied
  | .invalidArgument _ code _ => if code = 36 then .nameTooLong else .zeroInPath
  | _ => .isDirectory

def attempt {α : Type} (action : IO α) : IO (Except FileFault α) := do
  try
    return .ok (← action)
  catch error => return .error (fileFaultOf error)

def realFiles : Host IO where
  readText path := attempt (IO.FS.readFile path.text)
  writeText path text := attempt do
    IO.FS.createDirAll path.parent.text
    IO.FS.writeFile path.text text

end UnitySharp.CommandLine

open UnitySharp.CommandLine

def main (arguments : List String) : IO UInt32 := do
  match ← (command realFiles arguments).run with
  | .ok outcome =>
    IO.print outcome.output
    IO.eprint outcome.log
    return outcome.status.toUInt32
  | .error fault =>
    match fault with
    | .file _ => IO.eprintln "A file could not be read or written."
    | .tooManyDigits => IO.eprintln "A document holds an integer with too many digits."
    | .document _ => IO.eprintln "A document is not of the form it should have."
    | .tree _ => IO.eprintln "A module could not be converted."
    return 1
