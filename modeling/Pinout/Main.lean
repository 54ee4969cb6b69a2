import Pinout.Command.Run

/-!
# Pinout.Main

The program at the command line. It answers what a job asks for from the files of the machine, then
prints what the run printed and ends with its exit code.
-/

namespace Pinout

open File (Job Path)

/-- The reason for which the machine failed to open, read or write a file. -/
def faultOfMachine : IO.Error → File.Fault
  | .noFileOrDirectory _ _ _ => .notFound
  | .inappropriateType _ code _ => if code = 20 then .notDirectory else .isDirectory
  | .permissionDenied _ code reason =>
    .other (reason.toList ++ " (os error ".toList ++ Text.decimal code.toNat ++ [')'])
  | e => .other e.toString.toList

def readFile (path : Path) : IO (Except File.Fault Text) := do
  try
    let bytes ← IO.FS.readBinFile (String.ofList path)
    match String.fromUTF8? bytes with
    | some s => return .ok s.toList
    | none => return .error .notText
  catch e => return .error (faultOfMachine e)

def writeFile (path : Path) (t : Text) : IO (Except File.Fault Unit) := do
  try
    IO.FS.writeFile (String.ofList path) (String.ofList t)
    return .ok ()
  catch e => return .error (faultOfMachine e)

/-- Whether a path leads to a file, be its text readable or not. -/
def isFile (path : Path) : IO Bool := do
  match ← readFile path with
  | .ok _ => return true
  | .error (.other _) => return true
  | .error fault => return fault = .notText

/-- Performs a job on the files of the machine. -/
def performJob {α : Type} : Job α → IO α
  | .done a => return a
  | .read path next => do performJob (next (← readFile path))
  | .isFile path next => do performJob (next (← isFile path))
  | .write path t next => do performJob (next (← writeFile path t))

/-- The directory for temporary files. -/
def temporaryDirectory : IO Path := do
  match ← IO.getEnv "TMPDIR" with
  | some path => return path.toList
  | none => return "/tmp".toList

end Pinout

def main (arguments : List String) : IO UInt32 := do
  let run := Pinout.Command.run (← Pinout.temporaryDirectory) (arguments.map String.toList)
  let outcome ← Pinout.performJob run
  for warning in outcome.warnings do
    IO.eprintln (String.ofList warning)
  IO.eprint (String.ofList outcome.errors)
  IO.print (String.ofList outcome.output)
  return outcome.exit.toUInt32
