import Pinout.Command.Generate

/-!
# Pinout.Command.Run

A run of the program: from the arguments to what is printed, what is written, and the exit code.

The source is a file in the directory for temporary files unless one is named. A page that is
exported lands next to its source unless another place is named.
-/

namespace Pinout
namespace Command

open File (Job Path)

def sourceName : Text := "code".toList

def outputName : Text := "hdldoc_output".toList

namespace Request

def source (temporary : Path) (r : Request) : Path :=
  r.file.getD (Path.join temporary sourceName)

def target (temporary : Path) (r : Request) : Target :=
  match r.output with
  | some path => .file path
  | none =>
    if r.toTemp then .scratch
    else if r.action = .exportPage then
      .file (Path.withExtension "html".toList (r.source temporary))
    else .standardOutput

end Request

/-- The file a text goes to. -/
def Target.path? (temporary : Path) : Target → Option Path
  | standardOutput => none
  | file path => some path
  | scratch => some (Path.join temporary outputName)

/-- What a run prints, and its exit code. -/
structure Outcome where
  exit : Nat
  output : Text
  errors : Text
  warnings : List Text

namespace Outcome

def failure (message : Text) : Outcome := ⟨1, [], "Error: ".toList ++ message ++ ['\n'], []⟩

end Outcome

def versionText : Text := "hdldoc 0.1.0\n".toList

def helpText : Text :=
  ("Generate instantiations, testbenches and documentation for Verilog modules\n\n" ++
    "Usage: hdldoc <ACTION> [OPTIONS] [FILE]\n\n" ++
    "  -i, --instantiation      instantiation snippet\n" ++
    "  -t, --testbench          testbench\n" ++
    "  -p, --preview            documentation page for a preview\n" ++
    "  -e, --export             documentation page next to the source\n" ++
    "  -d, --dump               what was extracted, as JSON\n" ++
    "  -T, --template <FILE>    template of the testbench or the page\n" ++
    "  -o, --output <FILE>      file to write to\n" ++
    "      --to-temp            write to a temporary file and print its path\n" ++
    "      --config <FILE>      settings\n" ++
    "  -v, --verbose            verbose output\n" ++
    "  -h, --help               this text\n" ++
    "  -V, --version            version\n").toList

def UsageFault.message : UsageFault → Text
  | unknownArgument => "unexpected argument".toList
  | missingValue => "a value is required but none was supplied".toList
  | unwantedValue => "unexpected value".toList
  | conflict => "arguments cannot be used together or repeated".toList
  | noAction => "one of the actions is required".toList

def Stop.outcome : Stop → Outcome
  | help => ⟨0, helpText, [], []⟩
  | version => ⟨0, versionText, [], []⟩
  | fault f => ⟨2, [], "error: ".toList ++ f.message ++ ['\n'], []⟩

/-! ## Runs that understand their arguments -/

/-- Where a run failed, and why. -/
inductive Failure where
  | settings (f : Fault)
  | source (path : Path) (f : Fault)
  | output (f : Fault)
  deriving DecidableEq, Repr

namespace Failure

def fault : Failure → Fault
  | settings f => f
  | source _ f => f
  | output f => f

def message : Failure → Text
  | settings f => "failed to load configuration: ".toList ++ f.message
  | source path f => "failed to process ".toList ++ path ++ ": ".toList ++ f.message
  | output f => f.message

end Failure

/-- What a run made: the settings it went by, the text, and the file that the text went to. -/
structure Report where
  config : Config
  product : Product
  path : Option Path

/-- Makes the text that is asked for, and writes it if it goes to a file. -/
def execute (temporary : Path) (r : Request) : ExceptT Failure Job Report := do
  let source := r.source temporary
  let c ← (Config.resolve r.config).adapt .settings
  let product ← (generate r.action source r.template c).adapt (.source source)
  match (r.target temporary).path? temporary with
  | none => return ⟨c, product, none⟩
  | some path => do
    (Attempt.write path product.text).adapt .output
    return ⟨c, product, some path⟩

/-- What a run prints: the text unless it went to a file, and the path of a temporary file. -/
def Report.output (target : Target) (report : Report) : Text :=
  match report.path with
  | none => report.product.text
  | some path => if target = .scratch then path ++ ['\n'] else []

def perform (temporary : Path) (r : Request) : Job Outcome := do
  match ← (execute temporary r).run with
  | .error f => return .failure f.message
  | .ok report => return ⟨0, report.output (r.target temporary), [], report.product.warnings⟩

def run (temporary : Path) (arguments : List Text) : Job Outcome :=
  match Request.ofArguments arguments with
  | .ok r => perform temporary r
  | .error stop => return stop.outcome

end Command
end Pinout
