import Pinout.Signature.Basic
import Pinout.Snippet.Column
import Pinout.Text.Blank

/-!
# Pinout.Snippet.Harness

The part of a testbench that depends on the module: a declaration for every parameter and every
port, and an instance that is wired to them.
-/

namespace Pinout
namespace Snippet

/-- The range of a port as it is declared: only one with a colon. -/
def declaredRange (p : Port) : Text :=
  match p.range? with
  | some range => if ':' ∈ range then Text.collapse range else []
  | none => []

/-- Inputs are driven from registers, and all other ports are read from nets. -/
def signalKind : Direction → Text
  | .input => "reg ".toList
  | .output => "wire".toList
  | .inout => "wire".toList

def parameterDeclarations (ps : List Parameter) : Text :=
  let width := tabStop (Text.longest (ps.map (·.name)) + 2) + 2
  let valueWidth := Text.longest (ps.map fun p => p.value.getD [])
  ps.flatMap fun p =>
    lineOf ["    parameter ".toList, Text.padRight width p.name, "= ".toList,
      Text.padRight valueWidth (p.value.getD []), ";  // ".toList, p.description]

def portDeclarations (ps : List Port) : Text :=
  let rangeWidth := tabStop (Text.longest (ps.map declaredRange) + 1) + 2
  let width := Text.longest (ps.map (·.name))
  ps.flatMap fun p =>
    lineOf ["    ".toList, signalKind p.direction, [' '],
      Text.padLeft rangeWidth (declaredRange p), [' '], Text.padRight width p.name,
      ";  // ".toList, p.description]

/-- Every name connected to the signal of the same name. -/
def wiring (names : List Text) : Text :=
  let width := nameWidth names
  separated [] (fun name separator => lineOf [connection width width name name, separator]) names

/-- The declarations and the instance `uut`. -/
def unitUnderTest (s : Signature) : Text :=
  (if s.parameters = [] then []
    else "    // parameters\n".toList ++ parameterDeclarations s.parameters) ++
  "    // ports\n".toList ++ portDeclarations s.ports ++ "    // module\n".toList ++
  "    ".toList ++ s.name ++
  (if s.parameters = [] then []
    else " # (\n".toList ++ wiring (s.parameters.map (·.name)) ++ "    )".toList) ++
  " uut (\n".toList ++ wiring (s.ports.map (·.name)) ++ "    );".toList

end Snippet
end Pinout
