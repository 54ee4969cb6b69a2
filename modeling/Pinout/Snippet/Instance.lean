import Pinout.Signature.Basic
import Pinout.Snippet.Column

/-!
# Pinout.Snippet.Instance

The instantiation of a module: every parameter and every port connected to a signal, one a line,
with the description of the item as a comment.

```text
    adder # (
        .WIDTH  (8  )   // bit width
    ) u_adder (
        .a      (a      ),  // input, (wire) [WIDTH-1:0], operand a
        .sum    (sum    )   // output, (wire) [WIDTH-1:0],
    );
```
-/

namespace Pinout
namespace Snippet

/-- The default of a parameter; one without a default is connected to a signal of its name. -/
def parameterValue (p : Parameter) : Text := p.value.getD p.name

def parameterConnections (ps : List Parameter) : Text :=
  let width := nameWidth (ps.map (·.name))
  let valueWidth := tabStop (Text.longest (ps.map parameterValue)) + 3
  separated [' '] (fun p separator =>
    lineOf [connection width valueWidth p.name (parameterValue p), separator, "  // ".toList,
      p.description]) ps

def portConnections (ps : List Port) : Text :=
  let width := nameWidth (ps.map (·.name))
  separated [' '] (fun p separator =>
    lineOf [connection width width p.name p.name, separator, "  // ".toList, p.direction.keyword,
      ", ".toList, p.type, ", ".toList, p.description]) ps

/-- The instantiation of a module under a name that is its own behind `instancePrefix`. It is empty
without a module or without ports. -/
def instantiation (instancePrefix : Text) (s : Signature) : Text :=
  if s.name = [] ∨ s.ports = [] then []
  else
    "    ".toList ++ s.name ++
      (if s.parameters = [] then []
      else " # (\n".toList ++ parameterConnections s.parameters ++ "    )".toList) ++
      ' ' :: instancePrefix ++ s.name ++ " (\n".toList ++ portConnections s.ports ++
      "    );\n".toList

end Snippet
end Pinout
