import Pinout.Signature.Basic
import Pinout.Template.Render

/-!
# Pinout.Template.Interface

The interface of a module as values for templates. The entries of a map are in the order of their
keys.
-/

namespace Pinout
namespace Template

def binding (name : String) (v : Value) : Text × Value := (name.toList, v)

def parameterValue (p : Parameter) : Value :=
  .map [binding "description" (.string p.description), binding "name" (.string p.name),
    binding "type" (.string p.type),
    binding "value" (match p.value with
      | some t => .string t
      | none => .none)]

def portValue (p : Port) : Value :=
  .map [binding "description" (.string p.description),
    binding "direction" (.string p.direction.keyword), binding "name" (.string p.name),
    binding "type" (.string p.type),
    binding "value" (match p.value with
      | some t => .string t
      | none => .none)]

/-- The variables for the items of a module. -/
def interface (s : Signature) : Frame :=
  [binding "parameters" (.list (s.parameters.map parameterValue)),
    binding "hasParameters" (.bool !s.parameters.isEmpty),
    binding "ports" (.list (s.ports.map portValue)),
    binding "hasPorts" (.bool !s.ports.isEmpty)]

/-- A node that writes a variable. -/
def Node.ofVariable (name : String) : Node := .output (.reference name.toList)

/-- A node that writes lines. -/
def Node.ofLines (lines : List String) : Node := .text (lines.flatMap fun l => l.toList ++ ['\n'])

def Node.ofString (s : String) : Node := .text s.toList

end Template
end Pinout
