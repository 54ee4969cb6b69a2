import Pinout.Signature.Header

/-!
# Pinout.Signature.Declaration

The parameters and ports that the lists of a header declare, still without descriptions. A
parameter without a keyword and without a type has the type that was declared last with a keyword,
and a bare name in a port list has the direction and the type of the declaration before it.
-/

namespace Pinout
namespace Signature

def parameterKeywords : List Text := ["parameter".toList, "localparam".toList]

def netTypes : List Text :=
  ["wire", "wand", "wor", "tri", "tri0", "tri1", "triand", "trior", "trireg", "reg", "logic",
    "var", "supply0", "supply1", "uwire"].map String.toList

/-- The type of a port for which no net type is declared. -/
def defaultNet : Text := "(wire)".toList

/-- The parameter that an item declares, and the type that the next one inherits. A type that stands
there without a keyword is not inherited. -/
def parameterOfItem (inherited : Text) (item : Text) : Option Parameter × Text :=
  let (declared, value) := splitAssignment item
  let declared := Text.trim declared
  let (declared, inherited) :=
    match parameterKeywords.findSome? (afterKeyword? declared) with
    | some rest => (rest, Text.collapse (splitTrailingIdentifier rest).1)
    | none => (declared, inherited)
  let (type, name) := splitTrailingIdentifier declared
  if name = [] then (none, inherited)
  else
    let type := if Text.allBlank type then inherited else Text.collapse type
    (some ⟨name, type, value, []⟩, inherited)

def parametersOfItems (inherited : Text) : List Text → List Parameter
  | [] => []
  | item :: items =>
    let (parameter, inherited) := parameterOfItem inherited item
    parameter.toList ++ parametersOfItems inherited items

def parametersOf (list : Text) : List Parameter := parametersOfItems [] (splitTopLevel ',' list)

/-- The type of a port, with the default net where none is named. -/
def portType (t : Text) : Text :=
  let t := Text.collapse t
  if netTypes.contains (Text.splitIdentifier t).1 then t
  else if t = [] then defaultNet
  else defaultNet ++ ' ' :: t

/-- The port that an item declares, and the declaration that a bare name goes on with. -/
def portOfItem (current : Option (Direction × Text)) (item : Text) :
    Option Port × Option (Direction × Text) :=
  let (declared, value) := splitAssignment item
  let declared := Text.trim declared
  let (word, rest) := Text.splitIdentifier declared
  match Direction.ofKeyword? word with
  | some direction =>
    let (type, name) := splitTrailingIdentifier rest
    let type := portType type
    let port := if name = [] then none else some ⟨name, direction, type, value, []⟩
    (port, some (direction, type))
  | none =>
    match current with
    | some (direction, type) =>
      if word = [] ∨ rest ≠ [] then (none, current)
      else (some ⟨declared, direction, type, value, []⟩, current)
    | none => (none, none)

def portsOfItems (current : Option (Direction × Text)) : List Text → List Port
  | [] => []
  | item :: items =>
    let (port, current) := portOfItem current item
    port.toList ++ portsOfItems current items

def portsOf (list : Text) : List Port := portsOfItems none (splitTopLevel ',' list)

end Signature
end Pinout
