import Pinout.Text.Basic

/-!
# Pinout.Signature.Basic

The interface of a module: its name, its parameters and its ports, in the order in which they are
declared. A signature without a name stands for a text without a module.
-/

namespace Pinout

inductive Direction where
  | input
  | output
  | inout
  deriving DecidableEq, Repr

namespace Direction

def keyword : Direction → Text
  | input => "input".toList
  | output => "output".toList
  | inout => "inout".toList

def ofKeyword? (word : Text) : Option Direction :=
  [input, output, inout].find? fun d => d.keyword == word

end Direction

structure Parameter where
  name : Text
  type : Text
  value : Option Text
  description : Text
  deriving DecidableEq, Repr

structure Port where
  name : Text
  direction : Direction
  type : Text
  value : Option Text
  description : Text
  deriving DecidableEq, Repr

structure Signature where
  name : Text
  parameters : List Parameter
  ports : List Port
  deriving DecidableEq, Repr

namespace Port

/-- The text from the first `[` of the type to its last `]`, if that comes later. -/
def range? (p : Port) : Option Text :=
  let before := p.type.takeWhile (· ≠ '[')
  let behind := (p.type.reverse.takeWhile (· ≠ ']')).length
  let size := p.type.length - before.length - behind
  if '[' ∈ p.type ∧ ']' ∈ p.type ∧ before.length + behind + 1 < p.type.length then
    some ((p.type.drop before.length).take size)
  else none

end Port

namespace Signature

/-- The signature of a text without a module. -/
def absent : Signature := ⟨[], [], []⟩

def isAbsent (s : Signature) : Bool := s.name.isEmpty

/-- Inputs, drawn on the left. -/
def leftPorts (s : Signature) : List Port := s.ports.filter (·.direction == .input)

/-- Outputs and inouts, drawn on the right. -/
def rightPorts (s : Signature) : List Port := s.ports.filter (·.direction != .input)

def parameter? (name : Text) (s : Signature) : Option Parameter :=
  s.parameters.find? (·.name == name)

def port? (name : Text) (s : Signature) : Option Port := s.ports.find? (·.name == name)

end Signature
end Pinout
