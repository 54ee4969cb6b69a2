import Pinout.Signature.Basic

/-!
# Pinout.Diagram.Layout

The layout of a block diagram. A box of ports is drawn below an optional box of parameters, with
the inputs on its left edge and all other ports on its right edge, one row for each pin. Room for
type labels is left on either side of the boxes.
-/

namespace Pinout
namespace Diagram

def charWidth : Nat := 10

/-- The distance between two rows. -/
def rowPitch : Nat := 20

/-- The height of a box beyond its rows. -/
def boxPadding : Nat := 10

/-- The gap between the two boxes. -/
def boxGap : Nat := 10

def stubLength : Nat := 10

/-- The thickness of the outline of a box. -/
def border : Nat := 2

def fontSize : Nat := 18

structure Box where
  x : Nat
  y : Nat
  width : Nat
  height : Nat
  deriving DecidableEq, Repr

inductive Side where
  | left
  | right
  deriving DecidableEq, Repr

/-- What is drawn inside the edge of a box: nothing beside the stub of the pin, an arrow that
points outwards, or a double arrow. -/
inductive Glyph where
  | stub
  | arrow
  | diamond
  deriving DecidableEq, Repr

def Glyph.ofDirection : Direction → Glyph
  | .input => stub
  | .output => arrow
  | .inout => diamond

/-- A pin with the baseline of its label. Pins of parameters have no type label. -/
structure Pin where
  name : Text
  type : Text
  side : Side
  glyph : Glyph
  textY : Nat
  deriving DecidableEq, Repr

/-- The height of the stub, at the middle of the label. -/
def Pin.lineY (p : Pin) : Int := (p.textY : Int) - 5

structure Layout where
  width : Nat
  height : Nat
  margin : Nat
  parameterBox : Option Box
  portBox : Box
  parameterPins : List Pin
  portPins : List Pin
  deriving DecidableEq, Repr

/-- The box width that holds the longest parameter name, and the longest names of either side next
to each other. -/
def boxWidth (s : Signature) : Nat :=
  30 + charWidth * max (Text.longest (s.parameters.map (·.name)))
    (Text.longest (s.leftPorts.map (·.name)) + Text.longest (s.rightPorts.map (·.name)))

/-- The room beside the boxes, for the longest type label. -/
def marginWidth (s : Signature) : Nat :=
  charWidth * Text.longest (s.parameters.map (·.type) ++ s.ports.map (·.type)) + 10

/-- The height of a box with so many rows. -/
def boxHeight (rows : Nat) : Nat := rowPitch * rows + boxPadding

/-- The items of one side as pins in consecutive rows below `top`. -/
def pinRows {α : Type} (pin : α → Nat → Pin) (top : Nat) (items : List α) : List Pin :=
  items.zipIdx.map fun (item, i) => pin item (top + rowPitch * (i + 1))

def parameterPin (p : Parameter) (textY : Nat) : Pin := ⟨p.name, [], .left, .stub, textY⟩

def portPin (side : Side) (p : Port) (textY : Nat) : Pin :=
  ⟨p.name, p.type, side, .ofDirection p.direction, textY⟩

/-- The top of the port box. -/
def portTop (s : Signature) : Nat :=
  if s.parameters = [] then 0 else boxHeight s.parameters.length + boxGap

/-- The layout for a signature; without ports nothing is drawn. -/
def layout? (s : Signature) : Option Layout :=
  if s.ports = [] then none
  else
    let portBox : Box :=
      ⟨marginWidth s, portTop s, boxWidth s, boxHeight (max s.leftPorts.length s.rightPorts.length)⟩
    some {
      width := boxWidth s + marginWidth s * 2
      height := portBox.y + portBox.height
      margin := marginWidth s
      parameterBox :=
        if s.parameters = [] then none
        else some ⟨marginWidth s, 0, boxWidth s, boxHeight s.parameters.length⟩
      portBox
      parameterPins := pinRows parameterPin 0 s.parameters
      portPins :=
        pinRows (portPin .left) (portTop s) s.leftPorts ++
          pinRows (portPin .right) (portTop s) s.rightPorts }

end Diagram
end Pinout
