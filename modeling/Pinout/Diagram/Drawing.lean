import Pinout.Diagram.Layout
import Pinout.Markup

/-!
# Pinout.Diagram.Drawing

A block diagram as a list of shapes, and the shapes as vector graphics. Coordinates are integers,
so that a shape that sticks out on the left or at the top is seen as such; `Shape.points` gives
the points between which a shape lies. They are written as unsigned words of 64 bits.
-/

namespace Pinout
namespace Diagram

/-- Whether the text of a label starts or ends at its position. -/
inductive Anchor where
  | start
  | finish
  deriving DecidableEq, Repr

inductive Shape where
  | rect (x y width height : Int) (fill : String)
  | line (x₁ x₂ y : Int)
  | polyline (points : List (Int × Int))
  | label (x y : Int) (anchor : Anchor) (t : Text)
  deriving DecidableEq, Repr

namespace Shape

/-- A filled box with a black outline. -/
def box (b : Box) (fill : String) : List Shape :=
  [.rect b.x b.y b.width b.height "black",
    .rect (b.x + border) (b.y + border) (b.width - 2 * border) (b.height - 2 * border) fill]

/-- The points that a shape is drawn through; a label stands at one point. -/
def points : Shape → List (Int × Int)
  | rect x y width height _ => [(x, y), (x + width, y + height)]
  | line x₁ x₂ y => [(x₁, y), (x₂, y)]
  | polyline points => points
  | label x y _ _ => [(x, y)]

end Shape

/-- The points of a glyph, to the left of its tip and above or below it. -/
def Glyph.offsets : Glyph → List (Int × Int)
  | stub => []
  | arrow => [(0, 0), (5, -5), (15, -5), (15, 5), (5, 5), (0, 0)]
  | diamond => [(0, 0), (5, -5), (10, -5), (15, 0), (10, 5), (5, 5), (0, 0)]

/-- A glyph whose tip is at `(x, y)`. -/
def Glyph.shapes (x y : Int) : Glyph → List Shape
  | stub => []
  | glyph => [.polyline (glyph.offsets.map fun (dx, dy) => (x - dx, y + dy))]

namespace Layout

/-- The right edge of the boxes. -/
def rightEdge (l : Layout) : Int := l.portBox.x + l.portBox.width

/-- The stub of a pin on the left edge of a box. -/
def leftStub (l : Layout) (p : Pin) : Shape := .line (l.margin - stubLength) l.margin p.lineY

def parameterShapes (l : Layout) (p : Pin) : List Shape :=
  [l.leftStub p, .label (l.margin + 5) p.textY .start p.name]

def portShapes (l : Layout) (p : Pin) : List Shape :=
  match p.side with
  | .left =>
    [l.leftStub p, .label (l.margin + 20) p.textY .start p.name,
      .label (l.margin - 15) p.textY .finish p.type]
  | .right =>
    .line l.rightEdge (l.rightEdge + stubLength) p.lineY ::
      p.glyph.shapes (l.rightEdge - border) p.lineY ++
      [.label (l.rightEdge - 22) p.textY .finish p.name,
        .label (l.rightEdge + 15) p.textY .start p.type]

/-- All shapes of a diagram, in the order in which they are drawn. -/
def shapes (l : Layout) : List Shape :=
  (match l.parameterBox with
    | some b => Shape.box b "#bdecb6" ++ l.parameterPins.flatMap l.parameterShapes
    | none => []) ++
  Shape.box l.portBox "#fdfd96" ++ l.portPins.flatMap l.portShapes

end Layout

/-- A coordinate as an unsigned word of 64 bits, in decimal. -/
def wordText (i : Int) : Text := Text.decimal (i % Nat.pow 2 64).toNat

/-- An attribute whose value is a coordinate or a length. -/
def measure (name : String) (i : Int) : String × Text := (name, wordText i)

namespace Shape

def pointText (p : Int × Int) : Text := wordText p.1 ++ ',' :: wordText p.2

def anchorAttributes : Anchor → Attributes
  | .start => []
  | .finish => [("text-anchor", "end".toList)]

def markup : Shape → Markup
  | rect x y width height fill =>
    Markup.element "rect"
      [measure "x" x, measure "y" y, measure "width" width, measure "height" height,
        ("fill", fill.toList)] []
  | line x₁ x₂ y =>
    Markup.element "line"
      [measure "x1" x₁, measure "y1" y, measure "x2" x₂, measure "y2" y,
        ("stroke", "black".toList), measure "stroke-width" border] []
  | polyline points =>
    Markup.element "polyline"
      [("points", Text.joinWith [' '] (points.map pointText)),
        ("style", "fill:none; stroke:black; stroke-width:2".toList)] []
  | label x y anchor t =>
    Markup.element "text"
      ([measure "x" x, measure "y" y] ++ anchorAttributes anchor ++ [measure "font-size" fontSize])
      [.text t]

end Shape

/-- The drawing of a layout. -/
def Layout.markup (l : Layout) : Markup :=
  Markup.block 0 "svg"
    [("xmlns", "http://www.w3.org/2000/svg".toList), ("version", "1.1".toList),
      ("viewBox", "0 0 ".toList ++ Text.decimal l.width ++ ' ' :: Text.decimal l.height)]
    (l.shapes.flatMap fun s => Markup.line 1 s.markup)

/-- The block diagram of a signature; without ports it is empty. -/
def ofSignature (s : Signature) : Markup :=
  match layout? s with
  | some l => l.markup
  | none => []

end Diagram
end Pinout
