import Pinout.Markup
import Pinout.Note.Table
import Pinout.Signature.Basic

/-!
# Pinout.Page.Table

Tables of a documentation page: the tables of the notes, and the tables that list the parameters
and ports of a module.
-/

namespace Pinout
namespace Page

/-- A cell with the attributes of its element. -/
structure Cell where
  attributes : Attributes
  text : Text

namespace Cell

def plain (t : Text) : Cell := ⟨[], t⟩

/-- Text is set to the left unless the cell says otherwise. -/
def aligned (align : Note.Align) (t : Text) : Cell :=
  match align with
  | .left => plain t
  | align => ⟨[("style", "text-align: ".toList ++ align.name)], t⟩

def markup (element : String) (c : Cell) : Markup :=
  Markup.line 3 (Markup.element element c.attributes [.text c.text])

end Cell

def row (element : String) (cells : List Cell) : Markup :=
  Markup.block 2 "tr" [] (cells.flatMap (Cell.markup element))

/-- A table with one header row. -/
def grid (head : List Text) (body : List (List Cell)) : Markup :=
  Markup.block 0 "table" []
    (Markup.block 1 "thead" [] (row "th" (head.map Cell.plain)) ++
      Markup.block 1 "tbody" [] (body.flatMap (row "td")))

/-- A table of the notes; a row shows a cell for each column that has an alignment. -/
def noteTable (t : Note.Table) : Markup :=
  grid t.head (t.body.map fun cells => List.zipWith Cell.aligned t.align cells)

/-- A table that lists items of a module; without items there is no table. -/
def listing (titles : List String) : List (List Text) → Markup
  | [] => []
  | rows => grid (titles.map String.toList) (rows.map (·.map Cell.plain))

def parameterTable (ps : List Parameter) : Markup :=
  listing ["Name", "Type", "Default", "Description"]
    (ps.map fun p => [p.name, p.type, p.value.getD [], p.description])

def portTable (ps : List Port) : Markup :=
  listing ["Name", "Direction", "Type", "Description"]
    (ps.map fun p => [p.name, p.direction.keyword, p.type, p.description])

end Page
end Pinout
