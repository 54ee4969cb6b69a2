import Pinout.Note.Indent
import Pinout.Text.Blank

/-!
# Pinout.Note.Table

Tables drawn with pipes: a header row, an alignment row with as many cells, and body rows, all of
one indentation. A backslash before a pipe makes it part of a cell.
-/

namespace Pinout
namespace Note

inductive Align where
  | left
  | center
  | right
  deriving DecidableEq, Repr

structure Table where
  head : List Text
  align : List Align
  body : List (List Text)
  deriving DecidableEq, Repr

namespace Align

/-- Hyphens only, and at least `least` of them. -/
def isRule (least : Nat) (t : Text) : Bool := least ≤ t.length && t.all (· == '-')

/-- `:---:` is centred, `---:` is set to the right, and anything else to the left. -/
def ofToken (token : Text) : Align :=
  let t := token.trim
  if t.head? = some ':' ∧ 2 ≤ t.length ∧ t.getLast? = some ':' ∧ isRule 1 (t.drop 1).dropLast then
    center
  else if t.getLast? = some ':' ∧ isRule 2 t.dropLast then right
  else left

/-- The name of the alignment in style sheets. -/
def name : Align → Text
  | left => "left".toList
  | center => "center".toList
  | right => "right".toList

end Align

namespace Table

/-- The pieces of a row between pipes that no backslash precedes; `escaped` says that one stands
before the text. -/
def splitPipes (escaped : Bool) : Text → List Text
  | [] => [[]]
  | c :: t =>
    if c = '|' ∧ !escaped then [] :: splitPipes false t
    else
      match splitPipes (c == '\\') t with
      | [] => [[c]]
      | piece :: pieces => (c :: piece) :: pieces

def dropLeadingPipe : Text → Text
  | '|' :: t => t
  | t => t

/-- Drops a pipe at the end, unless a backslash stands before it. -/
def dropTrailingPipe (t : Text) : Text :=
  if t.getLast? = some '|' ∧ t.dropLast.getLast? ≠ some '\\' then t.dropLast else t

def unescapePipes : Text → Text
  | [] => []
  | [c] => [c]
  | c :: d :: t =>
    if c = '\\' ∧ d = '|' then '|' :: unescapePipes t else c :: unescapePipes (d :: t)

/-- The trimmed cells of a row; the pipes around the row may be missing. -/
def cells (line : Text) : List Text :=
  (splitPipes false (dropTrailingPipe (dropLeadingPipe line.trim))).map fun piece =>
    unescapePipes piece.trim

/-- Some pipe that no backslash precedes stands behind the first character. -/
def hasInnerPipe (previous : Char) : Text → Bool
  | [] => false
  | c :: t => (c == '|' && previous != '\\') || hasInnerPipe c t

def isRow (line : Text) : Bool :=
  match dropLeadingPipe line.trim with
  | [] => false
  | c :: t => hasInnerPipe c t

/-- Hyphens, with a colon or a hyphen at either end, three characters or more. -/
def isAlignToken (t : Text) : Bool :=
  let isEnd (c : Char) : Bool := c == ':' || c == '-'
  3 ≤ t.length && t.head?.any isEnd && t.getLast?.any isEnd && (t.drop 1).dropLast.all (· == '-')

def isAlignRow (line : Text) : Bool :=
  line.trim.contains '|' && (cells line.trim).all isAlignToken

/-- A row cut or filled up with empty cells to `width` cells. -/
def fitTo (width : Nat) (row : List Text) : List Text :=
  row.take width ++ List.replicate (width - row.length) []

/-- What three lines that stand one below the other say of a table. -/
inductive Start where
  | none
  | mismatch (head align : Nat)
  | table (indent : Nat) (head : List Text) (align : List Align)

def isRowAt (indent : Nat) (line : Text) : Bool := isRow line && indentOf line == indent

/-- A table starts at a row above an alignment row above a row. -/
def start (first second third : Text) : Start :=
  let indent := indentOf first
  if isRow first && isAlignRow second && indentOf second == indent && isRowAt indent third then
    let head := cells first
    let align := (cells second).map Align.ofToken
    if align.length = head.length then .table indent head align
    else .mismatch head.length align.length
  else .none

end Table
end Note
end Pinout
