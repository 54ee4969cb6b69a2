import Pinout.Note.Table
import Pinout.Note.Wave

/-!
# Pinout.Note.Segment

The segments of a documentation: headers, list items, plain text, tables and wave diagrams, each
with its indentation. A line of text keeps its marker; `title` and `itemBody` read past it.
-/

namespace Pinout
namespace Note

inductive Content where
  | plain (text : Text)
  | header (text : Text)
  | item (text : Text)
  | table (table : Table)
  | wave (payload : Json)

structure Segment where
  indent : Nat
  content : Content

/-- The segments, and whether the page needs the scripts that draw wave diagrams. -/
structure Document where
  segments : List Segment
  hasWave : Bool

namespace Document

/-- One document below another. -/
def append (a b : Document) : Document := ⟨a.segments ++ b.segments, a.hasWave || b.hasWave⟩

instance : Append Document := ⟨append⟩

end Document

namespace Content

def isWave : Content → Bool
  | wave _ => true
  | _ => false

def isTable : Content → Bool
  | table _ => true
  | _ => false

end Content

/-- A number sign followed by a blank. -/
def isHeader : Text → Bool
  | '#' :: c :: _ => Text.isBlank c
  | _ => false

/-- The text behind a `*`, `+`, `-` or `12.` that a blank follows. -/
def afterItemMarker? (t : Text) : Option Text :=
  let rest := match t with
    | '*' :: t | '+' :: t | '-' :: t => some t
    | t =>
      match t.takeWhile Char.isDigit, t.dropWhile Char.isDigit with
      | _ :: _, '.' :: t => some t
      | _, _ => none
  match rest with
  | some (c :: t) => if Text.isBlank c then some (c :: t) else none
  | _ => none

/-- What a line of text is; a blank line is nothing. -/
def classify? (line : Text) : Option Content :=
  let t := line.trim
  if t = [] then none
  else if isHeader t then some (.header t)
  else if (afterItemMarker? t).isSome then some (.item t)
  else some (.plain t)

/-- A header without its number signs. -/
def title (t : Text) : Text := Text.trim (t.trimStart.dropWhile (· == '#'))

/-- A list item without its marker. -/
def itemBody (t : Text) : Text := Text.trim ((afterItemMarker? t.trimStart).getD t.trimStart)

end Note
end Pinout
