import Pinout.Note.Segment

/-!
# Pinout.Note.Document

Documentation lines as a document. Wave blocks are found first; in the lines between them tables
are found, and every other line is a segment of its own unless it is blank.

What is given up on the way is a warning: a wave block that never closes, a payload that cannot be
read, and an alignment row that does not fit its header row.
-/

namespace Pinout
namespace Note

inductive Warning where
  | unterminated (line : Nat)
  | mismatch (line head align : Nat)
  | dropped (fault : Wave.Fault)

namespace Warning

def message : Warning → Text
  | unterminated line => "dropping unterminated wave block at doc line ".toList ++ Text.decimal line
  | mismatch line head align =>
    "doc line ".toList ++ Text.decimal line ++ ": table header has ".toList ++ Text.decimal head ++
      " column(s) but alignment row has ".toList ++ Text.decimal align
  | dropped (.notObject v) =>
    "dropping wave block: payload is not a mapping (".toList ++ v.compact ++ [')']
  | dropped .notJson => "dropping wave block".toList
  | dropped .notYaml => "dropping wave_yaml block".toList

end Warning

/-- A document with the warnings met on the way, both in the order of the lines. -/
structure Reading extends Document where
  warnings : List Warning

namespace Reading

def empty : Reading := ⟨⟨[], false⟩, []⟩

def append (a b : Reading) : Reading := ⟨a.toDocument ++ b.toDocument, a.warnings ++ b.warnings⟩

instance : Append Reading := ⟨append⟩

def segment (s : Segment) : Reading := ⟨⟨[s], false⟩, []⟩

/-- A wave diagram, for which the page needs its scripts. -/
def wave (indent : Nat) (v : Json) : Reading := ⟨⟨[⟨indent, .wave v⟩], true⟩, []⟩

def warning (w : Warning) : Reading := ⟨⟨[], false⟩, [w]⟩

/-- A line that belongs to no table. -/
def ofLine (line : Text) : Reading :=
  match classify? line with
  | some content => segment ⟨indentOf line, content⟩
  | none => empty

/-- Lines without wave blocks, of which the first is line `number`. -/
def ofLines (number : Nat) (lines : List Text) : Reading :=
  match lines with
  | first :: second :: third :: rest =>
    match Table.start first second third with
    | .table indent head align =>
      let rows := third :: rest.takeWhile (Table.isRowAt indent)
      let body := rows.map fun row => Table.fitTo head.length (Table.cells row)
      segment ⟨indent, .table ⟨head, align, body⟩⟩ ++
        ofLines (number + 2 + rows.length) (rest.dropWhile (Table.isRowAt indent))
    | .mismatch head align =>
      warning (.mismatch number head align) ++ ofLine first ++
        ofLines (number + 1) (second :: third :: rest)
    | .none => ofLine first ++ ofLines (number + 1) (second :: third :: rest)
  | first :: rest => ofLine first ++ ofLines (number + 1) rest
  | [] => empty
termination_by lines.length
decreasing_by
  · have : (rest.dropWhile (Table.isRowAt indent)).length ≤ rest.length :=
      (List.dropWhile_sublist _).length_le
    simp only [List.length_cons]
    omega
  all_goals simp

/-- The wave diagram of a payload. -/
def ofPayload (o : Wave.Opening) (t : Text) : Reading :=
  match Wave.payload o.format t with
  | .ok v => wave o.indent v
  | .error fault => warning (.dropped fault)

/-- Lines of which the first is line `number`. A wave block that never closes swallows the rest. -/
def ofBlocks (number : Nat) (lines : List Text) : Reading :=
  match _ho : Wave.firstOpening? lines with
  | none => ofLines number lines
  | some (before, o, behind) =>
    match _hb : Wave.body? o behind with
    | some (t, rest) =>
      ofLines number before ++ ofPayload o t ++ ofBlocks (number + lines.length - rest.length) rest
    | none => warning (.unterminated (number + before.length)) ++ ofLines number before
termination_by lines.length
decreasing_by
  have := Wave.length_of_firstOpening? _ho
  have := Wave.length_of_body? _hb
  omega

end Reading

namespace Document

/-- The document that documentation lines describe, and the warnings. -/
def ofLines (lines : List Text) : Document × List Warning :=
  let reading := Reading.ofBlocks 1 lines
  (reading.toDocument, reading.warnings)

end Document
end Note
end Pinout
