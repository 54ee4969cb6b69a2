import Pinout.Json.Printer
import Pinout.Note.Document
import Pinout.Signature.Extract

/-!
# Pinout.Extraction.Basic

Everything that is read from a source: the signature of its first module, its documentation, and
the warnings met on the way. `toJson` is the record that a dump shows.
-/

namespace Pinout

structure Extraction where
  signature : Signature
  document : Note.Document
  warnings : List Note.Warning

namespace Extraction

def ofSource (source : Text) : Extraction :=
  let views := Source.views source
  let (document, warnings) := Note.Document.ofLines views.docLines
  ⟨Signature.ofViews views, document, warnings⟩

end Extraction

/-! ## Records -/

namespace Json

/-- An object with the members in the order given. -/
def record (members : List (String × Json)) : Json :=
  object (members.map fun (k, v) => (k.toList, v))

def literal (s : String) : Json := string s.toList

def ofTexts (ts : List Text) : Json := array (ts.map string)

def ofOption : Option Text → Json
  | some t => string t
  | none => null

end Json

def Parameter.toJson (p : Parameter) : Json :=
  .record [("name", .string p.name), ("type", .string p.type), ("value", .ofOption p.value),
    ("description", .string p.description)]

def Port.toJson (p : Port) : Json :=
  .record [("name", .string p.name), ("direction", .string p.direction.keyword),
    ("type", .string p.type), ("value", .ofOption p.value),
    ("description", .string p.description)]

def Signature.toJson (s : Signature) : Json :=
  .record [("name", .string s.name), ("parameters", .array (s.parameters.map Parameter.toJson)),
    ("ports", .array (s.ports.map Port.toJson))]

namespace Note

def Table.toJson (t : Table) : Json :=
  .record [("thead", .ofTexts t.head), ("align", .array (t.align.map fun a => .string a.name)),
    ("tbody", .array (t.body.map .ofTexts))]

/-- The kind of a segment, and what it holds. -/
def Content.toJson : Content → String × Json
  | plain t => ("plain_text", .string t)
  | header t => ("header", .string t)
  | item t => ("list_item", .string t)
  | table t => ("table", t.toJson)
  | wave v => ("wave_diagram", .record [("data", v)])

def Segment.toJson (s : Segment) : Json :=
  let (type, data) := s.content.toJson
  .record [("indent", .int s.indent), ("type", .literal type), ("data", data)]

def Document.toJson (d : Document) : Json :=
  .record [("segments", .array (d.segments.map Segment.toJson)),
    ("has_wave_diagram", .bool d.hasWave)]

end Note

def Extraction.toJson (e : Extraction) : Json :=
  .record [("signature", e.signature.toJson), ("annotations", e.document.toJson)]

end Pinout
