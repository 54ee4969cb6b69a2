import Pinout.Editor.Symbols
import Pinout.Extraction.Basic
import Pinout.Server.Uri

/-!
# Pinout.Server.Message

The messages between an editor and the server, and how their parameters are read and written. A
request has an identifier and gets a response, and a notification has none.
-/

namespace Pinout
namespace Server

structure Message where
  method : Text
  id : Option Json
  params : Option Json

namespace Message

def ofJson? (j : Json) : Option Message :=
  match j.field? "method".toList with
  | some (.string method) => some ⟨method, j.field? "id".toList, j.field? "params".toList⟩
  | _ => none

end Message

/-- An error in a response. -/
structure Failure where
  code : Int
  message : Text
  data : Option Json

namespace Failure

def notInitialized : Failure := ⟨-32002, "Server not initialized".toList, none⟩

def invalidRequest : Failure := ⟨-32600, "Invalid request".toList, none⟩

def methodNotFound : Failure := ⟨-32601, "Method not found".toList, none⟩

def unknownMethod (method : Text) : Failure := { methodNotFound with data := some (.string method) }

def invalidParams (message : Text) : Failure := ⟨-32602, message, none⟩

def internal (message : Text) : Failure := ⟨-32603, message, none⟩

def toJson (f : Failure) : Json :=
  .record ([("code", .int f.code), ("message", .string f.message)] ++
    match f.data with
    | some data => [("data", data)]
    | none => [])

end Failure

structure Response where
  id : Json
  outcome : Except Failure Json

def Response.toJson (r : Response) : Json :=
  match r.outcome with
  | .ok v => .record [("result", v), ("id", r.id)]
  | .error f => .record [("error", f.toJson), ("id", r.id)]

/-- A message from the server that wants no response. -/
structure Notification where
  method : String
  params : Json

def Notification.toJson (n : Notification) : Json :=
  .record [("method", .literal n.method), ("params", n.params)]

/-! ## Reading parameters -/

abbrev Params (α : Type) := Except Failure α

namespace Params

def fail {α : Type} (message : Text) : Params α := .error (.invalidParams message)

def field (name : String) (j : Json) : Params Json :=
  match j.field? name.toList with
  | some v => .ok v
  | none => fail ("missing field `".toList ++ name.toList ++ ['`'])

/-- A member that may be missing or null. -/
def optional (name : String) (j : Json) : Option Json :=
  match j.field? name.toList with
  | some .null => none
  | found => found

def text : Json → Params Text
  | .string t => .ok t
  | _ => fail "invalid type, expected a string".toList

def number : Json → Params Nat
  | .int (.ofNat n) =>
    if n < Nat.pow 2 32 then .ok n else fail "invalid value, expected u32".toList
  | _ => fail "invalid type, expected u32".toList

def integer : Json → Params Int
  | .int i =>
    if -(Nat.pow 2 31 : Int) ≤ i ∧ i < Nat.pow 2 31 then .ok i
    else fail "invalid value, expected i32".toList
  | _ => fail "invalid type, expected i32".toList

def list : Json → Params (List Json)
  | .array vs => .ok vs
  | _ => fail "invalid type, expected a sequence".toList

def uri (j : Json) : Params Uri := do
  let t ← text j
  match Uri.read t with
  | .ok u => return u
  | .error f =>
    fail ("invalid value: string ".toList ++ Json.quote t ++ ", expected ".toList ++ f.message)

def position (j : Json) : Params Editor.Position := do
  return ⟨← number (← field "line" j), ← number (← field "character" j)⟩

/-- The address of the document that parameters are about. -/
def document (j : Json) : Params Uri := do
  uri (← field "uri" (← field "textDocument" j))

end Params

/-! ## Writing results -/

def positionJson (p : Editor.Position) : Json :=
  .record [("line", .int p.line), ("character", .int p.character)]

def rangeJson (r : Editor.Range) : Json :=
  .record [("start", positionJson r.start), ("end", positionJson r.stop)]

/-- Diagnostics are told as information. -/
def diagnosticJson (d : Editor.Diagnostic) : Json :=
  .record [("range", rangeJson d.range), ("severity", .int 3), ("source", .literal "hdldoc"),
    ("message", .string d.message)]

def kindCode : Editor.SymbolKind → Int
  | .module => 2
  | .field => 8
  | .constant => 14

def symbolMembers (s : Editor.Symbol) : List (String × Json) :=
  [("name", .string s.name)] ++
    (match s.detail with
      | some t => [("detail", .string t)]
      | none => []) ++
    [("kind", .int (kindCode s.kind)), ("range", rangeJson s.range),
      ("selectionRange", rangeJson s.range)]

def outlineJson (o : Editor.Outline) : Json :=
  .record (symbolMembers o.module ++
    [("children", .array (o.items.map fun s => .record (symbolMembers s)))])

def hoverJson (t : Text) : Json :=
  .record [("contents", .record [("kind", .literal "markdown"), ("value", .string t)])]

end Server
end Pinout
