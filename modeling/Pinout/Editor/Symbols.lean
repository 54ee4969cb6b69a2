import Pinout.Editor.Position
import Pinout.Signature.Extract
import Pinout.Text.Blank

/-!
# Pinout.Editor.Symbols

What an editor shows of a document: the outline of its module, the text at an identifier, and the
diagnostics.
-/

namespace Pinout
namespace Editor

/-! ## Outline -/

inductive SymbolKind where
  | module
  | constant
  | field
  deriving DecidableEq, Repr

structure Symbol where
  name : Text
  detail : Option Text
  kind : SymbolKind
  range : Range
  deriving DecidableEq, Repr

/-- A module with its parameters and ports. -/
structure Outline where
  module : Symbol
  items : List Symbol
  deriving DecidableEq, Repr

/-- Whether the keyword of modules stands before a range, in the same line. -/
def followsModule (t : Text) (r : Range) : Bool :=
  match t.lines[r.start.line]? with
  | some line =>
    let before := Text.trimEnd (line.take r.start.character)
    (Text.dropLead? "module".toList.reverse before.reverse).isSome
  | none => false

/-- What a position leaves to be searched: the lines from its own on, and on its own the characters
behind it. -/
def Position.left (t : Text) (p : Position) : Nat × Nat :=
  (t.lines.length - p.line, (t.lines[p.line]?.getD []).length - p.character)

/-- Behind what is found less is left. -/
theorem left_of_findIdentifier? {t name : Text} {origin : Position} {r : Range}
    (h : findIdentifier? t name origin = some r) :
    Prod.Lex (· < ·) (· < ·) (r.stop.left t) (origin.left t) := by
  rw [findIdentifier?] at h
  split at h
  · cases h
  · next hne =>
    obtain ⟨i, line, start, hi, hc, rfl, -⟩ := exists_of_findInLines? h
    have hpos := List.length_pos_iff.2 hne
    have hbounds := bounds_of_columnFrom? hc
    rw [List.getElem?_drop] at hi
    obtain ⟨hlt, -⟩ := List.getElem?_eq_some_iff.1 hi
    simp only [Position.left, rangeAt, hi, Option.getD_some]
    cases i with
    | zero =>
      rw [Nat.add_zero] at hi
      rw [hi, Option.getD_some]
      refine .right _ ?_
      rw [if_pos rfl] at hbounds
      omega
    | succ i => exact .left _ _ (by omega)

/-- The first occurrence of a name at or behind a position that follows the keyword of modules. An
occurrence that does not is passed over, and the search goes on behind it. -/
def moduleRangeFrom? (t name : Text) (origin : Position) : Option Range :=
  match _h : findIdentifier? t name origin with
  | none => none
  | some r => if followsModule t r then some r else moduleRangeFrom? t name r.stop
termination_by origin.left t
decreasing_by exact left_of_findIdentifier? _h

/-- Where the name of a module is: behind the keyword if it stands there anywhere, and at its first
occurrence otherwise. -/
def moduleRange? (t name : Text) : Option Range :=
  moduleRangeFrom? t name .zero <|> findIdentifier? t name .zero

/-- The range of an item: its first occurrence behind the name of the module, or that name. -/
def itemRange (t name : Text) (moduleRange : Range) : Range :=
  (findIdentifier? t name moduleRange.stop).getD moduleRange

def portDetail (p : Port) : Text := p.direction.keyword ++ ' ' :: p.type

def outlineOf (t : Text) (s : Signature) : Outline :=
  let range := (moduleRange? t s.name).getD .zero
  ⟨⟨s.name, none, .module, range⟩,
    s.parameters.map (fun p => ⟨p.name, p.value, .constant, itemRange t p.name range⟩) ++
      s.ports.map (fun p => ⟨p.name, some (portDetail p), .field, itemRange t p.name range⟩)⟩

/-- The outline of a document with a module. -/
def outline? (t : Text) : Option Outline :=
  let s := Signature.ofSource t
  if s.isAbsent then none else some (outlineOf t s)

/-! ## Hover texts -/

/-- A declaration as a block of code, with a description below it. -/
def described (declaration description : Text) : Text :=
  "```verilog\n".toList ++ declaration ++ "\n```".toList ++
    if description = [] then [] else '\n' :: '\n' :: description

def parameterHover (p : Parameter) : Text :=
  let type := if p.type = [] then [] else ' ' :: p.type
  let value := match p.value with
    | some v => " = ".toList ++ v
    | none => []
  described ("parameter".toList ++ type ++ ' ' :: p.name ++ value) p.description

def portHover (p : Port) : Text :=
  described (p.direction.keyword ++ ' ' :: p.type ++ ' ' :: p.name) p.description

def moduleHover (s : Signature) : Text :=
  described ("module ".toList ++ s.name)
    (Text.decimal s.parameters.length ++ " parameter(s), ".toList ++
      Text.decimal s.ports.length ++ " port(s)".toList)

/-- What is known of a name: of a parameter first, then of a port, then of the module. -/
def hoverOf? (s : Signature) (word : Text) : Option Text :=
  match s.parameter? word, s.port? word with
  | some p, _ => some (parameterHover p)
  | none, some p => some (portHover p)
  | none, none => if !s.isAbsent && s.name == word then some (moduleHover s) else none

/-- The text to show at a position. -/
def hover? (t : Text) (p : Position) : Option Text := do
  hoverOf? (Signature.ofSource t) (← identifierAt? t p)

/-! ## Diagnostics -/

structure Diagnostic where
  range : Range
  message : Text
  deriving DecidableEq, Repr

/-- A document without a module is told so, at its start. -/
def diagnostics (t : Text) : List Diagnostic :=
  if (Signature.ofSource t).isAbsent then [⟨.zero, "no module header found".toList⟩] else []

end Editor
end Pinout
