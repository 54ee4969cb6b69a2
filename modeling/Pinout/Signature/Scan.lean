import Pinout.Text.Blank
import Pinout.Text.Word

/-!
# Pinout.Signature.Scan

Cutting a declaration into its parts: at a place outside string literals, at separators outside
literals and brackets, at the equals sign, and before the identifier at the end. Brackets of all
kinds count alike, and a closing bracket too many is passed over.
-/

namespace Pinout
namespace Signature

/-- The text before the first place outside string literals where `stops` holds, and the text from
there on. Inside a literal a backslash takes the next character with it. -/
def splitUnquoted? (stops : Text → Bool) (inLiteral : Bool) : Text → Option (Text × Text)
  | [] => none
  | [c] => if !inLiteral && stops [c] then some ([], [c]) else none
  | c :: d :: t =>
    if inLiteral && c == '\\' then
      (splitUnquoted? stops true t).map fun (before, rest) => (c :: d :: before, rest)
    else if c = '"' then
      (splitUnquoted? stops (!inLiteral) (d :: t)).map fun (before, rest) => (c :: before, rest)
    else if !inLiteral && stops (c :: d :: t) then some ([], c :: d :: t)
    else
      (splitUnquoted? stops inLiteral (d :: t)).map fun (before, rest) => (c :: before, rest)

def isOpening (c : Char) : Bool := c == '(' || c == '[' || c == '{'

def isClosing (c : Char) : Bool := c == ')' || c == ']' || c == '}'

/-- The number of open brackets behind `c`. -/
def depthAfter (depth : Nat) (c : Char) : Nat :=
  if isOpening c then depth + 1 else if isClosing c then depth - 1 else depth

/-- Where a scanner stands: in code, in a string literal, or behind a backslash in one. -/
inductive Mode where
  | code
  | literal
  | escape
  deriving DecidableEq, Repr

def Mode.after : Mode → Char → Mode
  | .code, c => if c = '"' then .literal else .code
  | .literal, c => if c = '\\' then .escape else if c = '"' then .code else .literal
  | .escape, _ => .literal

/-- The pieces between the separators that stand outside literals and brackets. -/
def pieces (separator : Char) (mode : Mode) (depth : Nat) : Text → List Text
  | [] => [[]]
  | c :: t =>
    if mode = .code ∧ c = separator ∧ depth = 0 then [] :: pieces separator .code 0 t
    else
      let depth := if mode = .code then depthAfter depth c else depth
      match pieces separator (mode.after c) depth t with
      | [] => [[c]]
      | piece :: more => (c :: piece) :: more

/-- The trimmed items between top-level separators, without empty ones. -/
def splitTopLevel (separator : Char) (t : Text) : List Text :=
  ((pieces separator .code 0 t).map Text.trim).filter (· ≠ [])

/-- The text before the first equals sign outside brackets, and the text behind it. -/
def splitEquals (depth : Nat) : Text → Text × Option Text
  | [] => ([], none)
  | c :: t =>
    if c = '=' ∧ depth = 0 then ([], some t)
    else
      let (before, value) := splitEquals (depthAfter depth c) t
      (c :: before, value)

/-- What is declared, and the collapsed value; an empty value is none. -/
def splitAssignment (item : Text) : Text × Option Text :=
  let (declared, value) := splitEquals 0 item
  (declared, value.bind fun v => if Text.collapse v = [] then none else some (Text.collapse v))

/-- The text before the identifier at the end of a text, and the identifier, empty when there is
none. -/
def splitTrailingIdentifier (t : Text) : Text × Text :=
  let t := Text.trimEnd t
  let name := (t.reverse.takeWhile Text.isWordChar).reverse
  if name.head?.any Text.isWordStart then (t.take (t.length - name.length), name) else (t, [])

/-- The text behind a keyword, unless an identifier character follows it. -/
def afterKeyword? (t keyword : Text) : Option Text :=
  (Text.dropLead? keyword t).filter Text.endsWord

end Signature
end Pinout
