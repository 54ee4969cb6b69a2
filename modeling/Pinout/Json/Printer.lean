import Pinout.Binary64.Shortest
import Pinout.Json.Value

/-!
# Pinout.Json.Printer

JSON values as text: `compact`, without blanks, and `pretty`, with one member or item a line and
two spaces of indentation.

A string is written with the short escapes where there are any and the other control characters
below a space as `\u00xx`. A number that is no integer is written with the fewest digits that read
back, positionally from `0.00001` up to seventeen places before the point.
-/

namespace Pinout
namespace Json

/-- Positional notation ends below `0.00001` and from `10 ^ 16` on. -/
def layout : Binary64.Layout := ⟨fun point => -5 < point && point ≤ 16, true⟩

def hexDigit (n : Nat) : Char := if n < 10 then Text.digit n else Char.ofNat ('a'.toNat + n - 10)

/-- A character inside quotes. -/
def escape (c : Char) : Text :=
  if c = '"' then ['\\', '"']
  else if c = '\\' then ['\\', '\\']
  else if c = '\x08' then ['\\', 'b']
  else if c = '\x0c' then ['\\', 'f']
  else if c = '\n' then ['\\', 'n']
  else if c = '\r' then ['\\', 'r']
  else if c = '\t' then ['\\', 't']
  else if c.toNat < 0x20 then
    "\\u00".toList ++ [hexDigit (c.toNat / 16), hexDigit (c.toNat % 16)]
  else [c]

def quote (t : Text) : Text := '"' :: t.flatMap escape ++ ['"']

mutual

/-- The value without any blanks. -/
def compact : Json → Text
  | null => "null".toList
  | bool b => if b then "true".toList else "false".toList
  | int i => Text.decimalInt i
  | real x => x.toText layout
  | string t => quote t
  | array items => '[' :: compactItems items ++ [']']
  | object members => '{' :: compactMembers members ++ ['}']

def compactItems : List Json → Text
  | [] => []
  | [v] => compact v
  | v :: rest => compact v ++ ',' :: compactItems rest

def compactMembers : List (Text × Json) → Text
  | [] => []
  | [(k, v)] => quote k ++ ':' :: compact v
  | (k, v) :: rest => quote k ++ ':' :: compact v ++ ',' :: compactMembers rest

end

/-- The start of a line at a depth of nesting. -/
def newLine (depth : Nat) : Text := '\n' :: Text.spaces (2 * depth)

mutual

/-- The value over lines, where `depth` groups are open around it; an empty group stays closed. -/
def prettyAt (depth : Nat) : Json → Text
  | array [] => "[]".toList
  | array items => '[' :: prettyItems (depth + 1) items ++ newLine depth ++ [']']
  | object [] => "\x7b\x7d".toList
  | object members => '{' :: prettyMembers (depth + 1) members ++ newLine depth ++ ['}']
  | null => "null".toList
  | bool b => if b then "true".toList else "false".toList
  | int i => Text.decimalInt i
  | real x => x.toText layout
  | string t => quote t

def prettyItems (depth : Nat) : List Json → Text
  | [] => []
  | [v] => newLine depth ++ prettyAt depth v
  | v :: rest => newLine depth ++ prettyAt depth v ++ ',' :: prettyItems depth rest

def prettyMembers (depth : Nat) : List (Text × Json) → Text
  | [] => []
  | [(k, v)] => newLine depth ++ quote k ++ ": ".toList ++ prettyAt depth v
  | (k, v) :: rest =>
    newLine depth ++ quote k ++ ": ".toList ++ prettyAt depth v ++ ',' :: prettyMembers depth rest

end

def pretty (v : Json) : Text := prettyAt 0 v

end Json
end Pinout
