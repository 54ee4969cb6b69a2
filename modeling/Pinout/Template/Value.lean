import Pinout.Binary64.Extended
import Pinout.Json.Value
import Pinout.Text.Blank

/-!
# Pinout.Template.Value

The values that a template computes with. Printing a value gives the text that an output tag writes;
inside a list or a map strings are quoted.

What has no value, such as a variable nobody set, is `undefined`: it prints as nothing and counts
as false.
-/

namespace Pinout
namespace Template

inductive Value where
  | undefined
  | none
  | bool (b : Bool)
  | int (i : Int)
  | real (x : Binary64.Extended)
  | string (t : Text)
  | list (items : List Value)
  | map (entries : List (Text × Value))
  deriving Repr

namespace Value

abbrev Entries := List (Text × Value)

/-- Whether a text comes before another in the order of characters. -/
def before : Text → Text → Bool
  | _, [] => false
  | [], _ :: _ => true
  | c :: s, d :: t => c.toNat < d.toNat || (c == d && before s t)

/-- Adds an entry behind all entries with lesser keys. -/
def insertSorted (key : Text) (v : Value) : Entries → Entries
  | [] => [(key, v)]
  | (k, w) :: rest =>
    if before k key then (k, w) :: insertSorted key v rest else (key, v) :: (k, w) :: rest

def lookup? (key : Text) : Entries → Option Value
  | [] => Option.none
  | (k, v) :: rest => if k = key then some v else lookup? key rest

mutual

/-- The value of JSON data; the entries of a map are in the order of their keys. -/
def ofJson : Json → Value
  | .null => none
  | .bool b => bool b
  | .int i => int i
  | .real x => real (.finite x)
  | .string t => string t
  | .array items => list (ofItems items)
  | .object members => map (ofMembers members)

def ofItems : List Json → List Value
  | [] => []
  | v :: rest => ofJson v :: ofItems rest

def ofMembers : List (Text × Json) → Entries
  | [] => []
  | (k, v) :: rest => insertSorted k (ofJson v) (ofMembers rest)

end

def isTrue : Value → Bool
  | undefined => false
  | none => false
  | bool b => b
  | int i => i != 0
  | real x => !x.isZero
  | string t => !t.isEmpty
  | list items => !items.isEmpty
  | map entries => !entries.isEmpty

/-! ## Printing -/

/-- Outside of groups a number is written without an exponent. -/
def plainLayout : Binary64.Layout := ⟨fun _ => true, false⟩

/-- Inside groups positional notation ends below `0.0001` and from `10 ^ 16` on. -/
def groupLayout : Binary64.Layout := ⟨fun point => -4 < point && point ≤ 16, false⟩

/-- Characters that cannot be seen or that join the character before them. -/
def isHidden (c : Char) : Bool :=
  let n := c.toNat
  n < 0x20 || (0x7F ≤ n && n ≤ 0xA0) || n == 0xAD || (0x300 ≤ n && n ≤ 0x36F) ||
    (Text.isBlank c && n != 0x20) || (0x200B ≤ n && n ≤ 0x200F) || (0x202A ≤ n && n ≤ 0x202E) ||
    (0x2060 ≤ n && n ≤ 0x206F) || (0x20D0 ≤ n && n ≤ 0x20F0) || (0xE000 ≤ n && n ≤ 0xF8FF) ||
    (0xFE00 ≤ n && n ≤ 0xFE0F) || n == 0xFEFF || (0xFFF0 ≤ n && n ≤ 0xFFFB) || 0xE0000 ≤ n

/-- Lower case hexadecimal digits without leading zeros. -/
def hexadecimal (n : Nat) : Text := Nat.toDigits 16 n

def quoteChar (c : Char) : Text :=
  if c = '"' then ['\\', '"']
  else if c = '\\' then ['\\', '\\']
  else if c = '\n' then ['\\', 'n']
  else if c = '\r' then ['\\', 'r']
  else if c = '\t' then ['\\', 't']
  else if c = '\x00' then ['\\', '0']
  else if isHidden c then "\\u\x7b".toList ++ hexadecimal c.toNat ++ ['}']
  else [c]

def quote (t : Text) : Text := '"' :: t.flatMap quoteChar ++ ['"']

def boolText (b : Bool) : Text := if b then "True".toList else "False".toList

mutual

/-- A value inside a list or a map. -/
def quoted : Value → Text
  | undefined => "undefined".toList
  | none => "None".toList
  | bool b => boolText b
  | int i => Text.decimalInt i
  | real x => x.toText groupLayout
  | string t => quote t
  | list items => '[' :: quotedItems items ++ [']']
  | map entries => '{' :: quotedEntries entries ++ ['}']

def quotedItems : List Value → Text
  | [] => []
  | [v] => quoted v
  | v :: rest => quoted v ++ ", ".toList ++ quotedItems rest

def quotedEntries : List (Text × Value) → Text
  | [] => []
  | [(k, v)] => quote k ++ ": ".toList ++ quoted v
  | (k, v) :: rest => quote k ++ ": ".toList ++ quoted v ++ ", ".toList ++ quotedEntries rest

end

/-- The text that an output tag writes. -/
def toText : Value → Text
  | undefined => []
  | real x => x.toText plainLayout
  | string t => t
  | v => quoted v

/-! ## Parts -/

/-- The integer that a number or a truth value is, if it is one. -/
def toInt? : Value → Option Int
  | bool b => some (if b then 1 else 0)
  | int i => some i
  | real (.finite x) => x.toInt?
  | _ => Option.none

def toReal? : Value → Option Binary64.Extended
  | bool b => some (.ofInt (if b then 1 else 0))
  | int i => some (.ofInt i)
  | real x => some x
  | _ => Option.none

/-- The item at a position, counted from the end if it is negative. -/
def itemAt? {α : Type} (items : List α) (i : Int) : Option α :=
  if 0 ≤ i then items[i.toNat]?
  else if i.natAbs ≤ items.length then items[items.length - i.natAbs]?
  else Option.none

/-- The entry or item that a key stands for; `none` where there is none. -/
def item? (key : Value) : Value → Option Value
  | list items => key.toInt? >>= itemAt? items
  | string t => (key.toInt? >>= itemAt? t).map fun c => string [c]
  | map entries =>
    match key with
    | string k => lookup? k entries
    | _ => Option.none
  | _ => Option.none

/-- What a loop over the value runs through. -/
def items? : Value → Option (List Value)
  | undefined => some []
  | none => some []
  | string t => some (t.map fun c => string [c])
  | list items => some items
  | map entries => some (entries.map fun (k, _) => string k)
  | _ => Option.none

def length? : Value → Option Nat
  | string t => some t.length
  | list items => some items.length
  | map entries => some entries.length
  | _ => Option.none

/-! ## Equality -/

mutual

/-- Equality of values: numbers and truth values are compared as numbers. -/
def same : Value → Value → Bool
  | undefined, undefined => true
  | none, none => true
  | string s, string t => s == t
  | list as, list bs => sameItems as bs
  | map as, map bs => sameEntries as bs
  | real x, real y => x.sameValue y
  | a, b =>
    match a.toInt?, b.toInt? with
    | some i, some j => i == j
    | _, _ => false

def sameItems : List Value → List Value → Bool
  | [], [] => true
  | a :: as, b :: bs => same a b && sameItems as bs
  | _, _ => false

def sameEntries : List (Text × Value) → List (Text × Value) → Bool
  | [], [] => true
  | (k, a) :: as, (l, b) :: bs => k == l && same a b && sameEntries as bs
  | _, _ => false

end

end Value
end Template
end Pinout
