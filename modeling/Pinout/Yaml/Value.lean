import Pinout.Json.Number
import Pinout.Yaml.Event

/-!
# Pinout.Yaml.Value

The JSON value of a YAML document.

A plain scalar is null, a boolean, an integer or a number if it is written like one, and otherwise
a string; every other scalar is a string, unless its tag asks for one of these. Keys are always
strings, as written. An alias stands for a copy of its node. Anchors are numbered by how many names
were in use when they were read, and an alias means the last node with the number of its name.
-/

namespace Pinout
namespace Yaml

def isNull (t : Text) : Bool :=
  ["null", "Null", "NULL", "~"].any (·.toList == t)

def bool? (t : Text) : Option Bool :=
  if ["true", "True", "TRUE"].any (·.toList == t) then some true
  else if ["false", "False", "FALSE"].any (·.toList == t) then some false
  else none

/-- Digits that start with a zero, which are no number. -/
def isPaddedDigits (t : Text) : Bool :=
  match t with
  | '-' :: '0' :: d | '+' :: '0' :: d | '0' :: d => d != [] && d.all Char.isDigit
  | _ => false

/-- The number written in a base of at most sixteen. -/
def inBase? (base : Nat) (digits : Text) : Option Nat :=
  if digits = [] then none
  else digits.foldl (fun n? c => do
    let n ← n?
    let d ← Json.hexValue? c
    if d < base then some (n * base + d) else none) (some 0)

/-- The number written in base sixteen, eight or two with the sign of the base in front. -/
def prefixed? : Text → Option Nat
  | '0' :: 'x' :: t => inBase? 16 t
  | '0' :: 'o' :: t => inBase? 8 t
  | '0' :: 'b' :: t => inBase? 2 t
  | _ => none

/-- A natural number, or a whole number with a sign. -/
def integer? (t : Text) : Option Int :=
  let natural? (t t' : Text) : Option Nat :=
    prefixed? t' <|> (if isPaddedDigits t then none else inBase? 10 t')
  match t with
  | '-' :: t' => (natural? t t').map fun n => -(n : Int)
  | '+' :: t' => (natural? t t').map Int.ofNat
  | t' => (natural? t t').map Int.ofNat

/-- Digits, with a point among or beside them, and an exponent. -/
def decimal? (negative : Bool) (t : Text) : Option Binary64 :=
  let whole := t.takeWhile Char.isDigit
  let t := t.dropWhile Char.isDigit
  let (fraction, t) := match t with
    | '.' :: t => (t.takeWhile Char.isDigit, t.dropWhile Char.isDigit)
    | t => ([], t)
  if whole ++ fraction = [] then none
  else do
    let (exponent, t) ← Json.Literal.exponent? t
    if t = [] then
      Binary64.ofDecimal? negative (Text.ofDecimal (whole ++ fraction))
        (exponent.getD 0 - fraction.length)
    else none

/-- A number with a point or an exponent, or one that is not finite, for which there is no JSON
number. -/
def real? (t : Text) : Option Json :=
  let unsigned := match t with
    | '+' :: t => t
    | '-' :: t => t
    | t => t
  if [".inf", ".Inf", ".INF"].any (·.toList == unsigned) ||
      [".nan", ".NaN", ".NAN"].any (·.toList == t) then some .null
  else (decimal? (t.head? == some '-') unsigned).map .real

/-- An integer that 64 bits hold; the error is one that 128 bits hold, which is refused. -/
def wholeNumber (t : Text) : Except Unit (Option Json) :=
  match integer? t with
  | none => .ok none
  | some i =>
    if -(Nat.pow 2 63 : Int) ≤ i ∧ i < Nat.pow 2 64 then .ok (some (.int i))
    else if -(Nat.pow 2 127 : Int) ≤ i ∧ i < Nat.pow 2 128 then .error ()
    else .ok none

/-- The value of a plain scalar without a tag. -/
def untagged? (t : Text) : Option Json :=
  if t = [] ∨ isNull t then some .null
  else
    match bool? t, wholeNumber t with
    | some b, _ => some (.bool b)
    | none, .error _ => none
    | none, .ok (some v) => some v
    | none, .ok none =>
      if isPaddedDigits t then some (.string t) else some ((real? t).getD (.string t))

def tagUri (name : String) : Text := "tag:yaml.org,2002:".toList ++ name.toList

/-- The value of a scalar. A tag of the document's own is refused. -/
def scalar? (tag : Option Text) (plain : Bool) (t : Text) : Option Json :=
  match tag with
  | none => if plain then untagged? t else some (.string t)
  | some tag =>
    if tag.head? = some '!' then none
    else if tag = tagUri "bool" then (bool? t).map .bool
    else if tag = tagUri "int" then
      match wholeNumber t with
      | .ok v => v
      | .error _ => none
    else if tag = tagUri "float" then real? t
    else if tag = tagUri "null" then if isNull t then some .null else none
    else some (.string t)

def isOwnTag (p : Properties) : Bool := p.tag.any (·.head? == some '!')

/-- The numbers of anchor names, and the offsets of the nodes behind numbers, last first. -/
structure Anchors where
  numbers : List (Text × Nat) := []
  offsets : List (Nat × Nat) := []

def Anchors.define (name : Text) (offset : Nat) (a : Anchors) : Anchors :=
  let number := a.numbers.length
  { numbers := (name, number) :: a.numbers.filter (·.1 ≠ name)
    offsets := (number, offset) :: a.offsets }

/-- An event in which an alias knows the number of its anchor. -/
inductive Numbered where
  | alias (number : Nat)
  | scalar (tag : Option Text) (plain : Bool) (text : Text)
  | sequence (ownTag : Bool)
  | mapping (ownTag : Bool)
  | groupEnd

def anchor? : Event → Option Text
  | .scalar p _ _ | .sequence p | .mapping p => p.anchor
  | _ => none

/-- The event with its number; an alias of no anchor is refused. -/
def numbered? (a : Anchors) : Event → Option Numbered
  | .alias name => (a.numbers.lookup name).map .alias
  | .scalar p plain t => some (.scalar p.tag plain t)
  | .sequence p => some (.sequence (isOwnTag p))
  | .mapping p => some (.mapping (isOwnTag p))
  | .sequenceEnd | .mappingEnd => some .groupEnd

/-- Numbers the events from `offset` on. -/
def number? (a : Anchors) (offset : Nat) : List Event → Option (List Numbered × Anchors)
  | [] => some ([], a)
  | e :: es => do
    let n ← numbered? a e
    let a := match anchor? e with
      | some name => a.define name offset
      | none => a
    let (rest, a) ← number? a (offset + 1) es
    some (n :: rest, a)

/-- A document: its events, and the offsets of the nodes that aliases mean. -/
structure Document where
  events : List Numbered
  offsets : List (Nat × Nat)

namespace Document

/-- How many groups may be open at once. -/
def maxDepth : Nat := 128

/-- How many aliases may be followed. -/
def maxAliases (d : Document) : Nat := 100 * d.events.length

def ofEvents? (es : List Event) : Option Document :=
  (number? {} 0 es).map fun (events, a) => ⟨events, a.offsets⟩

/-- The events of the node an alias means, while fewer than the allowed number were followed. -/
def follow? (d : Document) (number followed : Nat) : Option (List Numbered) :=
  if followed < d.maxAliases then (d.offsets.lookup number).map d.events.drop else none

/-- A key: a scalar, whatever its tag, or an alias of one. -/
def key? (d : Document) (followed : Nat) : List Numbered → Option (Text × Nat × List Numbered)
  | .scalar _ _ t :: es => some (t, followed, es)
  | .alias n :: es => do
    match ← d.follow? n followed with
    | .scalar _ _ t :: _ => some (t, followed + 1, es)
    | _ => none
  | _ => none

mutual

/-- The value of a node with `depth` more groups allowed, after `followed` aliases. -/
def value? (d : Document) : Nat → Nat → Nat → List Numbered → Option (Json × Nat × List Numbered)
  | 0, _, _, _ => none
  | _ + 1, _, _, [] => none
  | fuel + 1, depth, followed, e :: es =>
    match e, depth with
    | .alias n, depth => do
      let node ← d.follow? n followed
      let (v, followed, _) ← value? d fuel depth (followed + 1) node
      some (v, followed, es)
    | .scalar tag plain t, _ => (scalar? tag plain t).map (·, followed, es)
    | .sequence false, depth + 1 => do
      let (vs, followed, es) ← items? d fuel depth followed es
      some (.array vs, followed, es)
    | .mapping false, depth + 1 => do
      let (ms, followed, es) ← members? d fuel depth followed es
      some (.object (Json.ofEntries ms), followed, es)
    | _, _ => none

def items? (d : Document) : Nat → Nat → Nat → List Numbered →
    Option (List Json × Nat × List Numbered)
  | 0, _, _, _ => none
  | _ + 1, _, followed, .groupEnd :: es => some ([], followed, es)
  | fuel + 1, depth, followed, es => do
    let (v, followed, es) ← value? d fuel depth followed es
    let (vs, followed, es) ← items? d fuel depth followed es
    some (v :: vs, followed, es)

def members? (d : Document) : Nat → Nat → Nat → List Numbered →
    Option (Json.Members × Nat × List Numbered)
  | 0, _, _, _ => none
  | _ + 1, _, followed, .groupEnd :: es => some ([], followed, es)
  | fuel + 1, depth, followed, es => do
    let (key, followed, es) ← d.key? followed es
    let (v, followed, es) ← value? d fuel depth followed es
    let (ms, followed, es) ← members? d fuel depth followed es
    some ((key, v) :: ms, followed, es)

end

/-- The value of the whole document. Each open group runs through at most all events. -/
def toJson? (d : Document) : Option Json :=
  let fuel := (maxDepth + 2) * (2 * d.events.length + 4)
  (d.value? fuel maxDepth 0 d.events).map (·.1)

end Document

/-- The value that a YAML text is. -/
def read? (t : Text) : Option Json := do
  (← Document.ofEvents? (← Event.ofTokens? (← tokens? t))).toJson?

end Yaml
end Pinout
