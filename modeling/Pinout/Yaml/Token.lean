import Pinout.Yaml.Scalar

/-!
# Pinout.Yaml.Token

A YAML text as tokens. Block structure is read off the columns: a collection starts where a token
stands further right than the collection around it, and ends where one stands further left.

A key without a question mark is known as a key only at the colon behind it. So each place that may
start such a key is remembered, one for every open flow collection and one outside of them, and the
token that says so is put there afterwards.
-/

namespace Pinout
namespace Yaml

inductive Token where
  | version (major minor : Text)
  | tagPrefix (handle uri : Text)
  | documentStart
  | documentEnd
  | blockSequence
  | blockMapping
  | blockEnd
  | flowSequence
  | flowSequenceEnd
  | flowMapping
  | flowMappingEnd
  | entry
  | comma
  | key
  | value
  | alias (name : Text)
  | anchor (name : Text)
  | tag (handle suffix : Text)
  | scalar (plain : Bool) (text : Text)
  deriving DecidableEq, Repr

/-- A place that may start a key, with the number of tokens before it. -/
structure KeyPlace where
  position : Nat
  line : Nat
  column : Nat
  required : Bool

/-- What is known between two tokens: the tokens so far, last first, and their number; the columns
of the open block collections, innermost first; for the innermost collection and those around it
the place that may start a key; and whether a key may start here. -/
structure Scan where
  cursor : Cursor
  tokens : List Token
  size : Nat
  indent : Int
  outerIndents : List Int
  keyPlace : Option KeyPlace
  outerKeyPlaces : List (Option KeyPlace)
  keyAllowed : Bool

namespace Scan

def start (t : Text) : Scan := ⟨⟨t, 0, 0⟩, [], 0, -1, [], none, [], true⟩

def inFlow (s : Scan) : Bool := !s.outerKeyPlaces.isEmpty

def push (token : Token) (s : Scan) : Scan :=
  { s with tokens := token :: s.tokens, size := s.size + 1 }

/-- Puts tokens, last first, behind the first `position` tokens. -/
def insertAt (position : Nat) (tokens : List Token) (s : Scan) : Scan :=
  let behind := s.size - position
  { s with
    tokens := s.tokens.take behind ++ tokens ++ s.tokens.drop behind
    size := s.size + tokens.length }

def moveTo (c : Cursor) (s : Scan) : Scan := { s with cursor := c }

def skip (n : Nat) (s : Scan) : Scan := s.moveTo (s.cursor.skip n)

/-- Past blanks, comments and line endings. Tabs do not count as blanks where a key may start
outside flow collections. -/
def skipGap : Nat → Scan → Scan
  | 0, s => s
  | fuel + 1, s =>
    let c := match s.cursor.column, s.cursor.rest with
      | 0, '\uFEFF' :: _ => s.cursor.skip 1
      | _, _ => s.cursor
    let blank := fun a => a == ' ' || (a == '\t' && (s.inFlow || !s.keyAllowed))
    let c := (c.skipWhile blank).skipComment
    if c.rest ≠ [] ∧ atLineEnd c.rest then
      skipGap fuel { s with cursor := c.skipBreak, keyAllowed := s.keyAllowed || !s.inFlow }
    else s.moveTo c

/-- A key lies on one line and is at most 1024 characters long. -/
def isStale (c : Cursor) (k : KeyPlace) : Bool := k.line < c.line || k.column + 1024 < c.column

def dropIfStale? (c : Cursor) : Option KeyPlace → Option (Option KeyPlace)
  | none => some none
  | some k => if isStale c k then if k.required then none else some none else some (some k)

/-- Forgets the places of keys that have become too long; a required key must not. -/
def dropStaleKeys? (s : Scan) : Option Scan := do
  let keyPlace ← dropIfStale? s.cursor s.keyPlace
  let outer ← s.outerKeyPlaces.mapM (dropIfStale? s.cursor)
  return { s with keyPlace := keyPlace, outerKeyPlaces := outer }

/-- Forgets the place of a key of the innermost collection, unless one is required there. -/
def dropKey? (s : Scan) : Option Scan :=
  match s.keyPlace with
  | some k => if k.required then none else some { s with keyPlace := none }
  | none => some s

/-- Remembers that a key may start here. -/
def saveKey? (s : Scan) : Option Scan :=
  if s.keyAllowed then do
    let s ← s.dropKey?
    let required := !s.inFlow && s.indent == (s.cursor.column : Int)
    return { s with keyPlace := some ⟨s.size, s.cursor.line, s.cursor.column, required⟩ }
  else some s

def allowKey (allowed : Bool) (s : Scan) : Scan := { s with keyAllowed := allowed }

/-- Opens a block collection at a column further right than the one around it. -/
def openBlock (column : Nat) (position : Nat) (token : Token) (s : Scan) : Scan :=
  if !s.inFlow && s.indent < (column : Int) then
    { s.insertAt position [token] with
      indent := column
      outerIndents := s.indent :: s.outerIndents }
  else s

/-- Closes the block collections further right than `column`. -/
def closeBlocks (column : Int) (s : Scan) : Scan :=
  if s.inFlow then s else go s.outerIndents s
where
  go : List Int → Scan → Scan
    | [], s => s
    | outer :: rest, s =>
      if column < s.indent then
        go rest { s.push .blockEnd with indent := outer, outerIndents := rest }
      else s

/-- A token of `n` characters before which no key is pending. -/
def mark? (n : Nat) (token : Token) (s : Scan) : Option Scan := do
  return (← s.dropKey?).push token |>.skip n

/-- All blocks end at the start or end of a document. -/
def marker? (token : Token) (s : Scan) : Option Scan :=
  ((s.closeBlocks (-1)).mark? 3 token).map (allowKey false)

def openFlow? (token : Token) (s : Scan) : Option Scan := do
  let s ← s.saveKey?
  let s := { s with outerKeyPlaces := s.keyPlace :: s.outerKeyPlaces, keyPlace := none }
  return (s.push token).skip 1 |>.allowKey true

def closeFlow? (token : Token) (s : Scan) : Option Scan := do
  let s ← s.dropKey?
  let s := match s.outerKeyPlaces with
    | k :: rest => { s with keyPlace := k, outerKeyPlaces := rest }
    | [] => s
  return (s.push token).skip 1 |>.allowKey false

def comma? (s : Scan) : Option Scan := (s.mark? 1 .comma).map (allowKey true)

/-- A hyphen or a question mark opens a block collection only where a key may start. -/
def openIndicated? (collection : Token) (s : Scan) : Option Scan :=
  if s.inFlow then some s
  else if s.keyAllowed then some (s.openBlock s.cursor.column s.size collection)
  else none

def entry? (s : Scan) : Option Scan := do
  return (← (← s.openIndicated? .blockSequence).mark? 1 .entry).allowKey true

def key? (s : Scan) : Option Scan := do
  let s ← s.openIndicated? .blockMapping
  return (← s.mark? 1 .key).allowKey (!s.inFlow)

/-- A colon makes a key of the place remembered; without one it stands for an empty key. -/
def value? (s : Scan) : Option Scan :=
  match s.keyPlace with
  | some k =>
    let s := (s.insertAt k.position [.key]).openBlock k.column k.position .blockMapping
    some (({ s with keyPlace := none, keyAllowed := false }.push .value).skip 1)
  | none => do
    let s ← s.openIndicated? .blockMapping
    return ((s.allowKey (!s.inFlow)).push .value).skip 1

/-- A token that may start a key, and the place behind it. -/
def content? (token : Token) (behind : Cursor) (s : Scan) : Option Scan := do
  return ((← s.saveKey?).push token).moveTo behind |>.allowKey false

/-- The name behind `&` or `*`. -/
def name? (c : Cursor) : Option (Text × Cursor) :=
  let name := c.rest.takeWhile isNameChar
  let c := c.skip name.length
  let ended := atGap c.rest || c.rest.head?.any ("?:,]\x7d%@`".toList.contains ·)
  if name = [] ∨ !ended then none else some (name, c)

def anchored? (token : Text → Token) (s : Scan) : Option Scan := do
  let (name, c) ← name? (s.cursor.skip 1)
  s.content? (token name) c

def isUriChar (c : Char) : Bool := isNameChar c || ";/?:@&=+$.!~*'()".toList.contains c

/-- The bytes of UTF-8 that percent signs spell, at the head of a text. -/
def percentBytes : Nat → Text → List UInt8 × Text
  | fuel + 1, '%' :: a :: b :: t =>
    match Json.hexNumber? [a, b] with
    | some n =>
      let (bytes, rest) := percentBytes fuel t
      (UInt8.ofNat n :: bytes, rest)
    | none => ([], '%' :: a :: b :: t)
  | _, t => ([], t)

/-- The characters of a tag; `flow` says that commas and brackets belong to it. -/
def uri? (flow : Bool) : Nat → Text → Option (Text × Text)
  | 0, _ => none
  | fuel + 1, t =>
    match t with
    | [] => some ([], [])
    | '%' :: _ =>
      let (bytes, rest) := percentBytes fuel t
      if bytes = [] then none
      else do
        let decoded ← String.fromUTF8? ⟨bytes.toArray⟩
        let (uri, rest) ← uri? flow fuel rest
        some (decoded.toList ++ uri, rest)
    | c :: t =>
      if isUriChar c || (flow && (c == ',' || c == '[' || c == ']')) then
        (uri? flow fuel t).map fun (uri, rest) => (c :: uri, rest)
      else some ([], c :: t)

/-- A handle: `!`, `!!` or `!name!`; the closing mark may be missing. -/
def handle? : Text → Option (Text × Text)
  | '!' :: t =>
    let name := t.takeWhile isNameChar
    match t.dropWhile isNameChar with
    | '!' :: rest => some ('!' :: name ++ ['!'], rest)
    | rest => some ('!' :: name, rest)
  | _ => none

/-- The handle and suffix of a tag. A tag `!` by itself has no handle. -/
def tagParts? (t : Text) : Option (Text × Text × Text) :=
  match t with
  | '!' :: '<' :: t => do
    let (uri, t) ← uri? true (t.length + 1) t
    match t with
    | '>' :: t => if uri = [] then none else some ([], uri, t)
    | _ => none
  | _ => do
    let (handle, t) ← handle? t
    let (uri, t) ← uri? false (t.length + 1) t
    if 1 < handle.length ∧ handle.getLast? = some '!' then
      if uri = [] then none else some (handle, uri, t)
    else
      let suffix := handle.drop 1 ++ uri
      if suffix = [] then some ([], ['!'], t) else some (['!'], suffix, t)

def tag? (s : Scan) : Option Scan := do
  let (handle, suffix, rest) ← tagParts? s.cursor.rest
  if atGap rest || (s.inFlow && rest.head? == some ',') then
    s.content? (.tag handle suffix) (s.cursor.skip (s.cursor.rest.length - rest.length))
  else none

/-- The digits of a version number, nine at most. -/
def versionDigits? (t : Text) : Option (Text × Text) :=
  let digits := t.takeWhile Char.isDigit
  if digits = [] ∨ 9 < digits.length then none else some (digits, t.dropWhile Char.isDigit)

def skipBlankText (t : Text) : Text := t.dropWhile isBlank

/-- The directive behind `%`. -/
def directiveParts? (t : Text) : Option (Token × Text) := do
  let name := t.takeWhile isNameChar
  let t := t.dropWhile isNameChar
  if !atGap t then none
  else if name = "YAML".toList then
    let (major, t) ← versionDigits? (skipBlankText t)
    match t with
    | '.' :: t =>
      let (minor, t) ← versionDigits? t
      some (.version major minor, t)
    | _ => none
  else if name = "TAG".toList then
    let (handle, t) ← handle? (skipBlankText t)
    if handle ≠ ['!'] ∧ handle.getLast? ≠ some '!' then none
    else if !t.head?.any isBlank then none
    else
      let t := skipBlankText t
      let (uri, t) ← uri? true (t.length + 1) t
      if uri = [] ∨ !atGap t then none else some (.tagPrefix handle uri, t)
  else none

def directive? (s : Scan) : Option Scan := do
  let s := s.closeBlocks (-1)
  let s ← s.dropKey?
  let c := s.cursor.skip 1
  let (token, rest) ← directiveParts? c.rest
  let c ← (c.skip (c.rest.length - rest.length)).finishLine?
  return (s.push token).moveTo c |>.allowKey false

def blockScalar? (literal : Bool) (s : Scan) : Option Scan := do
  let s ← s.dropKey?
  let (text, c) ← block? literal s.indent (s.cursor.skip 1)
  return (s.push (.scalar false text)).moveTo c |>.allowKey true

def quotedScalar? (quote : Char) (s : Scan) : Option Scan := do
  let c := s.cursor.skip 1
  let (text, behind) ← quoted? quote (c.rest.length + 1) [] c
  s.content? (.scalar false text) behind

def plainScalar? (s : Scan) : Option Scan := do
  let (text, broken, behind) ←
    plain? s.inFlow (s.indent + 1).toNat (s.cursor.rest.length + 1) {} [] s.cursor
  let s ← s.content? (.scalar true text) behind
  return s.allowKey broken

/-- The characters that start no plain scalar, but for a hyphen, question mark or colon that stands
before some other character. -/
def isIndicator (c : Char) : Bool := "-?:,[]#&*!|>'\"%@`".toList.contains c || c == '{' || c == '}'

/-- The token that starts with `c`. -/
def token? (c : Char) (t : Text) (s : Scan) : Option Scan :=
  let column := s.cursor.column
  let gap := atGap t
  if column = 0 ∧ c = '%' then s.directive?
  else if column = 0 ∧ atMarker '-' (c :: t) then s.marker? .documentStart
  else if column = 0 ∧ atMarker '.' (c :: t) then s.marker? .documentEnd
  else if c = '[' then s.openFlow? .flowSequence
  else if c = '{' then s.openFlow? .flowMapping
  else if c = ']' then s.closeFlow? .flowSequenceEnd
  else if c = '}' then s.closeFlow? .flowMappingEnd
  else if c = ',' then s.comma?
  else if c = '-' ∧ gap then s.entry?
  else if c = '?' ∧ (s.inFlow ∨ gap) then s.key?
  else if c = ':' ∧ (s.inFlow ∨ gap) then s.value?
  else if c = '*' then s.anchored? .alias
  else if c = '&' then s.anchored? .anchor
  else if c = '!' then s.tag?
  else if c = '|' ∧ !s.inFlow then s.blockScalar? true
  else if c = '>' ∧ !s.inFlow then s.blockScalar? false
  else if c = '\'' ∨ c = '"' then s.quotedScalar? c
  else if !(isBlank c || isBreak c || isIndicator c) ∨ (c = '-' ∧ !t.head?.any isBlank) ∨
      (!s.inFlow ∧ (c = '?' ∨ c = ':') ∧ !gap) then s.plainScalar?
  else none

/-- The tokens from here to the end. -/
def run? : Nat → Scan → Option (List Token)
  | 0, _ => none
  | fuel + 1, s => do
    let s ← (s.skipGap (s.cursor.rest.length + 1)).dropStaleKeys?
    let s := s.closeBlocks s.cursor.column
    match s.cursor.rest with
    | [] => return (← (s.closeBlocks (-1)).dropKey?).tokens.reverse
    | c :: t => run? fuel (← s.token? c t)

end Scan

/-- Drops the byte order mark. -/
def dropMark : Text → Text
  | '\uFEFF' :: t => t
  | t => t

/-- The tokens of a text. -/
def tokens? (t : Text) : Option (List Token) :=
  if t.all isAllowed then
    let t := unifyBreaks (dropMark t)
    Scan.run? (t.length + 1) (Scan.start t)
  else none

end Yaml
end Pinout
