import Pinout.Binary64.Extended
import Pinout.Text.Blank

/-!
# Pinout.Template.Token

A template as a list of parts: plain text, output tags `{{ … }}` and statement tags `{% … %}`, with
the tokens that stand in a tag. Comments `{# … #}` are left out, and what stands between
`{% raw %}` and `{% endraw %}` is plain text.

A hyphen next to the inner side of a delimiter trims the plain text on its outer side.
-/

namespace Pinout
namespace Template

inductive Token where
  | name (t : Text)
  | string (t : Text)
  | int (n : Nat)
  | real (x : Binary64.Extended)
  | mark (t : Text)
  deriving DecidableEq, Repr

namespace Token

/-- Blank characters inside of tags. -/
def isSpace (c : Char) : Bool := c == ' ' || c == '\t' || c == '\n' || c == '\x0c' || c == '\r'

def isNameChar (c : Char) : Bool := c.isAlphanum || c == '_'

/-! ## Strings -/

/-- The text of a string up to the delimiter, as it is written, and the rest. -/
def rawString? (delimiter : Char) : Text → Option (Text × Text)
  | [] => none
  | [c] => if c = delimiter then some ([], []) else none
  | c :: d :: t =>
    if c = delimiter then some ([], d :: t)
    else if c = '\\' then (rawString? delimiter t).map fun (s, rest) => (c :: d :: s, rest)
    else (rawString? delimiter (d :: t)).map fun (s, rest) => (c :: s, rest)

def hexValue? (c : Char) : Option Nat :=
  if c.isDigit then some (c.toNat - '0'.toNat)
  else if 'a' ≤ c ∧ c ≤ 'f' then some (c.toNat - 'a'.toNat + 10)
  else if 'A' ≤ c ∧ c ≤ 'F' then some (c.toNat - 'A'.toNat + 10)
  else none

def hexNumber? (t : Text) : Option Nat :=
  t.foldlM (fun n c => (hexValue? c).map (16 * n + ·)) 0

def simpleEscape? (c : Char) : Option Char :=
  if c = '"' ∨ c = '\\' ∨ c = '/' ∨ c = '\'' then some c
  else if c = 'b' then some '\x08'
  else if c = 'f' then some '\x0c'
  else if c = 'n' then some '\n'
  else if c = 'r' then some '\r'
  else if c = 't' then some '\t'
  else none

/-- The character of a pair of surrogates. -/
def joinSurrogates (high low : Nat) : Char :=
  Char.ofNat (0x10000 + (high - 0xD800) * 0x400 + (low - 0xDC00))

/-- The value of a written string; an escape of four hexadecimal digits that is half of a pair needs
the other half behind it. -/
def unescape? : Text → Option Text
  | '\\' :: 'u' :: a :: b :: c :: d :: t => do
    let n ← hexNumber? [a, b, c, d]
    if n < 0xD800 ∨ 0xDFFF < n then (unescape? t).map (Char.ofNat n :: ·)
    else
      match n, t with
      | high, '\\' :: 'u' :: e :: f :: g :: h :: t =>
        let low ← hexNumber? [e, f, g, h]
        if high < 0xDC00 ∧ 0xDC00 ≤ low ∧ low ≤ 0xDFFF then
          (unescape? t).map (joinSurrogates high low :: ·)
        else none
      | _, _ => none
  | '\\' :: c :: t => do
    let c ← simpleEscape? c
    (unescape? t).map (c :: ·)
  | ['\\'] => none
  | c :: t => (unescape? t).map (c :: ·)
  | [] => some []

/-! ## Numbers -/

/-- What the characters of a number read so far are. -/
inductive Stage where
  | integer
  | fraction
  | exponent
  | power
  deriving DecidableEq, Repr

/-- The stage behind another character of a decimal number. -/
def Stage.next? (s : Stage) (c : Char) : Option Stage :=
  if c.isDigit then some (if s = exponent then power else s)
  else if c = '_' then some s
  else if c = '.' ∧ s = integer then some fraction
  else if (c = 'e' ∨ c = 'E') ∧ (s = integer ∨ s = fraction) then some exponent
  else if (c = '+' ∨ c = '-') ∧ s = exponent then some power
  else none

/-- The longest text at the head that could be a decimal number, and the stage reached. -/
def numeral (s : Stage) : Text → Text × Stage × Text
  | [] => ([], s, [])
  | c :: t =>
    match s.next? c with
    | some s =>
      let (digits, s, rest) := numeral s t
      (c :: digits, s, rest)
    | none => ([], s, c :: t)

/-- The greatest integer that can be written. -/
def maxInteger : Nat := Nat.pow 2 128 - 1

/-- The exponent behind its letter. -/
def exponent? (t : Text) : Option Int :=
  let (negative, digits) := match t with
    | '-' :: t => (true, t)
    | '+' :: t => (false, t)
    | t => (false, t)
  if digits = [] ∨ !digits.all Char.isDigit then none
  else some (if negative then -(Text.ofDecimal digits : Int) else Text.ofDecimal digits)

/-- The number nearest to a decimal with a fraction or an exponent. -/
def real? (t : Text) : Option Binary64.Extended := do
  let whole := t.takeWhile Char.isDigit
  let behind := t.dropWhile Char.isDigit
  let fraction := match behind with
    | '.' :: t => t.takeWhile Char.isDigit
    | _ => []
  let tail := match behind with
    | '.' :: t => t.dropWhile Char.isDigit
    | t => t
  let e ← match tail with
    | [] => some 0
    | _ :: t => exponent? t
  return .ofRounded false
    (Binary64.ofDecimal? false (Text.ofDecimal (whole ++ fraction)) (e - fraction.length))

def decimalToken? (t : Text) : Option (Token × Text) := do
  let (written, stage, rest) := numeral .integer t
  if written.getLast? = some '_' then none
  let digits := written.filter (· != '_')
  if stage = .integer then
    if Text.ofDecimal digits ≤ maxInteger then some (int (Text.ofDecimal digits), rest) else none
  else return (real (← real? digits), rest)

/-- An integer to the base `radix`, behind the letter that says so. -/
def radixToken? (radix : Nat) (t : Text) : Option (Token × Text) := do
  let isPart (c : Char) : Bool := c.isDigit || c == '_' || (radix == 16 && (hexValue? c).isSome)
  let written := t.takeWhile isPart
  if written.getLast? = some '_' then none
  let digits := written.filter (· != '_')
  if digits = [] then none
  let n ← digits.foldlM (fun n c =>
    (hexValue? c).bind fun d => if d < radix then some (radix * n + d) else none) 0
  if n ≤ maxInteger then some (int n, t.dropWhile isPart) else none

def number? : Text → Option (Token × Text)
  | '0' :: 'b' :: t | '0' :: 'B' :: t => radixToken? 2 t
  | '0' :: 'o' :: t | '0' :: 'O' :: t => radixToken? 8 t
  | '0' :: 'x' :: t | '0' :: 'X' :: t => radixToken? 16 t
  | t => decimalToken? t

/-! ## Tokens -/

def longMarks : List Text := ["//", "**", "==", "!=", ">=", "<="].map String.toList

def shortMarks : Text := "+-*/%.,:~|=><()[]\x7b\x7d".toList

/-- The token at the head of a text that does not start with a blank. -/
def read? : Text → Option (Token × Text)
  | [] => none
  | c :: t =>
    if (c :: t).take 2 ∈ longMarks then some (mark ((c :: t).take 2), t.drop 1)
    else if c ∈ shortMarks then some (mark [c], t)
    else if c = '"' ∨ c = '\'' then do
      let (written, rest) ← rawString? c t
      return (string (← unescape? written), rest)
    else if c.isDigit then number? (c :: t)
    else if c.isAlpha ∨ c = '_' then
      some (name (c :: t.takeWhile isNameChar), t.dropWhile isNameChar)
    else none

/-- The text behind a closing delimiter, and whether the delimiter trims what follows. -/
def closing? (delimiter : Text) : Text → Option (Bool × Text)
  | '-' :: t => (Text.dropLead? delimiter t).map (true, ·)
  | '+' :: t => (Text.dropLead? delimiter t).map (false, ·)
  | t => (Text.dropLead? delimiter t).map (false, ·)

/-- The tokens up to a closing delimiter, whether it trims what follows, and what follows. At most
`limit` tokens are read. -/
def until? (delimiter : Text) : Nat → Text → Option (List Token × Bool × Text)
  | 0, _ => none
  | limit + 1, t =>
    let t := t.dropWhile isSpace
    match closing? delimiter t with
    | some (trims, rest) => some ([], trims, rest)
    | none => do
      let (token, t) ← read? t
      let (tokens, trims, rest) ← until? delimiter limit t
      return (token :: tokens, trims, rest)

end Token

/-! ## Parts -/

inductive Part where
  | text (t : Text)
  | output (tokens : List Token)
  | tag (tokens : List Token)
  deriving DecidableEq, Repr

namespace Part

inductive Opening where
  | output
  | tag
  | comment
  deriving DecidableEq, Repr

def opening? (c : Char) : Option Opening :=
  if c = '{' then some .output
  else if c = '%' then some .tag
  else if c = '#' then some .comment
  else none

/-- The text before the first opening delimiter, the delimiter, and the text behind it. -/
def splitOpening : Text → Text × Option (Opening × Text)
  | [] => ([], none)
  | [c] => ([c], none)
  | c :: d :: t =>
    match if c = '{' then opening? d else none with
    | some o => ([], some (o, t))
    | none =>
      let (before, found) := splitOpening (d :: t)
      (c :: before, found)

/-- Takes the trimming sign off the head of a text, and says whether it was a hyphen. -/
def dropSign : Text → Bool × Text
  | '-' :: t => (true, t)
  | '+' :: t => (false, t)
  | t => (false, t)

/-- The rest of a statement tag that consists of one name, and whether it trims what follows. -/
def bareTag? (name : Text) (t : Text) : Option (Bool × Text) := do
  let t ← Text.dropLead? name (t.dropWhile Token.isSpace)
  Token.closing? ['%', '}'] (t.dropWhile Token.isSpace)

/-- The text up to the tag that ends raw text, whether that tag trims it and what follows, and what
follows. -/
def rawText? : Text → Option (Text × Bool × Bool × Text)
  | [] => none
  | [_] => none
  | c :: d :: t =>
    let ending :=
      if c = '{' ∧ d = '%' then
        (bareTag? "endraw".toList (dropSign t).2).map fun (trims, rest) =>
          ([], (dropSign t).1, trims, rest)
      else none
    match ending with
    | some found => some found
    | none => (rawText? (d :: t)).map fun (t, found) => (c :: t, found)

/-- The parts of a text, of which the head is trimmed if `trims`. At most `limit` tags are read. -/
def read? : Nat → Bool → Text → Option (List Part)
  | 0, _, _ => none
  | limit + 1, trims, t =>
    let t := if trims then t.trimStart else t
    match splitOpening t with
    | (before, none) => some [text before]
    | (before, some (opening, behind)) =>
      let (trimsBefore, inside) := dropSign behind
      let before := if trimsBefore then before.trimEnd else before
      (text before :: ·) <$> match opening with
        | .comment => do
          let (comment, rest) ← Text.splitAround? ['#', '}'] behind
          read? limit (comment.getLast? == some '-') rest
        | .output => do
          let (tokens, trims, rest) ← Token.until? ['}', '}'] (inside.length + 1) inside
          (output tokens :: ·) <$> read? limit trims rest
        | .tag =>
          match bareTag? "raw".toList inside with
          | some (trimsRaw, inside) => do
            let (raw, trimsRawEnd, trims, rest) ← rawText? inside
            let raw := if trimsRaw then raw.trimStart else raw
            let raw := if trimsRawEnd then raw.trimEnd else raw
            (text raw :: ·) <$> read? limit trims rest
          | none => do
            let (tokens, trims, rest) ← Token.until? ['%', '}'] (inside.length + 1) inside
            (tag tokens :: ·) <$> read? limit trims rest

/-- The parts of a template; `none` if a tag is never closed or holds what is no token. -/
def ofText? (t : Text) : Option (List Part) := read? (t.length + 1) false t

end Part
end Template
end Pinout
