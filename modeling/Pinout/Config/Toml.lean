import Pinout.Json.Strict

/-!
# Pinout.Config.Toml

The part of TOML that settings need: keys at the top level whose values are strings or arrays of
strings. A text with a table or with a value of another kind is refused, as no setting has one.
-/

namespace Pinout
namespace Toml

inductive Value where
  | string (t : Text)
  | strings (ts : List Text)
  deriving DecidableEq, Repr

abbrev Entries := List (Text × Value)

def isSpace (c : Char) : Bool := c == ' ' || c == '\t'

/-- The characters that may stand in comments and strings; among control characters only tabs. -/
def isPrintable (c : Char) : Bool := c == '\t' || (0x20 ≤ c.toNat && c.toNat != 0x7F)

def dropSpaces (t : Text) : Text := t.dropWhile isSpace

/-- The text behind a newline. -/
def newline? : Text → Option Text
  | '\n' :: t => some t
  | '\r' :: '\n' :: t => some t
  | _ => none

/-- The text behind a comment; a character that must not stand in one ends it. -/
def dropComment : Text → Text
  | '#' :: t => t.dropWhile isPrintable
  | t => t

/-- The text behind the blanks, and behind a comment if there is one, up to the next line. -/
def endLine? (t : Text) : Option Text :=
  match dropComment (dropSpaces t) with
  | [] => some []
  | t => newline? t

/-- Skips blanks, newlines and comments, at most `limit` lines of them. -/
def skipLines : Nat → Text → Text
  | 0, t => t
  | limit + 1, t =>
    match newline? (dropComment (dropSpaces t)) with
    | some t => skipLines limit t
    | none => dropSpaces t

/-! ## Strings -/

def escape? (c : Char) : Option Char :=
  if c = '"' ∨ c = '\\' then some c
  else if c = 'b' then some '\x08'
  else if c = 't' then some '\t'
  else if c = 'n' then some '\n'
  else if c = 'f' then some '\x0c'
  else if c = 'r' then some '\r'
  else none

/-- The character with a code of `digits` hexadecimal digits, and the rest. -/
def codePoint? (digits : Nat) (t : Text) : Option (Char × Text) := do
  if t.length < digits then none
  let c ← Json.scalar? (← Json.hexNumber? (t.take digits))
  return (c, t.drop digits)

/-- The character that an escape stands for, behind its backslash. -/
def escaped? : Text → Option (Char × Text)
  | [] => none
  | c :: t =>
    if c = 'u' then codePoint? 4 t
    else if c = 'U' then codePoint? 8 t
    else (escape? c).map (·, t)

/-- A string on one line, behind its quote. -/
def basic? : Nat → Text → Option (Text × Text)
  | 0, _ => none
  | _ + 1, [] => none
  | limit + 1, c :: t =>
    if c = '"' then some ([], t)
    else if c = '\\' then do
      let (d, t) ← escaped? t
      (basic? limit t).map fun (s, rest) => (d :: s, rest)
    else if isPrintable c then (basic? limit t).map fun (s, rest) => (c :: s, rest)
    else none

/-- A string without escapes on one line, behind its quote. -/
def literal? (t : Text) : Option (Text × Text) :=
  let inside := t.takeWhile fun c => c != '\'' && isPrintable c
  match t.drop inside.length with
  | '\'' :: rest => some (inside, rest)
  | _ => none

/-- The text behind blanks and newlines; a carriage return alone is neither. -/
def dropBlankLines : Text → Text
  | '\n' :: t => dropBlankLines t
  | '\r' :: '\n' :: t => dropBlankLines t
  | c :: t => if isSpace c then dropBlankLines t else c :: t
  | [] => []

/-- The text behind a newline that a backslash hides, with all blanks and newlines behind it. -/
def hiddenNewline? (t : Text) : Option Text := (newline? (dropSpaces t)).map dropBlankLines

/-- A string over several lines, behind its three quotes; up to two quotes may stand before the
quotes that close it. -/
def multiline? (quote : Char) : Nat → Text → Option (Text × Text)
  | 0, _ => none
  | _ + 1, [] => none
  | limit + 1, c :: t =>
    if c = quote then
      let run := t.takeWhile (· == quote)
      if run.length < 2 then (multiline? quote limit t).map fun (s, rest) => (c :: s, rest)
      else
        let inside := min (run.length - 2) 2
        some (List.replicate inside quote, t.drop (inside + 2))
    else if c = '\\' ∧ quote = '"' then
      match hiddenNewline? t with
      | some t => multiline? quote limit t
      | none => do
        let (d, t) ← escaped? t
        (multiline? quote limit t).map fun (s, rest) => (d :: s, rest)
    else
      match newline? (c :: t) with
      | some t => (multiline? quote limit t).map fun (s, rest) => ('\n' :: s, rest)
      | none =>
        if isPrintable c then (multiline? quote limit t).map fun (s, rest) => (c :: s, rest)
        else none

/-- A newline right behind the opening quotes is not part of the string. -/
def dropNewline (t : Text) : Text := (newline? t).getD t

def string? (t : Text) : Option (Text × Text) :=
  match t with
  | '"' :: '"' :: '"' :: t => multiline? '"' (t.length + 1) (dropNewline t)
  | '\'' :: '\'' :: '\'' :: t => multiline? '\'' (t.length + 1) (dropNewline t)
  | '"' :: t => basic? (t.length + 1) t
  | '\'' :: t => literal? t
  | _ => none

/-! ## Values -/

/-- Strings up to the closing bracket; a comma may stand behind the last one. -/
def items? : Nat → Text → Option (List Text × Text)
  | 0, _ => none
  | limit + 1, t =>
    match skipLines (t.length + 1) t with
    | ']' :: t => some ([], t)
    | t => do
      let (s, t) ← string? t
      match skipLines (t.length + 1) t with
      | ',' :: t => (items? limit t).map fun (ss, rest) => (s :: ss, rest)
      | ']' :: t => some ([s], t)
      | _ => none

def value? : Text → Option (Value × Text)
  | '[' :: t => (items? (t.length + 1) t).map fun (ss, rest) => (.strings ss, rest)
  | t => (string? t).map fun (s, rest) => (.string s, rest)

def isKeyChar (c : Char) : Bool := c.isAlphanum || c == '_' || c == '-'

def key? : Text → Option (Text × Text)
  | '"' :: t => basic? (t.length + 1) t
  | '\'' :: t => literal? t
  | t =>
    match t.takeWhile isKeyChar with
    | [] => none
    | key => some (key, t.dropWhile isKeyChar)

/-- A key, the sign of equality and the value. -/
def entry? (t : Text) : Option ((Text × Value) × Text) := do
  let (key, t) ← key? t
  match dropSpaces t with
  | '=' :: t =>
    let (value, t) ← value? (dropSpaces t)
    return ((key, value), ← endLine? t)
  | _ => none

/-- The entries of a text with at most `limit` of them. -/
def entries? : Nat → Text → Option Entries
  | 0, _ => none
  | limit + 1, t =>
    match dropComment (skipLines (t.length + 1) t) with
    | [] => some []
    | t => do
      let (entry, t) ← entry? t
      (entries? limit t).map (entry :: ·)

def dropMark : Text → Text
  | c :: t => if c.toNat = 0xFEFF then t else c :: t
  | [] => []

/-- The entries of a text, in which no key stands twice. -/
def read? (t : Text) : Option Entries := do
  let entries ← entries? (t.length + 1) (dropMark t)
  if (entries.map Prod.fst).Nodup then some entries else none

end Toml
end Pinout
