import Pinout.Text.Basic

/-!
# Pinout.Yaml.Cursor

A place in a YAML text: what is left to read, and the line and column of it. Line endings are one
character each here, since `unifyBreaks` makes a newline of every ending but the separators U+2028
and U+2029.
-/

namespace Pinout
namespace Yaml

/-- The characters a YAML text may hold. -/
def isAllowed (c : Char) : Bool :=
  let n := c.toNat
  n == 0x9 || n == 0xA || n == 0xD || (0x20 ≤ n && n ≤ 0x7E) || n == 0x85 ||
    (0xA0 ≤ n && n ≤ 0xD7FF) || (0xE000 ≤ n && n ≤ 0xFFFD) || 0x10000 ≤ n

def unifyBreaks : Text → Text
  | [] => []
  | [c] => if c = '\r' ∨ c = '\u0085' then ['\n'] else [c]
  | c :: d :: t =>
    if c = '\r' ∧ d = '\n' then '\n' :: unifyBreaks t
    else if c = '\r' ∨ c = '\u0085' then '\n' :: unifyBreaks (d :: t)
    else c :: unifyBreaks (d :: t)

def isBreak (c : Char) : Bool := c == '\n' || c == '\u2028' || c == '\u2029'

def isBlank (c : Char) : Bool := c == ' ' || c == '\t'

/-- The text ends here, or a blank or a line ending stands here. -/
def atGap : Text → Bool
  | [] => true
  | c :: _ => isBlank c || isBreak c

/-- The line ends here. -/
def atLineEnd : Text → Bool
  | [] => true
  | c :: _ => isBreak c

/-- A line of three marks stands here, as at the start or the end of a document. -/
def atMarker (mark : Char) : Text → Bool
  | a :: b :: c :: t => a == mark && b == mark && c == mark && atGap t
  | _ => false

def atDocumentMarker (t : Text) : Bool := atMarker '-' t || atMarker '.' t

/-- Letters, digits, underscores and hyphens, of which names are made. -/
def isNameChar (c : Char) : Bool := c.isAlphanum || c == '_' || c == '-'

structure Cursor where
  rest : Text
  line : Nat
  column : Nat

namespace Cursor

/-- Past `n` characters of one line. -/
def skip (n : Nat) (c : Cursor) : Cursor :=
  { c with rest := c.rest.drop n, column := c.column + n }

/-- Past the line ending that stands here. -/
def skipBreak (c : Cursor) : Cursor :=
  if atLineEnd c.rest ∧ c.rest ≠ [] then ⟨c.rest.drop 1, c.line + 1, 0⟩ else c

/-- Past the characters of one line that satisfy `p`. -/
def skipWhile (p : Char → Bool) (c : Cursor) : Cursor := c.skip (c.rest.takeWhile p).length

def skipBlanks (c : Cursor) : Cursor := c.skipWhile isBlank

/-- Past a comment, up to the end of the line. -/
def skipComment (c : Cursor) : Cursor :=
  match c.rest with
  | '#' :: _ => c.skipWhile (!isBreak ·)
  | _ => c

/-- Past blanks, a comment and the line ending; anything else on the line is refused. -/
def finishLine? (c : Cursor) : Option Cursor :=
  let c := c.skipBlanks.skipComment
  if atLineEnd c.rest then some c.skipBreak else none

end Cursor
end Yaml
end Pinout
