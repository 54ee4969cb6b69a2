import Pinout.Json.Strict
import Pinout.Yaml.Cursor

/-!
# Pinout.Yaml.Scalar

The scalars of YAML as they are written: plain, in quotes, and in blocks. Each reader takes a place
and gives the text of the scalar and the place behind it.

In a plain or quoted scalar blanks around line endings vanish, a single line ending becomes a space
and of more the first vanishes; `Folding` is what is pending between two runs of other characters.
-/

namespace Pinout
namespace Yaml

/-- Blanks and line endings read since the last other character. -/
structure Folding where
  blanks : Text := []
  firstBreak : Text := []
  moreBreaks : Text := []
  broken : Bool := false

namespace Folding

/-- What stands for the gap in the scalar. -/
def text (f : Folding) : Text :=
  if f.broken then
    if f.firstBreak = ['\n'] then if f.moreBreaks = [] then [' '] else f.moreBreaks
    else f.firstBreak ++ f.moreBreaks
  else f.blanks

/-- Reads blanks and line endings; a tab left of column `indent` that starts a line is refused. -/
def read? (indent : Nat) (f : Folding) (line column : Nat) : Text → Option (Folding × Cursor)
  | [] => some (f, ⟨[], line, column⟩)
  | c :: t =>
    if isBlank c then
      if f.broken then
        if c = '\t' ∧ column < indent then none else read? indent f line (column + 1) t
      else read? indent { f with blanks := f.blanks ++ [c] } line (column + 1) t
    else if isBreak c then
      if f.broken then
        read? indent { f with moreBreaks := f.moreBreaks ++ [c] } (line + 1) 0 t
      else read? indent ⟨[], [c], [], true⟩ (line + 1) 0 t
    else some (f, ⟨c :: t, line, column⟩)

end Folding

def isFlowIndicator (c : Char) : Bool :=
  c == ',' || c == '[' || c == ']' || c == '{' || c == '}'

/-- The run of characters of a plain scalar that stand here without blanks. Inside a flow
collection a colon before another indicator is refused. -/
def plainRun? (inFlow : Bool) : Text → Option (Text × Text)
  | [] => some ([], [])
  | c :: t =>
    if isBlank c || isBreak c then some ([], c :: t)
    else if inFlow && c == ':' && t.head?.any (fun d => isFlowIndicator d || d == '?') then none
    else if (c == ':' && atGap t) || (inFlow && isFlowIndicator c) then some ([], c :: t)
    else (plainRun? inFlow t).map fun (run, t) => (c :: run, t)

/-- A plain scalar: its text, the place behind it, and whether a line ending came last. -/
def plain? (inFlow : Bool) (indent : Nat) : Nat → Folding → Text → Cursor →
    Option (Text × Bool × Cursor)
  | 0, _, _, _ => none
  | fuel + 1, gap, text, c =>
    if (c.column = 0 ∧ atDocumentMarker c.rest) ∨ c.rest.head? = some '#' then
      some (text, gap.broken, c)
    else do
      let (run, rest) ← plainRun? inFlow c.rest
      let after : Cursor := ⟨rest, c.line, c.column + run.length⟩
      let text := if run = [] then text else text ++ gap.text ++ run
      let gap := if run = [] then gap else {}
      if rest = [] ∨ !atGap rest then some (text, gap.broken, after)
      else
        let (gap, c) ← Folding.read? indent {} after.line after.column after.rest
        if !inFlow ∧ c.column < indent then some (text, gap.broken, c)
        else plain? inFlow indent fuel gap text c

/-- The character a letter stands for behind a backslash. -/
def escapeLetter? (c : Char) : Option Char :=
  match c with
  | '0' => some '\x00'
  | 'a' => some '\x07'
  | 'b' => some '\x08'
  | 't' | '\t' => some '\t'
  | 'n' => some '\n'
  | 'v' => some '\x0b'
  | 'f' => some '\x0c'
  | 'r' => some '\r'
  | 'e' => some '\x1b'
  | ' ' => some ' '
  | '"' => some '"'
  | '/' => some '/'
  | '\\' => some '\\'
  | 'N' => some '\u0085'
  | '_' => some '\u00a0'
  | 'L' => some '\u2028'
  | 'P' => some '\u2029'
  | _ => none

/-- The length of the hexadecimal code a letter announces behind a backslash. -/
def codeLength? (c : Char) : Option Nat :=
  match c with
  | 'x' => some 2
  | 'u' => some 4
  | 'U' => some 8
  | _ => none

/-- The character behind a backslash, and how many characters spell it. -/
def escaped? : Text → Option (Char × Nat)
  | [] => none
  | c :: t =>
    match codeLength? c with
    | some n => do
      if t.length < n then none
      else return (← Json.scalar? (← Json.hexNumber? (t.take n)), n + 1)
    | none => (escapeLetter? c).map (·, 1)

/-- The characters of a quoted scalar up to a gap or the closing quote, and whether an escaped line
ending cut them off. -/
def quotedRun? (quote : Char) : Nat → Text → Cursor → Option (Text × Bool × Cursor)
  | 0, _, _ => none
  | fuel + 1, text, c =>
    match c.rest with
    | [] => some (text, false, c)
    | a :: t =>
      if isBlank a || isBreak a then some (text, false, c)
      else if a = quote then
        if quote = '\'' ∧ t.head? = some '\'' then quotedRun? quote fuel (text ++ ['\'']) (c.skip 2)
        else some (text, false, c)
      else if quote = '"' ∧ a = '\\' then
        if t ≠ [] ∧ atLineEnd t then some (text, true, (c.skip 1).skipBreak)
        else
          match escaped? t with
          | some (d, n) => quotedRun? quote fuel (text ++ [d]) (c.skip (n + 1))
          | none => none
      else quotedRun? quote fuel (text ++ [a]) (c.skip 1)

/-- A quoted scalar behind its opening quote. -/
def quoted? (quote : Char) : Nat → Text → Cursor → Option (Text × Cursor)
  | 0, _, _ => none
  | fuel + 1, text, c =>
    if c.rest = [] ∨ (c.column = 0 ∧ atDocumentMarker c.rest) then none
    else do
      let (text, continued, c) ← quotedRun? quote (c.rest.length + 1) text c
      if c.rest.head? = some quote ∧ !continued then some (text, c.skip 1)
      else
        let (gap, c) ← Folding.read? 0 { broken := continued } c.line c.column c.rest
        if c.rest.head? = some quote then some (text ++ gap.text, c.skip 1)
        else quoted? quote fuel (text ++ gap.text) c

/-- What becomes of the line endings behind a block scalar. -/
inductive Chomping where
  | strip
  | clip
  | keep
  deriving DecidableEq

structure BlockHeader where
  chomping : Chomping
  increment : Option Nat

def chomping? : Text → Option (Chomping × Text)
  | '+' :: t => some (.keep, t)
  | '-' :: t => some (.strip, t)
  | _ => none

/-- An indentation of one to nine columns; zero is refused. -/
def increment? : Text → Option (Option Nat × Text)
  | c :: t =>
    if c.isDigit then if c = '0' then none else some (some (c.toNat - '0'.toNat), t)
    else some (none, c :: t)
  | [] => some (none, [])

/-- The indicators behind `|` or `>`, in either order. -/
def blockHeader? (t : Text) : Option (BlockHeader × Text) :=
  match chomping? t with
  | some (chomping, t) => (increment? t).map fun (n, t) => (⟨chomping, n⟩, t)
  | none => do
    let (n, t) ← increment? t
    match n, chomping? t with
    | some n, some (chomping, t) => some (⟨chomping, some n⟩, t)
    | n, _ => some (⟨.clip, n⟩, t)

/-- Reads indentation and empty lines before a line of a block scalar. With no indentation known
yet every space counts; `widest` is the widest line so far. A tab in the indentation is refused. -/
def blockBreaks? (indent : Nat) : Nat → Nat → Text → Cursor → Option (Nat × Text × Cursor)
  | 0, _, _, _ => none
  | fuel + 1, widest, breaks, c =>
    let spaces := (c.rest.takeWhile (· == ' ')).length
    let c := c.skip (if indent = 0 then spaces else min spaces (indent - c.column))
    let widest := max widest c.column
    if (indent = 0 ∨ c.column < indent) ∧ c.rest.head? = some '\t' then none
    else
      match c.rest with
      | b :: _ =>
        if isBreak b then blockBreaks? indent fuel widest (breaks ++ [b]) c.skipBreak
        else some (widest, breaks, c)
      | [] => some (widest, breaks, c)

/-- The lines of a block scalar at column `indent`. `lineEnd` ended the line before, `breaks` are
the empty lines behind it, and `blankLed` says that the line before starts with a blank. -/
def blockLines? (literal : Bool) (indent : Nat) : Nat → Text → Text → Text → Bool → Cursor →
    Option (Text × Text × Text × Cursor)
  | 0, _, _, _, _, _ => none
  | fuel + 1, text, lineEnd, breaks, blankLed, c =>
    match c.rest with
    | [] => some (text, lineEnd, breaks, c)
    | a :: _ =>
      if c.column ≠ indent then some (text, lineEnd, breaks, c)
      else
        let blank := isBlank a
        let joined :=
          if !literal ∧ lineEnd = ['\n'] ∧ !blankLed ∧ !blank then
            if breaks = [] then [' '] else []
          else lineEnd
        let line := c.rest.takeWhile (!isBreak ·)
        let c := c.skip line.length
        let lineEnd := c.rest.take 1
        match blockBreaks? indent (c.rest.length + 1) 0 [] c.skipBreak with
        | some (_, breaks', c) =>
          blockLines? literal indent fuel (text ++ joined ++ breaks ++ line) lineEnd breaks' blank c
        | none => none

/-- A block scalar behind its `|` or `>`, inside a node indented by `parent`. -/
def block? (literal : Bool) (parent : Int) (c : Cursor) : Option (Text × Cursor) := do
  let (header, rest) ← blockHeader? c.rest
  let c ← (c.skip (c.rest.length - rest.length)).finishLine?
  let fixed := header.increment.map fun n => (max parent 0).toNat + n
  let (widest, breaks, c) ← blockBreaks? (fixed.getD 0) (c.rest.length + 1) 0 [] c
  let indent := fixed.getD (max widest (max (parent + 1).toNat 1))
  let (text, lineEnd, breaks, c) ←
    blockLines? literal indent (c.rest.length + 1) [] [] breaks false c
  match header.chomping with
  | .strip => some (text, c)
  | .clip => some (text ++ lineEnd, c)
  | .keep => some (text ++ lineEnd ++ breaks, c)

end Yaml
end Pinout
