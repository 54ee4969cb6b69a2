import Pinout.Json.Strict
import Pinout.Text.Blank

/-!
# Pinout.Json.Relaxed

JSON as it is written by hand: strings in either kind of quotes or bare, bare keys, parentheses as
well as brackets, a comma behind the last item, and the capitalised spellings of the literals.
Groups nest without limit, and any blank may stand between two tokens.
-/

namespace Pinout
namespace Json
namespace Relaxed

def isBareStart (c : Char) : Bool := c.isAlpha || c == '_'

def isBareChar (c : Char) : Bool := c.isAlphanum || c == '_'

/-- The bare word at the head of a text. -/
def bare? : Text → Option (Text × Text)
  | [] => none
  | c :: t =>
    if isBareStart c then some (c :: t.takeWhile isBareChar, t.dropWhile isBareChar) else none

/-- What a bare word stands for: a literal in either capitalisation, or else itself. -/
def ofBare (word : Text) : Json :=
  if word = "true".toList ∨ word = "True".toList then .bool true
  else if word = "false".toList ∨ word = "False".toList then .bool false
  else if word = "null".toList ∨ word = "None".toList then .null
  else .string word

/-- The character behind a backslash; a code unit stands for a character by itself. -/
def escaped? : Text → Option (Char × Text)
  | '\\' :: t => some ('\\', t)
  | '/' :: t => some ('/', t)
  | '"' :: t => some ('"', t)
  | '\'' :: t => some ('\'', t)
  | 'b' :: t => some ('\x08', t)
  | 'f' :: t => some ('\x0c', t)
  | 'n' :: t => some ('\n', t)
  | 'r' :: t => some ('\r', t)
  | 't' :: t => some ('\t', t)
  | 'u' :: t => do
    let (n, t) ← codeUnit? t
    return (← scalar? n, t)
  | _ => none

theorem length_of_escaped? {t r : Text} {c : Char} (h : escaped? t = some (c, r)) :
    r.length < t.length := by
  unfold escaped? at h
  split at h
  case h_10 t =>
    simp only [Option.bind_eq_bind, Option.bind_eq_some_iff, Prod.exists] at h
    obtain ⟨n, u, hu, _, _, he⟩ := h
    cases he
    have := Strict.length_of_codeUnit? hu
    simp only [List.length_cons]
    omega
  all_goals cases h <;> simp

/-- The string behind an opening `quote`, and what follows the closing one. -/
def string? (quote : Char) (t : Text) : Option (Text × Text) :=
  match t with
  | [] => none
  | c :: t =>
    if c = quote then some ([], t)
    else if c = '\\' then
      match _h : escaped? t with
      | some (d, r) => (string? quote r).map fun (s, r) => (d :: s, r)
      | none => none
    else (string? quote t).map fun (s, r) => (c :: s, r)
termination_by t.length
decreasing_by
  · have := length_of_escaped? _h
    simp only [List.length_cons]
    omega
  · simp

/-- A key: a string, a bare word, or the digits of a number. -/
def bareKey? : Text → Option (Text × Text)
  | '"' :: t => string? '"' t
  | '\'' :: t => string? '\'' t
  | t => bare? t <|> Literal.natural? t

/-- The key of a member and the colon, with any blanks. -/
def key? (t : Text) : Option (Text × Text) := do
  let (key, t) ← bareKey? t.trimStart
  match t.trimStart with
  | ':' :: t => some (key, t)
  | _ => none

mutual

/-- The value at the head of a text; every call takes one from `fuel`. -/
def value? : Nat → Text → Option (Json × Text)
  | 0, _ => none
  | fuel + 1, t =>
    match t.trimStart with
    | '"' :: t => (string? '"' t).map fun (s, t) => (.string s, t)
    | '\'' :: t => (string? '\'' t).map fun (s, t) => (.string s, t)
    | '[' :: t => (items? ']' fuel t).map fun (vs, t) => (.array vs, t)
    | '(' :: t => (items? ')' fuel t).map fun (vs, t) => (.array vs, t)
    | '{' :: t => (members? fuel t).map fun (ms, t) => (.object (ofEntries ms), t)
    | t =>
      match bare? t with
      | some (word, t) => some (ofBare word, t)
      | none => number? t

/-- The items of a group up to `close`. -/
def items? (close : Char) : Nat → Text → Option (List Json × Text)
  | 0, _ => none
  | fuel + 1, t =>
    match t.trimStart with
    | [] => none
    | c :: r =>
      if c = close then some ([], r)
      else do
        let (v, t) ← value? fuel (c :: r)
        match t.trimStart with
        | [] => none
        | d :: t =>
          if d = close then some ([v], t)
          else if d = ',' then
            let (vs, t) ← items? close fuel t
            some (v :: vs, t)
          else none

/-- The members of an object up to the closing brace. -/
def members? : Nat → Text → Option (Members × Text)
  | 0, _ => none
  | fuel + 1, t =>
    match t.trimStart with
    | '}' :: t => some ([], t)
    | t => do
      let (key, t) ← key? t
      let (v, t) ← value? fuel t
      match t.trimStart with
      | '}' :: t => some ([(key, v)], t)
      | ',' :: t =>
        let (ms, t) ← members? fuel t
        some ((key, v) :: ms, t)
      | _ => none

end

/-- The value that a text is. -/
def read? (t : Text) : Option Json := do
  let (v, t) ← value? (2 * t.length + 2) t
  if t.allBlank then some v else none

end Relaxed
end Json
end Pinout
