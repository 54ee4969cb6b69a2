import Pinout.Json.Number

/-!
# Pinout.Json.Strict

JSON as the standard has it, nested at most 127 groups deep. A surrogate stands in a string only as
one of a pair, and no control character stands in it unescaped.
-/

namespace Pinout
namespace Json
namespace Strict

def maxDepth : Nat := 127

def isBlank (c : Char) : Bool := c == ' ' || c == '\t' || c == '\n' || c == '\r'

def skipBlanks (t : Text) : Text := t.dropWhile isBlank

end Strict

def hexValue? (c : Char) : Option Nat :=
  if c.isDigit then some (c.toNat - '0'.toNat)
  else if 'a' ≤ c ∧ c ≤ 'f' then some (c.toNat - 'a'.toNat + 10)
  else if 'A' ≤ c ∧ c ≤ 'F' then some (c.toNat - 'A'.toNat + 10)
  else none

/-- The number written by hexadecimal digits. -/
def hexNumber? (digits : Text) : Option Nat :=
  digits.foldl (fun n? c => do return (← n?) * 16 + (← hexValue? c)) (some 0)

/-- The code unit behind `\u`: four hexadecimal digits. -/
def codeUnit? : Text → Option (Nat × Text)
  | a :: b :: c :: d :: t => (hexNumber? [a, b, c, d]).map (·, t)
  | _ => none

/-- The character with a code point, if it is one. -/
def scalar? (n : Nat) : Option Char := if n.isValidChar then some (Char.ofNat n) else none

namespace Strict

/-- The character behind a backslash. -/
def escaped? : Text → Option (Char × Text)
  | '"' :: t => some ('"', t)
  | '\\' :: t => some ('\\', t)
  | '/' :: t => some ('/', t)
  | 'b' :: t => some ('\x08', t)
  | 'f' :: t => some ('\x0c', t)
  | 'n' :: t => some ('\n', t)
  | 'r' :: t => some ('\r', t)
  | 't' :: t => some ('\t', t)
  | 'u' :: t => do
    let (n, t) ← codeUnit? t
    if 0xD800 ≤ n ∧ n < 0xDC00 then
      match t with
      | '\\' :: 'u' :: t =>
        let (m, t) ← codeUnit? t
        if 0xDC00 ≤ m ∧ m < 0xE000 then
          return (← scalar? (0x10000 + (n - 0xD800) * 0x400 + (m - 0xDC00)), t)
        else none
      | _ => none
    else return (← scalar? n, t)
  | _ => none

theorem length_of_codeUnit? {t r : Text} {n : Nat} (h : codeUnit? t = some (n, r)) :
    r.length < t.length := by
  unfold codeUnit? at h
  split at h
  · obtain ⟨_, _, he⟩ := Option.map_eq_some_iff.1 h
    cases he
    simp only [List.length_cons]
    omega
  · cases h

theorem length_of_escaped? {t r : Text} {c : Char} (h : escaped? t = some (c, r)) :
    r.length < t.length := by
  unfold escaped? at h
  split at h
  case h_9 t =>
    simp only [Option.bind_eq_bind, Option.bind_eq_some_iff, Prod.exists] at h
    obtain ⟨n, u, hu, h⟩ := h
    have := length_of_codeUnit? hu
    split at h
    · split at h
      · next v =>
        simp only [Option.bind_eq_some_iff, Prod.exists] at h
        obtain ⟨m, w, hw, h⟩ := h
        have := length_of_codeUnit? hw
        split at h
        · simp only [Option.bind_eq_some_iff] at h
          obtain ⟨_, _, he⟩ := h
          cases he
          simp only [List.length_cons] at *
          omega
        · cases h
      · cases h
    · simp only [Option.bind_eq_some_iff] at h
      obtain ⟨_, _, he⟩ := h
      cases he
      simp only [List.length_cons]
      omega
  all_goals cases h <;> simp

/-- The string behind an opening quote, and what follows the closing one. -/
def string? (t : Text) : Option (Text × Text) :=
  match t with
  | [] => none
  | c :: t =>
    if c = '"' then some ([], t)
    else if c = '\\' then
      match _h : escaped? t with
      | some (d, r) => (string? r).map fun (s, r) => (d :: s, r)
      | none => none
    else if c.toNat < 0x20 then none
    else (string? t).map fun (s, r) => (c :: s, r)
termination_by t.length
decreasing_by
  · have := length_of_escaped? _h
    simp only [List.length_cons]
    omega
  · simp

/-- The key of a member, its quotes included, and the colon. -/
def key? (t : Text) : Option (Text × Text) :=
  match skipBlanks t with
  | '"' :: t => do
    let (key, t) ← string? t
    match skipBlanks t with
    | ':' :: t => some (key, t)
    | _ => none
  | _ => none

mutual

/-- The value at the head of a text with `depth` more groups allowed; every call takes one from
`fuel`. -/
def value? : Nat → Nat → Text → Option (Json × Text)
  | 0, _, _ => none
  | fuel + 1, depth, t =>
    match skipBlanks t with
    | 'n' :: 'u' :: 'l' :: 'l' :: t => some (.null, t)
    | 't' :: 'r' :: 'u' :: 'e' :: t => some (.bool true, t)
    | 'f' :: 'a' :: 'l' :: 's' :: 'e' :: t => some (.bool false, t)
    | '"' :: t => (string? t).map fun (s, t) => (.string s, t)
    | '[' :: t =>
      match depth, skipBlanks t with
      | 0, _ => none
      | _ + 1, ']' :: t => some (.array [], t)
      | depth + 1, t => (items? fuel depth t).map fun (vs, t) => (.array vs, t)
    | '{' :: t =>
      match depth, skipBlanks t with
      | 0, _ => none
      | _ + 1, '}' :: t => some (.object [], t)
      | depth + 1, t => (members? fuel depth t).map fun (ms, t) => (.object (ofEntries ms), t)
    | t => number? t

/-- One item or more, and the closing bracket. -/
def items? : Nat → Nat → Text → Option (List Json × Text)
  | 0, _, _ => none
  | fuel + 1, depth, t => do
    let (v, t) ← value? fuel depth t
    match skipBlanks t with
    | ',' :: t =>
      let (vs, t) ← items? fuel depth t
      some (v :: vs, t)
    | ']' :: t => some ([v], t)
    | _ => none

/-- One member or more, and the closing brace. -/
def members? : Nat → Nat → Text → Option (Members × Text)
  | 0, _, _ => none
  | fuel + 1, depth, t => do
    let (key, t) ← key? t
    let (v, t) ← value? fuel depth t
    match skipBlanks t with
    | ',' :: t =>
      let (ms, t) ← members? fuel depth t
      some ((key, v) :: ms, t)
    | '}' :: t => some ([(key, v)], t)
    | _ => none

end

/-- The value that a text is. -/
def read? (t : Text) : Option Json := do
  let (v, t) ← value? (2 * t.length + 2) maxDepth t
  if skipBlanks t = [] then some v else none

end Strict
end Json
end Pinout
