/-!
# Pinout.Text.Basic

Text is a list of Unicode scalar values, so that every scanner of the library is a recursion on
the characters it reads. This module holds the operations that know nothing about the meaning of
a character:

* `lines`        — the lines of a text, without their line endings;
* `splitAround?` — a text cut at the first occurrence of a pattern;
* `joinWith`     — pieces joined by a separator;
* `decimal`      — a natural number in decimal digits.

`append_of_splitAround?` says that a cut loses nothing.
-/

namespace Pinout

abbrev Text := List Char

namespace Text

/-- The text after `lead`, if the text starts with it. -/
def dropLead? : Text → Text → Option Text
  | [], t => some t
  | _ :: _, [] => none
  | p :: lead, c :: t => if p = c then dropLead? lead t else none

theorem append_of_dropLead? {lead t r : Text} (h : dropLead? lead t = some r) : t = lead ++ r := by
  induction lead generalizing t with
  | nil => simpa [dropLead?] using h
  | cons p lead ih =>
    cases t with
    | nil => simp [dropLead?] at h
    | cons c t =>
      by_cases hc : p = c
      · simp only [dropLead?, hc, if_true] at h
        simp [ih h, hc]
      · simp [dropLead?, hc] at h

@[simp] theorem dropLead?_append (lead t : Text) : dropLead? lead (lead ++ t) = some t := by
  induction lead with
  | nil => rfl
  | cons p lead ih => simp [dropLead?, ih]

/-- The text before and after the first occurrence of `pattern`. -/
def splitAround? (pattern : Text) : Text → Option (Text × Text)
  | [] => (dropLead? pattern []).map ([], ·)
  | c :: t =>
    match dropLead? pattern (c :: t) with
    | some after => some ([], after)
    | none => (splitAround? pattern t).map fun (before, after) => (c :: before, after)

theorem append_of_splitAround? {pattern t before after : Text}
    (h : splitAround? pattern t = some (before, after)) : t = before ++ pattern ++ after := by
  induction t generalizing before with
  | nil =>
    obtain ⟨r, hr, he⟩ := Option.map_eq_some_iff.1 h
    cases he
    simpa using append_of_dropLead? hr
  | cons c t ih =>
    unfold splitAround? at h
    split at h
    · next a ha =>
      cases h
      simpa using append_of_dropLead? ha
    · next ha =>
      obtain ⟨⟨b, a⟩, hb, he⟩ := Option.map_eq_some_iff.1 h
      cases he
      simp [ih hb]

/-- The offset of the first occurrence of `pattern`. -/
def find? (pattern t : Text) : Option Nat :=
  (splitAround? pattern t).map fun (before, _) => before.length

/-- Pieces one after the other with `separator` between each two. -/
def joinWith (separator : Text) : List Text → Text
  | [] => []
  | [t] => t
  | t :: ts => t ++ separator ++ joinWith separator ts

/-- The pieces between newline characters; a text without a newline is one piece. -/
def splitNewlines : Text → List Text
  | [] => [[]]
  | c :: t =>
    if c = '\n' then [] :: splitNewlines t
    else
      match splitNewlines t with
      | [] => [[c]]
      | piece :: pieces => (c :: piece) :: pieces

/-- Drops one carriage return at the end. -/
def dropReturn : Text → Text
  | [] => []
  | [c] => if c = '\r' then [] else [c]
  | c :: d :: t => c :: dropReturn (d :: t)

/-- Newline-separated pieces as lines: a line ended by a newline loses the carriage return before
it, and nothing after the last newline is no line. -/
def endLines : List Text → List Text
  | [] => []
  | [last] => if last = [] then [] else [last]
  | piece :: next :: pieces => dropReturn piece :: endLines (next :: pieces)

/-- The lines of a text, ended by a newline or by a carriage return and a newline. -/
def lines (t : Text) : List Text := endLines (splitNewlines t)

/-- Carriage return and newline become one newline. -/
def unifyNewlines : Text → Text
  | [] => []
  | [c] => [c]
  | c :: d :: t =>
    if c = '\r' ∧ d = '\n' then '\n' :: unifyNewlines t else c :: unifyNewlines (d :: t)

def digit (n : Nat) : Char := Char.ofNat ('0'.toNat + n)

/-- Decimal digits without leading zeros; zero is one digit. -/
def decimal (n : Nat) : Text :=
  if n < 10 then [digit n] else decimal (n / 10) ++ [digit (n % 10)]

def decimalInt : Int → Text
  | .ofNat n => decimal n
  | .negSucc n => '-' :: decimal (n + 1)

/-- The number written by decimal digits. -/
def ofDecimal (digits : Text) : Nat := digits.foldl (fun n c => 10 * n + (c.toNat - '0'.toNat)) 0

/-- `n` spaces. -/
def spaces (n : Nat) : Text := List.replicate n ' '

/-- Padded with spaces on the right to `width` characters; longer text stays whole. -/
def padRight (width : Nat) (t : Text) : Text := t ++ spaces (width - t.length)

def padLeft (width : Nat) (t : Text) : Text := spaces (width - t.length) ++ t

/-- The greatest length among texts, zero when there are none. -/
def longest (ts : List Text) : Nat := ts.foldr (fun t n => max t.length n) 0

/-- The number of bytes in UTF-8. -/
def byteLength (t : Text) : Nat := t.foldr (fun c n => c.utf8Size + n) 0

end Text
end Pinout
