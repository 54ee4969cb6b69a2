import Pinout.Binary64.Basic
import Pinout.Json.Value

/-!
# Pinout.Json.Number

The number literals of JSON and the values they stand for.

A literal without fraction and exponent is an integer if 64 bits hold it. Any other literal is a
binary64 number, formed from the leading digits that a 64-bit significand holds, by one product or
quotient with a power of ten; digits behind them count only as powers of ten. Minus zero is a
binary64 number as well, and a literal too large for the format has no value.
-/

namespace Pinout
namespace Json

structure Literal where
  negative : Bool
  whole : Text
  fraction : Text
  exponent : Option Int
  deriving DecidableEq, Repr

namespace Literal

/-- The digits at the head of a text, at least one. -/
def digits? (t : Text) : Option (Text × Text) :=
  match t.takeWhile Char.isDigit with
  | [] => none
  | digits => some (digits, t.dropWhile Char.isDigit)

/-- The digits of a natural number without leading zeros. -/
def natural? : Text → Option (Text × Text)
  | '0' :: t => some (['0'], t)
  | t => digits? t

def fraction? : Text → Option (Text × Text)
  | '.' :: t => digits? t
  | t => some ([], t)

/-- The exponent behind the letter and its sign. -/
def signedExponent? : Text → Option (Int × Text)
  | '+' :: t => (digits? t).map fun (digits, t) => (Text.ofDecimal digits, t)
  | '-' :: t => (digits? t).map fun (digits, t) => (-(Text.ofDecimal digits : Int), t)
  | t => (digits? t).map fun (digits, t) => (Text.ofDecimal digits, t)

def exponent? : Text → Option (Option Int × Text)
  | 'e' :: t | 'E' :: t => (signedExponent? t).map fun (e, t) => (some e, t)
  | t => some (none, t)

/-- The literal at the head of a text, as long as it can be read. -/
def read? (t : Text) : Option (Literal × Text) := do
  let (negative, t) := match t with
    | '-' :: t => (true, t)
    | t => (false, t)
  let (whole, t) ← natural? t
  let (fraction, t) ← fraction? t
  let (exponent, t) ← exponent? t
  return (⟨negative, whole, fraction, exponent⟩, t)

/-- The greatest significand, and the greatest integer. -/
def maxSignificand : Nat := Nat.pow 2 64 - 1

/-- The significand with the digits behind it that still fit, and the number of those left out. -/
def significand (n : Nat) : Text → Nat × Nat
  | [] => (n, 0)
  | c :: digits =>
    let n' := n * 10 + (c.toNat - '0'.toNat)
    if maxSignificand < n' then (n, digits.length + 1) else significand n' digits

/-- The greatest power of ten that is formed. -/
def maxPower : Nat := 308

/-- Divided `steps` times by the greatest power of ten, or as often as it takes to reach zero. -/
def divMaxPower? : Nat → Binary64 → Option Binary64
  | 0, x => some x
  | steps + 1, x =>
    if x.isZero then some x
    else do divMaxPower? steps (← x.div? (← Binary64.pow10? maxPower))

/-- `x / 10 ^ n`, by quotients with powers of ten that are formed. -/
def divPow10? (x : Binary64) (n : Nat) : Option Binary64 := do
  let steps := (n - 1) / maxPower
  let y ← divMaxPower? steps x
  y.div? (← Binary64.pow10? (n - maxPower * steps))

/-- The number `± n * 10 ^ e`. -/
def scale? (negative : Bool) (n : Nat) (e : Int) : Option Binary64 := do
  let x ← Binary64.ofRatio? negative n 1
  if x.isZero then some x
  else if 0 ≤ e then
    if e ≤ maxPower then Binary64.pow10? e.toNat >>= x.mul? else none
  else divPow10? x (-e).toNat

def value? (l : Literal) : Option Json :=
  let (n, dropped) := significand 0 l.whole
  if l.fraction = [] ∧ l.exponent = none then
    if dropped = 0 ∧ !l.negative then some (.int n)
    else if dropped = 0 ∧ n ≠ 0 ∧ n ≤ Nat.pow 2 63 then some (.int (-n))
    else (scale? l.negative n dropped).map .real
  else
    let (n, unread) := significand n l.fraction
    let e : Int := dropped - (l.fraction.length - unread : Nat) + l.exponent.getD 0
    (scale? l.negative n e).map .real

end Literal

/-- The number at the head of a text. -/
def number? (t : Text) : Option (Json × Text) := do
  let (literal, t) ← Literal.read? t
  return (← literal.value?, t)

end Json
end Pinout
