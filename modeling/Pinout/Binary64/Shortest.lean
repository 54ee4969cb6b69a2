import Pinout.Binary64.Basic
import Pinout.Text.Basic

/-!
# Pinout.Binary64.Shortest

The shortest decimal that reads back as a given binary64 number, and the layouts in which it is
written.

The decimals that read back are those between the two midpoints around the number, with the
midpoints if its mantissa is even. For one digit, two digits and so on, the two neighbours of the
number on that decimal grid are tried; the first grid with a neighbour in range gives the answer,
and of two neighbours the nearer, from the middle the even one.
-/

namespace Pinout
namespace Binary64

/-- The range that reads back as a positive number, over a common denominator. -/
structure Interval where
  low : Nat
  value : Nat
  high : Nat
  denominator : Nat
  closed : Bool

/-- The midpoint below a power of two is half as far away, as the numbers below it are denser. -/
def interval (x : Binary64) : Interval :=
  let m := x.mantissa
  let below := if m = Nat.pow 2 52 ∧ minExponent < x.exponent then 1 else 2
  let unit := if 0 ≤ x.exponent then Nat.pow 2 x.exponent.toNat else 1
  let denominator := if 0 ≤ x.exponent then 4 else 4 * Nat.pow 2 (-x.exponent).toNat
  ⟨(4 * m - below) * unit, 4 * m * unit, (4 * m + 2) * unit, denominator, m % 2 == 0⟩

/-- How many zeros stand between the decimal point and the first digit of `n / d`, below one. -/
def leadingZeros (d : Nat) : Nat → Nat → Nat
  | 0, _ => 0
  | limit + 1, n => if d ≤ n * 10 then 0 else leadingZeros d limit (n * 10) + 1

/-- The position of the decimal point before the first digit of `n / d`: one for one digit before
the point. -/
def pointPosition (n d : Nat) : Int :=
  if d ≤ n then (Text.decimal (n / d)).length else -(leadingZeros d 400 n : Int)

/-- The neighbour of the number on the grid of multiples of `10 ^ grid` that reads back. -/
def Interval.onGrid? (i : Interval) (grid : Int) : Option Nat :=
  let up := if 0 ≤ grid then 1 else Nat.pow 10 (-grid).toNat
  let d := if 0 ≤ grid then i.denominator * Nat.pow 10 grid.toNat else i.denominator
  let below := i.value * up / d
  let above := below + 1
  let belowReads := if i.closed then i.low * up ≤ below * d else i.low * up < below * d
  let aboveReads := if i.closed then above * d ≤ i.high * up else above * d < i.high * up
  if belowReads ∧ aboveReads then
    let left := i.value * up - below * d
    let right := above * d - i.value * up
    if left < right then some below
    else if right < left then some above
    else some (below + below % 2)
  else if belowReads then some below
  else if aboveReads then some above
  else none

/-- The first grid with a neighbour that reads back, from `digits` digits on. -/
def Interval.search (i : Interval) (point : Int) (digits : Nat) : Nat → Nat × Int
  | 0 => (i.value / i.denominator, 0)
  | limit + 1 =>
    match i.onGrid? (point - digits) with
    | some n => (n, point - digits)
    | none => i.search point (digits + 1) limit

/-- The shortest digits, and the power of ten they are multiplied by. -/
def shortest (x : Binary64) : Nat × Int :=
  let i := x.interval
  i.search (pointPosition i.value i.denominator) 1 17

/-- How a number is written: for which positions of the decimal point, counted from the front of
the digits, without an exponent, and whether an exponent that is not negative has a plus sign. -/
structure Layout where
  positional : Int → Bool
  plusSign : Bool

/-- Digits with the decimal point at `point`; a whole number keeps one zero behind the point. -/
def positional (digits : Text) (point : Int) : Text :=
  if point ≤ 0 then
    "0.".toList ++ List.replicate (-point).toNat '0' ++ digits
  else if digits.length ≤ point.toNat then
    digits ++ List.replicate (point.toNat - digits.length) '0' ++ ".0".toList
  else digits.take point.toNat ++ ['.'] ++ digits.drop point.toNat

/-- One digit before the point, and an exponent. -/
def scientific (plusSign : Bool) (digits : Text) (point : Int) : Text :=
  let fraction := if digits.length ≤ 1 then [] else '.' :: digits.drop 1
  let exponent := point - 1
  digits.take 1 ++ fraction ++ ['e'] ++ (if plusSign ∧ 0 ≤ exponent then ['+'] else []) ++
    Text.decimalInt exponent

def dropZeros (digits : Text) : Text := (digits.reverse.dropWhile (· == '0')).reverse

def magnitudeText (layout : Layout) (x : Binary64) : Text :=
  if x.isZero then "0.0".toList
  else
    let (n, e) := x.shortest
    let digits := Text.decimal n
    let point := digits.length + e
    let digits := dropZeros digits
    if layout.positional point then positional digits point
    else scientific layout.plusSign digits point

/-- The number in decimal. -/
def toText (layout : Layout) (x : Binary64) : Text :=
  (if x.negative then ['-'] else []) ++ magnitudeText layout x

end Binary64
end Pinout
