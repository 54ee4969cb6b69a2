/-!
# Pinout.Binary64.Basic

The finite numbers of the binary64 format, as a sign, a mantissa and a power of two, with exact
rounding. Every operation forms the exact result as a ratio of natural numbers and rounds once, to
the nearest number and from the middle to the even mantissa; a result too large for the format is
`none`.
-/

namespace Pinout

/-- The number `± mantissa * 2 ^ exponent`. -/
structure Binary64 where
  negative : Bool
  mantissa : Nat
  exponent : Int
  deriving DecidableEq, Repr

namespace Binary64

/-- The exponent of the numbers nearest to zero. -/
def minExponent : Int := -1074

def maxExponent : Int := 971

/-- The least mantissa with too many digits. -/
def mantissaBound : Nat := Nat.pow 2 53

def zero (negative : Bool) : Binary64 := ⟨negative, 0, minExponent⟩

def isZero (x : Binary64) : Bool := x.mantissa == 0

def neg (x : Binary64) : Binary64 := { x with negative := !x.negative }

/-- The natural number nearest to `n / d`, the even one from the middle. -/
def roundHalfEven (n d : Nat) : Nat :=
  let q := n / d
  let r := n % d
  if 2 * r < d then q
  else if d < 2 * r then q + 1
  else q + q % 2

/-- The ratio `n / d` in units of `2 ^ e`. -/
def inUnits (n d : Nat) (e : Int) : Nat × Nat :=
  if 0 ≤ e then (n, d * Nat.pow 2 e.toNat) else (n * Nat.pow 2 (-e).toNat, d)

/-- The number nearest to `± n / d`, for `d` not zero. -/
def ofRatio? (negative : Bool) (n d : Nat) : Option Binary64 :=
  if n = 0 then some (zero negative)
  else
    let guess : Int := max ((n.log2 : Int) - d.log2 - 53) minExponent
    let floor := (inUnits n d guess).1 / (inUnits n d guess).2
    let e := if floor < mantissaBound then guess else guess + 1
    let m := roundHalfEven (inUnits n d e).1 (inUnits n d e).2
    let (m, e) := if m < mantissaBound then (m, e) else (m / 2, e + 1)
    if e ≤ maxExponent then some ⟨negative, m, e⟩ else none

/-- The magnitude as a ratio. -/
def ratio (x : Binary64) : Nat × Nat :=
  if 0 ≤ x.exponent then (x.mantissa * Nat.pow 2 x.exponent.toNat, 1)
  else (x.mantissa, Nat.pow 2 (-x.exponent).toNat)

def mul? (x y : Binary64) : Option Binary64 :=
  ofRatio? (x.negative != y.negative) (x.ratio.1 * y.ratio.1) (x.ratio.2 * y.ratio.2)

/-- The quotient, for `y` not zero. -/
def div? (x y : Binary64) : Option Binary64 :=
  ofRatio? (x.negative != y.negative) (x.ratio.1 * y.ratio.2) (x.ratio.2 * y.ratio.1)

/-- A signed ratio over a common denominator. -/
def signed (x : Binary64) (d : Nat) : Int :=
  let n : Int := (x.ratio.1 * (d / x.ratio.2) : Nat)
  if x.negative then -n else n

/-- The sum; opposite numbers sum to positive zero. -/
def add? (x y : Binary64) : Option Binary64 :=
  let d := max x.ratio.2 y.ratio.2
  let sum := x.signed d + y.signed d
  if sum = 0 then some (zero (x.isZero && y.isZero && x.negative && y.negative))
  else ofRatio? (decide (sum < 0)) sum.natAbs d

def ofInt? (i : Int) : Option Binary64 := ofRatio? (decide (i < 0)) i.natAbs 1

/-- The power of ten nearest to `10 ^ n`. -/
def pow10? (n : Nat) : Option Binary64 := ofRatio? false (Nat.pow 10 n) 1

/-- The number nearest to `± digits * 10 ^ exponent`. Far outside the range of the format the power
of ten is not formed: `digits` lies between `2 ^ log2 digits` and its double, and ten between
`2 ^ 3` and `2 ^ 4`. -/
def ofDecimal? (negative : Bool) (digits : Nat) (exponent : Int) : Option Binary64 :=
  if digits = 0 then some (zero negative)
  else
    let size : Int := (digits.log2 : Int) / 4 + exponent
    if 400 < size then none
    else if (digits.log2 : Int) + 3 * exponent < -1080 then some (zero negative)
    else if 0 ≤ exponent then ofRatio? negative (digits * Nat.pow 10 exponent.toNat) 1
    else ofRatio? negative digits (Nat.pow 10 (-exponent).toNat)

/-- Whether the numbers are the same number; the two zeros are. -/
def sameValue (x y : Binary64) : Bool := x == y || (x.isZero && y.isZero)

/-- The integer the number is, if it is one. -/
def toInt? (x : Binary64) : Option Int :=
  if x.ratio.1 % x.ratio.2 = 0 then
    let n : Int := (x.ratio.1 / x.ratio.2 : Nat)
    some (if x.negative then -n else n)
  else none

end Binary64
end Pinout
