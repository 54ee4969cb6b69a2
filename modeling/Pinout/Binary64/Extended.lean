import Pinout.Binary64.Shortest

/-!
# Pinout.Binary64.Extended

Arithmetic that never fails: the finite numbers together with the two infinities and the result of
operations that have none. A finite result that is too large for the format is an infinity.
-/

namespace Pinout
namespace Binary64

inductive Extended where
  | finite (x : Binary64)
  | infinite (negative : Bool)
  | nan
  deriving DecidableEq, Repr

namespace Extended

/-- The rounded result, or the infinity of its sign. -/
def ofRounded (negative : Bool) : Option Binary64 → Extended
  | some x => finite x
  | none => infinite negative

def ofInt (i : Int) : Extended := ofRounded (decide (i < 0)) (ofInt? i)

def neg : Extended → Extended
  | finite x => finite x.neg
  | infinite negative => infinite (!negative)
  | nan => nan

/-- A sum too large for the format has two summands of one sign. -/
def add : Extended → Extended → Extended
  | finite x, finite y => ofRounded x.negative (x.add? y)
  | infinite a, infinite b => if a = b then infinite a else nan
  | nan, _ => nan
  | _, nan => nan
  | infinite a, finite _ => infinite a
  | finite _, infinite b => infinite b

def mul : Extended → Extended → Extended
  | finite x, finite y => ofRounded (x.negative != y.negative) (x.mul? y)
  | infinite a, infinite b => infinite (a != b)
  | nan, _ => nan
  | _, nan => nan
  | infinite a, finite y => if y.isZero then nan else infinite (a != y.negative)
  | finite x, infinite b => if x.isZero then nan else infinite (x.negative != b)

def div : Extended → Extended → Extended
  | finite x, finite y =>
    if y.isZero then (if x.isZero then nan else infinite (x.negative != y.negative))
    else ofRounded (x.negative != y.negative) (x.div? y)
  | infinite a, finite y => infinite (a != y.negative)
  | finite x, infinite b => finite (zero (x.negative != b))
  | infinite _, infinite _ => nan
  | nan, _ => nan
  | _, nan => nan

/-- Whether both are the same number; `nan` is no number. -/
def sameValue : Extended → Extended → Bool
  | finite x, finite y => x.sameValue y
  | infinite a, infinite b => a == b
  | _, _ => false

def isZero : Extended → Bool
  | finite x => x.isZero
  | _ => false

def toText (layout : Layout) : Extended → Text
  | finite x => x.toText layout
  | infinite negative => if negative then "-inf".toList else "inf".toList
  | nan => "NaN".toList

end Extended
end Binary64
end Pinout
