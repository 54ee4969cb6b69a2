import Pinout.Text.Basic

/-!
# Pinout.Text.Bytes

Text as bytes in UTF-8. `decode` reads any bytes; a byte that belongs to no character stands for the
replacement character.
-/

namespace Pinout
namespace Text

def encode (t : Text) : List UInt8 := t.flatMap String.utf8EncodeChar

def replacement : Char := Char.ofNat 0xFFFD

/-- Whether a byte continues a character. -/
def isContinuation (b : UInt8) : Bool := 0x80 ≤ b && b < 0xC0

/-- How many bytes continue the character that starts with `b`, and the bits that `b` gives. -/
def leading? (b : UInt8) : Option (Nat × Nat) :=
  if b < 0x80 then some (0, b.toNat)
  else if 0xC2 ≤ b ∧ b < 0xE0 then some (1, b.toNat - 0xC0)
  else if 0xE0 ≤ b ∧ b < 0xF0 then some (2, b.toNat - 0xE0)
  else if 0xF0 ≤ b ∧ b < 0xF5 then some (3, b.toNat - 0xF0)
  else none

/-- The least code that needs `n` bytes behind the first one. -/
def leastCode : Nat → Nat
  | 0 => 0
  | 1 => 0x80
  | 2 => 0x800
  | _ => 0x10000

/-- The character at the head of some bytes, and how many bytes it takes. -/
def decodeFirst? : List UInt8 → Option (Char × Nat)
  | [] => none
  | b :: bs => do
    let (n, bits) ← leading? b
    let tail := bs.take n
    let code := tail.foldl (fun code b => code * 0x40 + (b.toNat - 0x80)) bits
    if tail.length = n ∧ tail.all isContinuation ∧ leastCode n ≤ code ∧ code.isValidChar then
      some (Char.ofNat code, n)
    else none

/-- Decodes with `skip` bytes that belong to a character already read. -/
def decodeFrom : Nat → List UInt8 → Text
  | _, [] => []
  | skip + 1, _ :: bs => decodeFrom skip bs
  | 0, b :: bs =>
    match decodeFirst? (b :: bs) with
    | some (c, n) => c :: decodeFrom n bs
    | none => replacement :: decodeFrom 0 bs

def decode (bs : List UInt8) : Text := decodeFrom 0 bs

end Text
end Pinout
