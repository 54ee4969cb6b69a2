import Pinout.Text.Basic

/-!
# Pinout.Text.Case

Upper and lower case of letters: Latin with the marks of the first two supplements, Greek and
Cyrillic. A character without a counterpart stands for itself.
-/

namespace Pinout
namespace Text

/-- Letters from `first` to `last` whose counterparts lie `distance` further on. -/
structure CaseRange where
  first : Nat
  last : Nat
  distance : Nat

/-- Runs of upper case letters, and how far behind them their lower case letters are. -/
def caseRanges : List CaseRange :=
  [⟨0x41, 0x5A, 32⟩, ⟨0xC0, 0xD6, 32⟩, ⟨0xD8, 0xDE, 32⟩, ⟨0x391, 0x3A1, 32⟩, ⟨0x3A3, 0x3AB, 32⟩,
    ⟨0x386, 0x386, 38⟩, ⟨0x388, 0x38A, 37⟩, ⟨0x38C, 0x38C, 64⟩, ⟨0x38E, 0x38F, 63⟩,
    ⟨0x400, 0x40F, 80⟩, ⟨0x410, 0x42F, 32⟩, ⟨0x531, 0x556, 48⟩]

/-- Runs in which each even code is upper case and the odd code behind it its lower case. -/
def evenPairs : List (Nat × Nat) :=
  [(0x100, 0x12F), (0x132, 0x137), (0x14A, 0x177), (0x1DE, 0x1EF), (0x1F8, 0x21F), (0x222, 0x233),
    (0x370, 0x373), (0x3D8, 0x3EF), (0x460, 0x481), (0x48A, 0x4BF), (0x4D0, 0x52F),
    (0x1E00, 0x1E95), (0x1EA0, 0x1EFF)]

/-- Runs in which each odd code is upper case and the even code behind it its lower case. -/
def oddPairs : List (Nat × Nat) :=
  [(0x139, 0x148), (0x179, 0x17E), (0x1CD, 0x1DC), (0x4C1, 0x4CE)]

def inRuns (runs : List (Nat × Nat)) (n : Nat) : Bool :=
  runs.any fun (first, last) => first ≤ n && n ≤ last

/-- The upper case of a letter; a sharp s has two letters. -/
def upperChar (c : Char) : Text :=
  let n := c.toNat
  match caseRanges.find? fun r => r.first + r.distance ≤ n && n ≤ r.last + r.distance with
  | some r => [Char.ofNat (n - r.distance)]
  | none =>
    if inRuns evenPairs n ∧ n % 2 = 1 ∧ n ≠ 0x131 then [Char.ofNat (n - 1)]
    else if inRuns oddPairs n ∧ n % 2 = 0 then [Char.ofNat (n - 1)]
    else if n = 0xDF then ['S', 'S']
    else if n = 0x131 then ['I']
    else if n = 0xFF then [Char.ofNat 0x178]
    else if n = 0xB5 then [Char.ofNat 0x39C]
    else if n = 0x149 then [Char.ofNat 0x2BC, 'N']
    else if n = 0x17F then ['S']
    else if n = 0x3C2 then [Char.ofNat 0x3A3]
    else [c]

/-- The lower case of a letter; a capital I with a dot keeps the dot. -/
def lowerChar (c : Char) : Text :=
  let n := c.toNat
  match caseRanges.find? fun r => r.first ≤ n && n ≤ r.last with
  | some r => [Char.ofNat (n + r.distance)]
  | none =>
    if n = 0x130 then ['i', Char.ofNat 0x307]
    else if n = 0x178 then [Char.ofNat 0xFF]
    else if n = 0x1E9E then [Char.ofNat 0xDF]
    else if inRuns evenPairs n ∧ n % 2 = 0 then [Char.ofNat (n + 1)]
    else if inRuns oddPairs n ∧ n % 2 = 1 then [Char.ofNat (n + 1)]
    else [c]

def upper (t : Text) : Text := t.flatMap upperChar

def lower (t : Text) : Text := t.flatMap lowerChar

end Text
end Pinout
