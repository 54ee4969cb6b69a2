import Pinout.Text.Basic

/-!
# Pinout.Snippet.Column

Columns and lists of generated code. A column is at least as wide as its longest text, so texts are
filled up and never cut, and what follows them stands at one column in all lines.
-/

namespace Pinout
namespace Snippet

/-- Widths go up in steps of four. -/
def tabStop (n : Nat) : Nat := n / 4 * 4

/-- The width of a column of connected names. -/
def nameWidth (names : List Text) : Nat := tabStop (Text.longest names + 1) + 3

def lineOf (parts : List Text) : Text := parts.flatten ++ ['\n']

/-- A connection `.name(value)` with both columns filled up. -/
def connection (nameWidth valueWidth : Nat) (name value : Text) : Text :=
  "        .".toList ++ Text.padRight nameWidth name ++ '(' :: Text.padRight valueWidth value ++
    [')']

/-- One line for each item, to which the separator is passed: a comma, or `last` at the last. -/
def separated {α : Type} (last : Text) (line : α → Text → Text) : List α → Text
  | [] => []
  | [item] => line item last
  | item :: next :: items => line item [','] ++ separated last line (next :: items)

theorem length_le_longest {t : Text} {ts : List Text} (h : t ∈ ts) :
    t.length ≤ Text.longest ts := by
  induction ts with
  | nil => cases h
  | cons s ts ih =>
    rcases List.mem_cons.1 h with rfl | hs
    · exact Nat.le_max_left _ _
    · exact Nat.le_trans (ih hs) (Nat.le_max_right _ _)

end Snippet
end Pinout
