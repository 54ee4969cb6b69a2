import Pinout.Text.Basic

/-!
# Pinout.Note.Indent

The indentation of a documentation line. Columns are counted from the start of the comment, so the
text starts behind the marker, in column three. A space is one column wide, and a tab goes on to
the next multiple of four.
-/

namespace Pinout
namespace Note

/-- The column behind the comment marker. -/
def markerWidth : Nat := 3

def tabWidth : Nat := 4

/-- The column behind a space or a tab that stands in `column`. -/
def nextColumn? (column : Nat) (c : Char) : Option Nat :=
  if c = ' ' then some (column + 1)
  else if c = '\t' then some (column + (tabWidth - column % tabWidth))
  else none

/-- The column behind the spaces and tabs at the head of a text that starts in `column`. -/
def columnAfterIndent (column : Nat) : Text → Nat
  | [] => column
  | c :: t =>
    match nextColumn? column c with
    | some next => columnAfterIndent next t
    | none => column

/-- The indentation of a line, in columns behind the marker. -/
def indentOf (line : Text) : Nat := columnAfterIndent markerWidth line - markerWidth

def stripIndentFrom (column limit : Nat) : Text → Text
  | [] => []
  | c :: t =>
    match nextColumn? column c with
    | some next => if limit < next - markerWidth then c :: t else stripIndentFrom next limit t
    | none => c :: t

/-- The line without the spaces and tabs that lie in its first `limit` columns. -/
def stripIndent (limit : Nat) (line : Text) : Text := stripIndentFrom markerWidth limit line

theorem le_nextColumn {column next : Nat} {c : Char} (h : nextColumn? column c = some next) :
    column < next := by
  unfold nextColumn? at h
  split at h
  · cases h
    exact Nat.lt_succ_self _
  · split at h
    · cases h
      have := Nat.mod_lt column (show 0 < tabWidth by decide)
      omega
    · cases h

end Note
end Pinout
