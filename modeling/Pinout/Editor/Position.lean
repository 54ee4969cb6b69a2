import Pinout.Text.Word

/-!
# Pinout.Editor.Position

Places in a text, and the identifiers at them. A position counts lines and the characters of a line
from zero.

* `identifierAt?`   — the identifier that touches a position;
* `findIdentifier?` — the first whole occurrence of a name at or behind a position.

`exists_of_findInLines?` says what a search that succeeds has seen, and `bounds_of_columnFrom?` that
it goes forward and stays inside its line.
-/

namespace Pinout
namespace Editor

structure Position where
  line : Nat
  character : Nat
  deriving DecidableEq, Repr

def Position.zero : Position := ⟨0, 0⟩

/-- The characters from `start` to right before `stop`. -/
structure Range where
  start : Position
  stop : Position
  deriving DecidableEq, Repr

def Range.zero : Range := ⟨.zero, .zero⟩

/-- The identifier characters on both sides of `column`. -/
def identifierInLine? (line : Text) (column : Nat) : Option Text :=
  let word :=
    ((line.take column).reverse.takeWhile Text.isWordChar).reverse ++
      (line.drop column).takeWhile Text.isWordChar
  if column ≤ line.length ∧ word ≠ [] then some word else none

/-- The identifier that touches a position. -/
def identifierAt? (t : Text) (p : Position) : Option Text := do
  identifierInLine? (← t.lines[p.line]?) p.character

/-! ## Search -/

/-- Whether `word` stands at the head of a text with no identifier character behind it. -/
def startsWithWord (word t : Text) : Bool := (Text.dropLead? word t).any Text.endsWord

/-- The first column in which `word` occurs whole, in the part of a line that starts in `column`;
`atEdge` says that no identifier character stands before it. -/
def wordColumn? (word : Text) (atEdge : Bool) (column : Nat) : Text → Option Nat
  | [] => none
  | c :: t =>
    if atEdge && startsWithWord word (c :: t) then some column
    else wordColumn? word (!Text.isWordChar c) (column + 1) t

/-- The first column at or behind `column` in which `word` occurs whole in a line. -/
def columnFrom? (word line : Text) (column : Nat) : Option Nat :=
  wordColumn? word (Text.endsWord (line.take column).reverse) column (line.drop column)

/-- The range of a name that starts in a column of a line. -/
def rangeAt (name : Text) (line column : Nat) : Range :=
  ⟨⟨line, column⟩, ⟨line, column + name.length⟩⟩

/-- The first whole occurrence of a name in lines that are numbered from `number` on. The first line
is searched from `column` on, the lines behind it from their start. -/
def findInLines? (name : Text) (number column : Nat) : List Text → Option Range
  | [] => none
  | line :: lines =>
    match columnFrom? name line column with
    | some start => some (rangeAt name number start)
    | none => findInLines? name (number + 1) 0 lines

/-- The first whole occurrence of a name at or behind a position; the empty name has none. -/
def findIdentifier? (t name : Text) (origin : Position) : Option Range :=
  if name = [] then none
  else findInLines? name origin.line origin.character (t.lines.drop origin.line)

theorem bounds_of_wordColumn? {word : Text} {atEdge : Bool} {column : Nat} {t : Text} {n : Nat}
    (h : wordColumn? word atEdge column t = some n) :
    column ≤ n ∧ n + word.length ≤ column + t.length := by
  induction t generalizing atEdge column with
  | nil => cases h
  | cons c t ih =>
    rw [wordColumn?] at h
    split at h
    · next hw =>
      cases h
      rw [Bool.and_eq_true, startsWithWord, Option.any_eq_true] at hw
      obtain ⟨-, r, hr, -⟩ := hw
      have := congrArg List.length (Text.append_of_dropLead? hr)
      rw [List.length_append] at this
      omega
    · have := ih h
      rw [List.length_cons]
      omega

theorem bounds_of_columnFrom? {word line : Text} {column n : Nat}
    (h : columnFrom? word line column = some n) : column ≤ n ∧ n + word.length ≤ line.length := by
  have hlength := bounds_of_wordColumn? h
  have hcolumn : column ≤ line.length := by
    refine Nat.le_of_not_gt fun hgt => ?_
    rw [columnFrom?, List.drop_eq_nil_of_le (Nat.le_of_lt hgt)] at h
    cases h
  rw [List.length_drop] at hlength
  omega

/-- What a search has seen: a line in which the name occurs, and none before it. -/
theorem exists_of_findInLines? {name : Text} {number column : Nat} {lines : List Text} {r : Range}
    (h : findInLines? name number column lines = some r) :
    ∃ i line start, lines[i]? = some line ∧
      columnFrom? name line (if i = 0 then column else 0) = some start ∧
      r = rangeAt name (number + i) start ∧
      ∀ j < i, ∀ line, lines[j]? = some line →
        columnFrom? name line (if j = 0 then column else 0) = none := by
  induction lines generalizing number column with
  | nil => cases h
  | cons line lines ih =>
    rw [findInLines?] at h
    split at h
    · next start hs =>
      cases h
      exact ⟨0, line, start, rfl, hs, rfl, fun j hj => absurd hj (Nat.not_lt_zero j)⟩
    · next hs =>
      obtain ⟨i, found, start, hi, hc, rfl, hbefore⟩ := ih h
      rw [ite_self] at hc
      refine ⟨i + 1, found, start, hi, hc, by rw [Nat.add_assoc, Nat.add_comm 1], ?_⟩
      intro j hj other ho
      cases j with
      | zero =>
        cases ho
        exact hs
      | succ j =>
        have := hbefore j (Nat.lt_of_succ_lt_succ hj) other ho
        rwa [ite_self] at this

end Editor
end Pinout
