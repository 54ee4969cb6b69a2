import Pinout.Text.Basic

/-!
# Pinout.Text.Word

Identifiers and the search for whole words. A word of a text is an occurrence that no identifier
character touches on either side.

`findWord?` looks for the next occurrence of the word, and after one that is part of a longer
identifier goes on behind it; `WordAt` is what it looks for.
-/

namespace Pinout
namespace Text

def isWordStart (c : Char) : Bool := c.isAlpha || c == '_'

def isWordChar (c : Char) : Bool := c.isAlphanum || c == '_' || c == '$'

/-- No identifier character stands at the head of the text. -/
def endsWord : Text → Bool
  | [] => true
  | c :: _ => !isWordChar c

/-- The identifier at the head of a text, empty when there is none, and the rest. -/
def splitIdentifier : Text → Text × Text
  | [] => ([], [])
  | c :: t =>
    if isWordStart c then (c :: t.takeWhile isWordChar, t.dropWhile isWordChar)
    else ([], c :: t)

/-- An identifier: a letter or underscore, then letters, digits, underscores and dollar signs. -/
def isIdentifier : Text → Bool
  | [] => false
  | c :: t => isWordStart c && t.all isWordChar

/-- At offset `n` of `t` stands `word`, with no identifier character directly before or after. -/
def WordAt (word t : Text) (n : Nat) : Prop :=
  word <+: t.drop n ∧ endsWord (t.take n).reverse ∧ endsWord (t.drop (n + word.length))

/-- The offset of the first whole occurrence of `word` in `t`, where `atEdge` says that no
identifier character stands before `t`. An occurrence that is not whole is passed over as one. -/
def findWordFrom? (word : Text) (atEdge : Bool) (t : Text) : Option Nat :=
  match t with
  | [] => none
  | c :: r =>
    match hd : dropLead? word (c :: r) with
    | some after =>
      if atEdge && endsWord after then some 0
      else
        if _hw : word = [] then none
        else (findWordFrom? word (endsWord word.reverse) after).map (word.length + ·)
    | none => (findWordFrom? word (!isWordChar c) r).map (1 + ·)
termination_by t.length
decreasing_by
  · have := congrArg List.length (append_of_dropLead? hd)
    have := List.length_pos_iff.2 _hw
    simp only [List.length_append, List.length_cons] at *
    omega
  · simp

/-- The offset of the first whole occurrence of `word`; the empty word occurs nowhere. -/
def findWord? (word t : Text) : Option Nat :=
  if word = [] then none else findWordFrom? word true t

/-- The text after the first whole occurrence of `word`. -/
def afterWord? (word t : Text) : Option Text :=
  (findWord? word t).map fun n => t.drop (n + word.length)

end Text
end Pinout
