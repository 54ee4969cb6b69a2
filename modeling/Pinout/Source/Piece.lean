import Pinout.Text.Blank

/-!
# Pinout.Source.Piece

Source text as pieces: code, string literals, attributes `(* … *)`, comments and newlines. A
carriage return before a newline belongs to the newline.

`next` reads the piece at a character; every character starts some piece, so reading cannot fail.
`pieces` reads on to the end and merges neighbouring code. `next_rest_length_le` is what makes it
end.
-/

namespace Pinout
namespace Source

inductive Piece where
  | code (text : Text)
  | quoted (text : Text)
  | attr (text : Text)
  | lineComment (text : Text)
  | blockComment (text : Text)
  | newline
  deriving DecidableEq, Repr

namespace Piece

/-- What the piece shows; a block comment is shown closed. -/
def text : Piece → Text
  | code t | quoted t | attr t | lineComment t | blockComment t => t
  | newline => ['\n']

end Piece

/-- The literal behind an opening quote: up to the closing quote, or, when none follows, up to the
end of the line. A backslash takes the next character with it, whatever that is. -/
def splitLiteral : Text → Text × Text
  | [] => ([], [])
  | [c] =>
    if c = '"' then (['"'], [])
    else if c = '\\' ∨ c = '\n' then ([], [c])
    else ([c], [])
  | c :: d :: t =>
    if c = '"' then (['"'], d :: t)
    else if c = '\n' then ([], c :: d :: t)
    else if c = '\\' then
      let (literal, rest) := splitLiteral t
      (c :: d :: literal, rest)
    else
      let (literal, rest) := splitLiteral (d :: t)
      (c :: literal, rest)

theorem append_splitLiteral (t : Text) : (splitLiteral t).1 ++ (splitLiteral t).2 = t := by
  fun_induction splitLiteral t <;> simp_all

theorem length_splitLiteral_le (t : Text) : (splitLiteral t).2.length ≤ t.length := by
  have := congrArg List.length (append_splitLiteral t)
  simp only [List.length_append] at this
  omega

/-- The piece that starts after an opening `(*`: an event control `(*)`, which is code and may hold
blanks, or a closed attribute. -/
def starGroup? (t : Text) : Option (Piece × Text) :=
  match t.dropWhile Text.isBlank with
  | ')' :: rest => some (.code ("(*".toList ++ t.takeWhile Text.isBlank ++ [')']), rest)
  | _ =>
    (Text.splitAround? "*)".toList t).map fun (body, rest) =>
      (.attr ("(*".toList ++ body ++ "*)".toList), rest)

/-- The piece that starts with `c`, and the text behind it. -/
def next (c : Char) (t : Text) : Piece × Text :=
  match c, t with
  | '\n', t => (.newline, t)
  | '/', '/' :: t => (.lineComment ("//".toList ++ t.takeWhile (· ≠ '\n')), t.dropWhile (· ≠ '\n'))
  | '/', '*' :: t =>
    match Text.splitAround? "*/".toList t with
    | some (body, rest) => (.blockComment ("/*".toList ++ body ++ "*/".toList), rest)
    | none => (.blockComment ("/*".toList ++ t ++ "*/".toList), [])
  | '(', '*' :: t => (starGroup? t).getD (.code ['('], '*' :: t)
  | '"', t => (.quoted ('"' :: (splitLiteral t).1), (splitLiteral t).2)
  | c, t => (.code [c], t)

theorem length_le_of_starGroup? {t rest : Text} {p : Piece} (h : starGroup? t = some (p, rest)) :
    rest.length ≤ t.length := by
  unfold starGroup? at h
  split at h
  · next r hr =>
    cases h
    have := (List.dropWhile_sublist Text.isBlank (l := t)).length_le
    rw [hr, List.length_cons] at this
    omega
  · obtain ⟨⟨b, a⟩, hb, he⟩ := Option.map_eq_some_iff.1 h
    cases he
    have := congrArg List.length (Text.append_of_splitAround? hb)
    simp only [List.length_append] at this
    omega

theorem next_rest_length_le (c : Char) (t : Text) : (next c t).2.length ≤ t.length := by
  unfold next
  split
  · exact Nat.le_refl _
  · exact Nat.le_succ_of_le (List.dropWhile_sublist _).length_le
  · split
    · next t b a h =>
      have := congrArg List.length (Text.append_of_splitAround? h)
      simp only [List.length_append, List.length_cons] at *
      omega
    · exact Nat.zero_le _
  · next t =>
    cases h : starGroup? t with
    | none => exact Nat.le_refl _
    | some pr => exact Nat.le_succ_of_le (length_le_of_starGroup? h)
  · exact length_splitLiteral_le _
  · exact Nat.le_refl _

/-- The pieces of a text, one after the other, with each character of code a piece. -/
def rawPieces (t : Text) : List Piece :=
  match t with
  | [] => []
  | c :: t => (next c t).1 :: rawPieces (next c t).2
termination_by t.length
decreasing_by exact Nat.lt_succ_of_le (next_rest_length_le c t)

/-- One piece for each run of code. -/
def mergeCode : List Piece → List Piece
  | [] => []
  | .code t :: rest =>
    match mergeCode rest with
    | .code u :: more => .code (t ++ u) :: more
    | more => .code t :: more
  | p :: rest => p :: mergeCode rest

def pieces (source : Text) : List Piece := mergeCode (rawPieces source.unifyNewlines)

end Source
end Pinout
