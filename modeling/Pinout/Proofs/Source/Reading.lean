import Pinout.Proofs.Text.Search
import Pinout.Source.View

/-!
# Pinout.Proofs.Source.Reading

The pieces of a source by rules. `Read c t p r` says that behind the character `c` and before the
text `t` stands the piece `p`, with `r` left over. The rules and `next` agree: what `next` gives is
read by them (`read_next`), and nothing else is (`next_of_read`).

`bare` is a text without its comments and attributes, as `stripped_views` shows it to be the
stripped view.
-/

namespace Pinout
namespace Source

open Text (isBlank allBlank)

/-- The pairs `//`, `/*` and `(*`, which start a comment or a star group. -/
def opens (c d : Char) : Bool := (c == '/' && (d == '/' || d == '*')) || (c == '(' && d == '*')

/-- Behind `(*` stands the rest of an event control: blanks and a closing parenthesis. -/
def isEvent (t : Text) : Bool := (t.dropWhile isBlank).head? == some ')'

def atLineEnd (t : Text) : Bool := t.head?.all (· == '\n')

inductive Read : Char → Text → Piece → Text → Prop where
  | newline (t : Text) : Read '\n' t .newline t
  | lineComment {body rest : Text} (hb : '\n' ∉ body) (hr : atLineEnd rest) :
      Read '/' ('/' :: (body ++ rest)) (.lineComment ('/' :: '/' :: body)) rest
  | blockComment {body : Text} (rest : Text) (hb : ¬ ['*', '/'] <:+: body) :
      Read '/' ('*' :: (body ++ ['*', '/'] ++ rest))
        (.blockComment ('/' :: '*' :: (body ++ ['*', '/']))) rest
  | openComment {t : Text} (ht : ¬ ['*', '/'] <:+: t) :
      Read '/' ('*' :: t) (.blockComment ('/' :: '*' :: (t ++ ['*', '/']))) []
  | event {w : Text} (rest : Text) (hw : w.allBlank) :
      Read '(' ('*' :: (w ++ ')' :: rest)) (.code ('(' :: '*' :: (w ++ [')']))) rest
  | attr {body rest : Text} (hn : isEvent (body ++ ['*', ')'] ++ rest) = false)
      (hb : ¬ ['*', ')'] <:+: body) :
      Read '(' ('*' :: (body ++ ['*', ')'] ++ rest))
        (.attr ('(' :: '*' :: (body ++ ['*', ')']))) rest
  | star {t : Text} (hn : isEvent t = false) (ht : ¬ ['*', ')'] <:+: t) :
      Read '(' ('*' :: t) (.code ['(']) ('*' :: t)
  | literal (t : Text) : Read '"' t (.quoted ('"' :: (splitLiteral t).1)) (splitLiteral t).2
  | code {c : Char} {t : Text} (hn : c ≠ '\n') (hq : c ≠ '"')
      (ho : ∀ d, t.head? = some d → opens c d = false) : Read c t (.code [c]) t

theorem exists_of_isEvent {t : Text} (h : isEvent t = true) :
    ∃ w rest, w.allBlank ∧ t = w ++ ')' :: rest := by
  rw [isEvent, beq_iff_eq, List.head?_eq_some_iff] at h
  obtain ⟨rest, hr⟩ := h
  refine ⟨t.takeWhile isBlank, rest, List.all_takeWhile, ?_⟩
  rw [← hr, List.takeWhile_append_dropWhile]

theorem starGroup?_of_isEvent {w rest : Text} (hw : w.allBlank) :
    starGroup? (w ++ ')' :: rest) = some (.code ('(' :: '*' :: (w ++ [')'])), rest) := by
  have ha := List.all_eq_true.1 hw
  have hd : (w ++ ')' :: rest).dropWhile isBlank = ')' :: rest := by
    rw [List.dropWhile_append_of_pos ha]
    rfl
  have ht : (w ++ ')' :: rest).takeWhile isBlank = w := by
    rw [List.takeWhile_append_of_pos ha]
    exact List.append_nil w
  rw [starGroup?, hd, ht]
  rfl

theorem starGroup?_of_not_isEvent {t : Text} (h : isEvent t = false) :
    starGroup? t = (Text.splitAround? ['*', ')'] t).map fun (body, rest) =>
      (.attr ('(' :: '*' :: (body ++ ['*', ')'])), rest) := by
  unfold starGroup?
  split
  · next rest hr =>
    rw [isEvent, hr] at h
    cases h
  · rfl

theorem splitAround?_starParen {body rest : Text} (hb : ¬ ['*', ')'] <:+: body) :
    Text.splitAround? ['*', ')'] (body ++ ['*', ')'] ++ rest) = some (body, rest) :=
  Text.splitAround?_append_concat (q := ['*']) (by decide) hb

theorem splitAround?_starSlash {body rest : Text} (hb : ¬ ['*', '/'] <:+: body) :
    Text.splitAround? ['*', '/'] (body ++ ['*', '/'] ++ rest) = some (body, rest) :=
  Text.splitAround?_append_concat (q := ['*']) (by decide) hb

theorem not_newline_of_mem_takeWhile (t : Text) : '\n' ∉ t.takeWhile (· ≠ '\n') := by
  intro h
  have := List.all_eq_true.1 (List.all_takeWhile (p := (· ≠ '\n')) (l := t)) _ h
  simp at this

theorem atLineEnd_dropWhile (t : Text) : atLineEnd (t.dropWhile (· ≠ '\n')) = true := by
  have h := List.head?_dropWhile_not (· ≠ '\n') t
  unfold atLineEnd
  split at h
  · next c hc =>
    rw [hc]
    simpa using h
  · next hc => rw [hc]; rfl

theorem takeWhile_dropWhile_line {body rest : Text} (hb : '\n' ∉ body) (hr : atLineEnd rest) :
    (body ++ rest).takeWhile (· ≠ '\n') = body ∧ (body ++ rest).dropWhile (· ≠ '\n') = rest := by
  have hb' : ∀ c ∈ body, decide (c ≠ '\n') = true := by
    intro c hc
    have : c ≠ '\n' := fun e => hb (e ▸ hc)
    simpa using this
  rw [List.takeWhile_append_of_pos hb', List.dropWhile_append_of_pos hb']
  cases rest with
  | nil => simp
  | cons c r =>
    have hc : c = '\n' := by simpa [atLineEnd] using hr
    simp [hc]

theorem read_next (c : Char) (t : Text) : Read c t (next c t).1 (next c t).2 := by
  unfold next
  split
  · exact .newline _
  · next t =>
    have h := Read.lineComment (not_newline_of_mem_takeWhile t) (atLineEnd_dropWhile t)
    rwa [List.takeWhile_append_dropWhile] at h
  · next t =>
    split
    · next body rest hs =>
      obtain rfl := Text.append_of_splitAround? hs
      exact .blockComment rest (Text.not_infix_of_splitAround? (by decide) hs)
    · next hs => exact .openComment (Text.splitAround?_eq_none_iff.1 hs)
  · next t =>
    cases he : isEvent t with
    | true =>
      obtain ⟨w, rest, hw, rfl⟩ := exists_of_isEvent he
      rw [starGroup?_of_isEvent hw]
      exact .event rest hw
    | false =>
      rw [starGroup?_of_not_isEvent he]
      cases hs : Text.splitAround? ['*', ')'] t with
      | none => exact .star he (Text.splitAround?_eq_none_iff.1 hs)
      | some br =>
        obtain ⟨body, rest⟩ := br
        obtain rfl := Text.append_of_splitAround? hs
        exact .attr he (Text.not_infix_of_splitAround? (by decide) hs)
  · exact .literal _
  · next hn hq hl hb hs =>
    refine .code hn hq ?_
    intro d hd
    obtain ⟨u, rfl⟩ := List.head?_eq_some_iff.1 hd
    have h₁ : ¬ (c = '/' ∧ d = '/') := fun e => hl u e.1 (by rw [e.2])
    have h₂ : ¬ (c = '/' ∧ d = '*') := fun e => hb u e.1 (by rw [e.2])
    have h₃ : ¬ (c = '(' ∧ d = '*') := fun e => hs u e.1 (by rw [e.2])
    simp only [opens, Bool.or_eq_false_iff, Bool.and_eq_false_iff, beq_eq_false_iff_ne]
    tauto

theorem next_of_read {c : Char} {t r : Text} {p : Piece} (h : Read c t p r) :
    next c t = (p, r) := by
  cases h with
  | newline => rfl
  | lineComment hb hr =>
    obtain ⟨ht, hd⟩ := takeWhile_dropWhile_line hb hr
    simp only [next, ht, hd]
    rfl
  | blockComment rest hb =>
    simp only [next]
    erw [splitAround?_starSlash hb]
    rfl
  | openComment ht =>
    simp only [next]
    erw [Text.splitAround?_eq_none_iff.2 ht]
    rfl
  | event rest hw =>
    simp only [next, starGroup?_of_isEvent hw]
    rfl
  | attr hn hb =>
    simp only [next, starGroup?_of_not_isEvent hn, splitAround?_starParen hb]
    rfl
  | star hn ht =>
    simp only [next, starGroup?_of_not_isEvent hn, Text.splitAround?_eq_none_iff.2 ht]
    rfl
  | literal => rfl
  | code hn hq ho =>
    unfold next
    split <;> simp_all [opens]

theorem rawPieces_cons {c : Char} {t r : Text} {p : Piece} (h : Read c t p r) :
    rawPieces (c :: t) = p :: rawPieces r := by
  rw [rawPieces, next_of_read h]

/-! ## The text without comments -/

namespace Piece

/-- A piece that is neither a comment nor an attribute. -/
def isPlain : Piece → Bool
  | code _ | quoted _ | newline => true
  | attr _ | lineComment _ | blockComment _ => false

/-- What is left of a piece when comments and attributes are taken away. -/
def bare : Piece → Text
  | code t | quoted t => t
  | attr _ | blockComment _ => [' ']
  | lineComment _ => []
  | newline => ['\n']

end Piece

/-- The text without its comments and attributes. -/
def bare (t : Text) : Text := (rawPieces t).flatMap Piece.bare

@[simp] theorem bare_nil : bare [] = [] := by
  rw [bare, rawPieces]
  rfl

theorem bare_cons {c : Char} {t r : Text} {p : Piece} (h : Read c t p r) :
    bare (c :: t) = p.bare ++ bare r := by
  rw [bare, rawPieces_cons h, List.flatMap_cons]
  rfl

/-- A reading ends, so what holds of the text left over holds of the text. -/
theorem reading_induction {P : Text → Prop} (nil : P [])
    (cons : ∀ c t p r, Read c t p r → P r → P (c :: t)) (t : Text) : P t := by
  fun_induction rawPieces t with
  | case1 => exact nil
  | case2 c t ih => exact cons c t _ _ (read_next c t) ih

theorem stripped_ofPiece (atStart : Bool) (p : Piece) :
    (Views.ofPiece atStart p).stripped = p.bare := by
  cases p with
  | lineComment t =>
    simp only [Views.ofPiece]
    split
    · split <;> rfl
    · rfl
  | _ => rfl

theorem stripped_ofPieces (atStart : Bool) (ps : List Piece) :
    (Views.ofPieces atStart ps).stripped = ps.flatMap Piece.bare := by
  induction ps generalizing atStart with
  | nil => rfl
  | cons p ps ih =>
    rw [Views.ofPieces, Views.append_def, List.flatMap_cons, ih, stripped_ofPiece]

/-- Merging is not seen by what shows a run of code as its parts, one after the other. -/
theorem flatMap_mergeCode {f : Piece → Text}
    (hf : ∀ t u, f (.code (t ++ u)) = f (.code t) ++ f (.code u)) (ps : List Piece) :
    (mergeCode ps).flatMap f = ps.flatMap f := by
  fun_induction mergeCode ps with
  | case1 => rfl
  | case2 t rest u more h ih =>
    rw [h, List.flatMap_cons] at ih
    rw [List.flatMap_cons, List.flatMap_cons, hf, List.append_assoc, ih]
  | case3 t rest h ih => rw [List.flatMap_cons, List.flatMap_cons, ih]
  | case4 p rest h ih => rw [List.flatMap_cons, List.flatMap_cons, ih]

theorem flatMap_bare_mergeCode (ps : List Piece) :
    (mergeCode ps).flatMap Piece.bare = ps.flatMap Piece.bare :=
  flatMap_mergeCode (fun _ _ => rfl) ps

theorem stripped_views (source : Text) : (views source).stripped = bare source.unifyNewlines := by
  rw [views, stripped_ofPieces, pieces, flatMap_bare_mergeCode]
  rfl

end Source
end Pinout
