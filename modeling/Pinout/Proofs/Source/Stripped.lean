import Pinout.Proofs.Source.Reading
import Pinout.Proofs.Text.Newline

/-!
# Pinout.Proofs.Source.Stripped

The stripped view holds no comment and no attribute, and reading it again changes nothing
(`views_stripped`).

What is taken away leaves a blank behind, or lies before a newline or the end. So no two
characters come together that were apart (`head?_bare`), no `*)` comes into being
(`starParen_infix_of_bare`), and each piece that stays is read as it was (`plain_step`). Only an
opening `(*` may find its `)` once a comment between them is gone; then it becomes an event control,
which is code.
-/

namespace Pinout
namespace Source

open Text (isBlank allBlank)

theorem exists_bare_of_read {c : Char} {t r : Text} {p : Piece} (h : Read c t p r)
    (hp : p.isPlain) : ∃ u, p.bare = c :: u ∧ t = u ++ r := by
  cases h with
  | newline => exact ⟨[], rfl, rfl⟩
  | @event w rest => exact ⟨'*' :: (w ++ [')']), rfl, by simp⟩
  | star => exact ⟨[], rfl, rfl⟩
  | literal t => exact ⟨(splitLiteral t).1, rfl, (append_splitLiteral t).symm⟩
  | code => exact ⟨[], rfl, rfl⟩
  | _ => cases hp

theorem suffix_of_read {c : Char} {t r : Text} {p : Piece} (h : Read c t p r) : r <:+ c :: t := by
  cases h with
  | newline => exact List.suffix_cons _ _
  | @lineComment body rest => exact ⟨'/' :: '/' :: body, rfl⟩
  | @blockComment body rest => exact ⟨'/' :: '*' :: (body ++ ['*', '/']), rfl⟩
  | openComment => exact List.nil_suffix
  | @event w rest => exact ⟨'(' :: '*' :: (w ++ [')']), by simp⟩
  | @attr body rest => exact ⟨'(' :: '*' :: (body ++ ['*', ')']), rfl⟩
  | star => exact List.suffix_cons _ _
  | literal t => exact ⟨'"' :: (splitLiteral t).1, by simp [append_splitLiteral]⟩
  | code => exact List.suffix_cons _ _

theorem bare_newline (t : Text) : bare ('\n' :: t) = '\n' :: bare t := bare_cons (.newline t)

theorem atLineEnd_bare {t : Text} (h : atLineEnd t) : atLineEnd (bare t) := by
  cases t with
  | nil => rw [bare_nil]; rfl
  | cons c t =>
    obtain rfl : c = '\n' := by simpa [atLineEnd] using h
    rw [bare_newline]
    rfl

/-- A comment or an attribute leaves nothing in front but a blank. -/
theorem head?_bare_of_read {c : Char} {t r : Text} {p : Piece} (h : Read c t p r)
    (hp : p.isPlain = false) : ∀ d, (p.bare ++ bare r).head? = some d → isBlank d := by
  intro d hd
  cases h with
  | lineComment hb hr =>
    have he := atLineEnd_bare hr
    rw [Piece.bare, List.nil_append] at hd
    rw [atLineEnd, hd] at he
    obtain rfl : d = '\n' := by simpa using he
    decide
  | blockComment | openComment | attr =>
    obtain rfl : ' ' = d := by simpa [Piece.bare] using hd
    decide
  | _ => cases hp

/-- What a text shows first, if it is no blank, it also starts with. -/
theorem head?_bare {t : Text} {d : Char} (h : (bare t).head? = some d) (hd : isBlank d = false) :
    t.head? = some d := by
  cases t with
  | nil => simp at h
  | cons c t =>
    have hr := read_next c t
    rw [bare_cons hr] at h
    cases hp : (next c t).1.isPlain with
    | true =>
      obtain ⟨u, hu, _⟩ := exists_bare_of_read hr hp
      rw [hu] at h
      exact h
    | false => rw [head?_bare_of_read hr hp d h] at hd; cases hd

theorem opens_of_isBlank {c d : Char} (hd : isBlank d) : opens c d = false := by
  have h₁ : d ≠ '/' := by rintro rfl; revert hd; decide
  have h₂ : d ≠ '*' := by rintro rfl; revert hd; decide
  simp [opens, h₁, h₂]

theorem star_not_mem_bare {p : Piece} (hp : p.isPlain = false) : '*' ∉ p.bare := by
  cases p with
  | attr | blockComment | lineComment => simp [Piece.bare]
  | _ => cases hp

/-- No `*)` comes into being when the comments go. -/
theorem starParen_infix_of_bare {t : Text} (h : ['*', ')'] <:+: bare t) : ['*', ')'] <:+: t := by
  induction t using reading_induction with
  | nil => rwa [bare_nil] at h
  | cons c t p r hr ih =>
    rw [bare_cons hr] at h
    cases hp : p.isPlain with
    | true =>
      obtain ⟨u, hu, rfl⟩ := exists_bare_of_read hr hp
      rw [← List.cons_append, ← hu]
      rcases Text.pair_infix_append h with hb | hi | ⟨hl, hh⟩
      · exact hb.trans (List.prefix_append _ _).isInfix
      · exact (ih hi).trans (List.suffix_append _ _).isInfix
      · obtain ⟨v, hv⟩ := List.getLast?_eq_some_iff.1 hl
        obtain ⟨w, hw⟩ := List.head?_eq_some_iff.1 (head?_bare hh (by decide))
        exact ⟨v, w, by rw [hv, hw]; simp⟩
    | false =>
      have hi : ['*', ')'] <:+: bare r := by
        rcases Text.pair_infix_append h with hb | hi | ⟨hl, hh⟩
        · exact absurd hb (Text.not_infix_of_mem (by simp) (star_not_mem_bare hp))
        · exact hi
        · exact absurd (List.mem_of_getLast? hl) (star_not_mem_bare hp)
      exact (ih hi).trans (suffix_of_read hr).isInfix

/-! ## Reading a piece again -/

/-- A literal without a closing quote can only end here. -/
def endsLiteral (t : Text) : Bool := atLineEnd t || t == ['\\']

theorem endsLiteral_bare {t : Text} (h : endsLiteral t) : endsLiteral (bare t) := by
  rw [endsLiteral, Bool.or_eq_true, beq_iff_eq] at h ⊢
  rcases h with h | rfl
  · exact .inl (atLineEnd_bare h)
  · refine .inr ?_
    rw [bare_cons (.code (by decide) (by decide) (by simp)), bare_nil]
    rfl

theorem splitLiteral_of_endsLiteral {u : Text} (h : endsLiteral u) : splitLiteral u = ([], u) := by
  rw [endsLiteral, Bool.or_eq_true, beq_iff_eq] at h
  rcases h with h | rfl
  · cases u with
    | nil => rfl
    | cons c u =>
      obtain rfl : c = '\n' := by simpa [atLineEnd] using h
      cases u <;> rfl
  · rfl

theorem splitLiteral_quote (u : Text) : splitLiteral ('"' :: u) = (['"'], u) := by
  cases u <;> rfl

theorem splitLiteral_char {c : Char} (hq : c ≠ '"') (hn : c ≠ '\n') (hb : c ≠ '\\') (u : Text) :
    splitLiteral (c :: u) = (c :: (splitLiteral u).1, (splitLiteral u).2) := by
  cases u <;> simp [splitLiteral, hq, hn, hb]

/-- A literal is read again before any text that ends it where its own rest does. -/
theorem splitLiteral_append {t u : Text} (h : endsLiteral (splitLiteral t).2 → endsLiteral u) :
    splitLiteral ((splitLiteral t).1 ++ u) = ((splitLiteral t).1, u) := by
  fun_induction splitLiteral t with
  | case1 => exact splitLiteral_of_endsLiteral (h rfl)
  | case2 => exact splitLiteral_quote u
  | case3 c hq hc =>
    refine splitLiteral_of_endsLiteral (h ?_)
    rcases hc with rfl | rfl <;> rfl
  | case4 c hq hc =>
    obtain ⟨hb, hn⟩ := not_or.1 hc
    rw [List.cons_append, splitLiteral_char hq hn hb, List.nil_append,
      splitLiteral_of_endsLiteral (h rfl)]
  | case5 => exact splitLiteral_quote u
  | case6 => exact splitLiteral_of_endsLiteral (h rfl)
  | case7 d t literal rest hs hq hn ih =>
    rw [hs] at ih
    rw [List.cons_append, List.cons_append, splitLiteral, ih h]
    rfl
  | case8 c d t hq hn hb literal rest hs ih =>
    rw [hs] at ih
    rw [List.cons_append, splitLiteral_char hq hn hb, ih h]

/-- Blanks are pieces of their own. -/
theorem rawPieces_blanks_append {w : Text} (hw : w.allBlank) (t : Text) :
    rawPieces (w ++ t) =
      w.map (fun c => if c = '\n' then .newline else .code [c]) ++ rawPieces t := by
  induction w with
  | nil => rfl
  | cons c w ih =>
    rw [allBlank, List.all_cons, Bool.and_eq_true] at hw
    rw [List.cons_append, List.map_cons, List.cons_append, ← ih hw.2]
    split
    · next hc => rw [hc, rawPieces_cons (.newline _)]
    · next hc =>
      refine rawPieces_cons (.code hc ?_ ?_)
      · rintro rfl
        exact absurd hw.1 (by decide)
      · intro d _
        have h₁ : c ≠ '/' := by rintro rfl; exact absurd hw.1 (by decide)
        have h₂ : c ≠ '(' := by rintro rfl; exact absurd hw.1 (by decide)
        simp [opens, h₁, h₂]

theorem plain_of_blanks_append {w t : Text} (hw : w.allBlank)
    (h : (rawPieces (w ++ t)).all Piece.isPlain) : (rawPieces t).all Piece.isPlain := by
  rw [rawPieces_blanks_append hw, List.all_append, Bool.and_eq_true] at h
  exact h.2

theorem bare_star (t : Text) : bare ('*' :: t) = '*' :: bare t :=
  bare_cons (.code (by decide) (by decide) (fun _ _ => rfl))

/-- A piece that stays is read as it was, or as an event control that its blanks lead up to. -/
theorem plain_step {c : Char} {t r : Text} {p : Piece} (h : Read c t p r) (hp : p.isPlain)
    (ih : (rawPieces (bare r)).all Piece.isPlain) :
    (rawPieces (p.bare ++ bare r)).all Piece.isPlain := by
  -- it is enough to read one plain piece with the same rest
  have again {d : Char} {u : Text} {q : Piece} (hr : Read d u q (bare r)) (hq : q.isPlain) :
      (rawPieces (d :: u)).all Piece.isPlain := by
    rw [rawPieces_cons hr, List.all_cons, hq, ih]
    rfl
  cases h with
  | newline => exact again (.newline _) rfl
  | @event w rest hw =>
    have := again (.event _ hw) rfl
    simpa [Piece.bare] using this
  | literal t =>
    have hs := splitLiteral_append (t := t) (u := bare (splitLiteral t).2) endsLiteral_bare
    have hl := Read.literal ((splitLiteral t).1 ++ bare (splitLiteral t).2)
    rw [hs] at hl
    exact again hl rfl
  | code hn hq ho =>
    refine again (.code hn hq fun d hd => ?_) rfl
    cases hb : isBlank d with
    | true => exact opens_of_isBlank hb
    | false => exact ho d (head?_bare hd hb)
  | @star t hn ht =>
    show (rawPieces ('(' :: bare ('*' :: t))).all Piece.isPlain
    rw [bare_star] at ih again ⊢
    have ht' : ¬ ['*', ')'] <:+: bare t := fun hi => ht (starParen_infix_of_bare hi)
    cases he : isEvent (bare t) with
    | false => exact again (.star he ht') rfl
    | true =>
      obtain ⟨w, rest, hw, hb⟩ := exists_of_isEvent he
      rw [hb] at ih ⊢
      rw [rawPieces_cons (.code (by decide) (by decide) (fun _ _ => rfl)), List.all_cons,
        Bool.and_eq_true] at ih
      have hrest := plain_of_blanks_append hw ih.2
      rw [rawPieces_cons (.code (by decide) (by decide) (fun _ _ => rfl)), List.all_cons,
        Bool.and_eq_true] at hrest
      rw [rawPieces_cons (.event rest hw), List.all_cons, hrest.2]
      rfl
  | _ => cases hp

/-- Read again, the text without comments has only plain pieces. -/
theorem plain_rawPieces_bare (t : Text) : (rawPieces (bare t)).all Piece.isPlain := by
  induction t using reading_induction with
  | nil => rw [bare_nil, rawPieces]; rfl
  | cons c t p r hr ih =>
    rw [bare_cons hr]
    cases hp : p.isPlain with
    | true => exact plain_step hr hp ih
    | false =>
      cases p with
      | lineComment u => exact ih
      | attr u | blockComment u =>
        rw [Piece.bare, rawPieces_blanks_append (w := [' ']) rfl, List.all_append, ih]
        rfl
      | _ => cases hp

/-! ## Plain pieces and their views -/

theorem plain_mergeCode {ps : List Piece} (h : ps.all Piece.isPlain) :
    (mergeCode ps).all Piece.isPlain := by
  fun_induction mergeCode ps with
  | case1 => rfl
  | case2 t rest u more hm ih =>
    have := ih h
    rw [hm] at this
    exact this
  | case3 t rest hm ih => exact ih h
  | case4 p rest hp ih =>
    rw [List.all_cons, Bool.and_eq_true] at h ⊢
    exact ⟨h.1, ih h.2⟩

theorem ofPieces_of_plain {ps : List Piece} (h : ps.all Piece.isPlain) (atStart : Bool) :
    Views.ofPieces atStart ps = Views.shown (ps.flatMap Piece.bare) := by
  induction ps generalizing atStart with
  | nil => rfl
  | cons p ps ih =>
    rw [List.all_cons, Bool.and_eq_true] at h
    rw [Views.ofPieces, ih h.2, List.flatMap_cons]
    cases p with
    | code | quoted | newline => rfl
    | _ => cases h.1

/-- Reading plain pieces loses nothing. -/
theorem bare_of_plain {t : Text} (h : (rawPieces t).all Piece.isPlain) : bare t = t := by
  induction t using reading_induction with
  | nil => exact bare_nil
  | cons c t p r hr ih =>
    rw [rawPieces_cons hr, List.all_cons, Bool.and_eq_true] at h
    obtain ⟨u, hu, rfl⟩ := exists_bare_of_read hr h.1
    rw [bare_cons hr, ih h.2, hu, List.cons_append]

theorem return_not_mem_bare {t : Text} (h : '\r' ∉ t) : '\r' ∉ bare t := by
  induction t using reading_induction with
  | nil => rwa [bare_nil]
  | cons c t p r hr ih =>
    have hbr := ih fun hm => h ((suffix_of_read hr).subset hm)
    rw [bare_cons hr, List.mem_append, not_or]
    refine ⟨fun hm => ?_, hbr⟩
    cases hp : p.isPlain with
    | true =>
      obtain ⟨u, hu, rfl⟩ := exists_bare_of_read hr hp
      rw [← List.cons_append, ← hu] at h
      exact h (List.mem_append_left _ hm)
    | false =>
      cases p with
      | attr | blockComment | lineComment => simp [Piece.bare] at hm
      | _ => cases hp

/-- The stripped view has plain pieces only, and its own views are itself, itself and nothing. -/
theorem views_stripped (source : Text) (h : '\r' ∉ source.unifyNewlines) :
    (∀ p ∈ pieces (views source).stripped, p.isPlain) ∧
      views (views source).stripped =
        ⟨(views source).stripped, (views source).stripped, []⟩ := by
  have hu : (bare source.unifyNewlines).unifyNewlines = bare source.unifyNewlines :=
    Text.unifyNewlines_eq_self (return_not_mem_bare h)
  have hp := plain_rawPieces_bare source.unifyNewlines
  have hm : (pieces (bare source.unifyNewlines)).all Piece.isPlain := by
    rw [pieces, hu]
    exact plain_mergeCode hp
  rw [stripped_views]
  refine ⟨List.all_eq_true.1 hm, ?_⟩
  rw [views, ofPieces_of_plain hm, pieces, hu, flatMap_bare_mergeCode]
  show Views.shown (bare (bare source.unifyNewlines)) = _
  rw [bare_of_plain hp]
  rfl

/-- An event control that a comment splits, and a comment opener in a literal. -/
theorem views_stripped_split_event :
    '\r' ∉ Text.unifyNewlines "@(* /* all */ ) \"//\" // end\r\n".toList ∧
      (∀ p ∈ pieces (views "@(* /* all */ ) \"//\" // end\r\n".toList).stripped, p.isPlain) ∧
      views (views "@(* /* all */ ) \"//\" // end\r\n".toList).stripped =
        ⟨(views "@(* /* all */ ) \"//\" // end\r\n".toList).stripped,
          (views "@(* /* all */ ) \"//\" // end\r\n".toList).stripped, []⟩ :=
  have h : '\r' ∉ Text.unifyNewlines "@(* /* all */ ) \"//\" // end\r\n".toList := by decide
  ⟨h, views_stripped _ h⟩

end Source
end Pinout
