import Mathlib.Data.List.TakeWhile
import Pinout.Proofs.Source.Lossless
import Pinout.Proofs.Source.Stripped
import Pinout.Proofs.Text.Blank

/-!
# Pinout.Proofs.Source.Seam

What stands behind a line does not change its views. `StartsLine a b` says that a line of the source
`a ++ b` starts where `b` does; then the views of `a` with any text behind it are those of `a` and
those of that text (`views_append`), as long as the text closes no attribute that `b` leaves open.

`Passes` follows the reading of a source up to the seam, and `read_behind` changes what stands
behind it. A piece is read as before, but for a `(*` with only blanks behind it on this side of the
seam: it may become an event control. The views do not tell (`viewsFrom_event`).
-/

namespace Pinout
namespace Source

open Text (isBlank allBlank unifyNewlines)

/-! ## Views of texts -/

theorem Views.append_empty (a : Views) : a ++ Views.empty = a := by
  simp [Views.append_def, Views.empty]

/-- The views of a text, where `atStart` says that only blanks stand before it on its line. -/
def viewsFrom (atStart : Bool) (t : Text) : Views := Views.ofPieces atStart (rawPieces t)

theorem ofPieces_mergeCode (atStart : Bool) (ps : List Piece) :
    Views.ofPieces atStart (mergeCode ps) = Views.ofPieces atStart ps := by
  fun_induction mergeCode ps generalizing atStart with
  | case1 => rfl
  | case2 t rest u more h ih =>
    have ih := ih (atStart && t.allBlank)
    rw [h] at ih
    have hb : allBlank (t ++ u) = (t.allBlank && u.allBlank) := List.all_append
    rw [Views.ofPieces, Views.ofPieces, Views.atStartAfter, Views.atStartAfter, ← ih,
      Views.ofPieces, Views.atStartAfter, hb, Bool.and_assoc, ← Views.append_assoc]
    rfl
  | case3 t rest h ih => rw [Views.ofPieces, Views.ofPieces, ih]
  | case4 p rest h ih => rw [Views.ofPieces, Views.ofPieces, ih]

theorem views_eq (source : Text) : views source = viewsFrom true source.unifyNewlines :=
  ofPieces_mergeCode true _

theorem viewsFrom_cons {c : Char} {t r : Text} {p : Piece} (h : Read c t p r) (atStart : Bool) :
    viewsFrom atStart (c :: t) =
      Views.ofPiece atStart p ++ viewsFrom (Views.atStartAfter atStart p) r := by
  rw [viewsFrom, rawPieces_cons h]
  rfl

/-- A character that starts no literal, no comment and no attribute. -/
def Clear (c : Char) : Prop := c ≠ '"' ∧ c ≠ '/' ∧ c ≠ '('

theorem clear_of_isBlank {c : Char} (hc : isBlank c) : Clear c :=
  ⟨Text.ne_of_isBlank hc rfl, Text.ne_of_isBlank hc rfl, Text.ne_of_isBlank hc rfl⟩

theorem exists_read_clear {c : Char} (hc : Clear c) (t : Text) :
    ∃ p, Read c t p t ∧ ∀ atStart, Views.ofPiece atStart p = Views.shown [c] := by
  obtain ⟨hq, hs, hp⟩ := hc
  by_cases hn : c = '\n'
  · subst hn
    exact ⟨.newline, .newline t, fun _ => rfl⟩
  · exact ⟨.code [c], .code hn hq fun d _ => by simp [opens, hs, hp], fun _ => rfl⟩

theorem viewsFrom_clear {w : Text} (hw : ∀ c ∈ w, Clear c) (atStart : Bool) (t : Text) :
    ∃ atStart', viewsFrom atStart (w ++ t) = Views.shown w ++ viewsFrom atStart' t := by
  induction w generalizing atStart with
  | nil => exact ⟨atStart, rfl⟩
  | cons c w ih =>
    obtain ⟨p, hp, hs⟩ := exists_read_clear (hw c List.mem_cons_self) (w ++ t)
    obtain ⟨after, ha⟩ := ih (fun d hd => hw d (List.mem_cons_of_mem c hd))
      (Views.atStartAfter atStart p)
    refine ⟨after, ?_⟩
    rw [List.cons_append, viewsFrom_cons hp, hs, ha, ← Views.append_assoc]
    rfl

theorem atStartAfter_code {t : Text} {c : Char} (hc : c ∈ t) (hn : isBlank c = false)
    (atStart : Bool) : Views.atStartAfter atStart (.code t) = false := by
  have ht : t.allBlank = false := by
    rw [allBlank, List.all_eq_false]
    exact ⟨c, hc, by simp [hn]⟩
  rw [Views.atStartAfter, ht, Bool.and_false]

/-- An event control shows what it would show as characters. -/
theorem viewsFrom_event {t : Text} (h : isEvent t) (atStart : Bool) :
    viewsFrom atStart ('(' :: '*' :: t) = Views.shown ['('] ++ viewsFrom false ('*' :: t) := by
  obtain ⟨w, rest, hw, rfl⟩ := exists_of_isEvent h
  have hclear : ∀ c ∈ w, Clear c := fun c hc => clear_of_isBlank (List.all_eq_true.1 hw c hc)
  have hstar (t : Text) : Read '*' t (.code ['*']) t := .code (by decide) (by decide) fun _ _ => rfl
  have hclose (t : Text) : Read ')' t (.code [')']) t :=
    .code (by decide) (by decide) fun _ _ => rfl
  obtain ⟨atStart', hb⟩ :=
    viewsFrom_clear hclear (Views.atStartAfter false (.code ['*'])) (')' :: rest)
  rw [viewsFrom_cons (.event rest hw), viewsFrom_cons (hstar _), hb, viewsFrom_cons (hclose _),
    atStartAfter_code (c := '*') (by simp) rfl, atStartAfter_code (c := ')') (by simp) rfl]
  simp [Views.ofPiece, Views.shown, Views.append_def]

/-! ## Reading up to a seam -/

/-- A literal that ends before a newline ends there, whatever follows the line. -/
theorem endsLiteral_append {r : Text} (hr : r.getLast? = some '\n') {v : Text}
    (h : endsLiteral (r ++ v)) (v' : Text) : endsLiteral (r ++ v') := by
  obtain ⟨u, rfl⟩ := List.getLast?_eq_some_iff.1 hr
  cases u with
  | nil => rfl
  | cons c u =>
    have hc : c = '\n' := by simpa [endsLiteral, atLineEnd] using h
    simp [endsLiteral, atLineEnd, hc]

theorem isEvent_append_of_mem {x : Text} {c : Char} (hc : c ∈ x) (hn : isBlank c = false)
    (y : Text) : isEvent (x ++ y) = isEvent x := by
  have hd : x.dropWhile isBlank ≠ [] := fun h => by
    rw [List.dropWhile_eq_nil_iff.1 h c hc] at hn
    cases hn
  obtain ⟨d, r, hr⟩ := List.exists_cons_of_ne_nil hd
  rw [isEvent, isEvent, List.dropWhile_append, hr]
  rfl

/-- Reading `u ++ v` comes to `v` behind the pieces `ps`. -/
inductive Passes (v : Text) : Text → List Piece → Prop where
  | nil : Passes v [] []
  | cons {c : Char} {t r : Text} {p : Piece} {ps : List Piece} (h : Read c (t ++ v) p (r ++ v))
      (hr : Passes v r ps) : Passes v (c :: t) (p :: ps)

/-- A piece before the last newline is read again before any other text, but for a parenthesis
with a star and blanks behind it, which an event control may now start. -/
theorem read_behind {c : Char} {t r v v' : Text} {p : Piece} (h : Read c (t ++ v) p (r ++ v))
    (hr : r.getLast? = some '\n' ∨ (r = [] ∧ p = .newline))
    (hv : ['*', ')'] <:+: v' → ['*', ')'] <:+: v) :
    Read c (t ++ v') p (r ++ v') ∨
      (c = '(' ∧ p = .code ['('] ∧
        ∃ w : Text, t = '*' :: w ∧ r = '*' :: w ∧ isEvent (w ++ v')) := by
  generalize ht : t ++ v = tv at h
  generalize hrv : r ++ v = rv at h
  -- what was read in front of `r` is read in `t`
  have hcut {x : Text} (hx : tv = x ++ rv) : t = x ++ r :=
    List.append_cancel_right (show t ++ v = x ++ r ++ v by rw [ht, hx, ← hrv, List.append_assoc])
  have hne (hp : p ≠ .newline) : r ≠ [] := by
    rintro rfl
    simp [hp] at hr
  cases h with
  | newline =>
    obtain rfl : t = r := hcut (x := []) rfl
    exact .inl (.newline _)
  | @lineComment body _ hb hl =>
    obtain rfl : t = '/' :: body ++ r := hcut (by simp)
    obtain ⟨d, s, rfl⟩ := List.exists_cons_of_ne_nil (hne (by simp))
    rw [← hrv] at hl
    have := @Read.lineComment body (d :: s ++ v') hb hl
    exact .inl (by simpa using this)
  | @blockComment body _ hb =>
    obtain rfl : t = '*' :: (body ++ ['*', '/']) ++ r := hcut (by simp)
    have := @Read.blockComment body (r ++ v') hb
    exact .inl (by simpa using this)
  | openComment hb =>
    exact absurd (List.append_eq_nil_iff.1 hrv).1 (hne (by simp))
  | @event w _ hw =>
    obtain rfl : t = '*' :: (w ++ [')']) ++ r := hcut (by simp)
    have := @Read.event w (r ++ v') hw
    exact .inl (by simpa using this)
  | @attr body _ hn hb =>
    obtain rfl : t = '*' :: (body ++ ['*', ')']) ++ r := hcut (by simp)
    have hevent (y : Text) : isEvent (body ++ ['*', ')'] ++ y) = isEvent (body ++ ['*', ')']) :=
      isEvent_append_of_mem (c := '*') (by simp) rfl y
    have := @Read.attr body (r ++ v') (by rw [hevent, ← hn, hevent]) hb
    exact .inl (by simpa using this)
  | @star u hn hb =>
    obtain rfl : t = r := hcut (x := []) rfl
    obtain ⟨d, w, rfl⟩ := List.exists_cons_of_ne_nil (hne (by simp))
    obtain ⟨rfl, rfl⟩ := List.cons.inj ht
    -- up to the seam there are only blanks if the text behind it closes an event control
    cases he : isEvent (w ++ v') with
    | true => exact .inr ⟨rfl, rfl, w, rfl, rfl, he⟩
    | false =>
      refine .inl (.star he fun hi => ?_)
      rcases Text.pair_infix_append hi with hw | hv' | ⟨hl, _⟩
      · exact hb (hw.trans (List.prefix_append w v).isInfix)
      · exact hb ((hv hv').trans (List.suffix_append w v).isInfix)
      · simp [List.getLast?_cons, hl] at hr
  | literal =>
    have hlast : r.getLast? = some '\n' := hr.resolve_right (by simp)
    have hlit := splitLiteral_append (t := tv) (u := r ++ v') fun he =>
      endsLiteral_append hlast (hrv ▸ he) v'
    have hread := Read.literal ((splitLiteral tv).1 ++ (r ++ v'))
    have hcat : t = (splitLiteral tv).1 ++ r := hcut (append_splitLiteral tv).symm
    rw [hlit, ← List.append_assoc, ← hcat] at hread
    exact .inl hread
  | code hn hq ho =>
    obtain rfl : t = r := hcut (x := []) rfl
    obtain ⟨d, s, rfl⟩ := List.exists_cons_of_ne_nil (hne (by simp))
    refine .inl (.code hn hq fun e he => ho e ?_)
    rw [← ht]
    exact he

theorem newline_of_read {c : Char} {t r : Text} (h : Read c t .newline r) : c = '\n' ∧ t = r := by
  cases h
  exact ⟨rfl, rfl⟩

theorem getLast?_of_passes {v u : Text} {ps : List Piece} (h : Passes v u ps)
    (hn : ps.getLast? = some .newline) : u.getLast? = some '\n' := by
  induction h with
  | nil => cases hn
  | @cons c t r p ps hread hr ih =>
    have hcut : ∃ x, c :: t = x ++ r := by
      obtain ⟨x, hx⟩ := suffix_of_read hread
      rw [← List.append_assoc, ← List.cons_append] at hx
      exact ⟨x, (List.append_cancel_right hx).symm⟩
    cases ps with
    | nil =>
      obtain rfl : p = .newline := by simpa using hn
      cases hr
      obtain ⟨rfl, ht⟩ := newline_of_read hread
      obtain rfl : t = [] := List.append_cancel_right ht
      rfl
    | cons q qs =>
      obtain ⟨x, hx⟩ := hcut
      rw [hx, List.getLast?_append, ih (by simpa using hn)]
      rfl

/-- The views of what was read before the seam do not depend on what stands behind it. -/
theorem viewsFrom_passes {u v v' : Text} {ps : List Piece} (h : Passes v u ps)
    (hn : ps.getLast? = some .newline) (hv : ['*', ')'] <:+: v' → ['*', ')'] <:+: v)
    (atStart : Bool) :
    viewsFrom atStart (u ++ v') = Views.ofPieces atStart ps ++ viewsFrom true v' := by
  induction h generalizing atStart with
  | nil => cases hn
  | @cons c t r p ps hread hr ih =>
    rw [List.cons_append, Views.ofPieces]
    cases ps with
    | nil =>
      obtain rfl : p = .newline := by simpa using hn
      cases hr
      rcases read_behind hread (.inr ⟨rfl, rfl⟩) hv with h | ⟨_, hp, _⟩
      · rw [viewsFrom_cons h]
        rfl
      · cases hp
    | cons q qs =>
      have hlast : (q :: qs).getLast? = some .newline := by simpa using hn
      rw [Views.append_assoc, ← ih hlast]
      rcases read_behind hread (.inl (getLast?_of_passes hr hlast)) hv with
        h | ⟨rfl, rfl, w, rfl, rfl, he⟩
      · exact viewsFrom_cons h atStart
      · rw [atStartAfter_code (c := '(') (by simp) rfl]
        exact viewsFrom_event he atStart

/-! ## Where lines start -/

/-- A line of the source `a ++ b` starts where `b` does. -/
def StartsLine (a b : Text) : Prop :=
  a = [] ∨ ∃ before after, pieces (a ++ b) = before ++ .newline :: after ∧
    a.unifyNewlines = before.flatMap Piece.text ++ ['\n']

/-- A source whose last piece is a newline ends a line. -/
theorem startsLine_of_getLast? {a : Text} (h : (pieces a).getLast? = some .newline) :
    StartsLine a [] := by
  obtain ⟨before, hp⟩ := List.getLast?_eq_some_iff.1 h
  refine .inr ⟨before, [], by rw [List.append_nil, hp], ?_⟩
  rcases flatMap_text_pieces a with ht | ⟨qs, body, hq, _⟩
  · rw [← ht, hp, List.flatMap_append]
    rfl
  · rw [hq, List.getLast?_concat] at h
    cases h

theorem exists_of_mergeCode {p : Piece} (hp : ∀ t, p ≠ .code t) {ps before after : List Piece}
    (h : mergeCode ps = before ++ p :: after) :
    ∃ qs rs, ps = qs ++ p :: rs ∧ mergeCode qs = before ∧ mergeCode rs = after := by
  fun_induction mergeCode ps generalizing before with
  | case1 => simp at h
  | case2 t rest u more hm ih =>
    cases before with
    | nil => exact absurd (List.cons.inj h).1.symm (hp _)
    | cons q before =>
      obtain ⟨rfl, rfl⟩ := List.cons.inj h
      obtain ⟨qs, rs, rfl, hq, hr⟩ := @ih (.code u :: before) hm
      exact ⟨.code t :: qs, rs, rfl, by rw [mergeCode, hq], hr⟩
  | case3 t rest hm ih =>
    cases before with
    | nil => exact absurd (List.cons.inj h).1.symm (hp _)
    | cons q before =>
      obtain ⟨rfl, hrest⟩ := List.cons.inj h
      obtain ⟨qs, rs, rfl, hq, hr⟩ := ih hrest
      refine ⟨.code t :: qs, rs, rfl, ?_, hr⟩
      rw [mergeCode, hq]
      cases before with
      | nil => rfl
      | cons q before =>
        cases q with
        | code u => exact absurd hrest (hm u _)
        | _ => rfl
  | case4 q rest hq ih =>
    cases before with
    | nil =>
      obtain ⟨rfl, rfl⟩ := List.cons.inj h
      exact ⟨[], rest, rfl, rfl, rfl⟩
    | cons q' before =>
      obtain ⟨rfl, hrest⟩ := List.cons.inj h
      obtain ⟨qs, rs, rfl, hqs, hr⟩ := ih hrest
      refine ⟨q :: qs, rs, rfl, ?_, hr⟩
      rw [mergeCode, hqs]
      exact hq

theorem exists_passes {t : Text} {ps qs : List Piece} (h : rawPieces t = ps ++ .newline :: qs) :
    ∃ u v, t = u ++ v ∧ Passes v u (ps ++ [.newline]) ∧ u = ps.flatMap Piece.text ++ ['\n'] := by
  induction t using reading_induction generalizing ps with
  | nil =>
    rw [rawPieces] at h
    simp at h
  | cons c t p r hr ih =>
    rw [rawPieces_cons hr] at h
    cases ps with
    | nil =>
      obtain ⟨rfl, _⟩ := List.cons.inj h
      obtain ⟨rfl, rfl⟩ := newline_of_read hr
      exact ⟨['\n'], t, rfl, .cons (.newline _) .nil, rfl⟩
    | cons q ps =>
      obtain ⟨rfl, hrest⟩ := List.cons.inj h
      obtain ⟨u, v, rfl, hp, hu⟩ := ih hrest
      rcases append_of_read hr with he | ⟨hnil, _⟩
      · obtain ⟨d, w, hw⟩ : ∃ d w, p.text ++ u = d :: w :=
          List.exists_cons_of_ne_nil (by rw [hu]; simp)
        rw [← List.append_assoc, hw, List.cons_append] at he
        obtain ⟨rfl, rfl⟩ := List.cons.inj he
        refine ⟨c :: w, v, rfl, .cons hr hp, ?_⟩
        rw [← hw, hu, List.flatMap_cons, List.append_assoc]
      · rw [hnil, rawPieces] at hrest
        simp at hrest

/-- The pieces before a line start are the same before any text that closes no attribute there. -/
theorem exists_views {a b : Text} (h : StartsLine a b) : a = [] ∨
    ∃ ps, ∀ x, (['*', ')'] <:+: unifyNewlines x → ['*', ')'] <:+: b.unifyNewlines) →
      views (a ++ x) = Views.ofPieces true (ps ++ [.newline]) ++ views x := by
  refine h.imp_right ?_
  rintro ⟨before, after, hp, ha⟩
  have hseam (x : Text) : unifyNewlines (a ++ x) = a.unifyNewlines ++ x.unifyNewlines := by
    have hlast : a.getLast? = some '\n' := by
      rw [← Text.getLast?_unifyNewlines, ha, List.getLast?_concat]
    obtain ⟨a, rfl⟩ := List.getLast?_eq_some_iff.1 hlast
    rw [List.append_assoc]
    exact Text.unifyNewlines_append_newline a x
  obtain ⟨ps, qs, hraw, rfl, _⟩ := exists_of_mergeCode (by simp) hp
  obtain ⟨u, v, huv, hpass, hu⟩ := exists_passes hraw
  obtain rfl : u = a.unifyNewlines := by rw [hu, ha, flatMap_text_mergeCode]
  obtain rfl : b.unifyNewlines = v := List.append_cancel_left ((hseam b).symm.trans huv)
  refine ⟨ps, fun x hx => ?_⟩
  rw [views_eq, hseam, viewsFrom_passes hpass List.getLast?_concat hx, ← views_eq]

theorem views_nil : views [] = Views.empty := by
  rw [views_eq, unifyNewlines, viewsFrom, rawPieces]
  rfl

theorem exists_views_newline {a b : Text} (h : StartsLine a b) : a = [] ∨
    ∃ ps, views a = Views.ofPieces true ps ++ Views.shown ['\n'] := by
  refine (exists_views h).imp_right ?_
  rintro ⟨ps, hps⟩
  have ha := hps [] fun hi => absurd (List.infix_nil.1 hi) (by simp)
  rw [List.append_nil, views_nil, Views.append_empty, Views.ofPieces_append] at ha
  exact ⟨ps, ha⟩

/-- The views on either side of a line start are put together. -/
theorem views_append {a b : Text} (h : StartsLine a b) {x : Text}
    (hx : ['*', ')'] <:+: x.unifyNewlines → ['*', ')'] <:+: b.unifyNewlines) :
    views (a ++ x) = views a ++ views x := by
  rcases exists_views h with rfl | ⟨ps, hps⟩
  · rw [List.nil_append, views_nil, Views.empty_append]
  · have ha := hps [] fun hi => absurd (List.infix_nil.1 hi) (by simp)
    rw [List.append_nil, views_nil, Views.append_empty] at ha
    rw [hps x hx, ha]

end Source
end Pinout
