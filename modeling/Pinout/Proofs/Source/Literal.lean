import Pinout.Proofs.Source.Seam

/-!
# Pinout.Proofs.Source.Literal

A closed literal with other contents. `LiteralAt a c b before after` says that the source reads
`"c"` between `a` and `b` as a literal, with the pieces `before` and `after` around it. Other
contents without quote, backslash and newline leave these pieces as they are (`LiteralAt.replace`),
as long as they close no attribute that the code before them leaves open.
-/

namespace Pinout
namespace Source

open Text (isBlank allBlank unifyNewlines)

/-! ## Contents of closed literals -/

/-- The contents of a closed literal: a quote, a backslash or a newline stands in them only behind a
backslash that takes it with it. -/
def isContents : Text → Bool
  | [] => true
  | [c] => c ≠ '"' && c ≠ '\\' && c ≠ '\n'
  | c :: d :: t =>
    if c = '\\' then isContents t else c ≠ '"' && c ≠ '\n' && isContents (d :: t)

theorem splitLiteral_contents {c : Text} (h : isContents c) (u : Text) :
    splitLiteral (c ++ '"' :: u) = (c ++ ['"'], u) := by
  fun_induction isContents c with
  | case1 => exact splitLiteral_quote u
  | case2 c =>
    obtain ⟨⟨hq, hb⟩, hn⟩ : (c ≠ '"' ∧ c ≠ '\\') ∧ c ≠ '\n' := by simpa using h
    rw [List.singleton_append, splitLiteral_char hq hn hb, splitLiteral_quote]
    rfl
  | case3 d t ih =>
    rw [List.cons_append, List.cons_append, splitLiteral, ih h]
    rfl
  | case4 c d t hb ih =>
    obtain ⟨⟨hq, hn⟩, ht⟩ : (c ≠ '"' ∧ c ≠ '\n') ∧ isContents (d :: t) := by simpa using h
    rw [List.cons_append, splitLiteral_char hq hn hb, ih ht]
    rfl

/-- Text that a literal may hold as it stands, in any source. -/
def Inert (c : Text) : Prop := ∀ e ∈ c, e ≠ '"' ∧ e ≠ '\\' ∧ e ≠ '\n' ∧ e ≠ '\r'

theorem unifyNewlines_of_inert {c : Text} (h : Inert c) : c.unifyNewlines = c :=
  Text.unifyNewlines_eq_self fun hm => (h _ hm).2.2.2 rfl

theorem isContents_of_inert {c : Text} (h : Inert c) : isContents c := by
  fun_induction isContents c with
  | case1 => rfl
  | case2 c =>
    obtain ⟨hq, hb, hn, -⟩ := h c List.mem_cons_self
    simp [hq, hb, hn]
  | case3 d t ih => exact absurd rfl (h _ List.mem_cons_self).2.1
  | case4 c d t hb ih =>
    obtain ⟨hq, -, hn, -⟩ := h c List.mem_cons_self
    simp [hq, hn, ih fun e he => h e (List.mem_cons_of_mem _ he)]

/-! ## Reading up to a quote -/

theorem rawPieces_passes {v u : Text} {ps : List Piece} (h : Passes v u ps) :
    rawPieces (u ++ v) = ps ++ rawPieces v := by
  induction h with
  | nil => rfl
  | cons hread _ ih => rw [List.cons_append, rawPieces_cons hread, ih, List.cons_append]

theorem text_ne_nil_of_read {c : Char} {t r : Text} {p : Piece} (h : Read c t p r) :
    p.text ≠ [] := by
  cases h <;> simp [Piece.text]

/-- Reading comes to each of its pieces behind the pieces before it. -/
theorem exists_passes_of_rawPieces {t : Text} {ps qs : List Piece} {p : Piece}
    (h : rawPieces t = ps ++ p :: qs) : ∃ u c v r, t = u ++ c :: v ∧ Read c v p r ∧
      rawPieces r = qs ∧ Passes (c :: v) u ps ∧ u = ps.flatMap Piece.text := by
  induction t using reading_induction generalizing ps with
  | nil =>
    rw [rawPieces] at h
    simp at h
  | cons c t q r hr ih =>
    rw [rawPieces_cons hr] at h
    cases ps with
    | nil =>
      obtain ⟨rfl, hqs⟩ := List.cons.inj h
      exact ⟨[], c, t, r, rfl, hr, hqs, .nil, rfl⟩
    | cons q' ps =>
      obtain ⟨rfl, hrest⟩ := List.cons.inj h
      obtain ⟨u, d, v, r, rfl, hd, hqs, hp, hu⟩ := ih hrest
      rcases append_of_read hr with he | ⟨hnil, _⟩
      · obtain ⟨e, w, hw⟩ : ∃ e w, q.text ++ u = e :: w := by
          refine List.exists_cons_of_ne_nil fun h => ?_
          exact text_ne_nil_of_read hr (List.append_eq_nil_iff.1 h).1
        rw [← List.append_assoc, hw, List.cons_append] at he
        obtain ⟨rfl, rfl⟩ := List.cons.inj he
        refine ⟨c :: w, d, v, r, rfl, hd, hqs, .cons hr hp, ?_⟩
        rw [← hw, hu, List.flatMap_cons]
      · simp at hnil

/-- Code with a `(*` in it that starts no event control. -/
def LeavesOpen (t : Text) : Prop := ∃ x y, t = x ++ '(' :: '*' :: y ∧ isEvent y = false

/-- The text closes no attribute that the code of the pieces leaves open. -/
def ClosesNone (ps : List Piece) (t : Text) : Prop :=
  ['*', ')'] <:+: t → ∀ code, .code code ∈ ps → ¬ LeavesOpen code

/-- A piece before a quote is read again before any other quote, unless it is the parenthesis of an
open `(*` that the text behind now closes. -/
theorem read_before_quote {c : Char} {t r v v' : Text} {p : Piece}
    (h : Read c (t ++ '"' :: v) p (r ++ '"' :: v))
    (hv : ['*', ')'] <:+: v' → ['*', ')'] <:+: v ∨ ∀ w, t = '*' :: w → p ≠ .code ['(']) :
    Read c (t ++ '"' :: v') p (r ++ '"' :: v') := by
  have hquote : isBlank '"' = false := by decide
  generalize ht : t ++ '"' :: v = tv at h
  generalize hrv : r ++ '"' :: v = rv at h
  -- what was read in front of `r` is read in `t`
  have hcut {x : Text} (hx : tv = x ++ rv) : t = x ++ r :=
    List.append_cancel_right (show t ++ '"' :: v = x ++ r ++ '"' :: v by
      rw [ht, hx, ← hrv, List.append_assoc])
  have hevent (x y : Text) : isEvent (x ++ '"' :: y) = isEvent (x ++ ['"']) := by
    rw [List.append_cons]
    exact isEvent_append_of_mem (List.mem_append_right x List.mem_cons_self) hquote y
  have hlineEnd (h : atLineEnd (r ++ '"' :: v)) : atLineEnd (r ++ '"' :: v') := by
    cases r with
    | nil => simp [atLineEnd] at h
    | cons d r => simpa [atLineEnd] using h
  cases h with
  | newline =>
    obtain rfl : t = r := hcut (x := []) rfl
    exact .newline _
  | @lineComment body _ hb hl =>
    obtain rfl : t = '/' :: body ++ r := hcut (by simp)
    have := Read.lineComment hb (hlineEnd (hrv ▸ hl))
    simpa using this
  | @blockComment body _ hb =>
    obtain rfl : t = '*' :: (body ++ ['*', '/']) ++ r := hcut (by simp)
    have := @Read.blockComment body (r ++ '"' :: v') hb
    simpa using this
  | openComment hb => simp at hrv
  | @event w _ hw =>
    obtain rfl : t = '*' :: (w ++ [')']) ++ r := hcut (by simp)
    have := @Read.event w (r ++ '"' :: v') hw
    simpa using this
  | @attr body _ hn hb =>
    obtain rfl : t = '*' :: (body ++ ['*', ')']) ++ r := hcut (by simp)
    have hstar (y : Text) : isEvent (body ++ ['*', ')'] ++ y) = isEvent (body ++ ['*', ')']) :=
      isEvent_append_of_mem (c := '*') (by simp) rfl y
    have := @Read.attr body (r ++ '"' :: v') (by rw [hstar, ← hn, hstar]) hb
    simpa using this
  | @star u hn hb =>
    obtain rfl : t = r := hcut (x := []) rfl
    cases t with
    | nil => simp at ht
    | cons d w =>
      obtain ⟨rfl, rfl⟩ := List.cons.inj ht
      rw [List.append_eq, hevent] at hn
      refine .star (by rw [List.append_eq, hevent, hn]) fun hi => ?_
      rcases Text.infix_append_cons (by simp) hi with hw | hw
      · exact hb (hw.trans (List.prefix_append w _).isInfix)
      · rcases hv hw with hv | hv
        · refine hb (hv.trans (List.suffix_append (w ++ ['"']) v).isInfix |>.trans ?_)
          simp
        · exact hv w rfl rfl
  | literal =>
    have hlit := splitLiteral_append (t := tv) (u := r ++ '"' :: v') fun he => by
      rw [← hrv, endsLiteral, Bool.or_eq_true] at he
      rw [endsLiteral, Bool.or_eq_true]
      refine .inl (hlineEnd (he.resolve_right ?_))
      cases r <;> simp
    have hread := Read.literal ((splitLiteral tv).1 ++ (r ++ '"' :: v'))
    have hcat : t = (splitLiteral tv).1 ++ r := hcut (append_splitLiteral tv).symm
    rw [hlit, ← List.append_assoc, ← hcat] at hread
    exact hread
  | code hn hq ho =>
    obtain rfl : t = r := hcut (x := []) rfl
    refine .code hn hq fun e he => ho e ?_
    rw [← ht]
    cases t with
    | nil => exact he
    | cons d w => exact he

/-! ## The code before a literal -/

theorem flatMap_text_of_passes {v u : Text} {ps : List Piece} (h : Passes v u ps) (hv : v ≠ []) :
    ps.flatMap Piece.text = u := by
  induction h with
  | nil => rfl
  | cons hread _ ih =>
    rcases append_of_read hread with he | ⟨hnil, _⟩
    · rw [← List.append_assoc, ← List.cons_append] at he
      rw [List.flatMap_cons, ih, List.append_cancel_right he]
    · exact absurd (List.append_eq_nil_iff.1 hnil).2 hv

/-- A run of code takes in the code that follows it. -/
theorem exists_mergeCode_code (t : Text) (ps : List Piece) : ∃ u more,
    mergeCode (.code t :: ps) = .code (t ++ u) :: more ∧ u <+: (mergeCode ps).flatMap Piece.text ∧
      ∀ q ∈ mergeCode ps, q ∈ more ∨ q = .code u := by
  rw [mergeCode]
  split
  · next u more hm =>
    refine ⟨u, more, rfl, ?_, fun q hq => ?_⟩
    · rw [hm]
      exact List.prefix_append _ _
    · rw [hm] at hq
      exact (List.mem_cons.1 hq).symm
  · next more =>
    exact ⟨[], mergeCode ps, by rw [List.append_nil], List.nil_prefix, fun q hq => .inl hq⟩

theorem exists_code_mem_mergeCode {t : Text} {p : Piece} {ps : List Piece}
    (h : .code t ∈ mergeCode ps) : ∃ x, .code (x ++ t) ∈ mergeCode (p :: ps) := by
  by_cases hp : ∃ u, p = .code u
  · obtain ⟨u, rfl⟩ := hp
    obtain ⟨u', more, hm, -, hmem⟩ := exists_mergeCode_code u ps
    rw [hm]
    rcases hmem _ h with hmore | hu
    · exact ⟨[], List.mem_cons_of_mem _ hmore⟩
    · obtain rfl : t = u' := Piece.code.inj hu
      exact ⟨u, List.mem_cons_self⟩
  · have := mergeCode_append_cons (fun t ht => hp ⟨t, ht⟩) [] ps
    rw [List.nil_append] at this
    rw [this]
    exact ⟨[], List.mem_append_right _ (List.mem_cons_of_mem _ h)⟩

theorem leavesOpen_append {t : Text} (h : LeavesOpen t) (x : Text) : LeavesOpen (x ++ t) := by
  obtain ⟨y, z, rfl, hz⟩ := h
  exact ⟨x ++ y, z, by rw [List.append_assoc], hz⟩

theorem isEvent_append {x : Text} (h : isEvent x) (y : Text) : isEvent (x ++ y) := by
  obtain ⟨w, rest, hw, rfl⟩ := exists_of_isEvent h
  rw [isEvent, List.append_assoc, List.cons_append,
    List.dropWhile_append_of_pos (List.all_eq_true.1 hw)]
  rfl

/-- An open `(*` is seen in the run of code that it is part of. -/
theorem leavesOpen_of_passes {c : Char} {w r v : Text} {ps : List Piece}
    (h : Read c ('*' :: w ++ '"' :: v) (.code ['(']) (r ++ '"' :: v))
    (hr : Passes ('"' :: v) r ps) : ∃ t, .code t ∈ mergeCode (.code ['('] :: ps) ∧ LeavesOpen t := by
  obtain ⟨rfl, hn⟩ : r = '*' :: w ∧ isEvent (w ++ '"' :: v) = false := by
    generalize ht : '*' :: w ++ '"' :: v = tv at h
    generalize hrv : r ++ '"' :: v = rv at h
    cases h with
    | star hn =>
      rw [← ht] at hrv
      obtain ⟨-, rfl⟩ := List.cons.inj ht
      exact ⟨List.append_cancel_right hrv, hn⟩
    | code hn hq ho =>
      have := ho '*' (by rw [← ht]; rfl)
      cases this
  cases hr with
  | @cons _ _ r p ps hstar hr =>
    have hread : Read '*' (w ++ '"' :: v) (.code ['*']) (w ++ '"' :: v) :=
      .code (by decide) (by decide) fun _ _ => rfl
    obtain ⟨rfl, hrest⟩ := Prod.mk.inj ((next_of_read hstar).symm.trans (next_of_read hread))
    obtain rfl : r = w := List.append_cancel_right hrest
    obtain ⟨u, more, hm, hu, -⟩ := exists_mergeCode_code ['*'] ps
    rw [flatMap_text_mergeCode, flatMap_text_of_passes hr (by simp)] at hu
    refine ⟨'(' :: '*' :: u, ?_, [], u, rfl, ?_⟩
    · rw [mergeCode, hm]
      exact List.mem_cons_self
    · rw [Bool.eq_false_iff]
      intro he
      obtain ⟨y, rfl⟩ := hu
      rw [List.append_assoc, isEvent_append he] at hn
      cases hn

/-- What is read before a quote is read before any other, unless it leaves open a `(*` that the
text behind now closes. -/
theorem passes_before_quote {v v' u : Text} {ps : List Piece} (h : Passes ('"' :: v) u ps)
    (hv : ['*', ')'] <:+: v' →
      ['*', ')'] <:+: v ∨ ∀ code, .code code ∈ mergeCode ps → ¬ LeavesOpen code) :
    Passes ('"' :: v') u ps := by
  induction h with
  | nil => exact .nil
  | @cons c t r p ps hread hr ih =>
    refine .cons (read_before_quote hread fun hi => ?_) (ih fun hi => ?_)
    · refine (hv hi).imp_right fun hclosed w ht hp => ?_
      subst ht hp
      obtain ⟨t, hmem, hopen⟩ := leavesOpen_of_passes hread hr
      exact hclosed t hmem hopen
    · refine (hv hi).imp_right fun hclosed t ht hopen => ?_
      obtain ⟨x, hx⟩ := exists_code_mem_mergeCode (p := p) ht
      exact hclosed _ hx (leavesOpen_append hopen x)

/-! ## Literals in a source -/

/-- The source reads the closed literal `"c"` between `a` and `b`. -/
structure LiteralAt (a c b : Text) (before after : List Piece) : Prop where
  pieces : pieces (a ++ '"' :: (c ++ '"' :: b)) =
    before ++ .quoted ('"' :: (c.unifyNewlines ++ ['"'])) :: after
  front : a.unifyNewlines = before.flatMap Piece.text
  closed : isContents c.unifyNewlines

theorem unifyNewlines_literal (a c b : Text) : unifyNewlines (a ++ '"' :: (c ++ '"' :: b)) =
    a.unifyNewlines ++ '"' :: (c.unifyNewlines ++ '"' :: b.unifyNewlines) := by
  have hquote (t : Text) : ('"' :: t).head? ≠ some '\n' := by simp
  rw [Text.unifyNewlines_append (hquote _), Text.unifyNewlines_cons_of_ne (by decide),
    Text.unifyNewlines_append (hquote _), Text.unifyNewlines_cons_of_ne (by decide)]

theorem rawPieces_literal {c : Text} (h : isContents c) (b : Text) :
    rawPieces ('"' :: (c ++ '"' :: b)) = .quoted ('"' :: (c ++ ['"'])) :: rawPieces b := by
  have hread := Read.literal (c ++ '"' :: b)
  rw [splitLiteral_contents h] at hread
  exact rawPieces_cons hread

theorem LiteralAt.exists_passes {a c b : Text} {before after : List Piece}
    (h : LiteralAt a c b before after) : ∃ ps,
      Passes ('"' :: (c.unifyNewlines ++ '"' :: b.unifyNewlines)) a.unifyNewlines ps ∧
        mergeCode ps = before ∧ mergeCode (rawPieces b.unifyNewlines) = after := by
  have hp := h.pieces
  rw [Source.pieces, unifyNewlines_literal] at hp
  obtain ⟨ps, qs, hraw, rfl, rfl⟩ := exists_of_mergeCode (by simp) hp
  obtain ⟨u, d, v, r, ht, hd, rfl, hpass, hu⟩ := exists_passes_of_rawPieces hraw
  rw [← flatMap_text_mergeCode, ← h.front] at hu
  subst hu
  obtain ⟨rfl, rfl⟩ := List.cons.inj (List.append_cancel_left ht)
  have hrest := congrArg Prod.snd (next_of_read hd)
  rw [next_of_read (Read.literal _), splitLiteral_contents h.closed] at hrest
  obtain rfl : b.unifyNewlines = r := hrest
  exact ⟨ps, hpass, rfl, rfl⟩

/-- Other contents leave the pieces around the literal as they are. -/
theorem LiteralAt.replace {a c b d : Text} {before after : List Piece}
    (h : LiteralAt a c b before after) (hd : Inert d) (hopen : ClosesNone before d) :
    LiteralAt a d b before after := by
  obtain ⟨ps, hpass, rfl, rfl⟩ := h.exists_passes
  have hunify := unifyNewlines_of_inert hd
  have hcontents := isContents_of_inert hd
  have hnew : Passes ('"' :: (d ++ '"' :: b.unifyNewlines)) a.unifyNewlines ps := by
    refine passes_before_quote hpass fun hi => ?_
    rcases Text.infix_append_cons (by simp) hi with hi | hi
    · exact .inr (hopen hi)
    · refine .inl (hi.trans (List.suffix_append (c.unifyNewlines ++ ['"']) _).isInfix |>.trans ?_)
      simp
  refine ⟨?_, h.front, by rwa [hunify]⟩
  rw [Source.pieces, unifyNewlines_literal, hunify, rawPieces_passes hnew,
    rawPieces_literal hcontents, mergeCode_append_cons (by simp)]

theorem LiteralAt.stripped {a c b : Text} {before after : List Piece}
    (h : LiteralAt a c b before after) : (views (a ++ '"' :: (c ++ '"' :: b))).stripped =
      before.flatMap Piece.bare ++ '"' :: (c.unifyNewlines ++ '"' :: after.flatMap Piece.bare) := by
  rw [views, stripped_ofPieces, h.pieces]
  simp [Piece.bare]

end Source
end Pinout
