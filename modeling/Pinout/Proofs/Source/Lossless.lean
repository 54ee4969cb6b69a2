import Mathlib.Data.List.Chain
import Pinout.Proofs.Source.Reading

/-!
# Pinout.Proofs.Source.Lossless

A source is read to its end and nothing of it is lost (`pieces_lossless`).

There are seven ways to read a piece. Each of them may fail, and the first that does not is taken
(`choose?`). `Accepts` says that taking piece after piece comes to the end of the text.

* `choose?_of_read`: at every character some way succeeds, with the piece that the rules give;
* `append_of_read`: the piece and the text left over are the text, unless a block comment is never
  closed;
* `isChain_mergeCode`: which pieces stand side by side once code is merged.
-/

namespace Pinout
namespace Source

open Text (isBlank dropLead? splitAround?)

/-! ## The ways to read a piece -/

def newline? (t : Text) : Option (Piece × Text) :=
  (dropLead? ['\n'] t).map fun t => (.newline, t)

def lineComment? (t : Text) : Option (Piece × Text) :=
  (dropLead? ['/', '/'] t).map fun t =>
    (.lineComment ('/' :: '/' :: t.takeWhile (· ≠ '\n')), t.dropWhile (· ≠ '\n'))

/-- A comment that is never closed runs to the end of the text. -/
def blockComment? (t : Text) : Option (Piece × Text) :=
  (dropLead? ['/', '*'] t).map fun t =>
    match splitAround? ['*', '/'] t with
    | some (body, rest) => (.blockComment ('/' :: '*' :: (body ++ ['*', '/'])), rest)
    | none => (.blockComment ('/' :: '*' :: (t ++ ['*', '/'])), [])

def event? (t : Text) : Option (Piece × Text) := do
  let t ← dropLead? ['(', '*'] t
  let rest ← dropLead? [')'] (t.dropWhile isBlank)
  some (.code ('(' :: '*' :: (t.takeWhile isBlank ++ [')'])), rest)

def attribute? (t : Text) : Option (Piece × Text) := do
  let t ← dropLead? ['(', '*'] t
  let (body, rest) ← splitAround? ['*', ')'] t
  some (.attr ('(' :: '*' :: (body ++ ['*', ')'])), rest)

def literal? (t : Text) : Option (Piece × Text) :=
  (dropLead? ['"'] t).map fun t => (.quoted ('"' :: (splitLiteral t).1), (splitLiteral t).2)

def character? : Text → Option (Piece × Text)
  | [] => none
  | c :: t => if c = '\n' then none else some (.code [c], t)

/-- The piece at the head of a text, in the first way that does not fail. -/
def choose? (t : Text) : Option (Piece × Text) :=
  newline? t <|> lineComment? t <|> blockComment? t <|> event? t <|> attribute? t <|> literal? t <|>
    character? t

/-- Piece after piece is taken until the text is at its end. -/
inductive Accepts : Text → List Piece → Prop where
  | nil : Accepts [] []
  | cons {t r : Text} {p : Piece} {ps : List Piece} (h : choose? t = some (p, r))
      (hr : Accepts r ps) : Accepts t (p :: ps)

theorem choose?_star (t : Text) : choose? ('(' :: '*' :: t) =
    (event? ('(' :: '*' :: t) <|> attribute? ('(' :: '*' :: t) <|>
      some (.code ['('], '*' :: t)) := by
  show (none <|> none <|> none <|> event? ('(' :: '*' :: t) <|> attribute? ('(' :: '*' :: t) <|>
    none <|> some _) = _
  cases event? ('(' :: '*' :: t) <;> cases attribute? ('(' :: '*' :: t) <;> rfl

theorem event?_of_allBlank {w : Text} (hw : w.allBlank) (r : Text) :
    event? ('(' :: '*' :: (w ++ ')' :: r)) = some (.code ('(' :: '*' :: (w ++ [')'])), r) := by
  have ha := List.all_eq_true.1 hw
  have hd : (w ++ ')' :: r).dropWhile isBlank = ')' :: r := by
    rw [List.dropWhile_append_of_pos ha]
    rfl
  have ht : (w ++ ')' :: r).takeWhile isBlank = w := by
    rw [List.takeWhile_append_of_pos ha]
    exact List.append_nil w
  show (dropLead? [')'] ((w ++ ')' :: r).dropWhile isBlank)).bind _ = _
  rw [hd, ht]
  rfl

theorem event?_of_not_isEvent {t : Text} (h : isEvent t = false) :
    event? ('(' :: '*' :: t) = none := by
  show (dropLead? [')'] (t.dropWhile isBlank)).bind _ = _
  have hn : dropLead? [')'] (t.dropWhile isBlank) = none := by
    rw [Text.dropLead?_eq_none_iff]
    rintro ⟨r, hr⟩
    rw [isEvent, ← hr] at h
    cases h
  rw [hn]
  rfl

theorem attribute?_star (t : Text) : attribute? ('(' :: '*' :: t) =
    (splitAround? ['*', ')'] t).map fun (body, rest) =>
      (.attr ('(' :: '*' :: (body ++ ['*', ')'])), rest) := by
  show (splitAround? ['*', ')'] t).bind _ = _
  cases splitAround? ['*', ')'] t <;> rfl

theorem dropLead?_of_not_opens {a b c : Char} {t : Text} (hab : opens a b)
    (h : ∀ d, t.head? = some d → opens c d = false) : dropLead? [a, b] (c :: t) = none := by
  rw [Text.dropLead?_eq_none_iff]
  rintro ⟨r, hr⟩
  obtain ⟨rfl, rfl⟩ := List.cons.inj hr
  rw [h b rfl] at hab
  cases hab

theorem choose?_of_read {c : Char} {t r : Text} {p : Piece} (h : Read c t p r) :
    choose? (c :: t) = some (p, r) := by
  cases h with
  | newline | literal => rfl
  | lineComment hb hr =>
    obtain ⟨ht, hd⟩ := takeWhile_dropWhile_line hb hr
    simp only [choose?, newline?, lineComment?, dropLead?, if_true, Option.map_some, ht, hd]
    rfl
  | @blockComment body _ hb =>
    have hs := @splitAround?_starSlash _ r hb
    generalize body ++ ['*', '/'] ++ r = t at hs
    simp [choose?, newline?, lineComment?, blockComment?, dropLead?, hs]
  | openComment ht =>
    simp [choose?, newline?, lineComment?, blockComment?, dropLead?,
      Text.splitAround?_eq_none_iff.2 ht]
  | event _ hw =>
    rw [choose?_star, event?_of_allBlank hw]
    rfl
  | attr hn hb =>
    rw [choose?_star, event?_of_not_isEvent hn, attribute?_star, splitAround?_starParen hb]
    rfl
  | star hn ht =>
    rw [choose?_star, event?_of_not_isEvent hn, attribute?_star,
      Text.splitAround?_eq_none_iff.2 ht]
    rfl
  | code hn hq ho =>
    have hpair {a b : Char} (hab : opens a b) := dropLead?_of_not_opens hab ho
    have hnewline : dropLead? ['\n'] (c :: t) = none := if_neg (Ne.symm hn)
    have hquote : dropLead? ['"'] (c :: t) = none := if_neg (Ne.symm hq)
    simp [choose?, newline?, lineComment?, blockComment?, event?, attribute?, literal?, character?,
      hnewline, hquote, hpair (a := '/') (b := '/') rfl, hpair (a := '/') (b := '*') rfl,
      hpair (a := '(') (b := '*') rfl, hn]

theorem accepts_rawPieces (t : Text) : Accepts t (rawPieces t) := by
  induction t using reading_induction with
  | nil =>
    rw [rawPieces]
    exact .nil
  | cons c t p r hr ih =>
    rw [rawPieces_cons hr]
    exact .cons (choose?_of_read hr) ih

/-! ## What the pieces show -/

/-- Only the closing of a block comment is added to what is read. -/
theorem append_of_read {c : Char} {t r : Text} {p : Piece} (h : Read c t p r) :
    c :: t = p.text ++ r ∨
      (r = [] ∧ ¬ ['*', '/'] <:+: t.drop 1 ∧ c :: t = '/' :: '*' :: t.drop 1 ∧
        p = .blockComment ('/' :: '*' :: (t.drop 1 ++ ['*', '/']))) := by
  cases h with
  | openComment ht => exact .inr ⟨rfl, ht, rfl, rfl⟩
  | literal t => exact .inl (by simp [Piece.text, append_splitLiteral])
  | _ => exact .inl (by simp [Piece.text])

/-- The last of the pieces is a block comment that the text opens and never closes. -/
def OpenEnd (t : Text) (ps : List Piece) : Prop :=
  ∃ qs body, ps = qs ++ [.blockComment ('/' :: '*' :: (body ++ ['*', '/']))] ∧
    t = qs.flatMap Piece.text ++ '/' :: '*' :: body ∧ ¬ ['*', '/'] <:+: body

theorem flatMap_text_rawPieces (t : Text) :
    (rawPieces t).flatMap Piece.text = t ∨ OpenEnd t (rawPieces t) := by
  induction t using reading_induction with
  | nil =>
    rw [rawPieces]
    exact .inl rfl
  | cons c t p r hr ih =>
    rw [rawPieces_cons hr]
    rcases append_of_read hr with he | ⟨rfl, hb, he, rfl⟩
    · rcases ih with ih | ⟨qs, body, hp, ht, hb⟩
      · exact .inl (by rw [List.flatMap_cons, ih, he])
      · refine .inr ⟨p :: qs, body, by rw [hp]; rfl, ?_, hb⟩
        rw [he, ht, List.flatMap_cons, List.append_assoc]
    · refine .inr ⟨[], _, ?_, he, hb⟩
      rw [rawPieces]
      rfl

theorem flatMap_text_mergeCode (ps : List Piece) :
    (mergeCode ps).flatMap Piece.text = ps.flatMap Piece.text :=
  flatMap_mergeCode (fun _ _ => rfl) ps

/-- Code is merged on either side of a piece that is no code, but not across it. -/
theorem mergeCode_append_cons {p : Piece} (hp : ∀ t, p ≠ .code t) (ps qs : List Piece) :
    mergeCode (ps ++ p :: qs) = mergeCode ps ++ p :: mergeCode qs := by
  have hcons : ∀ qs, mergeCode (p :: qs) = p :: mergeCode qs := by
    intro qs
    cases p with
    | code t => exact absurd rfl (hp t)
    | _ => rfl
  induction ps with
  | nil => exact hcons qs
  | cons q ps ih =>
    cases q with
    | code t =>
      rw [List.cons_append, mergeCode, mergeCode, ih]
      cases hm : mergeCode ps with
      | nil =>
        cases p with
        | code t => exact absurd rfl (hp t)
        | _ => rfl
      | cons r more => cases r <;> rfl
    | _ => rw [List.cons_append, mergeCode, mergeCode, ih, List.cons_append] <;> simp

theorem openEnd_mergeCode {t : Text} {ps : List Piece} (h : OpenEnd t ps) :
    OpenEnd t (mergeCode ps) := by
  obtain ⟨qs, body, rfl, ht, hb⟩ := h
  refine ⟨mergeCode qs, body, ?_, ?_, hb⟩
  · rw [mergeCode_append_cons (by simp)]
    rfl
  · rw [flatMap_text_mergeCode, ht]

theorem flatMap_text_of_openEnd {t : Text} {ps : List Piece} (h : OpenEnd t ps) :
    ps.flatMap Piece.text = t ++ ['*', '/'] := by
  obtain ⟨qs, body, rfl, rfl, _⟩ := h
  simp [Piece.text]

theorem flatMap_text_pieces (source : Text) :
    (pieces source).flatMap Piece.text = source.unifyNewlines ∨
      OpenEnd source.unifyNewlines (pieces source) := by
  rw [pieces, flatMap_text_mergeCode]
  exact (flatMap_text_rawPieces _).imp_right openEnd_mergeCode

/-! ## Which pieces stand side by side -/

/-- A comment at the end of a line is followed by a newline. -/
def EndsLine (p q : Piece) : Prop := ∀ t, p = .lineComment t → q = .newline

/-- Two pieces that may stand side by side once code is merged. -/
def Beside (p q : Piece) : Prop := (∀ t u, p = .code t → q ≠ .code u) ∧ EndsLine p q

theorem isChain_rawPieces (t : Text) : (rawPieces t).IsChain EndsLine := by
  induction t using reading_induction with
  | nil =>
    rw [rawPieces]
    exact .nil
  | cons c t p r hr ih =>
    rw [rawPieces_cons hr, List.isChain_cons]
    refine ⟨?_, ih⟩
    rintro q hq u rfl
    cases hr with
    | lineComment hb hr =>
      cases r with
      | nil =>
        rw [rawPieces] at hq
        cases hq
      | cons c r =>
        obtain rfl : c = '\n' := by simpa [atLineEnd] using hr
        rw [rawPieces_cons (.newline r)] at hq
        cases hq
        rfl

theorem not_newline_of_mem_rawPieces {t u : Text} (h : .lineComment u ∈ rawPieces t) :
    '\n' ∉ u := by
  induction t using reading_induction with
  | nil =>
    rw [rawPieces] at h
    cases h
  | cons c t p r hr ih =>
    rw [rawPieces_cons hr, List.mem_cons] at h
    rcases h with rfl | h
    · cases hr with
      | lineComment hb => simpa using hb
    · exact ih h

theorem mem_of_mem_mergeCode {p : Piece} (hp : ∀ t, p ≠ .code t) {ps : List Piece}
    (h : p ∈ mergeCode ps) : p ∈ ps := by
  fun_induction mergeCode ps with
  | case1 => exact h
  | case2 t rest u more hm ih =>
    rw [hm] at ih
    rcases List.mem_cons.1 h with rfl | h
    · exact absurd rfl (hp _)
    · exact List.mem_cons_of_mem _ (ih (List.mem_cons_of_mem _ h))
  | case3 t rest hm ih =>
    rcases List.mem_cons.1 h with rfl | h
    · exact absurd rfl (hp _)
    · exact List.mem_cons_of_mem _ (ih h)
  | case4 q rest hq ih =>
    rcases List.mem_cons.1 h with rfl | h
    · exact List.mem_cons_self
    · exact List.mem_cons_of_mem _ (ih h)

theorem isChain_mergeCode {ps : List Piece} (h : ps.IsChain EndsLine) :
    (mergeCode ps).IsChain Beside := by
  fun_induction mergeCode ps with
  | case1 => exact .nil
  | case2 t rest u more hm ih =>
    have hmore := ih h.tail
    rw [hm, List.isChain_cons] at hmore
    rw [List.isChain_cons]
    refine ⟨fun q hq => ⟨fun _ v _ => (hmore.1 q hq).1 u v rfl, ?_⟩, hmore.2⟩
    rintro _ ⟨⟩
  | case3 t rest hm ih =>
    rw [List.isChain_cons]
    refine ⟨fun q hq => ⟨fun _ v _ => ?_, ?_⟩, ih h.tail⟩
    · rintro rfl
      obtain ⟨more, hr⟩ := List.head?_eq_some_iff.1 hq
      exact hm v more hr
    · rintro _ ⟨⟩
  | case4 p rest hp ih =>
    rw [List.isChain_cons] at h ⊢
    refine ⟨fun q hq => ⟨fun t _ ht => absurd ht (hp t), ?_⟩, ih h.2⟩
    rintro t rfl
    cases rest with
    | nil => cases hq
    | cons r rest =>
      obtain rfl : r = .newline := h.1 r rfl t rfl
      cases hq
      rfl

/-- Every source is read to its end. Its pieces show the source with its newlines unified, followed
by the end of a comment exactly where the last piece is a comment that is never closed; no two of
them that stand side by side are code, and a comment at the end of a line stops there. -/
theorem pieces_lossless (source : Text) :
    (∃ ps, Accepts source.unifyNewlines ps ∧ pieces source = mergeCode ps) ∧
    ((pieces source).flatMap Piece.text = source.unifyNewlines ↔
      ¬ OpenEnd source.unifyNewlines (pieces source)) ∧
    ((pieces source).flatMap Piece.text = source.unifyNewlines ++ ['*', '/'] ↔
      OpenEnd source.unifyNewlines (pieces source)) ∧
    (pieces source).IsChain Beside ∧ ∀ t, .lineComment t ∈ pieces source → '\n' ∉ t := by
  have hshown := flatMap_text_pieces source
  have hne : source.unifyNewlines ≠ source.unifyNewlines ++ ['*', '/'] := by simp
  refine ⟨⟨_, accepts_rawPieces _, rfl⟩, ⟨fun h ho => ?_, hshown.resolve_right⟩,
    ⟨fun h => hshown.resolve_left fun he => hne (he ▸ h), flatMap_text_of_openEnd⟩,
    isChain_mergeCode (isChain_rawPieces _), fun t h => ?_⟩
  · exact hne (h.symm.trans (flatMap_text_of_openEnd ho))
  · exact not_newline_of_mem_rawPieces (mem_of_mem_mergeCode (by simp) h)

end Source
end Pinout
