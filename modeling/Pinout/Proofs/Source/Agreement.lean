import Pinout.Proofs.Source.Seam
import Pinout.Proofs.Text.LastLine

/-!
# Pinout.Proofs.Source.Agreement

The views agree on the comments at line ends (`views_agree`): line by line the described view is the
stripped view with at most a comment behind it, and which comments it shows, and which of them are
documentation, can be read off the source in front of each.

The views decide this by a flag that is carried from piece to piece. `foldl_atStartAfter_raw` says
what the flag stands for: before a comment it tells whether the last line of the source so far is
blank. It fails to do so only behind a literal that a backslash takes over a newline and no quote
closes, where no comment can start (`endsLiteral_or_quote`).
-/

namespace Pinout
namespace Source

open Text (allBlank isBlank dropLead? lastLine splitNewlines)

/-- A comment at the end of a line, with the pieces in front of it. -/
structure Remark where
  before : List Piece
  text : Text
  deriving DecidableEq, Repr

namespace Remark

/-- Only blanks stand in front of the comment on its line of the source. -/
def alone (r : Remark) : Bool := (lastLine (r.before.flatMap Piece.text)).allBlank

/-- The documentation line that the comment is. -/
def doc? (r : Remark) : Option Text := if r.alone then dropLead? docMarker r.text else none

/-- The comment has its line to itself and is no documentation. -/
def hidden (r : Remark) : Bool := r.alone && !docMarker.isPrefixOf r.text

/-- The number of the line that shows the comment. -/
def row (r : Remark) : Nat := (r.before.flatMap Piece.bare).count '\n'

end Remark

/-- The comments at line ends among pieces that stand behind `before`. -/
def remarksFrom (before : List Piece) : List Piece → List Remark
  | [] => []
  | .lineComment t :: ps => ⟨before, t⟩ :: remarksFrom (before ++ [.lineComment t]) ps
  | p :: ps => remarksFrom (before ++ [p]) ps

/-- The comments at line ends of a source. -/
def remarks (source : Text) : List Remark := remarksFrom [] (pieces source)

theorem mem_remarksFrom {before ps : List Piece} {r : Remark} :
    r ∈ remarksFrom before ps ↔
      ∃ front after, ps = front ++ .lineComment r.text :: after ∧ r.before = before ++ front := by
  induction ps generalizing before with
  | nil => simp [remarksFrom]
  | cons p ps ih =>
    have hlater : (∃ front after, p :: ps = p :: front ++ .lineComment r.text :: after ∧
        r.before = before ++ p :: front) ↔ r ∈ remarksFrom (before ++ [p]) ps := by
      simp [ih]
    cases p with
    | lineComment t =>
      rw [remarksFrom, List.mem_cons, ← hlater]
      constructor
      · rintro (rfl | ⟨front, after, hp, hb⟩)
        · exact ⟨[], ps, rfl, (List.append_nil before).symm⟩
        · exact ⟨_, after, hp, hb⟩
      · rintro ⟨front, after, hp, hb⟩
        cases front with
        | nil =>
          obtain ⟨ht, -⟩ := List.cons.inj hp
          cases r
          cases ht
          exact .inl (by simpa using hb)
        | cons q front =>
          obtain ⟨rfl, hp⟩ := List.cons.inj hp
          exact .inr ⟨front, after, by rw [hp, List.cons_append], hb⟩
    | _ =>
      rw [remarksFrom, ← hlater]
      · constructor
        · rintro ⟨front, after, hp, hb⟩
          exact ⟨_, after, hp, hb⟩
        · rintro ⟨front, after, hp, hb⟩
          cases front with
          | nil => cases (List.cons.inj hp).1
          | cons q front =>
            obtain ⟨rfl, hp⟩ := List.cons.inj hp
            exact ⟨front, after, by rw [hp, List.cons_append], hb⟩
      · simp

theorem mem_remarks {source : Text} {r : Remark} :
    r ∈ remarks source ↔ ∃ after, pieces source = r.before ++ .lineComment r.text :: after := by
  rw [remarks, mem_remarksFrom]
  constructor
  · rintro ⟨front, after, hp, rfl⟩
    exact ⟨after, hp⟩
  · rintro ⟨after, hp⟩
    exact ⟨r.before, after, hp, rfl⟩

/-! ## What the flag says -/

theorem endsLiteral_or_quote (t : Text) :
    endsLiteral (splitLiteral t).2 ∨ (splitLiteral t).1.getLast? = some '"' := by
  fun_induction splitLiteral t with
  | case1 => exact .inl rfl
  | case2 => exact .inr rfl
  | case3 c hq hc =>
    left
    rcases hc with rfl | rfl <;> rfl
  | case4 => exact .inl rfl
  | case5 => exact .inr rfl
  | case6 => exact .inl rfl
  | case7 d t literal rest hs hq hn ih =>
    rw [hs] at ih
    exact ih.imp_right fun h => by simp [List.getLast?_cons, h]
  | case8 c d t hq hn hb literal rest hs ih =>
    rw [hs] at ih
    exact ih.imp_right fun h => by simp [List.getLast?_cons, h]

/-- A line that does not end in a blank is not blank. -/
theorem allBlank_lastLine_of_getLast? {u : Text} {c : Char} (h : u.getLast? = some c)
    (hc : isBlank c = false) (t : Text) : (lastLine (t ++ u)).allBlank = false := by
  obtain ⟨u, rfl⟩ := List.getLast?_eq_some_iff.1 h
  have hn : c ≠ '\n' := by
    rintro rfl
    cases hc
  rw [← List.append_assoc, Text.allBlank_lastLine_char hn, hc, Bool.and_false]

/-- What a piece says about the blanks on its line is so, unless a literal ends with it that no
quote closes. -/
theorem atStartAfter_of_read {c : Char} {t r : Text} {p : Piece} (h : Read c t p r) {flag : Bool}
    {before : Text} (hf : endsLiteral (c :: t) ∨ flag = (lastLine before).allBlank) :
    endsLiteral r ∨ Views.atStartAfter flag p = (lastLine (before ++ p.text)).allBlank := by
  have hend {u : Text} {d : Char} (hu : u.getLast? = some d) (hd : isBlank d = false) :=
    (allBlank_lastLine_of_getLast? hu hd before).symm
  cases h with
  | newline =>
    right
    rw [Piece.text, Text.lastLine_newline]
    rfl
  | @lineComment body _ hb =>
    right
    rw [Piece.text, Text.lastLine_append (by simpa using hb)]
    simp [Views.atStartAfter, allBlank, isBlank]
  | @blockComment body => exact .inr (hend (d := '/') (by simp [Piece.text, List.getLast?_cons]) rfl)
  | openComment => exact .inl rfl
  | @event w =>
    right
    rw [atStartAfter_code (c := ')') (by simp) rfl]
    exact hend (d := ')') (by simp [Piece.text, List.getLast?_cons]) rfl
  | @attr body => exact .inr (hend (d := ')') (by simp [Piece.text, List.getLast?_cons]) rfl)
  | star =>
    right
    rw [atStartAfter_code (c := '(') (by simp) rfl]
    exact hend (d := '(') rfl rfl
  | literal t =>
    refine (endsLiteral_or_quote t).imp_right fun hq => ?_
    exact hend (d := '"') (by simp [Piece.text, List.getLast?_cons, hq]) rfl
  | @code c t hn =>
    rcases hf with he | hf
    · left
      rw [endsLiteral, Bool.or_eq_true, beq_iff_eq] at he
      rcases he with he | he
      · exact absurd (by simpa [atLineEnd] using he) hn
      · rw [(List.cons.inj he).2]
        rfl
    · right
      rw [Piece.text, Text.allBlank_lastLine_char hn, ← hf]
      simp [Views.atStartAfter, allBlank]

theorem foldl_atStartAfter_raw (before : Text) {t : Text} {ps qs : List Piece} {u : Text}
    (h : rawPieces t = ps ++ .lineComment u :: qs) {flag : Bool}
    (hf : endsLiteral t ∨ flag = (lastLine before).allBlank) :
    ps.foldl Views.atStartAfter flag = (lastLine (before ++ ps.flatMap Piece.text)).allBlank := by
  induction t using reading_induction generalizing ps flag before with
  | nil =>
    rw [rawPieces] at h
    simp at h
  | cons c t p r hr ih =>
    rw [rawPieces_cons hr] at h
    cases ps with
    | nil =>
      obtain ⟨rfl, -⟩ := List.cons.inj h
      -- a comment does not end a literal
      cases hr
      exact (hf.resolve_left (by simp [endsLiteral, atLineEnd])).trans (by simp)
    | cons q ps =>
      obtain ⟨rfl, hrest⟩ := List.cons.inj h
      rw [List.foldl_cons, ih _ hrest (atStartAfter_of_read hr hf), List.flatMap_cons,
        List.append_assoc]

theorem foldl_atStartAfter_mergeCode (ps : List Piece) (flag : Bool) :
    (mergeCode ps).foldl Views.atStartAfter flag = ps.foldl Views.atStartAfter flag := by
  fun_induction mergeCode ps generalizing flag with
  | case1 => rfl
  | case2 t rest u more h ih =>
    have ih := ih (flag && t.allBlank)
    rw [h] at ih
    have hb : allBlank (t ++ u) = (t.allBlank && u.allBlank) := List.all_append
    rw [List.foldl_cons, Views.atStartAfter, hb, ← Bool.and_assoc]
    exact ih
  | case3 t rest h ih => rw [List.foldl_cons, List.foldl_cons, ih]
  | case4 p rest h ih => rw [List.foldl_cons, List.foldl_cons, ih]

/-- Before a comment the flag tells whether only blanks stand in front of it on its line. -/
theorem foldl_atStartAfter {source : Text} {r : Remark} (h : r ∈ remarks source) :
    r.before.foldl Views.atStartAfter true = r.alone := by
  obtain ⟨after, hp⟩ := mem_remarks.1 h
  obtain ⟨ps, qs, hraw, hps, -⟩ := exists_of_mergeCode (by simp) hp
  rw [← hps, foldl_atStartAfter_mergeCode, Remark.alone, ← hps, flatMap_text_mergeCode]
  exact foldl_atStartAfter_raw [] hraw (.inr rfl)

/-! ## The views of a comment -/

theorem ofPiece_remark {source : Text} {r : Remark} (h : r ∈ remarks source) :
    Views.ofPiece (r.before.foldl Views.atStartAfter true) (.lineComment r.text) =
      ⟨[], if r.hidden then [] else r.text, r.doc?.toList⟩ := by
  rw [foldl_atStartAfter h, Views.ofPiece, Remark.hidden, Remark.doc?]
  cases r.alone with
  | false => rfl
  | true =>
    cases hd : dropLead? docMarker r.text with
    | none =>
      have hp : docMarker.isPrefixOf r.text = false := by
        rw [Bool.eq_false_iff, ne_eq, List.isPrefixOf_iff_prefix]
        exact Text.dropLead?_eq_none_iff.1 hd
      simp [hp, Views.empty]
    | some doc =>
      have hp : docMarker.isPrefixOf r.text :=
        List.isPrefixOf_iff_prefix.2 ⟨doc, (Text.append_of_dropLead? hd).symm⟩
      simp [hp]

theorem docLines_ofPieces {flag : Bool} (before ps : List Piece)
    (h : ∀ r ∈ remarksFrom before ps, (Views.ofPiece (r.before.foldl Views.atStartAfter flag)
      (.lineComment r.text)).docLines = r.doc?.toList) :
    (Views.ofPieces (before.foldl Views.atStartAfter flag) ps).docLines =
      (remarksFrom before ps).filterMap Remark.doc? := by
  induction ps generalizing before with
  | nil => rfl
  | cons p ps ih =>
    have hstep : Views.atStartAfter (before.foldl Views.atStartAfter flag) p =
        (before ++ [p]).foldl Views.atStartAfter flag := by
      rw [List.foldl_append]
      rfl
    rw [Views.ofPieces, Views.append_def, hstep]
    cases p with
    | lineComment t =>
      rw [ih _ fun r hr => h r (List.mem_cons_of_mem _ hr), h ⟨before, t⟩ List.mem_cons_self,
        remarksFrom, List.filterMap_cons]
      cases Remark.doc? ⟨before, t⟩ <;> rfl
    | _ => exact ih _ h

/-! ## The lines of the views -/

theorem exists_of_mem_rawPieces {t u : Text} (h : .lineComment u ∈ rawPieces t) :
    ∃ body, u = '/' :: '/' :: body ∧ '\n' ∉ u := by
  have hn := not_newline_of_mem_rawPieces h
  induction t using reading_induction with
  | nil =>
    rw [rawPieces] at h
    cases h
  | cons c t p r hr ih =>
    rw [rawPieces_cons hr, List.mem_cons] at h
    rcases h with rfl | h
    · cases hr
      exact ⟨_, rfl, hn⟩
    · exact ih h

/-- The comments at line ends among the pieces end where the line ends. -/
structure Commented (ps : List Piece) : Prop where
  chain : ps.IsChain EndsLine
  comment : ∀ t, .lineComment t ∈ ps → ∃ body, t = '/' :: '/' :: body ∧ '\n' ∉ t

theorem commented_pieces (source : Text) : Commented (pieces source) where
  chain := (isChain_mergeCode (isChain_rawPieces _)).imp fun _ _ h => h.2
  comment _ h := exists_of_mem_rawPieces (mem_of_mem_mergeCode (by simp) h)

theorem Commented.tail {p : Piece} {ps : List Piece} (h : Commented (p :: ps)) : Commented ps where
  chain := h.chain.tail
  comment t ht := h.comment t (List.mem_cons_of_mem p ht)

theorem Commented.left {ps qs : List Piece} (h : Commented (ps ++ qs)) : Commented ps where
  chain := h.chain.left_of_append
  comment t ht := h.comment t (List.mem_append_left qs ht)

theorem Commented.right {ps qs : List Piece} (h : Commented (ps ++ qs)) : Commented qs where
  chain := h.chain.right_of_append
  comment t ht := h.comment t (List.mem_append_right ps ht)

theorem described_ofPiece {p : Piece} (h : ∀ t, p ≠ .lineComment t) (flag : Bool) :
    (Views.ofPiece flag p).described = p.bare := by
  cases p with
  | lineComment t => exact absurd rfl (h t)
  | _ => rfl

/-- A comment is shown whole or not at all. -/
theorem described_comment (flag : Bool) (t : Text) :
    (Views.ofPiece flag (.lineComment t)).described = t ∨
      (Views.ofPiece flag (.lineComment t)).described = [] := by
  rw [Views.ofPiece]
  split
  · split
    · exact .inl rfl
    · exact .inr rfl
  · exact .inl rfl

/-- The line `d` is the line `s`, or has a comment behind it. -/
def Annotated (d s : Text) : Prop := d = s ∨ ∃ body, d = s ++ '/' :: '/' :: body

theorem annotated_append {d s : Text}
    (h : List.Forall₂ Annotated (splitNewlines d) (splitNewlines s)) (t : Text) :
    List.Forall₂ Annotated (splitNewlines (t ++ d)) (splitNewlines (t ++ s)) := by
  induction t with
  | nil => exact h
  | cons c t ih =>
    rw [List.cons_append, List.cons_append, splitNewlines, splitNewlines]
    split
    · exact .cons (.inl rfl) ih
    · generalize splitNewlines (t ++ d) = ds at ih
      generalize splitNewlines (t ++ s) = ss at ih
      cases ih with
      | nil => exact .cons (.inl rfl) .nil
      | cons hline hmore =>
        refine .cons ?_ hmore
        rcases hline with rfl | ⟨body, rfl⟩
        · exact .inl rfl
        · exact .inr ⟨body, rfl⟩

/-- A comment that is all there is on its line. -/
theorem annotated_line {line d s : Text} (hl : Annotated line []) (hn : '\n' ∉ line)
    (h : List.Forall₂ Annotated (splitNewlines ('\n' :: d)) (splitNewlines ('\n' :: s))) :
    List.Forall₂ Annotated (splitNewlines (line ++ '\n' :: d)) (splitNewlines ('\n' :: s)) := by
  have hnewline (t : Text) : splitNewlines ('\n' :: t) = [] :: splitNewlines t := if_pos rfl
  rw [hnewline, hnewline, List.forall₂_cons] at h
  rw [Text.splitNewlines_append_newline, Text.splitNewlines_of_not_mem hn, hnewline]
  exact .cons hl h.2

theorem annotated_ofPieces {ps : List Piece} (h : Commented ps) (flag : Bool) :
    List.Forall₂ Annotated (splitNewlines (Views.ofPieces flag ps).described)
      (splitNewlines (Views.ofPieces flag ps).stripped) := by
  induction ps generalizing flag with
  | nil => exact .cons (.inl rfl) .nil
  | cons p ps ih =>
    have ih := ih h.tail (Views.atStartAfter flag p)
    rw [Views.ofPieces, Views.append_def, stripped_ofPiece]
    cases p with
    | lineComment t =>
      obtain ⟨body, rfl, hn⟩ := h.comment t List.mem_cons_self
      rcases described_comment flag ('/' :: '/' :: body) with hd | hd
      · rw [hd]
        cases ps with
        | nil =>
          have hline : splitNewlines ('/' :: '/' :: body ++ []) = ['/' :: '/' :: body] := by
            rw [List.append_nil, Text.splitNewlines_of_not_mem hn]
          exact hline ▸ .cons (.inr ⟨body, rfl⟩) .nil
        | cons q qs =>
          obtain rfl : q = .newline := (List.isChain_cons.1 h.chain).1 q rfl _ rfl
          exact annotated_line (.inr ⟨body, rfl⟩) hn ih
      · rwa [hd]
    | _ =>
      rw [described_ofPiece (by simp)]
      exact annotated_append ih _

/-- The described view of pieces has the newlines of the stripped view. -/
theorem count_described {ps : List Piece} (h : Commented ps) (flag : Bool) :
    (Views.ofPieces flag ps).described.count '\n' = (ps.flatMap Piece.bare).count '\n' := by
  have hlength := (annotated_ofPieces h flag).length_eq
  rw [Text.length_splitNewlines, Text.length_splitNewlines, stripped_ofPieces] at hlength
  omega

/-- In front of what is no newline, the views show the same on the last line. -/
theorem lastLine_described {ps : List Piece} {p : Piece} (h : Commented (ps ++ [p]))
    (hp : p ≠ .newline) (flag : Bool) :
    lastLine (Views.ofPieces flag ps).described = lastLine (ps.flatMap Piece.bare) := by
  induction ps using List.reverseRecOn generalizing p with
  | nil => rfl
  | append_singleton ps q ih =>
    have hq : ∀ t, q ≠ .lineComment t := by
      rintro t rfl
      exact hp ((List.isChain_append.1 h.chain).2.2 _ (by simp) p rfl t rfl)
    have hlast : (Views.ofPieces flag (ps ++ [q])).described =
        (Views.ofPieces flag ps).described ++ q.bare := by
      rw [Views.ofPieces_append, ← described_ofPiece hq]
      show _ ++ (_ ++ []) = _
      rw [List.append_nil]
    rw [hlast, List.flatMap_append, List.flatMap_singleton]
    by_cases hn : q = .newline
    · rw [hn, Piece.bare, Text.lastLine_newline, Text.lastLine_newline]
    · exact Text.lastLine_append_congr (ih h.left hn) _

/-- Behind a comment its line is at its end. -/
theorem takeWhile_behind {ps : List Piece} {t : Text} (h : Commented (.lineComment t :: ps))
    (flag : Bool) : (Views.ofPieces flag ps).described.takeWhile (· ≠ '\n') = [] ∧
      (ps.flatMap Piece.bare).takeWhile (· ≠ '\n') = [] := by
  cases ps with
  | nil => exact ⟨rfl, rfl⟩
  | cons q qs =>
    obtain rfl : q = .newline := (List.isChain_cons.1 h.chain).1 q rfl t rfl
    exact ⟨rfl, rfl⟩

/-- The line of a comment in the views. -/
theorem getElem?_row {source : Text} {r : Remark} (h : r ∈ remarks source) :
    ∃ line, (splitNewlines (views source).stripped)[r.row]? = some line ∧
      (splitNewlines (views source).described)[r.row]? =
        some (if r.hidden then line else line ++ r.text) := by
  obtain ⟨after, hp⟩ := mem_remarks.1 h
  have hc : Commented (r.before ++ .lineComment r.text :: after) := hp ▸ commented_pieces source
  have hfront : Commented (r.before ++ [.lineComment r.text]) := by
    rw [List.append_cons] at hc
    exact hc.left
  have hbehind : Commented (.lineComment r.text :: after) := hc.right
  -- the views in front of the comment, of the comment and behind it
  have hstripped : (views source).stripped =
      r.before.flatMap Piece.bare ++ after.flatMap Piece.bare := by
    rw [views, hp, stripped_ofPieces, List.flatMap_append, List.flatMap_cons]
    rfl
  have hdescribed : (views source).described = (Views.ofPieces true r.before).described ++
      ((if r.hidden then [] else r.text) ++ (Views.ofPieces false after).described) := by
    rw [views, hp, Views.ofPieces_append, Views.ofPieces, ofPiece_remark h]
    rfl
  have hcount := count_described hfront.left true
  have hlast := lastLine_described hfront (by simp) true
  obtain ⟨hd, hs⟩ := takeWhile_behind hbehind false
  have hshown : ∀ c ∈ if r.hidden then [] else r.text, decide (c ≠ '\n') = true := by
    obtain ⟨-, -, hn⟩ := hc.comment r.text (by simp)
    intro c hm
    split at hm
    · cases hm
    · exact decide_eq_true fun he => hn (he ▸ hm)
  refine ⟨lastLine (r.before.flatMap Piece.bare), ?_, ?_⟩
  · rw [hstripped, Remark.row, Text.getElem?_splitNewlines, hs, List.append_nil]
  · rw [hdescribed, Remark.row, ← hcount, Text.getElem?_splitNewlines, hlast,
      List.takeWhile_append_of_pos hshown, hd, List.append_nil]
    split
    · rw [List.append_nil]
    · rfl

/-- A comment is in the source behind what its pieces in front show. -/
theorem prefix_of_mem_remarks {source : Text} {r : Remark} (h : r ∈ remarks source) :
    r.before.flatMap Piece.text ++ r.text <+: source.unifyNewlines := by
  obtain ⟨after, hp⟩ := mem_remarks.1 h
  rcases flatMap_text_pieces source with ht | ⟨qs, body, hq, ht, -⟩
  · refine ⟨after.flatMap Piece.text, ?_⟩
    rw [← ht, hp, List.flatMap_append, List.flatMap_cons, List.append_assoc]
    rfl
  · -- a comment that is never closed stands behind this one
    have hpre : r.before ++ [.lineComment r.text] <+: qs := by
      have h₁ : r.before ++ [.lineComment r.text] <+: pieces source := ⟨after, by simp [hp]⟩
      have h₂ : qs <+: pieces source := ⟨_, hq.symm⟩
      refine List.prefix_of_prefix_length_le h₁ h₂ (Nat.le_of_not_lt fun hlt => ?_)
      have hlen := congrArg List.length (hp.symm.trans hq)
      simp only [List.length_append, List.length_cons, List.length_nil] at hlen hlt
      have hall : after = [] := List.length_eq_zero_iff.1 (by omega)
      rw [hp, hall] at hq
      cases (List.append_inj' hq rfl).2
    obtain ⟨rest, rfl⟩ := hpre
    refine ⟨rest.flatMap Piece.text ++ '/' :: '*' :: body, ?_⟩
    rw [ht, List.flatMap_append, List.flatMap_append]
    simp [Piece.text]

/-- The views agree. They have the same lines but for a comment that the described view has behind
a line. A comment is documentation by its marker when only blanks stand in front of it on its line
of the source, and is hidden when they do and it has no marker; on its line the described view shows
it unless it is hidden. -/
theorem views_agree (source : Text) :
    (splitNewlines (views source).described).length =
      (splitNewlines (views source).stripped).length ∧
    List.Forall₂ Annotated (splitNewlines (views source).described)
      (splitNewlines (views source).stripped) ∧
    (views source).docLines = (remarks source).filterMap Remark.doc? ∧
    ∀ r ∈ remarks source, r.before.flatMap Piece.text ++ r.text <+: source.unifyNewlines ∧
      ∃ line, (splitNewlines (views source).stripped)[r.row]? = some line ∧
        (splitNewlines (views source).described)[r.row]? =
          some (if r.hidden then line else line ++ r.text) := by
  have hlines := annotated_ofPieces (commented_pieces source) true
  refine ⟨hlines.length_eq, hlines, ?_, fun r hr => ⟨prefix_of_mem_remarks hr, getElem?_row hr⟩⟩
  exact docLines_ofPieces [] _ fun r hr => by rw [ofPiece_remark hr]

end Source
end Pinout
