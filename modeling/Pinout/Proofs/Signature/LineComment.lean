import Pinout.Proofs.Signature.Described
import Pinout.Proofs.Signature.Mode
import Pinout.Proofs.Source.Agreement

/-!
# Pinout.Proofs.Signature.LineComment

What a comment is, is decided twice: for the whole source when it is read, and for a description
line by line. `CommentAt` is the comment of a line by what is on the line. On every line that does
not start inside a literal it is a comment of the source (`exists_of_splitComment?`).

The proof is by induction on the reading (`exists_of_commentAt`). Behind the text that a piece shows,
a scanner of the line is in code again (`passes_of_read`), and within it two slashes are a comment
only if the piece is (`hasComment_of_read`).
-/

namespace Pinout
namespace Signature

open Source (Piece Read Views atLineEnd opens rawPieces rawPieces_cons mergeCode
  reading_induction splitLiteral endsLiteral viewsFrom viewsFrom_cons views remarks)
open Text (lastLine)

/-! ## The comment of a line -/

def startsComment (t : Text) : Bool := (Text.dropLead? "//".toList t).isSome

/-- A comment starts behind `front` and goes to the end of the line, by what is on that line. -/
structure CommentAt (t front comment : Text) : Prop where
  cut : cutUnquoted? startsComment .code (lastLine front ++ comment) = some (lastLine front, comment)
  line : '\n' ∉ comment
  rest : ∃ rest, t = front ++ (comment ++ rest) ∧ atLineEnd rest

section

variable {t u f front comment : Text}

theorem CommentAt.slashes (h : CommentAt t front comment) : ∃ body, comment = '/' :: '/' :: body := by
  obtain ⟨body, hb⟩ := Option.isSome_iff_exists.1 (stops_of_cutUnquoted? h.cut)
  exact ⟨body, Text.append_of_dropLead? hb⟩

/-- Text in front of a line, or code in front on the line, does not make a comment. -/
theorem CommentAt.behind (h : CommentAt (u ++ t) (u ++ f) comment)
    (hu : '\n' ∈ f ∨ Mode.run .code (lastLine u) = .code) : CommentAt t f comment := by
  obtain ⟨hcut, hline, rest, ht, hrest⟩ := h
  rw [List.append_assoc] at ht
  refine ⟨?_, hline, rest, List.append_cancel_left ht, hrest⟩
  by_cases hf : '\n' ∈ f
  · rwa [Text.lastLine_append_of_mem hf] at hcut
  · rw [Text.lastLine_append hf, List.append_assoc] at hcut
    have hbehind := cutUnquoted?_behind hcut
    rwa [hu.resolve_left hf, ← Text.lastLine_eq_self hf] at hbehind

end

/-! ## The comments of the source -/

/-- Line `n` of the views starts inside a literal, where a backslash stands before the newline. -/
def StartsInLiteral (ps : List Piece) (n : Nat) : Prop :=
  ∃ before t after, ps = before ++ .quoted t :: after ∧
    (before.flatMap Piece.bare).count '\n' < n ∧
    n ≤ (before.flatMap Piece.bare).count '\n' + t.count '\n'

theorem StartsInLiteral.cons {ps : List Piece} {n : Nat} (h : StartsInLiteral ps n) (p : Piece) :
    StartsInLiteral (p :: ps) (p.bare.count '\n' + n) := by
  obtain ⟨before, t, after, rfl, hlt, hle⟩ := h
  refine ⟨p :: before, t, after, rfl, ?_⟩
  rw [List.flatMap_cons, List.count_append]
  omega

/-- Among the pieces stands the comment that the views have behind `front`. -/
def HasComment (ps : List Piece) (front comment : Text) : Prop :=
  ∃ before after, ps = before ++ .lineComment comment :: after ∧
    (before.flatMap Piece.bare).count '\n' = front.count '\n' ∧
    lastLine (before.flatMap Piece.bare) = lastLine front

theorem HasComment.cons {ps : List Piece} {front comment : Text} (h : HasComment ps front comment)
    (p : Piece) : HasComment (p :: ps) (p.bare ++ front) comment := by
  obtain ⟨before, after, rfl, hcount, hlast⟩ := h
  refine ⟨p :: before, after, rfl, ?_, ?_⟩
  · rw [List.flatMap_cons, List.count_append, List.count_append, hcount]
  · rw [List.flatMap_cons]
    by_cases hf : '\n' ∈ front
    · have hb : '\n' ∈ before.flatMap Piece.bare := by
        rwa [← List.count_pos_iff, hcount, List.count_pos_iff]
      rw [Text.lastLine_append_of_mem hf, Text.lastLine_append_of_mem hb, hlast]
    · have hb : '\n' ∉ before.flatMap Piece.bare := by
        rwa [← List.count_eq_zero, hcount, List.count_eq_zero]
      rw [Text.lastLine_append hf, Text.lastLine_append hb, ← Text.lastLine_eq_self hb, hlast,
        Text.lastLine_eq_self hf]

theorem HasComment.congr {ps : List Piece} {front front' comment : Text}
    (h : HasComment ps front comment) (hcount : front'.count '\n' = front.count '\n')
    (hlast : lastLine front' = lastLine front) : HasComment ps front' comment := by
  obtain ⟨before, after, hp, hc, hl⟩ := h
  exact ⟨before, after, hp, hc.trans hcount.symm, hl.trans hlast.symm⟩

/-! ## What the described view starts with -/

theorem viewsFrom_nil (flag : Bool) : viewsFrom flag [] = Views.empty := by
  rw [viewsFrom, rawPieces]
  rfl

theorem atLineEnd_described {t : Text} (h : atLineEnd t) (flag : Bool) :
    atLineEnd (viewsFrom flag t).described := by
  cases t with
  | nil =>
    rw [viewsFrom_nil]
    rfl
  | cons c t =>
    obtain rfl : c = '\n' := by simpa [atLineEnd] using h
    rw [viewsFrom_cons (.newline t)]
    rfl

theorem endsLiteral_described {t : Text} (h : endsLiteral t) (flag : Bool) :
    endsLiteral (viewsFrom flag t).described := by
  rw [endsLiteral, Bool.or_eq_true, beq_iff_eq] at h ⊢
  rcases h with h | rfl
  · exact .inl (atLineEnd_described h flag)
  · right
    rw [viewsFrom_cons (.code (by decide) (by decide) (by simp)), viewsFrom_nil]
    rfl

theorem head?_described {t : Text} (flag : Bool)
    (h : (viewsFrom flag t).described.head? = some '/') : t.head? = some '/' := by
  cases t with
  | nil =>
    rw [viewsFrom_nil] at h
    cases h
  | cons c t =>
    have hread := Source.read_next c t
    rw [viewsFrom_cons hread] at h
    generalize (Source.next c t).1 = p, (Source.next c t).2 = r at hread h
    cases hread with
    | lineComment | blockComment | openComment => rfl
    | code => simpa [Views.ofPiece, Views.shown, Views.append_def] using h
    | _ => simp [Views.ofPiece, Views.shown, Views.append_def] at h

/-- Where a line or a text is at its end, a comment comes after a newline. -/
theorem newline_mem_of_endsLiteral {f body rest : Text}
    (h : endsLiteral (f ++ ('/' :: '/' :: body ++ rest))) : '\n' ∈ f := by
  rw [endsLiteral, Bool.or_eq_true, beq_iff_eq] at h
  cases f with
  | nil => simp [atLineEnd] at h
  | cons c f =>
    rcases h with h | h
    · obtain rfl : c = '\n' := by simpa [atLineEnd] using h
      exact List.mem_cons_self
    · simp at h

/-! ## The comments of lines are comments of the source -/

section

variable {c : Char} {t r front f v body rest d : Text} {p : Piece} {ps : List Piece} {flag : Bool}

/-- Behind what a piece shows a line is in code, or it has ended with a comment or a literal. -/
theorem passes_of_read (hr : Read c t p r) (hf : endsLiteral r → '\n' ∈ f)
    (hl : ¬ StartsInLiteral (p :: ps) (((Views.ofPiece flag p).described ++ f).count '\n')) :
    '\n' ∈ f ∨ Mode.run .code (lastLine (Views.ofPiece flag p).described) = .code := by
  have hcode (h : '"' ∉ (Views.ofPiece flag p).described) :
      Mode.run .code (lastLine (Views.ofPiece flag p).described) = .code :=
    Mode.run_code fun hm => h (Text.lastLine_subset _ hm)
  cases hr with
  | lineComment _ hend => exact .inl (hf (by simp [endsLiteral, hend]))
  | newline | blockComment | openComment | attr | star => exact .inr rfl
  | @event w _ hw =>
    have hw' : '"' ∉ w := fun hm => absurd (List.all_eq_true.1 hw _ hm) (by decide)
    exact .inr (hcode (by simp [Views.ofPiece, Views.shown, hw']))
  | code hn hq => exact .inr (hcode (by simpa [Views.ofPiece, Views.shown] using Ne.symm hq))
  | literal t =>
    refine or_iff_not_imp_left.2 fun hn => ?_
    have hclosed := (run_splitLiteral t).resolve_left fun he => hn (hf he)
    -- a newline in the literal would start the line inside it
    have hu : '\n' ∉ '"' :: (splitLiteral t).1 := by
      intro hm
      refine hl ⟨[], _, ps, rfl, ?_⟩
      have hpos := List.count_pos_iff.2 hm
      have hzero := List.count_eq_zero.2 hn
      simp only [Views.ofPiece, Views.shown, List.count_append, List.flatMap_nil,
        List.count_nil] at *
      omega
    show Mode.run .code (lastLine ('"' :: (splitLiteral t).1)) = .code
    rw [Text.lastLine_eq_self hu]
    exact hclosed

/-- Behind a comment a line starts, so the views do not tell it from what is left of it. -/
theorem place_of_read (flag : Bool) (hr : Read c t p r) (hf : endsLiteral r → '\n' ∈ f) :
    ((Views.ofPiece flag p).described ++ f).count '\n' = (p.bare ++ f).count '\n' ∧
      lastLine ((Views.ofPiece flag p).described ++ f) = lastLine (p.bare ++ f) := by
  cases hr with
  | @lineComment text _ hn hend =>
    have hnf := hf (by simp [endsLiteral, hend])
    have hnu : '\n' ∉ (Views.ofPiece flag (.lineComment ('/' :: '/' :: text))).described := by
      rcases Source.described_comment flag ('/' :: '/' :: text) with he | he <;> simp [he, hn]
    rw [List.count_append, List.count_eq_zero.2 hnu, Text.lastLine_append_of_mem hnf]
    exact ⟨Nat.zero_add _, rfl⟩
  | _ => exact ⟨rfl, rfl⟩

/-- Two slashes that a piece shows are a comment, unless they are in a literal. -/
theorem hasComment_of_read {behind : Bool} {comment : Text} (hr : Read c t p r)
    (hat : CommentAt ((Views.ofPiece flag p).described ++ (viewsFrom behind r).described) front
      comment)
    (hu : (Views.ofPiece flag p).described = front ++ '/' :: v)
    (hl : ¬ StartsInLiteral (p :: ps) (front.count '\n')) :
    HasComment (p :: ps) front comment := by
  obtain ⟨body, hbody⟩ := hat.slashes
  obtain ⟨hcut, hline, rest, hrest, hend⟩ := hat
  have hslash : '/' ∈ (Views.ofPiece flag p).described := by simp [hu]
  rw [hu, List.append_assoc] at hrest
  replace hrest := List.append_cancel_left hrest
  cases hr with
  | newline | blockComment | openComment | attr | star => simp [Views.ofPiece, Views.shown] at hslash
  | @event w _ hw =>
    have hw' : '/' ∉ w := fun hm => absurd (List.all_eq_true.1 hw _ hm) (by decide)
    simp [Views.ofPiece, Views.shown, hw'] at hslash
  | code hn hq ho =>
    obtain rfl : '/' = c := by simpa [Views.ofPiece, Views.shown] using hslash
    obtain ⟨rfl, rfl⟩ : front = [] ∧ v = [] := by
      have hlen := congrArg List.length hu
      simp only [Views.ofPiece, Views.shown, List.length_append, List.length_cons,
        List.length_nil] at hlen
      exact ⟨List.length_eq_zero_iff.1 (by omega), List.length_eq_zero_iff.1 (by omega)⟩
    rw [hbody] at hrest
    have hd : (viewsFrom behind t).described = '/' :: (body ++ rest) := (List.cons.inj hrest).2
    cases ho '/' (head?_described behind (by rw [hd]; rfl))
  | literal t =>
    change '"' :: (splitLiteral t).1 = _ at hu
    cases front with
    | nil => cases (List.cons.inj hu).1
    | cons q a =>
      obtain ⟨rfl, hlit⟩ := List.cons.inj hu
      have hfront : '\n' ∉ '"' :: a := by
        intro hm
        refine absurd ⟨[], _, ps, rfl, ?_⟩ hl
        have hpos := List.count_pos_iff.2 hm
        rw [hu, List.count_append]
        simp only [List.flatMap_nil, List.count_nil]
        omega
      rw [Text.lastLine_eq_self hfront] at hcut
      exact absurd (run_of_cutUnquoted? hcut) (run_literal hlit)
  | @lineComment text _ hn hr =>
    have hshown : (Views.ofPiece flag (.lineComment ('/' :: '/' :: text))).described =
        '/' :: '/' :: text := by
      refine (Source.described_comment flag _).resolve_right fun he => ?_
      rw [he] at hslash
      cases hslash
    rw [hshown] at hu
    have hnu : '\n' ∉ '/' :: '/' :: text := by simpa using hn
    have hfront : front = [] := by
      cases front with
      | nil => rfl
      | cons x a =>
        obtain ⟨rfl, ha⟩ := List.cons.inj hu
        have hstart : startsComment ('/' :: (a ++ comment)) := by
          cases a with
          | nil => rw [hbody]; rfl
          | cons y a =>
            rw [← (List.cons.inj ha).1]
            rfl
        have hna : '\n' ∉ '/' :: a := by
          intro hm
          rw [hu] at hnu
          exact hnu (List.mem_append_left _ hm)
        rw [Text.lastLine_eq_self hna, List.cons_append, cutUnquoted?, if_pos ⟨rfl, hstart⟩] at hcut
        cases hcut
    subst hfront
    rw [List.nil_append] at hu
    rw [← hu] at hrest
    have hrun := (Source.takeWhile_dropWhile_line hnu (atLineEnd_described hr behind)).1
    rw [hrest, (Source.takeWhile_dropWhile_line hline hend).1] at hrun
    exact ⟨[], ps, by rw [hrun]; rfl, rfl, rfl⟩

end

/-- A comment by what is on its line is a comment of the source, if the line does not start inside
a literal. -/
theorem exists_of_commentAt {t front comment : Text} {flag : Bool}
    (h : CommentAt (viewsFrom flag t).described front comment)
    (hl : ¬ StartsInLiteral (rawPieces t) (front.count '\n')) :
    HasComment (rawPieces t) front comment := by
  obtain ⟨body, hbody⟩ := h.slashes
  induction t using reading_induction generalizing front flag with
  | nil =>
    obtain ⟨rest, ht, -⟩ := h.rest
    rw [viewsFrom_nil, hbody] at ht
    simp [Views.empty] at ht
  | cons c t p r hr ih =>
    rw [rawPieces_cons hr] at hl ⊢
    rw [viewsFrom_cons hr] at h
    obtain ⟨rest, ht, -⟩ := h.rest
    have hbehind (f : Text) (hf : front = (Views.ofPiece flag p).described ++ f)
        (hd : (viewsFrom (Views.atStartAfter flag p) r).described = f ++ (comment ++ rest)) :
        HasComment (p :: rawPieces r) front comment := by
      subst hf
      have hends (he : endsLiteral r) : '\n' ∈ f := by
        have hview := endsLiteral_described he (Views.atStartAfter flag p)
        rw [hd, hbody] at hview
        exact newline_mem_of_endsLiteral hview
      obtain ⟨hcount, hlast⟩ := place_of_read flag hr hends
      have hrest := ih (h.behind (passes_of_read hr hends hl)) fun hs => hl ?_
      · exact (hrest.cons p).congr hcount hlast
      · rw [hcount, List.count_append]
        exact hs.cons p
    -- the comment starts in what the piece shows, or behind that
    rcases List.append_eq_append_iff.1 ht.symm with ⟨v, hu, hv⟩ | ⟨f, hf, hd⟩
    · cases v with
      | nil => exact hbehind [] (by simpa using hu.symm) hv.symm
      | cons x v =>
        obtain rfl : '/' = x := by
          rw [hbody] at hv
          exact (List.cons.inj hv).1
        exact hasComment_of_read hr h hu hl
    · exact hbehind f hf hd

/-! ## The comment of a line of the views -/

theorem startsInLiteral_mergeCode {ps : List Piece} {n : Nat} (h : StartsInLiteral ps n) :
    StartsInLiteral (mergeCode ps) n := by
  obtain ⟨before, t, after, rfl, hn⟩ := h
  refine ⟨mergeCode before, t, mergeCode after, Source.mergeCode_append_cons (by simp) _ _, ?_⟩
  rwa [Source.flatMap_bare_mergeCode]

theorem hasComment_mergeCode {ps : List Piece} {front comment : Text}
    (h : HasComment ps front comment) : HasComment (mergeCode ps) front comment := by
  obtain ⟨before, after, rfl, hn⟩ := h
  refine ⟨mergeCode before, mergeCode after, Source.mergeCode_append_cons (by simp) _ _, ?_⟩
  rwa [Source.flatMap_bare_mergeCode]

theorem cut_of_splitComment? {line code comment : Text}
    (h : splitComment? line = some (code, comment)) :
    cutUnquoted? startsComment .code line = some (code, '/' :: '/' :: comment) := by
  rw [splitComment?, splitUnquoted?_eq (fun _ => rfl), if_neg Bool.false_ne_true] at h
  obtain ⟨⟨before, rest⟩, hc, he⟩ := Option.map_eq_some_iff.1 h
  cases he
  obtain ⟨r, hr⟩ := Option.isSome_iff_exists.1 (stops_of_cutUnquoted? hc)
  rw [Text.append_of_dropLead? hr] at hc
  have hdrop : rest.drop 2 = r := by
    rw [Text.append_of_dropLead? hr]
    rfl
  rwa [← hdrop] at hc

/-- A carriage return does not start a comment. -/
theorem startsComment_append {w : Text} (hw : w = [] ∨ w = ['\r']) (c : Char) (t : Text) :
    startsComment (c :: t ++ w) = startsComment (c :: t) := by
  rcases hw with rfl | rfl
  · rw [List.append_nil]
  · cases t with
    | nil => simp [startsComment, Text.dropLead?]
    | cons d t =>
      show (if '/' = c then if '/' = d then some (t ++ ['\r']) else none else none).isSome =
        (if '/' = c then if '/' = d then some t else none else none).isSome
      split_ifs <;> rfl

theorem commentAt_of_splitComment? {t line code comment : Text} {n : Nat}
    (hl : (Text.lines t)[n]? = some line) (h : splitComment? line = some (code, comment)) :
    ∃ front w, CommentAt t front ('/' :: '/' :: (comment ++ w)) ∧ Text.allBlank w ∧
      front.count '\n' = n ∧ lastLine front = code := by
  obtain ⟨w, hline, hw⟩ := Text.exists_of_getElem?_endLines hl
  obtain ⟨before, behind, rfl, rfl, hlast, hend⟩ := Text.exists_append_of_getElem? hline
  have hn := (Text.of_mem_splitNewlines (List.mem_of_getElem? hline)).1
  have hcut := cut_of_splitComment? h
  obtain rfl := append_of_splitComment? h
  simp only [List.mem_append, List.mem_cons, not_or] at hn
  obtain ⟨⟨hcode, -, -, hcomment⟩, hnw⟩ := hn
  have hfront : lastLine (before ++ code) = code := by
    rw [Text.lastLine_append hcode, hlast, List.nil_append]
  refine ⟨before ++ code, w, ⟨?_, ?_, behind, by simp, hend⟩, ?_, ?_, hfront⟩
  · rw [hfront]
    simpa using cutUnquoted?_append (startsComment_append hw) hcut
  · simp [hcomment, hnw]
  · rcases hw with rfl | rfl <;> rfl
  · rw [List.count_append, List.count_eq_zero.2 hcode, Nat.add_zero]

/-- The comment of a line of the described view is a comment of the source, and what the line has
before it is the code before it in the source, if the line does not start inside a literal. -/
theorem exists_of_splitComment? {source line code comment : Text} {n : Nat}
    (hl : (Text.lines (views source).described)[n]? = some line)
    (h : splitComment? line = some (code, comment)) (hs : ¬ StartsInLiteral (Source.pieces source) n) :
    ∃ r ∈ remarks source, r.row = n ∧ lastLine (r.before.flatMap Piece.bare) = code ∧
      ∃ w, Text.allBlank w ∧ r.text = '/' :: '/' :: (comment ++ w) := by
  obtain ⟨front, w, hat, hw, rfl, rfl⟩ := commentAt_of_splitComment? hl h
  rw [Source.views_eq] at hat
  obtain ⟨before, after, hp, hcount, hlast⟩ :=
    hasComment_mergeCode (exists_of_commentAt hat fun hn => hs (startsInLiteral_mergeCode hn))
  exact ⟨⟨before, _⟩, Source.mem_remarks.2 ⟨after, hp⟩, hcount, hlast, w, hw, rfl⟩

end Signature
end Pinout
