import Pinout.Proofs.Signature.Stretched
import Pinout.Proofs.Source.Seam

/-!
# Pinout.Proofs.Signature.DocLine

Documentation lines are invisible to the signature. A documentation line between two lines of a
source leaves one more newline in the stripped text, which no header sees (`header?_stretched`), and
a line without code in the described text, which describes nothing (`describedBy?_docLine`).
-/

namespace Pinout
namespace Signature

open Source (StartsLine Views views docMarker)

/-- The line with a documentation text. -/
def docLine (t : Text) : Text := docMarker ++ t ++ ['\n']

/-- What the views show of a documentation line. -/
def docViews (t : Text) : Views := ⟨['\n'], docLine t, [t]⟩

section

variable {t : Text}

theorem docLine_append (t u : Text) : docLine t ++ u = docMarker ++ t ++ '\n' :: u := by
  simp [docLine]

theorem unifyNewlines_docLine (hr : '\r' ∉ t) (u : Text) :
    Text.unifyNewlines (docLine t ++ u) = docLine t ++ Text.unifyNewlines u := by
  refine Text.unifyNewlines_append_of_not_mem ?_ u
  simp [docLine, docMarker, hr]

theorem views_docLine (hn : '\n' ∉ t) (hr : '\r' ∉ t) (b : Text) :
    views (docLine t ++ b) = docViews t ++ views b := by
  have hread : Source.Read '/' ('/' :: ('>' :: t) ++ '\n' :: b.unifyNewlines)
      (.lineComment ('/' :: '/' :: '>' :: t)) ('\n' :: b.unifyNewlines) :=
    .lineComment (by simp [hn]) rfl
  have hcat : docLine t ++ b.unifyNewlines =
      '/' :: ('/' :: ('>' :: t) ++ '\n' :: b.unifyNewlines) := docLine_append t _
  rw [Source.views_eq, unifyNewlines_docLine hr, hcat, Source.viewsFrom_cons hread,
    Source.viewsFrom_cons (.newline _), ← Views.append_assoc, Source.views_eq]
  rfl

theorem splitComment?_docLine (t : Text) : splitComment? (docMarker ++ t) = some ([], '>' :: t) :=
  rfl

theorem describedBy?_docLine (keywords : List Text) (name t : Text) :
    describedBy? keywords name (docMarker ++ t) = none := by
  -- the comment is all there is of the line, so no keyword stands before it
  have hcode : afterFirstKeyword? keywords [] = none := by
    simp [afterFirstKeyword?, Text.findWord?_nil]
  rw [describedBy?, splitComment?_docLine, Option.bind_eq_bind, Option.bind_some]
  dsimp only
  rw [hcode]
  rfl

theorem description?_docLine (hn : '\n' ∉ t) (hr : '\r' ∉ t) (w : Views) :
    description? (docViews t ++ w).described = description? w.described := by
  have hcat : (docViews t ++ w).described = docMarker ++ t ++ '\n' :: w.described :=
    docLine_append t w.described
  funext keywords name
  rw [description?, hcat, Text.lines_cons_line, List.findSome?_cons, describedBy?_docLine]
  · rfl
  · simp [docMarker, hn]
  · simp [docMarker, hr]

/-! ## The signature -/

theorem ofViews_congr {v w : Views}
    (hs : Option.Rel Header.Stretched (header? v.stripped) (header? w.stripped))
    (hd : description? v.described = description? w.described) : ofViews v = ofViews w := by
  have hparameter : describeParameter v.described = describeParameter w.described := by
    funext p
    rw [describeParameter, describeParameter, hd]
  have hport : describePort v.described = describePort w.described := by
    funext p
    rw [describePort, describePort, hd]
  generalize hv : header? v.stripped = a, hw : header? w.stripped = b at hs
  cases hs with
  | none => rw [ofViews_of_none hv, ofViews_of_none hw]
  | some h =>
    rw [ofViews_of_header hv, ofViews_of_header hw, h.1, Header.parameters_stretched h,
      Header.ports_stretched h, hparameter, hport]

theorem ofViews_docViews (hn : '\n' ∉ t) (hr : '\r' ∉ t) (w : Views) :
    ofViews (docViews t ++ w) = ofViews w := by
  refine ofViews_congr ?_ (description?_docLine hn hr w)
  have hheader : header? (docViews t ++ w).stripped = header? w.stripped :=
    header?_newline w.stripped
  rw [hheader]
  exact header?_stretched (.refl _)

theorem ofViews_insert_docViews (hn : '\n' ∉ t) (hr : '\r' ∉ t) (v w : Views) :
    ofViews (v ++ Views.shown ['\n'] ++ (docViews t ++ w)) =
      ofViews (v ++ Views.shown ['\n'] ++ w) := by
  refine (ofViews_congr ?_ ?_).symm
  · rw [stripped_seam, stripped_seam]
    exact header?_stretched (.append_left _ (.here _))
  · funext keywords name
    rw [description?_seam, description?_seam, description?_docLine hn hr]

end

theorem insertIdx_append {α : Type} (xs ys : List α) (x : α) :
    (xs ++ ys).insertIdx xs.length x = xs ++ x :: ys := by
  induction xs with
  | nil => rfl
  | cons y xs ih => rw [List.cons_append, List.length_cons, List.insertIdx_succ_cons, ih]; rfl

/-- A documentation line where a line of the source starts adds its text to the documentation, in
its place, and changes nothing of the signature. -/
theorem ofSource_insert_docLine {a b : Text} (h : StartsLine a b) {t : Text} (hn : '\n' ∉ t)
    (hr : '\r' ∉ t) (ht : ¬ ['*', ')'] <:+: t) :
    ofSource (a ++ (docLine t ++ b)) = ofSource (a ++ b) ∧
    (views a).docLines <+: (views (a ++ b)).docLines ∧
    (views (a ++ (docLine t ++ b))).docLines =
      (views (a ++ b)).docLines.insertIdx (views a).docLines.length t := by
  have hclose : ['*', ')'] <:+: Text.unifyNewlines (docLine t ++ b) →
      ['*', ')'] <:+: b.unifyNewlines := fun hi => by
    rw [unifyNewlines_docLine hr, docLine_append] at hi
    refine (Text.infix_append_cons (by decide) hi).resolve_left fun hi => ht ?_
    exact Text.infix_append_of_head (by decide) hi
  have hwith := Source.views_append h hclose
  have hwithout := Source.views_append h id
  rw [views_docLine hn hr] at hwith
  refine ⟨?_, ?_, ?_⟩
  · rw [ofSource, ofSource, hwith, hwithout]
    rcases Source.exists_views_newline h with rfl | ⟨ps, hps⟩
    · rw [Source.views_nil, Views.empty_append, Views.empty_append]
      exact ofViews_docViews hn hr (views b)
    · rw [hps]
      exact ofViews_insert_docViews hn hr _ (views b)
  · rw [hwithout]
    exact List.prefix_append _ _
  · rw [hwith, hwithout]
    exact (insertIdx_append _ _ t).symm

/-- Between the keyword and the name, a text that looks like a described port. -/
theorem ofSource_insert_docLine_header :
    StartsLine "//> one\nmodule\n".toList "m(input a,\n b);\n//> two".toList ∧
    '\n' ∉ " input b // no".toList ∧ '\r' ∉ " input b // no".toList ∧
    ¬ ['*', ')'] <:+: " input b // no".toList ∧
    ofSource ("//> one\nmodule\n".toList ++
        (docLine " input b // no".toList ++ "m(input a,\n b);\n//> two".toList)) =
      ⟨"m".toList, [], [⟨"a".toList, .input, "(wire)".toList, none, []⟩,
        ⟨"b".toList, .input, "(wire)".toList, none, []⟩]⟩ ∧
    (views ("//> one\nmodule\n".toList ++
        (docLine " input b // no".toList ++ "m(input a,\n b);\n//> two".toList))).docLines =
      [" one".toList, " input b // no".toList, " two".toList] := by
  have h : StartsLine "//> one\nmodule\n".toList "m(input a,\n b);\n//> two".toList :=
    .inr ⟨[.lineComment "//> one".toList, .newline, .code "module".toList],
      [.code "m(input a,".toList, .newline, .code " b);".toList, .newline,
        .lineComment "//> two".toList], by decide +kernel, by decide⟩
  have hn : '\n' ∉ " input b // no".toList := by decide
  have hr : '\r' ∉ " input b // no".toList := by decide
  have ht : ¬ ['*', ')'] <:+: " input b // no".toList := by decide
  obtain ⟨hsame, _, hdoc⟩ := ofSource_insert_docLine h hn hr ht
  exact ⟨h, hn, hr, ht, hsame.trans (by decide +kernel), hdoc.trans (by decide +kernel)⟩

end Signature
end Pinout
