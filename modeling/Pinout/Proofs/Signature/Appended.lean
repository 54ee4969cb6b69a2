import Mathlib.Data.List.Forall2
import Pinout.Proofs.Signature.Described
import Pinout.Proofs.Signature.Printed
import Pinout.Proofs.Source.Seam

/-!
# Pinout.Proofs.Signature.Appended

The first module of a source wins. What ends in a line is read as before, whatever lines follow it,
so the views are put together (`Source.views_append`); the header found in the first of them is the
header of both (`header?_append_newline`), and the lines that describe its parameters and ports are
found first (`description?_seam`).
-/

namespace Pinout
namespace Signature

open Source (StartsLine Views views)

theorem exists_header_of_name {v : Views} (hn : (ofViews v).name ≠ []) :
    ∃ h, header? v.stripped = some h := by
  cases hh : header? v.stripped with
  | none =>
    rw [ofViews_of_none hh] at hn
    exact absurd rfl hn
  | some h => exact ⟨h, rfl⟩

/-- A source with a module ends its last line in both views. -/
theorem exists_views_of_name {s : Text} (hs : StartsLine s []) (hn : (ofSource s).name ≠ []) :
    ∃ v, views s = v ++ Views.shown ['\n'] := by
  rcases Source.exists_views_newline hs with rfl | ⟨ps, hps⟩
  · obtain ⟨h, hh⟩ := exists_header_of_name hn
    rw [Source.views_nil, Views.empty, header?] at hh
    cases hh
  · exact ⟨_, hps⟩

section

variable {v w : Views} {h : Header}
  (hh : header? (v ++ Views.shown ['\n']).stripped = some h)
include hh

theorem header?_appended : header? (v ++ Views.shown ['\n'] ++ w).stripped = some h := by
  rw [stripped_seam]
  exact header?_append_newline hh w.stripped

theorem undescribed_appended :
    (ofViews (v ++ Views.shown ['\n'] ++ w)).undescribed =
      (ofViews (v ++ Views.shown ['\n'])).undescribed := by
  rw [ofViews_of_header hh, ofViews_of_header (header?_appended hh), undescribed, undescribed]
  simp only [List.map_map]
  rfl

end

theorem description?_appended {v : Views} {keywords : List Text} {name : Text}
    (h : Described (v ++ Views.shown ['\n']).described keywords name) (w : Views) :
    description? (v ++ Views.shown ['\n'] ++ w).described keywords name =
      description? (v ++ Views.shown ['\n']).described keywords name := by
  obtain ⟨description, hd⟩ := Option.isSome_iff_exists.1 (isSome_description?_iff.2 h)
  rw [description?_seam, hd, Option.some_or]

/-- Lines behind the last line of a source add to its views and leave its module as it is: what is
declared, and each description that the source has. -/
theorem ofSource_appended {s t : Text} (hs : s = [] ∨ (Source.pieces s).getLast? = some .newline)
    (ht : ¬ ['*', ')'] <:+: t) :
    views (s ++ t) = views s ++ views t ∧
    ((ofSource s).name ≠ [] →
      (ofSource (s ++ t)).undescribed = (ofSource s).undescribed ∧
      List.Forall₂ (fun p q => Described (views s).described parameterKeywords p.name →
          q.description = p.description)
        (ofSource s).parameters (ofSource (s ++ t)).parameters ∧
      List.Forall₂ (fun p q => Described (views s).described [p.direction.keyword] p.name →
          q.description = p.description)
        (ofSource s).ports (ofSource (s ++ t)).ports) := by
  have hline : StartsLine s [] := hs.elim .inl Source.startsLine_of_getLast?
  have hviews := Source.views_append hline fun hi =>
    absurd (Text.pair_infix_of_unifyNewlines (by decide) hi) ht
  refine ⟨hviews, fun hn => ?_⟩
  obtain ⟨v, hv⟩ := exists_views_of_name hline hn
  obtain ⟨h, hh⟩ := exists_header_of_name hn
  rw [ofSource, ofSource, hviews]
  rw [hv] at hh ⊢
  refine ⟨undescribed_appended hh, ?_, ?_⟩
  · rw [ofViews_of_header hh, ofViews_of_header (header?_appended hh), List.forall₂_map_left_iff,
      List.forall₂_map_right_iff, List.forall₂_same]
    intro p _ hd
    exact congrArg (·.getD p.description) (description?_appended hd (views t))
  · rw [ofViews_of_header hh, ofViews_of_header (header?_appended hh), List.forall₂_map_left_iff,
      List.forall₂_map_right_iff, List.forall₂_same]
    intro p _ hd
    exact congrArg (·.getD p.description) (description?_appended hd (views t))

/-- A port that the source describes, and one that only the text behind it does. -/
theorem ofSource_appended_module :
    (Source.pieces "module m(input a, // in\n b);\n".toList).getLast? = some .newline ∧
    ¬ ['*', ')'] <:+: "input b // late".toList ∧
    (ofSource "module m(input a, // in\n b);\n".toList).name ≠ [] ∧
    Described (views "module m(input a, // in\n b);\n".toList).described ["input".toList]
      "a".toList ∧
    views ("module m(input a, // in\n b);\n".toList ++ "input b // late".toList) =
      views "module m(input a, // in\n b);\n".toList ++ views "input b // late".toList ∧
    (ofSource ("module m(input a, // in\n b);\n".toList ++ "input b // late".toList)).undescribed =
      ⟨"m".toList, [], [⟨"a".toList, .input, "(wire)".toList, none, []⟩,
        ⟨"b".toList, .input, "(wire)".toList, none, []⟩]⟩ ∧
    (ofSource ("module m(input a, // in\n b);\n".toList
      ++ "input b // late".toList)).ports.head?.map (·.description) = some "in".toList := by
  have hs : (Source.pieces "module m(input a, // in\n b);\n".toList).getLast? = some .newline := by
    decide +kernel
  have ht : ¬ ['*', ')'] <:+: "input b // late".toList := by decide
  have hn : (ofSource "module m(input a, // in\n b);\n".toList).name ≠ [] := by decide +kernel
  have hd : Described (views "module m(input a, // in\n b);\n".toList).described ["input".toList]
      "a".toList := ⟨"module m(input a, // in".toList, by decide +kernel, by decide +kernel⟩
  obtain ⟨hviews, hkept⟩ := ofSource_appended (.inr hs) ht
  obtain ⟨hsame, _, hports⟩ := hkept hn
  have hpq : (ofSource "module m(input a, // in\n b);\n".toList).ports =
      [⟨"a".toList, .input, "(wire)".toList, none, "in".toList⟩,
        ⟨"b".toList, .input, "(wire)".toList, none, []⟩] := by decide +kernel
  refine ⟨hs, ht, hn, hd, hviews, hsame.trans (by decide +kernel), ?_⟩
  rw [hpq] at hports
  obtain ⟨q, qs, hq, _, he⟩ := List.forall₂_cons_left_iff.1 hports
  rw [he]
  exact congrArg some (hq hd)

end Signature
end Pinout
