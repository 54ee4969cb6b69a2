import Pinout.Proofs.Signature.Scan
import Pinout.Proofs.Text.Line
import Pinout.Signature.Extract

/-!
# Pinout.Proofs.Signature.Described

A signature is what the first header declares, each parameter and port with the comment of the
first line that describes it (`ofViews_of_header`). Lines are searched one after the other, so the
description in a text comes before those in any text behind it (`description?_seam`).
-/

namespace Pinout
namespace Signature

namespace Header

/-- The parameters that a header declares, without descriptions. -/
def parameters (h : Header) : List Parameter :=
  ((splitParameterList h.body).1.map parametersOf).getD []

/-- The ports that a header declares, without descriptions. -/
def ports (h : Header) : List Port :=
  ((portList? (splitParameterList h.body).2).map portsOf).getD []

end Header

theorem ofViews_of_header {v : Source.Views} {h : Header} (hh : header? v.stripped = some h) :
    ofViews v = ⟨h.name, h.parameters.map (describeParameter v.described),
      h.ports.map (describePort v.described)⟩ := by
  rw [ofViews, hh]
  rfl

theorem ofViews_of_none {v : Source.Views} (hh : header? v.stripped = none) :
    ofViews v = absent := by
  rw [ofViews, hh]

/-- A line with a comment is its code, two slashes, and the comment. -/
theorem append_of_splitComment? {line code comment : Text}
    (h : splitComment? line = some (code, comment)) :
    line = code ++ '/' :: '/' :: comment := by
  rw [splitComment?, splitUnquoted?_eq (fun _ => rfl), if_neg Bool.false_ne_true] at h
  obtain ⟨⟨before, rest⟩, hc, he⟩ := Option.map_eq_some_iff.1 h
  cases he
  obtain ⟨r, hr⟩ := Option.isSome_iff_exists.1 (stops_of_cutUnquoted? hc)
  rw [append_of_cutUnquoted? hc, Text.append_of_dropLead? hr]
  rfl

theorem description?_append (a b : Text) (keywords : List Text) (name : Text) :
    description? (a ++ '\n' :: b) keywords name =
      (description? (a ++ ['\n']) keywords name).or (description? b keywords name) := by
  rw [description?, Text.lines_append, List.findSome?_append]
  rfl

open Source.Views in
theorem stripped_seam (v w : Source.Views) :
    (v ++ shown ['\n'] ++ w).stripped = v.stripped ++ '\n' :: w.stripped := by
  simp [append_def, shown]

open Source.Views in
/-- Views that end a line describe before the views behind them do. -/
theorem description?_seam (v w : Source.Views) (keywords : List Text) (name : Text) :
    description? (v ++ shown ['\n'] ++ w).described keywords name =
      (description? (v ++ shown ['\n']).described keywords name).or
        (description? w.described keywords name) := by
  have := description?_append v.described w.described keywords name
  rwa [List.append_cons] at this

/-- On some line of the text stand one of the keywords, behind it the name, and a comment. -/
def Described (text : Text) (keywords : List Text) (name : Text) : Prop :=
  ∃ line ∈ Text.lines text, (describedBy? keywords name line).isSome

theorem isSome_description?_iff {text : Text} {keywords : List Text} {name : Text} :
    (description? text keywords name).isSome ↔ Described text keywords name := by
  rw [description?, List.isSome_findSome?, List.any_eq_true]
  rfl

end Signature
end Pinout
