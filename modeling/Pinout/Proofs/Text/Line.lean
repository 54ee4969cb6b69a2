import Pinout.Text.Basic

/-!
# Pinout.Proofs.Text.Line

The lines of a text on either side of a newline are lines of their own (`lines_append_newline`).
-/

namespace Pinout
namespace Text

theorem splitNewlines_ne_nil (t : Text) : splitNewlines t ≠ [] := by
  cases t with
  | nil => exact List.cons_ne_nil _ _
  | cons c t =>
    rw [splitNewlines]
    split
    · exact List.cons_ne_nil _ _
    · split <;> exact List.cons_ne_nil _ _

theorem splitNewlines_append_newline (t u : Text) :
    splitNewlines (t ++ '\n' :: u) = splitNewlines t ++ splitNewlines u := by
  induction t with
  | nil => exact if_pos rfl
  | cons c t ih =>
    rw [List.cons_append, splitNewlines, splitNewlines, ih]
    split
    · rfl
    · cases h : splitNewlines t with
      | nil => exact absurd h (splitNewlines_ne_nil t)
      | cons piece pieces => rfl

theorem splitNewlines_of_not_mem {t : Text} (h : '\n' ∉ t) : splitNewlines t = [t] := by
  induction t with
  | nil => rfl
  | cons c t ih =>
    simp only [List.mem_cons, not_or] at h
    rw [splitNewlines, if_neg (Ne.symm h.1), ih h.2]

/-- A piece with another behind it is a line. -/
theorem endLines_append (ps : List Text) {qs : List Text} (h : qs ≠ []) :
    endLines (ps ++ qs) = ps.map dropReturn ++ endLines qs := by
  induction ps with
  | nil => rfl
  | cons p ps ih =>
    cases hq : ps ++ qs with
    | nil => exact absurd (List.append_eq_nil_iff.1 hq).2 h
    | cons q more =>
      rw [hq] at ih
      rw [List.cons_append, hq, endLines, ih]
      rfl

theorem lines_append_newline (t u : Text) :
    lines (t ++ '\n' :: u) = (splitNewlines t).map dropReturn ++ lines u := by
  rw [lines, splitNewlines_append_newline, endLines_append _ (splitNewlines_ne_nil u), lines]

theorem lines_append (t u : Text) : lines (t ++ '\n' :: u) = lines (t ++ ['\n']) ++ lines u := by
  rw [lines_append_newline, lines_append_newline t [], List.append_assoc]
  rfl

theorem dropReturn_eq_self {t : Text} (h : '\r' ∉ t) : dropReturn t = t := by
  induction t with
  | nil => rfl
  | cons c t ih =>
    simp only [List.mem_cons, not_or] at h
    cases t with
    | nil => exact if_neg (Ne.symm h.1)
    | cons d t => rw [dropReturn, ih h.2]

theorem lines_cons_line {t : Text} (hn : '\n' ∉ t) (hr : '\r' ∉ t) (u : Text) :
    lines (t ++ '\n' :: u) = t :: lines u := by
  rw [lines_append_newline, splitNewlines_of_not_mem hn, List.map_singleton, dropReturn_eq_self hr]
  rfl

theorem of_mem_splitNewlines {t piece : Text} (h : piece ∈ splitNewlines t) :
    '\n' ∉ piece ∧ piece ⊆ t := by
  induction t generalizing piece with
  | nil =>
    rw [List.mem_singleton.1 h]
    exact ⟨List.not_mem_nil, List.Subset.refl _⟩
  | cons c t ih =>
    have hlater (hp : '\n' ∉ piece ∧ piece ⊆ t) : '\n' ∉ piece ∧ piece ⊆ c :: t :=
      ⟨hp.1, List.subset_cons_of_subset c hp.2⟩
    rw [splitNewlines] at h
    split at h
    · rcases List.mem_cons.1 h with rfl | h
      · exact ⟨List.not_mem_nil, List.nil_subset _⟩
      · exact hlater (ih h)
    · next hc =>
      split at h
      · next hs => exact absurd hs (splitNewlines_ne_nil t)
      · next first more hs =>
        rw [hs] at ih
        rcases List.mem_cons.1 h with rfl | h
        · obtain ⟨hn, hsub⟩ := ih List.mem_cons_self
          exact ⟨by simp [Ne.symm hc, hn], List.cons_subset_cons c hsub⟩
        · exact hlater (ih (List.mem_cons_of_mem _ h))

theorem dropReturn_subset (t : Text) : dropReturn t ⊆ t := by
  induction t with
  | nil => exact List.Subset.refl _
  | cons c t ih =>
    cases t with
    | nil =>
      rw [dropReturn]
      split
      · exact List.nil_subset _
      · exact List.Subset.refl _
    | cons d t => exact List.cons_subset_cons c ih

theorem mem_endLines {ps : List Text} {line : Text} (h : line ∈ endLines ps) :
    ∃ p ∈ ps, line ⊆ p := by
  induction ps with
  | nil => cases h
  | cons p ps ih =>
    cases ps with
    | nil =>
      rw [endLines] at h
      split at h
      · cases h
      · rw [List.mem_singleton.1 h]
        exact ⟨p, List.mem_cons_self, List.Subset.refl _⟩
    | cons q qs =>
      rcases List.mem_cons.1 h with rfl | h
      · exact ⟨p, List.mem_cons_self, dropReturn_subset p⟩
      · obtain ⟨r, hr, hl⟩ := ih h
        exact ⟨r, List.mem_cons_of_mem _ hr, hl⟩

/-- A line is on one line. -/
theorem not_mem_of_mem_lines {t line : Text} (h : line ∈ lines t) : '\n' ∉ line := by
  obtain ⟨p, hp, hl⟩ := mem_endLines h
  exact fun hn => (of_mem_splitNewlines hp).1 (hl hn)

theorem subset_of_mem_lines {t line : Text} (h : line ∈ lines t) : line ⊆ t := by
  obtain ⟨p, hp, hl⟩ := mem_endLines h
  exact List.Subset.trans hl (of_mem_splitNewlines hp).2

end Text
end Pinout
