import Pinout.Note.Segment
import Pinout.Proofs.Text.Blank

/-!
# Pinout.Proofs.Note.Marker

What a line of text is marked with, and what a page shows of it. `IsHeading` and `IsItem` are the
tests for a header and a list item. `IsTitle` and `IsBody` relate a text to what stands behind its
mark, trimmed; `title` and `itemBody` compute just that (`isTitle_iff`, `isBody_iff`).
-/

namespace Pinout
namespace Note

/-- What a list item starts with: a sign, or a number and a point. -/
inductive Marker : Text → Prop where
  | sign {c : Char} (h : c ∈ ['*', '+', '-']) : Marker [c]
  | number {digits : Text} (hne : digits ≠ []) (hd : ∀ c ∈ digits, c.isDigit) :
      Marker (digits ++ ['.'])

def IsHeading (t : Text) : Prop := ∃ c rest, Text.isBlank c ∧ t = '#' :: c :: rest

def IsItem (t : Text) : Prop :=
  ∃ marker c rest, Marker marker ∧ Text.isBlank c ∧ t = marker ++ c :: rest

/-- The text `u` stands behind the number signs with which `t` starts. -/
inductive IsTitle : Text → Text → Prop where
  | intro {blanks signs rest u : Text} (hblanks : blanks.allBlank) (hsigns : ∀ c ∈ signs, c = '#')
      (hstart : (signs ++ rest).head?.all (!Text.isBlank ·)) (hrest : rest.head? ≠ some '#')
      (hu : rest.TrimsTo u) : IsTitle (blanks ++ (signs ++ rest)) u

/-- The text `u` stands behind the marker of `t`, or is `t` if that has none. -/
inductive IsBody : Text → Text → Prop where
  | marked {blanks marker rest u : Text} {c : Char} (hblanks : blanks.allBlank)
      (hmarker : Marker marker) (hc : Text.isBlank c) (hu : Text.TrimsTo (c :: rest) u) :
      IsBody (blanks ++ (marker ++ c :: rest)) u
  | unmarked {t u : Text} (h : ∀ blanks rest, blanks.allBlank → t = blanks ++ rest → ¬ IsItem rest)
      (hu : t.TrimsTo u) : IsBody t u

/-! ## Headers -/

theorem isHeader_iff {t : Text} : isHeader t ↔ IsHeading t := by
  constructor
  · intro h
    unfold isHeader at h
    split at h
    · next c rest => exact ⟨c, rest, h, rfl⟩
    · cases h
  · rintro ⟨c, rest, hc, rfl⟩
    exact hc

theorem dropWhile_signs {signs rest : Text} (hsigns : ∀ c ∈ signs, c = '#')
    (hrest : rest.head? ≠ some '#') : (signs ++ rest).dropWhile (· == '#') = rest := by
  rw [List.dropWhile_append_of_pos fun c hc => beq_iff_eq.2 (hsigns c hc)]
  cases rest with
  | nil => rfl
  | cons c rest => exact List.dropWhile_cons_of_neg (by simpa using hrest)

theorem isTitle_iff {t u : Text} : IsTitle t u ↔ title t = u := by
  constructor
  · rintro ⟨hblanks, hsigns, hstart, hrest, hu⟩
    rw [title, Text.trimStart_append hblanks, Text.trimStart_eq_self hstart,
      dropWhile_signs hsigns hrest, Text.trimsTo_iff.1 hu]
  · rintro rfl
    obtain ⟨blanks, hblanks, ht⟩ := Text.exists_trimStart t
    have hstart := Text.head?_trimStart t
    have hrest := List.head?_dropWhile_not (· == '#') t.trimStart
    have hcat := List.takeWhile_append_dropWhile (p := (· == '#')) (l := t.trimStart)
    rw [ht, ← hcat]
    refine .intro hblanks (fun c hc => ?_) (hcat.symm ▸ hstart) ?_ (Text.trimsTo_iff.2 ?_)
    · exact beq_iff_eq.1 (List.all_eq_true.1 List.all_takeWhile c hc)
    · intro he
      rw [he] at hrest
      cases hrest
    · rw [hcat, title, ← ht]

/-! ## List items -/

/-- A marker starts with no blank. -/
theorem Marker.start {marker : Text} (h : Marker marker) (rest : Text) :
    (marker ++ rest).head?.all (!Text.isBlank ·) := by
  cases h with
  | @sign c h =>
    simp only [List.mem_cons, List.not_mem_nil, or_false] at h
    rcases h with rfl | rfl | rfl <;> rfl
  | number hne hd =>
    obtain ⟨d, ds, rfl⟩ := List.exists_cons_of_ne_nil hne
    show (!Text.isBlank d) = true
    by_contra hb
    have hn := Text.isAlphanum_of_isBlank (by simpa using hb)
    rw [Char.isAlphanum, hd d List.mem_cons_self, Bool.or_true] at hn
    cases hn

theorem afterItemMarker?_append {marker : Text} (hm : Marker marker) {c : Char}
    (hc : Text.isBlank c) (rest : Text) : afterItemMarker? (marker ++ c :: rest) = some (c :: rest) := by
  cases hm with
  | sign h =>
    simp only [List.mem_cons, List.not_mem_nil, or_false] at h
    rcases h with rfl | rfl | rfl <;> simp [afterItemMarker?, hc]
  | @number digits hne hd =>
    obtain ⟨d, ds, rfl⟩ := List.exists_cons_of_ne_nil hne
    have ht : (d :: ds ++ ['.'] ++ c :: rest).takeWhile Char.isDigit = d :: ds := by
      rw [List.append_assoc, List.takeWhile_append_of_pos hd]
      simp
    have hr : (d :: ds ++ ['.'] ++ c :: rest).dropWhile Char.isDigit = '.' :: c :: rest := by
      rw [List.append_assoc, List.dropWhile_append_of_pos hd]
      simp
    have hdigit := hd d List.mem_cons_self
    simp only [List.cons_append] at ht hr ⊢
    unfold afterItemMarker?
    split
    · next h => cases h; cases hdigit
    · next h => cases h; cases hdigit
    · next h => cases h; cases hdigit
    · rw [ht, hr]
      simp [hc]

/-- What stands behind a marker starts with a blank. -/
theorem marker_of_afterItemMarker? {t r : Text} (h : afterItemMarker? t = some r) :
    ∃ marker c rest, Marker marker ∧ Text.isBlank c ∧ r = c :: rest ∧ t = marker ++ c :: rest := by
  simp only [afterItemMarker?] at h
  split at h
  · next c rest hr =>
    split at h
    · next hc =>
      cases h
      split at hr
      · cases hr
        exact ⟨['*'], c, rest, .sign (by decide), hc, rfl, rfl⟩
      · cases hr
        exact ⟨['+'], c, rest, .sign (by decide), hc, rfl, rfl⟩
      · cases hr
        exact ⟨['-'], c, rest, .sign (by decide), hc, rfl, rfl⟩
      · split at hr
        · next d ds u ht hd =>
          cases hr
          refine ⟨d :: ds ++ ['.'], c, rest, .number (by simp) fun e he => ?_, hc, rfl, ?_⟩
          · rw [← ht] at he
            exact List.all_eq_true.1 List.all_takeWhile e he
          · have := List.takeWhile_append_dropWhile (p := Char.isDigit) (l := t)
            rw [ht, hd] at this
            rw [← this]
            simp
        · cases hr
    · cases h
  · cases h

theorem isSome_afterItemMarker?_iff {t : Text} : (afterItemMarker? t).isSome ↔ IsItem t := by
  constructor
  · intro h
    obtain ⟨r, hr⟩ := Option.isSome_iff_exists.1 h
    obtain ⟨marker, c, rest, hm, hc, -, ht⟩ := marker_of_afterItemMarker? hr
    exact ⟨marker, c, rest, hm, hc, ht⟩
  · rintro ⟨marker, c, rest, hm, hc, rfl⟩
    rw [afterItemMarker?_append hm hc]
    rfl

theorem isBody_iff {t u : Text} : IsBody t u ↔ itemBody t = u := by
  obtain ⟨left, hleft, ht⟩ := Text.exists_trimStart t
  have htrim : t.trim = t.trimStart.trim :=
    (congrArg Text.trim ht).trans (Text.trim_append hleft _)
  constructor
  · intro h
    cases h with
    | marked hblanks hmarker hc hu =>
      rw [itemBody, Text.trimStart_append hblanks, Text.trimStart_eq_self (hmarker.start _),
        afterItemMarker?_append hmarker hc]
      exact Text.trimsTo_iff.1 hu
    | unmarked h hu =>
      have hnone : afterItemMarker? t.trimStart = none := by
        rw [← Option.not_isSome_iff_eq_none, isSome_afterItemMarker?_iff]
        exact h left t.trimStart hleft ht
      rw [itemBody, hnone, Option.getD_none, ← htrim]
      exact Text.trimsTo_iff.1 hu
  · rintro rfl
    cases h : afterItemMarker? t.trimStart with
    | some r =>
      obtain ⟨marker, c, rest, hm, hc, rfl, hs⟩ := marker_of_afterItemMarker? h
      have hbody : itemBody t = Text.trim (c :: rest) := by rw [itemBody, h, Option.getD_some]
      rw [hbody, ht, hs]
      exact .marked hleft hm hc (Text.trimsTo_iff.2 rfl)
    | none =>
      have hbody : itemBody t = t.trim := by rw [itemBody, h, Option.getD_none, ← htrim]
      refine .unmarked (fun blanks rest hblanks he hi => ?_) (Text.trimsTo_iff.2 hbody.symm)
      obtain ⟨marker, c, r, hm, hc, rfl⟩ := hi
      rw [he, Text.trimStart_append hblanks, Text.trimStart_eq_self (hm.start _),
        afterItemMarker?_append hm hc] at h
      cases h

end Note
end Pinout
