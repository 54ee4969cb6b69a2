import Pinout.Proofs.Text.Blank
import Pinout.Text.Word

/-!
# Pinout.Proofs.Text.Word

Identifiers found where they stand: `splitIdentifier_append` reads one at the head of a text, and
`afterWord?_append` finds one behind blanks. A word does not reach over a character that belongs to
none, so the first word of two texts put together there is the first one of either
(`afterWord?_append_cons`).
-/

namespace Pinout
namespace Text

theorem isWordChar_of_isBlank {c : Char} (h : isBlank c) : isWordChar c = false := by
  have h₁ : c ≠ '_' := by rintro rfl; cases h
  have h₂ : c ≠ '$' := by rintro rfl; cases h
  simp [isWordChar, isAlphanum_of_isBlank h, h₁, h₂]

theorem isWordChar_of_isWordStart {c : Char} (h : isWordStart c) : isWordChar c := by
  rw [isWordStart, Bool.or_eq_true] at h
  rcases h with h | h <;> simp [isWordChar, Char.isAlphanum, h]

theorem not_blank_of_isWordChar {c : Char} (h : isWordChar c) : isBlank c = false := by
  cases hb : isBlank c with
  | false => rfl
  | true =>
    rw [isWordChar_of_isBlank hb] at h
    cases h

theorem exists_cons_of_isIdentifier {t : Text} (h : isIdentifier t) :
    ∃ c r, t = c :: r ∧ isWordStart c ∧ ∀ d ∈ t, isWordChar d := by
  cases t with
  | nil => cases h
  | cons c r =>
    rw [isIdentifier, Bool.and_eq_true, List.all_eq_true] at h
    refine ⟨c, r, rfl, h.1, fun d hd => ?_⟩
    rcases List.mem_cons.1 hd with rfl | hd
    · exact isWordChar_of_isWordStart h.1
    · exact h.2 d hd

theorem ne_nil_of_isIdentifier {t : Text} (h : isIdentifier t) : t ≠ [] := by
  rintro rfl
  cases h

theorem head?_identifier {t : Text} (h : isIdentifier t) (u : Text) :
    (t ++ u).head?.all (!isBlank ·) := by
  obtain ⟨c, r, rfl, hc, _⟩ := exists_cons_of_isIdentifier h
  simp [not_blank_of_isWordChar (isWordChar_of_isWordStart hc)]

theorem getLast?_identifier {t : Text} (h : isIdentifier t) (u : Text) :
    (u ++ t).getLast?.all (!isBlank ·) := by
  obtain ⟨_, _, _, _, hall⟩ := exists_cons_of_isIdentifier h
  have hne := ne_nil_of_isIdentifier h
  rw [List.getLast?_append, List.getLast?_eq_some_getLast hne]
  simpa using not_blank_of_isWordChar (hall _ (List.getLast_mem hne))

theorem endsWord_append {t : Text} (h : endsWord t) (hne : t ≠ []) (u : Text) :
    endsWord (t ++ u) := by
  cases t with
  | nil => exact absurd rfl hne
  | cons c t => exact h

theorem endsWord_left {t u : Text} (h : endsWord (t ++ u)) : endsWord t := by
  cases t with
  | nil => rfl
  | cons c t => exact h

theorem eq_nil_of_endsWord {t : Text} (ht : ∀ c ∈ t, isWordChar c) (h : endsWord t) : t = [] := by
  cases t with
  | nil => rfl
  | cons c t =>
    rw [endsWord, ht c List.mem_cons_self] at h
    cases h

theorem endsWord_of_allBlank {w : Text} (h : w.allBlank) : endsWord w := by
  cases w with
  | nil => rfl
  | cons c w =>
    rw [allBlank, List.all_cons, Bool.and_eq_true] at h
    rw [endsWord, isWordChar_of_isBlank h.1]
    rfl

theorem endsWord_append_cons {w : Text} (hw : w.allBlank) {c : Char} (hc : isWordChar c = false)
    (t : Text) : endsWord (w ++ c :: t) := by
  cases w with
  | nil => simp [endsWord, hc]
  | cons b w => exact endsWord_append (endsWord_of_allBlank hw) (List.cons_ne_nil b w) _

theorem takeWhile_isWordChar {w r : Text} (hw : ∀ c ∈ w, isWordChar c) (hr : endsWord r) :
    (w ++ r).takeWhile isWordChar = w ∧ (w ++ r).dropWhile isWordChar = r := by
  rw [List.takeWhile_append_of_pos hw, List.dropWhile_append_of_pos hw]
  cases r with
  | nil => simp
  | cons c r =>
    have hc : isWordChar c = false := by simpa [endsWord] using hr
    simp [hc]

theorem splitIdentifier_append {name r : Text} (h : isIdentifier name) (hr : endsWord r) :
    splitIdentifier (name ++ r) = (name, r) := by
  obtain ⟨c, t, rfl, hc, hall⟩ := exists_cons_of_isIdentifier h
  obtain ⟨ht, hd⟩ := takeWhile_isWordChar (fun d hd => hall d (List.mem_cons_of_mem _ hd)) hr
  rw [List.cons_append, splitIdentifier, if_pos hc, ht, hd]

theorem splitIdentifier_spec {t name r : Text} (h : splitIdentifier t = (name, r)) :
    t = name ++ r ∧ (name ≠ [] → endsWord r) := by
  cases t with
  | nil =>
    cases h
    exact ⟨rfl, fun _ => rfl⟩
  | cons c t =>
    rw [splitIdentifier] at h
    split at h
    · cases h
      refine ⟨by simp, fun _ => ?_⟩
      have hd := List.head?_dropWhile_not isWordChar t
      cases hr : t.dropWhile isWordChar with
      | nil => rfl
      | cons d r =>
        rw [hr] at hd
        simpa [endsWord] using hd
    · cases h
      exact ⟨rfl, fun hn => absurd rfl hn⟩

theorem findWordFrom?_append {word w r : Text} (h : isIdentifier word) (hw : w.allBlank)
    (hr : endsWord r) : findWordFrom? word true (w ++ word ++ r) = some w.length := by
  obtain ⟨c, t, hword, hc, _⟩ := exists_cons_of_isIdentifier h
  induction w with
  | nil =>
    have hd := dropLead?_append word r
    rw [List.nil_append]
    generalize hu : word ++ r = u at hd ⊢
    rw [findWordFrom?.eq_def]
    split
    · rw [hword] at hu
      cases hu
    · split
      · next ha =>
        rw [hd] at ha
        cases ha
        rw [hr]
        rfl
      · next ha =>
        rw [hd] at ha
        cases ha
  | cons b w ih =>
    rw [allBlank, List.all_cons, Bool.and_eq_true] at hw
    have hb := isWordChar_of_isBlank hw.1
    have hn : dropLead? word (b :: w ++ word ++ r) = none := by
      rw [hword]
      refine if_neg ?_
      rintro rfl
      rw [isWordChar_of_isWordStart hc] at hb
      cases hb
    rw [List.cons_append, List.cons_append] at hn ⊢
    rw [findWordFrom?]
    split
    · next ha =>
      rw [hn] at ha
      cases ha
    · rw [hb, Bool.not_false, ih hw.2, Option.map_some, List.length_cons, Nat.add_comm]

/-- A word behind blanks is the first one. -/
theorem afterWord?_append {word w r : Text} (h : isIdentifier word) (hw : w.allBlank)
    (hr : endsWord r) : afterWord? word (w ++ word ++ r) = some r := by
  rw [afterWord?, findWord?, if_neg (ne_nil_of_isIdentifier h), findWordFrom?_append h hw hr, Option.map_some,
    ← List.length_append, List.drop_left]

/-! ## The first word on either side of another character -/

section

variable {word : Text}

theorem findWordFrom?_found {c : Char} {t after : Text} (hne : word ≠ [])
    (h : dropLead? word (c :: t) = some after) (atEdge : Bool) :
    findWordFrom? word atEdge (c :: t) =
      if atEdge && endsWord after then some 0
      else (findWordFrom? word (endsWord word.reverse) after).map (word.length + ·) := by
  rw [findWordFrom?]
  split
  · next h' =>
    obtain rfl := Option.some.inj (h.symm.trans h')
    rw [dif_neg hne]
  · next h' =>
    rw [h] at h'
    cases h'

theorem findWordFrom?_passed {c : Char} {t : Text} (h : dropLead? word (c :: t) = none)
    (atEdge : Bool) : findWordFrom? word atEdge (c :: t) =
      (findWordFrom? word (!isWordChar c) t).map (1 + ·) := by
  rw [findWordFrom?]
  split
  · next h' =>
    rw [h] at h'
    cases h'
  · rfl

theorem findWordFrom?_nil (atEdge : Bool) : findWordFrom? word atEdge [] = none := by
  rw [findWordFrom?]

/-- The search for a word goes on behind an occurrence, or with the next character. -/
theorem search_induction (hne : word ≠ []) {P : Text → Prop} (nil : P [])
    (found : ∀ c t after, dropLead? word (c :: t) = some after → P after → P (c :: t))
    (passed : ∀ c t, dropLead? word (c :: t) = none → P t → P (c :: t)) (t : Text) : P t := by
  induction hl : t.length using Nat.strongRecOn generalizing t with
  | ind n ih =>
    cases t with
    | nil => exact nil
    | cons c t =>
      rw [List.length_cons] at hl
      cases hd : dropLead? word (c :: t) with
      | none => exact passed c t hd (ih t.length (by omega) t rfl)
      | some after =>
        have hlen := congrArg List.length (append_of_dropLead? hd)
        have hpos := List.length_pos_iff.2 hne
        rw [List.length_append, List.length_cons] at hlen
        exact found c t after hd (ih after.length (by omega) after rfl)

theorem length_of_findWordFrom? (hne : word ≠ []) {atEdge : Bool} {t : Text} {n : Nat}
    (h : findWordFrom? word atEdge t = some n) : n + word.length ≤ t.length := by
  induction t using search_induction hne generalizing n atEdge with
  | nil =>
    rw [findWordFrom?_nil] at h
    cases h
  | found c t after hd ih =>
    rw [findWordFrom?_found hne hd] at h
    have hl := congrArg List.length (append_of_dropLead? hd)
    rw [List.length_append] at hl
    split at h
    · cases h
      omega
    · obtain ⟨m, hm, rfl⟩ := Option.map_eq_some_iff.1 h
      have := ih hm
      omega
  | passed c t hd ih =>
    rw [findWordFrom?_passed hd] at h
    obtain ⟨m, hm, rfl⟩ := Option.map_eq_some_iff.1 h
    have := ih hm
    rw [List.length_cons]
    omega

/-- No word reaches over a character that belongs to none. -/
theorem findWordFrom?_append_cons (hw : isIdentifier word) {c : Char} (hc : isWordChar c = false)
    (atEdge : Bool) (x y : Text) : findWordFrom? word atEdge (x ++ c :: y) =
      (findWordFrom? word atEdge x).or
        ((findWordFrom? word true y).map (x.length + 1 + ·)) := by
  have hne := ne_nil_of_isIdentifier hw
  have hmem : c ∉ word := by
    obtain ⟨_, _, _, _, hall⟩ := exists_cons_of_isIdentifier hw
    intro hm
    rw [hall c hm] at hc
    cases hc
  have hnone {x : Text} (h : dropLead? word x = none) : dropLead? word (x ++ c :: y) = none := by
    rw [dropLead?_eq_none_iff] at h ⊢
    exact fun hp => h (prefix_of_prefix_append_cons hmem hp)
  induction x using search_induction hne generalizing atEdge with
  | nil =>
    have hd : dropLead? word (c :: y) = none :=
      hnone (x := []) (dropLead?_eq_none_iff.2 fun hp => hne (List.prefix_nil.1 hp))
    rw [List.nil_append, findWordFrom?_passed hd, findWordFrom?_nil, hc]
    rfl
  | found d t after hd ih =>
    have hd' : dropLead? word (d :: (t ++ c :: y)) = some (after ++ c :: y) := by
      rw [← List.cons_append, append_of_dropLead? hd, List.append_assoc, dropLead?_append]
    have hend : endsWord (after ++ c :: y) = endsWord after := by
      cases after with
      | nil => simp [endsWord, hc]
      | cons e after => rfl
    rw [List.cons_append, findWordFrom?_found hne hd', findWordFrom?_found hne hd, hend, ih]
    have hl := congrArg List.length (append_of_dropLead? hd)
    rw [List.length_append] at hl
    split
    · rfl
    · rw [Option.map_or, Option.map_map, hl]
      congr 2
      funext n
      exact (by omega : word.length + (after.length + 1 + n) = word.length + after.length + 1 + n)
  | passed d t hd ih =>
    rw [List.cons_append, findWordFrom?_passed (by rw [← List.cons_append]; exact hnone hd),
      findWordFrom?_passed hd, ih, Option.map_or, Option.map_map, List.length_cons]
    congr 2
    funext n
    exact (by omega : 1 + (t.length + 1 + n) = t.length + 1 + 1 + n)

theorem afterWord?_append_cons (hw : isIdentifier word) {c : Char} (hc : isWordChar c = false)
    (x y : Text) : afterWord? word (x ++ c :: y) =
      ((afterWord? word x).map (· ++ c :: y)).or (afterWord? word y) := by
  have hne := ne_nil_of_isIdentifier hw
  rw [afterWord?, afterWord?, afterWord?, findWord?, findWord?, findWord?,
    if_neg hne, if_neg hne, if_neg hne, findWordFrom?_append_cons hw hc]
  cases hx : findWordFrom? word true x with
  | some n =>
    have := length_of_findWordFrom? hne hx
    simp [List.drop_append_of_le_length this]
  | none =>
    cases hy : findWordFrom? word true y with
    | none => rfl
    | some n =>
      have hcut : x.length + 1 + n + word.length = (x ++ [c]).length + (n + word.length) := by
        rw [List.length_append, List.length_singleton]
        omega
      rw [Option.map_some, Option.map_some, Option.map_none, Option.none_or, Option.map_some, hcut,
        List.append_cons x c y, ← List.drop_drop, List.drop_left]
      rfl

theorem findWord?_nil : findWord? word [] = none := by
  rw [findWord?, findWordFrom?_nil, ite_self]

theorem afterWord?_nil : afterWord? word [] = none := by
  rw [afterWord?, findWord?_nil]
  rfl

theorem afterWord?_cons (hw : isIdentifier word) {c : Char} (hc : isWordChar c = false) (t : Text) :
    afterWord? word (c :: t) = afterWord? word t := by
  have := afterWord?_append_cons hw hc [] t
  rwa [afterWord?_nil] at this

theorem afterWord?_of_allBlank (hw : isIdentifier word) {t : Text} (h : t.allBlank) :
    afterWord? word t = none := by
  induction t with
  | nil => exact afterWord?_nil
  | cons c t ih =>
    rw [allBlank, List.all_cons, Bool.and_eq_true] at h
    rw [afterWord?_cons hw (isWordChar_of_isBlank h.1), ih h.2]

end

/-- An identifier that another character ends is the same whatever follows. -/
theorem splitIdentifier_append_cons {c : Char} (hc : isWordChar c = false) {t : Text} (ht : t ≠ [])
    (u : Text) : splitIdentifier (t ++ c :: u) =
      ((splitIdentifier t).1, (splitIdentifier t).2 ++ c :: u) := by
  cases t with
  | nil => exact absurd rfl ht
  | cons d t =>
    obtain ⟨h₁, h₂⟩ := takeWhile_append_cons hc t u
    rw [List.cons_append, splitIdentifier, splitIdentifier, h₁, h₂]
    split <;> rfl

end Text
end Pinout
