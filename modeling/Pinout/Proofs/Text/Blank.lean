import Mathlib.Data.List.TakeWhile
import Pinout.Proofs.Text.Search
import Pinout.Text.Blank

/-!
# Pinout.Proofs.Text.Blank

Blanks around a text. Trimming takes blanks away on both sides (`trim_append`) and keeps a text that
starts and ends with other characters (`trim_eq_self`). `words_append_blank` is the equation that the
words of a text follow from: they split at a blank. So collapsing does not see the blanks around a
text (`collapse_blanks`).
-/

namespace Pinout
namespace Text

theorem isAlphanum_of_isBlank {c : Char} (h : isBlank c) : c.isAlphanum = false := by
  simp only [isBlank, Bool.or_eq_true, Bool.and_eq_true, decide_eq_true_eq, beq_iff_eq] at h
  have hn : c.val.toNat = c.toNat := rfl
  show ((decide (65 ≤ c.val ∧ c.val ≤ 90) || 97 ≤ c.val && c.val ≤ 122) ||
    48 ≤ c.val && c.val ≤ 57) = false
  simp [UInt32.le_iff_toNat_le, hn]
  omega

theorem allBlank_spaces (n : Nat) : (spaces n).allBlank := by
  rw [allBlank, List.all_eq_true]
  intro c hc
  rw [List.eq_of_mem_replicate hc]
  rfl

theorem not_mem_spaces {c : Char} (hc : c ≠ ' ') (n : Nat) : c ∉ spaces n :=
  fun h => hc (List.eq_of_mem_replicate h)

theorem trimStart_append {w : Text} (hw : w.allBlank) (t : Text) :
    trimStart (w ++ t) = trimStart t := by
  rw [allBlank, List.all_eq_true] at hw
  rw [trimStart, List.dropWhile_append_of_pos hw]
  rfl

theorem ne_of_isBlank {c d : Char} (hc : isBlank c) (hd : isBlank d = false) : c ≠ d := by
  rintro rfl
  rw [hc] at hd
  cases hd

theorem trimStart_cons {c : Char} (hc : isBlank c = false) (t : Text) :
    trimStart (c :: t) = c :: t := by
  rw [trimStart, List.dropWhile_cons_of_neg (by simp [hc])]

theorem trimStart_eq_self {t : Text} (h : t.head?.all (!isBlank ·)) : trimStart t = t := by
  cases t with
  | nil => rfl
  | cons c t => exact trimStart_cons (by simpa using h) t

theorem allBlank_reverse (t : Text) : allBlank t.reverse = t.allBlank :=
  List.all_reverse

theorem trimEnd_append {w : Text} (hw : w.allBlank) (t : Text) : trimEnd (t ++ w) = trimEnd t := by
  rw [← allBlank_reverse, allBlank, List.all_eq_true] at hw
  rw [trimEnd, List.reverse_append, List.dropWhile_append_of_pos hw]
  rfl

theorem trimEnd_concat {c : Char} (hc : isBlank c = false) (t : Text) :
    trimEnd (t ++ [c]) = t ++ [c] := by
  rw [trimEnd, List.reverse_append, List.reverse_singleton, List.singleton_append,
    List.dropWhile_cons_of_neg (by simp [hc]), List.reverse_cons, List.reverse_reverse]

theorem trimEnd_eq_self {t : Text} (h : t.getLast?.all (!isBlank ·)) : trimEnd t = t := by
  cases t using List.reverseRecOn with
  | nil => rfl
  | append_singleton t c => exact trimEnd_concat (by simpa using h) t

theorem trim_eq_self {t : Text} (hs : t.head?.all (!isBlank ·)) (he : t.getLast?.all (!isBlank ·)) :
    trim t = t := by
  rw [trim, trimStart_eq_self hs, trimEnd_eq_self he]

/-- Blanks in front stay away, and those behind go last. -/
theorem trim_append {w : Text} (hw : w.allBlank) (t : Text) : trim (w ++ t) = trim t := by
  rw [trim, trimStart_append hw, trim]

theorem trimStart_of_allBlank {t : Text} (h : t.allBlank) : trimStart t = [] := by
  have := trimStart_append h []
  rwa [List.append_nil] at this

/-- Blanks behind a text go as well. -/
theorem trim_append_right {w : Text} (hw : w.allBlank) (t : Text) : trim (t ++ w) = trim t := by
  rw [trim, trimStart, List.dropWhile_append]
  split
  · next h =>
    rw [List.isEmpty_iff] at h
    rw [trim, trimStart, h]
    exact congrArg trimEnd (trimStart_of_allBlank hw)
  · exact trimEnd_append hw _

theorem trim_of_allBlank {t : Text} (h : t.allBlank) : trim t = [] := by
  rw [trim, trimStart_of_allBlank h]
  rfl

theorem allBlank_of_trim {t : Text} (h : trim t = []) : t.allBlank := by
  have hs : (trimStart t).allBlank := by
    have hr : (trimStart t).reverse.dropWhile isBlank = [] := List.reverse_eq_nil_iff.1 h
    rw [← allBlank_reverse, allBlank, List.all_eq_true]
    exact List.dropWhile_eq_nil_iff.1 hr
  rw [allBlank, ← List.takeWhile_append_dropWhile (p := isBlank) (l := t), List.all_append,
    List.all_takeWhile]
  exact hs

theorem mem_of_mem_trim {t : Text} {c : Char} (h : c ∈ trim t) : c ∈ t := by
  rw [trim, trimEnd, List.mem_reverse] at h
  exact (List.dropWhile_sublist _).subset (List.mem_reverse.1 ((List.dropWhile_sublist _).subset h))

theorem head?_of_trimStart {t : Text} (h : trimStart t = t) : t.head?.all (!isBlank ·) := by
  have := List.head?_dropWhile_not isBlank t
  rw [trimStart] at h
  rw [h] at this
  cases ht : t.head? with
  | none => rfl
  | some c =>
    rw [ht] at this
    simpa using this

theorem getLast?_of_trimEnd {t : Text} (h : trimEnd t = t) : t.getLast?.all (!isBlank ·) := by
  have hr : trimStart t.reverse = t.reverse := by
    rw [trimEnd] at h
    exact List.reverse_eq_iff.1 h
  have := head?_of_trimStart hr
  rwa [List.head?_reverse] at this

/-- A trimmed text starts with no blank and ends with none. -/
theorem ends_of_trim {t : Text} (h : trim t = t) :
    t.head?.all (!isBlank ·) ∧ t.getLast?.all (!isBlank ·) := by
  have hs : trimStart t = t := by
    have h₁ : (trim t).length ≤ (trimStart t).length := by
      rw [trim, trimEnd, List.length_reverse]
      exact (List.dropWhile_sublist _).length_le.trans (List.length_reverse).le
    rw [h] at h₁
    exact (List.dropWhile_sublist _).eq_of_length_le h₁
  refine ⟨head?_of_trimStart hs, getLast?_of_trimEnd ?_⟩
  rwa [trim, hs] at h

theorem head?_trimStart (t : Text) : (trimStart t).head?.all (!isBlank ·) := by
  have h := List.head?_dropWhile_not isBlank t
  rw [trimStart]
  cases hd : (t.dropWhile isBlank).head? with
  | none => rfl
  | some c =>
    rw [hd] at h
    simpa using h

theorem prefix_trimEnd (t : Text) : trimEnd t <+: t := by
  have h := List.reverse_prefix.2 (List.dropWhile_suffix isBlank (l := t.reverse))
  rwa [List.reverse_reverse] at h

theorem getLast?_trimEnd (t : Text) : (trimEnd t).getLast?.all (!isBlank ·) := by
  have h := head?_trimStart t.reverse
  rwa [← List.getLast?_reverse] at h

/-- Nothing is left to trim. -/
theorem ends_trim (t : Text) :
    (trim t).head?.all (!isBlank ·) ∧ (trim t).getLast?.all (!isBlank ·) := by
  refine ⟨?_, getLast?_trimEnd (trimStart t)⟩
  have h := head?_trimStart t
  obtain ⟨w, hw⟩ := prefix_trimEnd (trimStart t)
  rw [trim]
  generalize trimEnd (trimStart t) = u at hw ⊢
  cases u with
  | nil => rfl
  | cons c u =>
    rw [← hw] at h
    exact h

@[simp] theorem trim_trim (t : Text) : trim (trim t) = trim t :=
  trim_eq_self (ends_trim t).1 (ends_trim t).2

/-- No blank stands at either end. -/
structure Trimmed (t : Text) : Prop where
  head : t.head?.all (!isBlank ·)
  last : t.getLast?.all (!isBlank ·)

theorem trimmed_trim (t : Text) : Trimmed (trim t) := ⟨(ends_trim t).1, (ends_trim t).2⟩

/-- The text is `u` between blanks. -/
def TrimsTo (t u : Text) : Prop :=
  ∃ left right, left.allBlank ∧ right.allBlank ∧ t = left ++ (u ++ right) ∧ u.Trimmed

theorem exists_trimStart (t : Text) : ∃ left, left.allBlank ∧ t = left ++ trimStart t :=
  ⟨t.takeWhile isBlank, List.all_takeWhile, List.takeWhile_append_dropWhile.symm⟩

theorem exists_trimEnd (t : Text) : ∃ right, right.allBlank ∧ t = trimEnd t ++ right := by
  obtain ⟨w, hw, he⟩ := exists_trimStart t.reverse
  refine ⟨w.reverse, (allBlank_reverse w).trans hw, ?_⟩
  rw [trimEnd, ← List.reverse_append]
  exact List.reverse_eq_iff.1 he

theorem trimsTo_iff {t u : Text} : t.TrimsTo u ↔ t.trim = u := by
  constructor
  · rintro ⟨left, right, hl, hr, rfl, hu⟩
    rw [trim_append hl, trim_append_right hr, trim_eq_self hu.head hu.last]
  · rintro rfl
    obtain ⟨left, hl, hs⟩ := exists_trimStart t
    obtain ⟨right, hr, he⟩ := exists_trimEnd (trimStart t)
    exact ⟨left, right, hl, hr, hs.trans (congrArg (left ++ ·) he), trimmed_trim t⟩

/-- The end of a trimmed text has something to show. -/
theorem trim_ne_nil_of_suffix {t r : Text} (ht : trim t = t) (hr : r <:+ t) (hne : r ≠ []) :
    trim r ≠ [] := by
  intro h
  have hb := allBlank_of_trim h
  obtain ⟨w, rfl⟩ := hr
  have hl := (ends_of_trim ht).2
  rw [List.getLast?_append, List.getLast?_eq_some_getLast hne, Option.some_or, Option.all_some,
    List.all_eq_true.1 hb _ (List.getLast_mem hne)] at hl
  cases hl

/-! ## Words -/

theorem words_of_nil {t : Text} (h : t.dropWhile isBlank = []) : words t = [] := by
  rw [words.eq_def]
  split
  · rfl
  · next hd => rw [h] at hd; cases hd

theorem words_of_cons {t r : Text} {c : Char} (h : t.dropWhile isBlank = c :: r) :
    words t = (c :: r.takeWhile (!isBlank ·)) :: words (r.dropWhile (!isBlank ·)) := by
  rw [words.eq_def]
  split
  · next hd => rw [h] at hd; cases hd
  · next hd =>
    rw [h] at hd
    cases hd
    rfl

@[simp] theorem words_nil : words [] = [] := words_of_nil rfl

/-- The words split at a blank. -/
theorem words_append_blank {c : Char} (hc : isBlank c) (t u : Text) :
    words (t ++ c :: u) = words t ++ words u := by
  fun_induction words t with
  | case1 t h =>
    have hd : (t ++ c :: u).dropWhile isBlank = u.dropWhile isBlank := by
      rw [List.dropWhile_append, h]
      simp [hc]
    cases hu : u.dropWhile isBlank with
    | nil => rw [words_of_nil (hd.trans hu), words_of_nil hu]; rfl
    | cons d r => rw [words_of_cons (hd.trans hu), words_of_cons hu]; rfl
  | case2 t d r h ih =>
    have hd : (t ++ c :: u).dropWhile isBlank = d :: (r ++ c :: u) := by
      rw [List.dropWhile_append, h]
      rfl
    have hn : (!isBlank c) = false := by rw [hc]; rfl
    obtain ⟨ht, hr⟩ := takeWhile_append_cons (p := (!isBlank ·)) hn r u
    rw [words_of_cons hd, ht, hr, ih]
    rfl

theorem words_append {w : Text} (hw : w.allBlank) (t : Text) : words (w ++ t) = words t := by
  induction w with
  | nil => rfl
  | cons c w ih =>
    rw [allBlank, List.all_cons, Bool.and_eq_true] at hw
    have h := words_append_blank hw.1 [] (w ++ t)
    rw [List.nil_append, words_nil, List.nil_append] at h
    rw [List.cons_append, h, ih hw.2]

theorem words_append_right {w : Text} (hw : w.allBlank) (t : Text) : words (t ++ w) = words t := by
  cases w with
  | nil => rw [List.append_nil]
  | cons c w =>
    rw [allBlank, List.all_cons, Bool.and_eq_true] at hw
    have h := words_append hw.2 []
    rw [List.append_nil, words_nil] at h
    rw [words_append_blank hw.1, h, List.append_nil]

/-- Collapsing does not see the blanks around a text. -/
theorem collapse_blanks {w v : Text} (hw : w.allBlank) (hv : v.allBlank) (t : Text) :
    collapse (w ++ t ++ v) = collapse t := by
  rw [collapse, words_append_right hv, words_append hw]
  rfl

theorem mem_joinWith {separator : Text} {ts : List Text} {c : Char}
    (h : c ∈ joinWith separator ts) : c ∈ separator ∨ ∃ t ∈ ts, c ∈ t := by
  induction ts with
  | nil => cases h
  | cons t ts ih =>
    cases ts with
    | nil => exact .inr ⟨t, List.mem_cons_self, h⟩
    | cons u us =>
      rw [joinWith, List.mem_append, List.mem_append] at h
      · rcases h with (h | h) | h
        · exact .inr ⟨t, List.mem_cons_self, h⟩
        · exact .inl h
        · rcases ih h with hs | ⟨v, hv, hc⟩
          · exact .inl hs
          · exact .inr ⟨v, List.mem_cons_of_mem _ hv, hc⟩
      · simp

theorem subset_of_mem_words {t w : Text} (h : w ∈ words t) : w ⊆ t := by
  fun_induction words t with
  | case1 => cases h
  | case2 t c r ht ih =>
    have hr : c :: r ⊆ t := ht ▸ (List.dropWhile_sublist isBlank).subset
    rcases List.mem_cons.1 h with rfl | hw
    · exact List.Subset.trans (List.cons_subset_cons c (List.takeWhile_sublist _).subset) hr
    · have hrest := List.Subset.trans (ih hw) (List.dropWhile_sublist _).subset
      exact fun d hd => hr (List.mem_cons_of_mem c (hrest hd))

/-- Only spaces are put between the words. -/
theorem mem_of_mem_collapse {t : Text} {c : Char} (hc : c ≠ ' ') (h : c ∈ collapse t) : c ∈ t := by
  rcases mem_joinWith h with hs | ⟨w, hw, hm⟩
  · exact absurd (List.mem_singleton.1 hs) hc
  · exact subset_of_mem_words hw hm

/-- Words joined by spaces start with no blank and end with none. -/
theorem ends_of_joinWith {ws : List Text}
    (h : ∀ w ∈ ws, w ≠ [] ∧ ∀ c ∈ w, isBlank c = false) :
    (joinWith [' '] ws).head?.all (!isBlank ·) ∧ (joinWith [' '] ws).getLast?.all (!isBlank ·) ∧
      (ws ≠ [] → joinWith [' '] ws ≠ []) := by
  induction ws with
  | nil => exact ⟨rfl, rfl, fun h => absurd rfl h⟩
  | cons w ws ih =>
    obtain ⟨hne, hw⟩ := h w List.mem_cons_self
    obtain ⟨c, r, hcr⟩ := List.exists_cons_of_ne_nil hne
    have hlast : w.getLast?.all (!isBlank ·) := by
      rw [List.getLast?_eq_some_getLast hne, Option.all_some, hw _ (List.getLast_mem hne)]
      rfl
    have hhead : isBlank c = false := hw c (hcr ▸ List.mem_cons_self)
    cases ws with
    | nil => exact ⟨by simp [joinWith, hcr, hhead], hlast, fun _ => hne⟩
    | cons v vs =>
      obtain ⟨_, hl, hn⟩ := ih fun u hu => h u (List.mem_cons_of_mem _ hu)
      have hj : joinWith [' '] (w :: v :: vs) = w ++ ' ' :: joinWith [' '] (v :: vs) := by
        simp [joinWith]
      rw [hj]
      refine ⟨by simp [hcr, hhead], ?_, fun _ => by simp⟩
      rw [List.getLast?_append, List.getLast?_cons,
        List.getLast?_eq_some_getLast (hn (List.cons_ne_nil v vs))]
      rwa [List.getLast?_eq_some_getLast (hn (List.cons_ne_nil v vs))] at hl

/-- Spaces are the only blanks of the text, and each stands alone between two other characters. -/
structure Collapsed (t : Text) : Prop extends Trimmed t where
  spaces : ∀ c ∈ t, isBlank c → c = ' '
  single : ¬ [' ', ' '] <:+: t

/-- Words have no space at the seams, so none comes next to the one that joins them. -/
theorem single_of_joinWith {ws : List Text}
    (h : ∀ w ∈ ws, w ≠ [] ∧ ∀ c ∈ w, isBlank c = false) :
    ¬ [' ', ' '] <:+: joinWith [' '] ws := by
  have hword (w : Text) (hw : ∀ c ∈ w, isBlank c = false) : ¬ [' ', ' '] <:+: w := by
    refine not_infix_of_mem List.mem_cons_self fun hm => ?_
    cases hw _ hm
  induction ws with
  | nil => exact hword [] (fun c hc => by cases hc)
  | cons w ws ih =>
    obtain ⟨-, hw⟩ := h w List.mem_cons_self
    have hrest := fun u hu => h u (List.mem_cons_of_mem _ hu)
    cases ws with
    | nil => exact hword w hw
    | cons v vs =>
      obtain ⟨hhead, -, -⟩ := ends_of_joinWith hrest
      have hj : joinWith [' '] (w :: v :: vs) = w ++ [' '] ++ joinWith [' '] (v :: vs) := by
        simp [joinWith]
      rw [hj]
      intro hi
      rcases pair_infix_append hi with hi | hi | ⟨-, hs⟩
      · rcases pair_infix_append hi with hi | hi | ⟨hl, -⟩
        · exact hword w hw hi
        · cases List.infix_cons_iff.1 hi with
          | inl hp => simp at hp
          | inr hi => simp at hi
        · cases hw _ (List.mem_of_getLast? hl)
      · exact ih hrest hi
      · rw [hs] at hhead
        cases hhead

theorem collapsed_joinWith {ws : List Text}
    (h : ∀ w ∈ ws, w ≠ [] ∧ ∀ c ∈ w, isBlank c = false) : Collapsed (joinWith [' '] ws) := by
  obtain ⟨hhead, hlast, -⟩ := ends_of_joinWith h
  refine ⟨⟨hhead, hlast⟩, fun c hc hb => ?_, single_of_joinWith h⟩
  rcases mem_joinWith hc with hs | ⟨w, hw, hm⟩
  · exact List.mem_singleton.1 hs
  · rw [(h w hw).2 c hm] at hb
    cases hb

theorem collapsed_collapse (t : Text) : Collapsed (collapse t) :=
  collapsed_joinWith fun _ hw => ⟨ne_nil_of_mem_words hw, not_blank_of_mem_words hw⟩

theorem collapsed_of_collapse {t : Text} (h : collapse t = t) : Collapsed t :=
  h ▸ collapsed_collapse t

end Text
end Pinout
