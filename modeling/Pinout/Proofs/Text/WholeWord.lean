import Pinout.Proofs.Text.Word

/-!
# Pinout.Proofs.Text.WholeWord

Where the search for a word finds one. What it finds is an occurrence that nothing touches
(`wordAt_of_findWord?`), and where one stands the search has come to it or to one before it
(`exists_le_findWord?`): it goes on behind an occurrence that is part of a longer identifier, and no
whole one begins inside that. So it finds the first whole occurrence, and nothing only where there is
none (`findWord?_leftmost`).

A text without such an occurrence `Lacks` the word. Texts that lack a word lack it together if no
identifier goes over the seam (`lacks_append`), and a word that stands apart is found behind any
text that lacks it (`findWord?_append_word`).
-/

namespace Pinout
namespace Text

section

variable {word : Text}

/-- At offset `n` of `t` stands `word`, where `atEdge` says that nothing touches what stands at the
head of `t` from the left. -/
structure StandsAt (word : Text) (atEdge : Bool) (t : Text) (n : Nat) : Prop where
  occurs : word <+: t.drop n
  head : n = 0 → atEdge
  left : n ≠ 0 → endsWord (t.take n).reverse
  right : endsWord (t.drop (n + word.length))

theorem wordAt_iff_standsAt {t : Text} {n : Nat} : WordAt word t n ↔ StandsAt word true t n := by
  constructor
  · rintro ⟨hoccurs, hleft, hright⟩
    exact ⟨hoccurs, fun _ => rfl, fun _ => hleft, hright⟩
  · intro h
    refine ⟨h.occurs, ?_, h.right⟩
    by_cases hn : n = 0
    · subst hn
      rfl
    · exact h.left hn

/-- The words behind an offset are those of the text behind it. -/
theorem standsAt_add_iff (hne : word ≠ []) {atEdge : Bool} (t : Text) {m : Nat} (hm : m ≠ 0)
    (n : Nat) : StandsAt word atEdge t (m + n) ↔
      StandsAt word (endsWord (t.take m).reverse) (t.drop m) n := by
  have htake : (t.take (m + n)).reverse = ((t.drop m).take n).reverse ++ (t.take m).reverse := by
    rw [List.take_add, List.reverse_append]
  have hdrop : t.drop (m + n + word.length) = (t.drop m).drop (n + word.length) := by
    rw [List.drop_drop, Nat.add_assoc]
  constructor
  · intro h
    have hleft := h.left (by omega)
    rw [htake] at hleft
    refine ⟨?_, ?_, fun _ => endsWord_left hleft, ?_⟩
    · rw [List.drop_drop]
      exact h.occurs
    · rintro rfl
      exact hleft
    · rw [← hdrop]
      exact h.right
  · intro h
    refine ⟨?_, fun h0 => absurd h0 (by omega), fun _ => ?_, ?_⟩
    · rw [← List.drop_drop]
      exact h.occurs
    · rw [htake]
      by_cases hn : n = 0
      · subst hn
        exact h.head rfl
      · refine endsWord_append (h.left hn) (fun hnil => hne ?_) _
        have hbehind : t.drop m = [] :=
          (List.take_eq_nil_iff.1 (List.reverse_eq_nil_iff.1 hnil)).resolve_left hn
        have hp := h.occurs
        rwa [hbehind, List.drop_nil, List.prefix_nil] at hp
    · rw [hdrop]
      exact h.right

theorem wordAt_add_iff (hne : word ≠ []) (t : Text) (m n : Nat) : WordAt word t (m + n) ↔
    StandsAt word (endsWord (t.take m).reverse) (t.drop m) n := by
  rw [wordAt_iff_standsAt]
  by_cases hm : m = 0
  · subst hm
    rw [Nat.zero_add]
    rfl
  · exact standsAt_add_iff hne t hm n

theorem standsAt_append_iff (hne : word ≠ []) {atEdge : Bool} {x : Text} (hx : x ≠ []) (y : Text)
    (n : Nat) : StandsAt word atEdge (x ++ y) (x.length + n) ↔
      StandsAt word (endsWord x.reverse) y n := by
  have h := @standsAt_add_iff word hne atEdge (x ++ y) x.length (by simpa using hx) n
  rwa [List.take_left, List.drop_left] at h

/-- Behind its first character a text has the same words as without it. -/
theorem standsAt_cons (hne : word ≠ []) {atEdge : Bool} {c : Char} {t : Text} {n : Nat} :
    StandsAt word atEdge (c :: t) (n + 1) ↔ StandsAt word (!isWordChar c) t n := by
  have h := @standsAt_append_iff word hne atEdge [c] (List.cons_ne_nil c []) t n
  rwa [List.length_singleton, Nat.add_comm] at h

/-- A word of a text stands between texts that do not touch it. -/
theorem wordAt_iff_append {t : Text} {n : Nat} : WordAt word t n ∧ n ≤ t.length ↔
    ∃ a b, t = a ++ (word ++ b) ∧ a.length = n ∧ endsWord a.reverse ∧ endsWord b := by
  constructor
  · rintro ⟨⟨⟨b, hb⟩, hleft, hright⟩, hn⟩
    refine ⟨t.take n, b, ?_, List.length_take_of_le hn, hleft, ?_⟩
    · rw [hb, List.take_append_drop]
    · rwa [← List.drop_drop, ← hb, List.drop_left] at hright
  · rintro ⟨a, b, rfl, rfl, ha, hb⟩
    refine ⟨⟨?_, ?_, ?_⟩, by simp⟩
    · rw [List.drop_left]
      exact List.prefix_append word b
    · rwa [List.take_left]
    · rwa [← List.drop_drop, List.drop_left, List.drop_left]

/-- A word that is not empty stands inside its text. -/
theorem exists_of_wordAt {t : Text} {n : Nat} (hne : word ≠ []) (h : WordAt word t n) :
    ∃ a b, t = a ++ (word ++ b) ∧ a.length = n ∧ endsWord a.reverse ∧ endsWord b := by
  refine wordAt_iff_append.1 ⟨h, Nat.le_of_not_gt fun hn => hne ?_⟩
  have hp := h.1
  rwa [List.drop_eq_nil_of_le (Nat.le_of_lt hn), List.prefix_nil] at hp

theorem wordAt_append {a b : Text} (ha : endsWord a.reverse) (hb : endsWord b) :
    WordAt word (a ++ (word ++ b)) a.length :=
  (wordAt_iff_append.2 ⟨a, b, rfl, rfl, ha, hb⟩).1

theorem standsAt_of_findWordFrom? (hne : word ≠ []) {atEdge : Bool} {t : Text} {n : Nat}
    (h : findWordFrom? word atEdge t = some n) : StandsAt word atEdge t n := by
  induction t using search_induction hne generalizing n atEdge with
  | nil =>
    rw [findWordFrom?_nil] at h
    cases h
  | found c t after hd ih =>
    rw [findWordFrom?_found hne hd] at h
    rw [append_of_dropLead? hd]
    split at h
    · next he =>
      cases h
      rw [Bool.and_eq_true] at he
      refine ⟨List.prefix_append _ _, fun _ => he.1, fun hn => absurd rfl hn, ?_⟩
      rw [Nat.zero_add, List.drop_left]
      exact he.2
    · obtain ⟨m, hm, rfl⟩ := Option.map_eq_some_iff.1 h
      exact (standsAt_append_iff hne hne after m).2 (ih hm)
  | passed c t hd ih =>
    rw [findWordFrom?_passed hd] at h
    obtain ⟨m, hm, rfl⟩ := Option.map_eq_some_iff.1 h
    exact (standsAt_append_iff hne (List.cons_ne_nil c []) t m).2 (ih hm)

theorem wordAt_of_findWord? {t : Text} {n : Nat} (h : findWord? word t = some n) :
    WordAt word t n := by
  rw [findWord?] at h
  split at h
  · cases h
  · next hne => exact wordAt_iff_standsAt.2 (standsAt_of_findWordFrom? hne h)

theorem not_wordAt_of_not_infix {t : Text} (h : ¬ word <:+: t) (n : Nat) : ¬ WordAt word t n :=
  fun hat => h (hat.1.isInfix.trans (List.drop_suffix n t).isInfix)

/-- The word does not stand in the text. -/
def Lacks (word t : Text) : Prop := findWord? word t = none

theorem lacks_of_not_wordAt {t : Text} (h : ∀ n, ¬ WordAt word t n) : Lacks word t := by
  rw [Lacks, Option.eq_none_iff_forall_ne_some]
  exact fun n hn => h n (wordAt_of_findWord? hn)

/-- Inside an occurrence of the word no other begins: the character before it would touch it. -/
theorem StandsAt.eq_zero (hne : word ≠ []) (hw : ∀ c ∈ word, isWordChar c) {atEdge : Bool}
    {after : Text} {n : Nat} (h : StandsAt word atEdge (word ++ after) n) (hn : n < word.length) :
    n = 0 := by
  by_contra h0
  have hleft := h.left h0
  rw [List.take_append_of_le_length (Nat.le_of_lt hn)] at hleft
  have hnil := eq_nil_of_endsWord (fun c hc =>
    hw c (List.take_subset n word (List.mem_reverse.1 hc))) hleft
  exact (List.take_eq_nil_iff.1 (List.reverse_eq_nil_iff.1 hnil)).elim h0 hne

/-- Occurrences of one word do not overlap, since each is touched by no identifier character. -/
theorem eq_zero_of_wordAt (hne : word ≠ []) (hw : ∀ c ∈ word, isWordChar c) {t : Text} {n i : Nat}
    (h : WordAt word t n) (h' : WordAt word t (n + i)) (hi : i < word.length) : i = 0 := by
  obtain ⟨a, b, rfl, rfl, -, -⟩ := exists_of_wordAt hne h
  rw [wordAt_add_iff hne, List.drop_left] at h'
  exact h'.eq_zero hne hw hi

/-! ## The first word -/

theorem exists_le_findWordFrom? (hne : word ≠ []) (hw : ∀ c ∈ word, isWordChar c) {atEdge : Bool}
    {t : Text} {m : Nat} (h : StandsAt word atEdge t m) :
    ∃ n ≤ m, findWordFrom? word atEdge t = some n := by
  induction t using search_induction hne generalizing atEdge m with
  | nil =>
    have hp := h.occurs
    rw [List.drop_nil, List.prefix_nil] at hp
    exact absurd hp hne
  | found c t after hd ih =>
    rw [findWordFrom?_found hne hd]
    split
    · exact ⟨0, Nat.zero_le m, rfl⟩
    · next htouched =>
      -- the occurrence at the head is passed over, so the word stands behind it
      rw [append_of_dropLead? hd] at h
      by_cases hm : m < word.length
      · obtain rfl := h.eq_zero hne hw hm
        have hright := h.right
        rw [Nat.zero_add, List.drop_left] at hright
        exact absurd (Bool.and_eq_true_iff.2 ⟨h.head rfl, hright⟩) htouched
      · obtain ⟨i, rfl⟩ := Nat.exists_eq_add_of_le (Nat.le_of_not_lt hm)
        obtain ⟨n, hn, hfound⟩ := ih ((standsAt_append_iff hne hne after i).1 h)
        exact ⟨word.length + n, by omega, by rw [hfound, Option.map_some]⟩
  | passed c t hd ih =>
    rw [findWordFrom?_passed hd]
    cases m with
    | zero => exact absurd h.occurs (dropLead?_eq_none_iff.1 hd)
    | succ m =>
      obtain ⟨n, hn, hfound⟩ := ih ((standsAt_cons hne).1 h)
      exact ⟨1 + n, by omega, by rw [hfound, Option.map_some]⟩

/-- Where the word stands the search finds it, there or before. -/
theorem exists_le_findWord? (hne : word ≠ []) (hw : ∀ c ∈ word, isWordChar c) {t : Text} {m : Nat}
    (h : WordAt word t m) : ∃ n ≤ m, findWord? word t = some n := by
  rw [findWord?, if_neg hne]
  exact exists_le_findWordFrom? hne hw (wordAt_iff_standsAt.1 h)

theorem findWord?_eq_some_iff (hne : word ≠ []) (hw : ∀ c ∈ word, isWordChar c) {t : Text}
    {n : Nat} : findWord? word t = some n ↔ WordAt word t n ∧ ∀ m < n, ¬ WordAt word t m := by
  constructor
  · intro h
    refine ⟨wordAt_of_findWord? h, fun m hm hat => ?_⟩
    obtain ⟨k, hk, hfound⟩ := exists_le_findWord? hne hw hat
    cases h.symm.trans hfound
    omega
  · rintro ⟨hat, hfirst⟩
    obtain ⟨k, hk, hfound⟩ := exists_le_findWord? hne hw hat
    by_cases hlt : k < n
    · exact absurd (wordAt_of_findWord? hfound) (hfirst k hlt)
    · rw [hfound, Nat.le_antisymm hk (Nat.le_of_not_lt hlt)]

theorem findWord?_eq_none_iff (hne : word ≠ []) (hw : ∀ c ∈ word, isWordChar c) {t : Text} :
    findWord? word t = none ↔ ∀ n, ¬ WordAt word t n := by
  constructor
  · intro h n hat
    obtain ⟨k, -, hfound⟩ := exists_le_findWord? hne hw hat
    rw [h] at hfound
    cases hfound
  · exact lacks_of_not_wordAt

/-- The search for a word of identifier characters finds the first place where it stands with none
of them before or behind it, and finds nothing exactly where there is no such place. -/
theorem findWord?_leftmost (hne : word ≠ []) (hw : ∀ c ∈ word, isWordChar c) (t : Text) :
    (∀ n, findWord? word t = some n ↔ WordAt word t n ∧ ∀ m < n, ¬ WordAt word t m) ∧
    (findWord? word t = none ↔ ∀ n, ¬ WordAt word t n) := by
  constructor
  · intro n
    exact findWord?_eq_some_iff hne hw
  · exact findWord?_eq_none_iff hne hw

instance (word t : Text) (n : Nat) : Decidable (WordAt word t n) :=
  inferInstanceAs (Decidable (_ ∧ _ ∧ _))

/-- A word that overlaps itself, behind and in front of longer words in which it occurs. -/
theorem findWord?_leftmost_overlap :
    "1$1".toList ≠ [] ∧ (∀ c ∈ "1$1".toList, isWordChar c) ∧
    findWord? "1$1".toList "1$1$1 +1$1- 1$1_".toList = some 7 ∧
    (∀ n, ¬ WordAt "1$1".toList "1$1$1".toList n) := by
  have hne : "1$1".toList ≠ [] := by decide
  have hw : ∀ c ∈ "1$1".toList, isWordChar c := forall_of_all (by decide)
  obtain ⟨hfirst, -⟩ := findWord?_leftmost hne hw "1$1$1 +1$1- 1$1_".toList
  obtain ⟨-, hnone⟩ := findWord?_leftmost hne hw "1$1$1".toList
  exact ⟨hne, hw, (hfirst 7).2 ⟨by decide, by decide⟩, hnone.1 (by decide +kernel)⟩

/-- With other characters in the word, one that is passed over may hide the next. -/
example : findWord? "a-a".toList "xa-a-a".toList = none ∧ WordAt "a-a".toList "xa-a-a".toList 3 := by
  decide +kernel

/-! ## Texts without the word -/

theorem lacks_nil : Lacks word [] := findWord?_nil

/-- An identifier has no other word in it. -/
theorem lacks_identifier {t : Text} (ht : isIdentifier t) (hne : t ≠ word) :
    Lacks word t := by
  obtain ⟨_, _, _, _, hall⟩ := exists_cons_of_isIdentifier ht
  -- all that stands beside the occurrence would touch it
  have hnil {u : Text} (hu : u ⊆ t) (he : endsWord u) : u = [] :=
    eq_nil_of_endsWord (fun c hc => hall c (hu hc)) he
  refine lacks_of_not_wordAt fun n hat => hne ?_
  obtain ⟨hp, hl, hr⟩ := hat
  have hn : t.take n = [] :=
    List.reverse_eq_nil_iff.1 (hnil (fun c hc => List.take_subset n t (List.mem_reverse.1 hc)) hl)
  have hd : t.drop n = t := by
    have ht := List.take_append_drop n t
    rwa [hn, List.nil_append] at ht
  rw [hd] at hp
  obtain ⟨r, hr'⟩ := hp
  have hrest := hnil (List.drop_subset _ t) hr
  rw [← List.drop_drop, hd, ← hr', List.drop_left] at hrest
  rw [← hr', hrest, List.append_nil]

theorem endsWord_append_of_endsWord {x y : Text} (hx : endsWord x) (hy : endsWord y) :
    endsWord (x ++ y) := by
  cases x with
  | nil => exact hy
  | cons c x => exact hx

theorem not_endsWord_identifier {t : Text} (ht : isIdentifier t) :
    endsWord t = false ∧ endsWord t.reverse = false := by
  obtain ⟨c, r, rfl, hc, hall⟩ := exists_cons_of_isIdentifier ht
  refine ⟨by simp [endsWord, isWordChar_of_isWordStart hc], ?_⟩
  cases hr : (c :: r).reverse with
  | nil => simp at hr
  | cons d s =>
    have hd := hall d (List.mem_reverse.1 (hr ▸ List.mem_cons_self))
    rw [endsWord, hd]
    rfl

/-! ## Seams -/

theorem endsWord_cons {c : Char} {t : Text} : endsWord (c :: t) ↔ isWordChar c = false := by
  rw [endsWord, Bool.not_eq_true']

theorem endsWord_dropWhile (t : Text) : endsWord (t.dropWhile isWordChar) := by
  have h := List.head?_dropWhile_not isWordChar t
  cases hd : t.dropWhile isWordChar with
  | nil => rfl
  | cons c r =>
    rw [hd] at h
    exact endsWord_cons.2 (by simpa using h)

variable (hw : isIdentifier word)
include hw

theorem findWord?_append_cons {c : Char} (hc : isWordChar c = false) (x y : Text) :
    findWord? word (x ++ c :: y) =
      (findWord? word x).or ((findWord? word y).map (x.length + 1 + ·)) := by
  have hne := ne_nil_of_isIdentifier hw
  rw [findWord?, findWord?, findWord?, if_neg hne, if_neg hne, if_neg hne,
    findWordFrom?_append_cons hw hc]

theorem lacks_append_cons {c : Char} (hc : isWordChar c = false) {x y : Text} :
    Lacks word (x ++ c :: y) ↔ Lacks word x ∧ Lacks word y := by
  rw [Lacks, findWord?_append_cons hw hc, Option.or_eq_none_iff, Option.map_eq_none_iff]
  rfl

theorem lacks_cons {c : Char} (hc : isWordChar c = false) {t : Text} :
    Lacks word (c :: t) ↔ Lacks word t := by
  have h := @lacks_append_cons word hw c hc [] t
  rwa [List.nil_append, and_iff_right lacks_nil] at h

theorem lacks_append {x y : Text} (hx : Lacks word x) (hy : Lacks word y)
    (h : endsWord x.reverse ∨ endsWord y) : Lacks word (x ++ y) := by
  rcases h with h | h
  · cases x using List.reverseRecOn with
    | nil => exact hy
    | append_singleton x c =>
      rw [List.reverse_append] at h
      have hc := endsWord_cons.1 h
      rw [List.append_assoc]
      exact (lacks_append_cons hw hc).2 ⟨((lacks_append_cons hw hc).1 hx).1, hy⟩
  · cases y with
    | nil => rwa [List.append_nil]
    | cons c y =>
      have hc := endsWord_cons.1 h
      exact (lacks_append_cons hw hc).2 ⟨hx, (lacks_cons hw hc).1 hy⟩

theorem lacks_of_allBlank {w : Text} (h : w.allBlank) : Lacks word w := by
  induction w with
  | nil => exact lacks_nil
  | cons c w ih =>
    rw [allBlank, List.all_cons, Bool.and_eq_true] at h
    exact (lacks_cons hw (isWordChar_of_isBlank h.1)).2 (ih h.2)

/-- A word that stands apart is found, if none stands before it. -/
theorem findWord?_append_word {x r : Text} (hx : endsWord x.reverse) (hr : endsWord r) :
    findWord? word (x ++ (word ++ r)) = (findWord? word x).or (some x.length) := by
  have hword : findWord? word (word ++ r) = some 0 := by
    rw [findWord?, if_neg (ne_nil_of_isIdentifier hw)]
    exact @findWordFrom?_append word [] r hw rfl hr
  cases x using List.reverseRecOn with
  | nil => rw [List.nil_append, hword, findWord?_nil]; rfl
  | append_singleton x c =>
    rw [List.reverse_append] at hx
    have hc := endsWord_cons.1 hx
    rw [List.append_assoc, List.singleton_append, findWord?_append_cons hw hc, hword,
      findWord?_append_cons hw hc, findWord?_nil, List.length_append]
    simp

end

end Text
end Pinout
