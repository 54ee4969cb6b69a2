import Pinout.Proofs.Source.Stripped
import Pinout.Proofs.Text.LastLine
import Pinout.Proofs.Text.WholeWord

/-!
# Pinout.Proofs.Source.Word

A word of the stripped view is a word of a line of the source (`exists_line_of_stripped`).

Taking comments away and unifying line ends leave a text `Thinned`: stretches of it are gone or
blank, and none of them touches a word on either side. So no word of what is left is new
(`exists_wordAt_of_thinned`), and a word never goes over the end of a line
(`exists_line_of_wordAt`).
-/

namespace Pinout
namespace Text

/-- The first text is the second one with some stretches gone or replaced by what is in no word. In
both texts such a stretch ends the word before it, and in the second text also the word behind it. -/
inductive Thinned : Text → Text → Prop where
  | nil : Thinned [] []
  | char (c : Char) {s t : Text} (h : Thinned s t) : Thinned (c :: s) (c :: t)
  | gap {x f s t : Text} (hx : ∀ c ∈ x, isWordChar c = false) (hs : endsWord (x ++ s))
      (hf : endsWord f) (hne : f ≠ []) (ht : endsWord f.reverse ∨ endsWord t) (h : Thinned s t) :
      Thinned (x ++ s) (f ++ t)

section

variable {s t u v word : Text}

theorem Thinned.append_left (a : Text) (h : Thinned s t) : Thinned (a ++ s) (a ++ t) := by
  induction a with
  | nil => exact h
  | cons c a ih => exact .char c ih

theorem Thinned.gone {f : Text} (hs : endsWord s) (hf : endsWord f) (hne : f ≠ [])
    (ht : endsWord f.reverse ∨ endsWord t) (h : Thinned s t) : Thinned s (f ++ t) :=
  .gap (x := []) (fun _ hc => absurd hc List.not_mem_nil) hs hf hne ht h

theorem Thinned.blank {f : Text} (hf : endsWord f) (hne : f ≠ [])
    (ht : endsWord f.reverse ∨ endsWord t) (h : Thinned s t) : Thinned (' ' :: s) (f ++ t) :=
  .gap (x := [' ']) (List.forall_mem_singleton.2 rfl) rfl hf hne ht h

theorem takeWhile_of_endsWord (h : endsWord t) : t.takeWhile isWordChar = [] := by
  cases t with
  | nil => rfl
  | cons c t => exact List.takeWhile_cons_of_neg (by simp [endsWord_cons.1 h])

/-- The word at the head of both texts is the same. -/
theorem Thinned.takeWhile_eq (h : Thinned s t) :
    s.takeWhile isWordChar = t.takeWhile isWordChar := by
  induction h with
  | nil => rfl
  | char c _ ih => rw [List.takeWhile_cons, List.takeWhile_cons, ih]
  | gap _ hs hf hne =>
    rw [takeWhile_of_endsWord hs, takeWhile_of_endsWord (endsWord_append hf hne _)]

theorem exists_of_takeWhile (hw : ∀ c ∈ word, isWordChar c) (hv : endsWord v)
    (h : (word ++ v).takeWhile isWordChar = t.takeWhile isWordChar) :
    ∃ b, t = word ++ b ∧ endsWord b := by
  rw [(takeWhile_isWordChar hw hv).1] at h
  refine ⟨t.dropWhile isWordChar, ?_, endsWord_dropWhile t⟩
  rw [h, List.takeWhile_append_dropWhile]

/-- A word that is left was there before, and it only is at the head if it was. -/
theorem Thinned.exists_append (hne : word ≠ []) (hw : ∀ c ∈ word, isWordChar c) (h : Thinned s t)
    {a b : Text} (hs : s = a ++ (word ++ b)) (ha : endsWord a.reverse) (hb : endsWord b) :
    ∃ a' b', t = a' ++ (word ++ b') ∧ endsWord a'.reverse ∧ endsWord b' ∧ (a' = [] → a = []) := by
  induction h generalizing a with
  | nil => exact absurd (List.append_eq_nil_iff.1 (List.append_eq_nil_iff.1 hs.symm).2).1 hne
  | @char c s t h ih =>
    cases a with
    | nil =>
      have htake := (h.append_left [c]).takeWhile_eq
      rw [List.singleton_append, hs, List.nil_append] at htake
      obtain ⟨b', ht, hb'⟩ := exists_of_takeWhile hw hb htake
      exact ⟨[], b', ht, rfl, hb', fun _ => rfl⟩
    | cons d a =>
      obtain ⟨rfl, rfl⟩ := List.cons.inj hs
      rw [List.reverse_cons] at ha
      obtain ⟨a', b', rfl, ha', hb', hnil⟩ := ih rfl (endsWord_left ha)
      refine ⟨c :: a', b', rfl, ?_, hb', by simp⟩
      rw [List.reverse_cons]
      by_cases hempty : a' = []
      · rw [hnil hempty] at ha
        rwa [hempty]
      · exact endsWord_append ha' (by simpa using hempty) _
  | @gap x f s t hx _ _ hf ht _ ih =>
    -- the word does not start in the stretch
    obtain ⟨as, rfl, rfl⟩ : ∃ as, a = x ++ as ∧ s = as ++ (word ++ b) := by
      rcases List.append_eq_append_iff.1 hs with ⟨as, ha', hs'⟩ | ⟨bs, hx', hw'⟩
      · exact ⟨as, ha', hs'⟩
      · cases bs with
        | nil => exact ⟨[], by simpa using hx'.symm, by simpa using hw'.symm⟩
        | cons c bs =>
          obtain ⟨d, word, rfl⟩ := List.exists_cons_of_ne_nil hne
          obtain ⟨rfl, -⟩ := List.cons.inj hw'
          have hc := hx d (hx' ▸ List.mem_append_right a List.mem_cons_self)
          rw [hw d List.mem_cons_self] at hc
          cases hc
    rw [List.reverse_append] at ha
    obtain ⟨a', b', rfl, ha', hb', hnil⟩ := ih rfl (endsWord_left ha)
    refine ⟨f ++ a', b', by rw [List.append_assoc], ?_, hb',
      fun h => absurd (List.append_eq_nil_iff.1 h).1 hf⟩
    rw [List.reverse_append]
    by_cases hempty : a' = []
    · subst hempty
      refine ht.resolve_right fun hend => hne ?_
      exact eq_nil_of_endsWord hw (endsWord_left hend)
    · exact endsWord_append ha' (by simpa using hempty) _

theorem exists_wordAt_of_thinned (hne : word ≠ []) (hw : ∀ c ∈ word, isWordChar c)
    (h : Thinned s t) {n : Nat} (hs : WordAt word s n) : ∃ m, WordAt word t m := by
  obtain ⟨a, b, he, -, ha, hb⟩ := exists_of_wordAt hne hs
  obtain ⟨a', b', rfl, ha', hb', -⟩ := h.exists_append hne hw he ha hb
  exact ⟨_, wordAt_append ha' hb'⟩

theorem thinned_unifyNewlines (t : Text) : Thinned (unifyNewlines t) t := by
  induction t with
  | nil => exact .nil
  | cons c t ih =>
    rw [unifyNewlines_cons]
    split
    · next h =>
      obtain ⟨rfl, hn⟩ := h
      obtain ⟨u, rfl⟩ := List.head?_eq_some_iff.1 hn
      rw [unifyNewlines_newline] at ih ⊢
      exact .gone (f := ['\r']) rfl rfl (List.cons_ne_nil _ _) (.inl rfl) ih
    · exact .char c ih

/-! ## Lines -/

/-- A piece that is not empty is a line, but for a carriage return. -/
theorem exists_getElem?_endLines {ps : List Text} {p : Text} {n : Nat} (h : ps[n]? = some p)
    (hp : p ≠ []) : ∃ line w, (endLines ps)[n]? = some line ∧ p = line ++ w ∧
      (w = [] ∨ w = ['\r']) := by
  fun_induction endLines ps generalizing n with
  | case1 => cases h
  | case2 =>
    cases n with
    | zero => exact absurd (Option.some.inj h).symm hp
    | succ n => cases h
  | case3 last =>
    cases n with
    | zero => exact ⟨last, [], rfl, by simpa using h.symm, .inl rfl⟩
    | succ n => cases h
  | case4 piece next pieces ih =>
    cases n with
    | zero =>
      obtain rfl : piece = p := Option.some.inj h
      obtain ⟨w, hw, hr⟩ := exists_dropReturn piece
      exact ⟨dropReturn piece, w, rfl, hw, hr⟩
    | succ n => exact ih h

/-- A carriage return behind a line is part of no word. -/
theorem wordAt_of_return (hne : word ≠ []) (hw : ∀ c ∈ word, isWordChar c) {x y line w : Text}
    (hx : endsWord x.reverse) (hy : endsWord y) (h : x ++ (word ++ y) = line ++ w)
    (hr : w = [] ∨ w = ['\r']) : WordAt word line x.length := by
  rcases hr with rfl | rfl
  · rw [List.append_nil] at h
    exact h ▸ wordAt_append hx hy
  · cases y using List.reverseRecOn with
    | nil =>
      have hlast := congrArg List.getLast? h
      rw [List.append_nil, List.getLast?_append_of_ne_nil _ hne, List.getLast?_concat] at hlast
      exact absurd (hw _ (List.mem_of_getLast? hlast)) (by decide)
    | append_singleton y c =>
      rw [← List.append_assoc, ← List.append_assoc] at h
      obtain ⟨rfl, -⟩ := List.append_inj' h rfl
      rw [List.append_assoc]
      exact wordAt_append hx (endsWord_left hy)

/-- A word of a text is a word of one of its lines. -/
theorem exists_line_of_wordAt (hne : word ≠ []) (hw : ∀ c ∈ word, isWordChar c) {n : Nat}
    (h : WordAt word t n) :
    ∃ (k : Nat) (line : Text) (m : Nat), t.lines[k]? = some line ∧ WordAt word line m := by
  obtain ⟨a, b, rfl, -, ha, hb⟩ := exists_of_wordAt hne h
  have hword : ∀ c ∈ word, decide (c ≠ '\n') = true := by
    intro c hc
    rw [decide_eq_true_iff]
    rintro rfl
    exact absurd (hw _ hc) (by decide)
  have hpiece := getElem?_splitNewlines a (word ++ b)
  rw [List.takeWhile_append_of_pos hword] at hpiece
  have hleft : endsWord (lastLine a).reverse := by
    obtain ⟨front, hfront⟩ := List.rtakeWhile_suffix (· ≠ '\n') a
    rw [← hfront, List.reverse_append] at ha
    exact endsWord_left ha
  have hright : endsWord (b.takeWhile (· ≠ '\n')) := by
    rw [← List.takeWhile_append_dropWhile (p := (· ≠ '\n')) (l := b)] at hb
    exact endsWord_left hb
  generalize lastLine a = x, b.takeWhile (· ≠ '\n') = y at *
  obtain ⟨line, w, hline, hcut, hreturn⟩ := exists_getElem?_endLines hpiece (by simp [hne])
  exact ⟨_, line, x.length, hline, wordAt_of_return hne hw hleft hright hcut hreturn⟩

end

end Text

namespace Source

open Text (isBlank isWordChar endsWord WordAt Thinned)

theorem endsWord_of_atLineEnd {t : Text} (h : atLineEnd t) : endsWord t := by
  cases t with
  | nil => rfl
  | cons c t =>
    obtain rfl : c = '\n' := by simpa [atLineEnd] using h
    rfl

/-- A comment or an attribute is blank or gone, and ends in a character of no word unless the line
ends behind it. -/
theorem thinned_bare (t : Text) : Thinned (bare t) t := by
  induction t using reading_induction with
  | nil =>
    rw [bare_nil]
    exact .nil
  | cons c t p r h ih =>
    rw [bare_cons h]
    cases h with
    | newline => exact .char '\n' ih
    | @lineComment body _ _ hr =>
      exact .gone (f := '/' :: '/' :: body) (endsWord_of_atLineEnd (atLineEnd_bare hr)) rfl
        (List.cons_ne_nil _ _) (.inr (endsWord_of_atLineEnd hr)) ih
    | @blockComment body =>
      exact .blank (f := '/' :: '*' :: (body ++ ['*', '/'])) rfl (List.cons_ne_nil _ _)
        (.inl (by simp [endsWord, isWordChar])) ih
    | @openComment t =>
      rw [bare_nil] at ih ⊢
      have := Thinned.blank (f := '/' :: '*' :: t) rfl (List.cons_ne_nil _ _) (.inr rfl) ih
      rwa [List.append_nil] at this
    | @event w rest =>
      have := ih.append_left ('(' :: '*' :: (w ++ [')']))
      simpa [Piece.bare] using this
    | @attr body =>
      exact .blank (f := '(' :: '*' :: (body ++ ['*', ')'])) rfl (List.cons_ne_nil _ _)
        (.inl (by simp [endsWord, isWordChar])) ih
    | star => exact .char '(' ih
    | literal t =>
      have := ih.append_left ('"' :: (splitLiteral t).1)
      rwa [List.cons_append, List.cons_append, append_splitLiteral] at this
    | code => exact .char c ih

/-- A word that the stripped view shows is a word of a line of the source. -/
theorem exists_line_of_stripped {word source : Text} (hne : word ≠ [])
    (hw : ∀ c ∈ word, isWordChar c) {n : Nat} (h : WordAt word (views source).stripped n) :
    ∃ (k : Nat) (line : Text) (m : Nat), source.lines[k]? = some line ∧ WordAt word line m := by
  rw [stripped_views] at h
  obtain ⟨m, hm⟩ := Text.exists_wordAt_of_thinned hne hw (thinned_bare _) h
  obtain ⟨k, hk⟩ := Text.exists_wordAt_of_thinned hne hw (Text.thinned_unifyNewlines source) hm
  exact Text.exists_line_of_wordAt hne hw hk

end Source
end Pinout
