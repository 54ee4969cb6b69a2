import Pinout.Editor.Position
import Pinout.Proofs.Text.WholeWord

/-!
# Pinout.Proofs.Editor.Occurrence

Whole occurrences of a name in the lines of a text. `Occurs` says what a range holds, apart from the
search and from the look at a position; `IsFirst` says what a search is after.

* `findIdentifier?_eq_some_iff` — a search finds the first occurrence at or behind its origin;
* `findIdentifier?_eq_none_iff` — and nothing exactly where there is none;
* `exists_of_identifierAt?`     — what touches a position is the name of an occurrence around it.

So the two agree on what a word is (`lookup_agrees_search`).
-/

namespace Pinout
namespace Editor

open Text (isWordChar endsWord WordAt StandsAt)

namespace Position

/-- An earlier line, or on the same line a character that is not behind the other. -/
instance : LE Position where
  le p q := p.line < q.line ∨ p.line = q.line ∧ p.character ≤ q.character

instance (p q : Position) : Decidable (p ≤ q) :=
  inferInstanceAs (Decidable (p.line < q.line ∨ p.line = q.line ∧ p.character ≤ q.character))

theorem le_def {p q : Position} :
    p ≤ q ↔ p.line < q.line ∨ p.line = q.line ∧ p.character ≤ q.character :=
  Iff.rfl

theorem le_refl (p : Position) : p ≤ p := .inr ⟨rfl, Nat.le_refl _⟩

theorem le_trans {p q s : Position} (h : p ≤ q) (h' : q ≤ s) : p ≤ s := by
  rw [le_def] at h h' ⊢
  omega

theorem le_antisymm {p q : Position} (h : p ≤ q) (h' : q ≤ p) : p = q := by
  obtain ⟨line, character⟩ := p
  obtain ⟨line', character'⟩ := q
  rw [le_def] at h h'
  dsimp only at h h'
  rw [mk.injEq]
  omega

end Position

/-- A range holds the name, whole, on a line of the text. -/
structure Occurs (name t : Text) (r : Range) : Prop where
  word : ∃ line, t.lines[r.start.line]? = some line ∧ WordAt name line r.start.character
  stop : r.stop = ⟨r.start.line, r.start.character + name.length⟩

/-- The first range with a property at or behind a position, in the order of the lines and, on a
line, of the characters. -/
structure IsFirst (P : Range → Prop) (origin : Position) (r : Range) : Prop where
  holds : P r
  behind : origin ≤ r.start
  least : ∀ r', P r' → origin ≤ r'.start → r.start ≤ r'.start

section

variable {name t line : Text} {origin : Position} {r : Range}

theorem occurs_rangeAt {n column : Nat} (hl : t.lines[n]? = some line)
    (h : WordAt name line column) : Occurs name t (rangeAt name n column) :=
  ⟨⟨line, hl, h⟩, rfl⟩

theorem Occurs.eq_rangeAt (h : Occurs name t r) :
    r = rangeAt name r.start.line r.start.character := by
  rw [rangeAt, ← h.stop]

theorem Occurs.start_le_stop (h : Occurs name t r) : r.start ≤ r.stop := by
  rw [h.stop]
  exact .inr ⟨rfl, Nat.le_add_right _ _⟩

theorem IsFirst.unique {r' : Range} (h : IsFirst (Occurs name t) origin r)
    (h' : IsFirst (Occurs name t) origin r') : r = r' := by
  have hs := Position.le_antisymm (h.least r' h'.holds h'.behind) (h'.least r h.holds h.behind)
  rw [h.holds.eq_rangeAt, h'.holds.eq_rangeAt, hs]

/-! ## The columns of a line -/

section

variable {word : Text} {atEdge : Bool} {column n : Nat}

theorem startsWithWord_iff {u : Text} :
    startsWithWord word u ↔ word <+: u ∧ endsWord (u.drop word.length) := by
  rw [startsWithWord, Option.any_eq_true]
  constructor
  · rintro ⟨r, hr, hend⟩
    rw [Text.append_of_dropLead? hr, List.drop_left]
    exact ⟨List.prefix_append word r, hend⟩
  · rintro ⟨⟨r, rfl⟩, hend⟩
    rw [List.drop_left] at hend
    exact ⟨r, Text.dropLead?_append word r, hend⟩

theorem standsAt_zero_iff {u : Text} :
    StandsAt word atEdge u 0 ↔ (atEdge && startsWithWord word u) = true := by
  rw [Bool.and_eq_true, startsWithWord_iff]
  constructor
  · intro h
    have hright := h.right
    rw [Nat.zero_add] at hright
    exact ⟨h.head rfl, h.occurs, hright⟩
  · rintro ⟨hedge, hoccurs, hright⟩
    rw [← Nat.zero_add word.length] at hright
    exact ⟨hoccurs, fun _ => hedge, fun h => absurd rfl h, hright⟩

theorem not_standsAt_nil (hne : word ≠ []) : ¬ StandsAt word atEdge [] n := by
  intro h
  have hp := h.occurs
  rw [List.drop_nil, List.prefix_nil] at hp
  exact hne hp

theorem standsAt_of_wordColumn? (hne : word ≠ []) {u : Text} {k : Nat}
    (h : wordColumn? word atEdge column u = some k) :
    ∃ n, k = column + n ∧ StandsAt word atEdge u n ∧ ∀ m < n, ¬ StandsAt word atEdge u m := by
  induction u generalizing atEdge column with
  | nil => cases h
  | cons c u ih =>
    rw [wordColumn?] at h
    split at h
    · next hw =>
      cases h
      exact ⟨0, rfl, standsAt_zero_iff.2 hw, fun m hm => absurd hm (Nat.not_lt_zero m)⟩
    · next hw =>
      obtain ⟨n, rfl, hn, hbefore⟩ := ih h
      refine ⟨n + 1, by rw [Nat.add_assoc, Nat.add_comm 1],
        (Text.standsAt_cons hne).2 hn, fun m hm hm' => ?_⟩
      cases m with
      | zero => exact hw (standsAt_zero_iff.1 hm')
      | succ m => exact hbefore m (Nat.lt_of_succ_lt_succ hm) ((Text.standsAt_cons hne).1 hm')

theorem not_standsAt_of_wordColumn? (hne : word ≠ []) {u : Text}
    (h : wordColumn? word atEdge column u = none) (n : Nat) : ¬ StandsAt word atEdge u n := by
  induction u generalizing atEdge column n with
  | nil => exact not_standsAt_nil hne
  | cons c u ih =>
    rw [wordColumn?] at h
    split at h
    · cases h
    · next hw =>
      cases n with
      | zero => exact fun hn => hw (standsAt_zero_iff.1 hn)
      | succ n => exact fun hn => ih h n ((Text.standsAt_cons hne).1 hn)

theorem first_of_columnFrom? (hne : word ≠ []) {k : Nat} (h : columnFrom? word line column = some k) :
    column ≤ k ∧ WordAt word line k ∧ ∀ m, column ≤ m → WordAt word line m → k ≤ m := by
  obtain ⟨n, rfl, hn, hbefore⟩ := standsAt_of_wordColumn? hne h
  refine ⟨Nat.le_add_right column n, (Text.wordAt_add_iff hne line column n).2 hn, ?_⟩
  intro m hm hw
  obtain ⟨i, rfl⟩ := Nat.exists_eq_add_of_le hm
  refine Nat.add_le_add_left (Nat.le_of_not_lt fun hi => ?_) column
  exact hbefore i hi ((Text.wordAt_add_iff hne line column i).1 hw)

theorem not_wordAt_of_columnFrom? (hne : word ≠ []) (h : columnFrom? word line column = none)
    {m : Nat} (hm : column ≤ m) : ¬ WordAt word line m := by
  obtain ⟨i, rfl⟩ := Nat.exists_eq_add_of_le hm
  rw [Text.wordAt_add_iff hne]
  exact not_standsAt_of_wordColumn? hne h i

end

/-! ## The lines of a text -/

/-- The column from which a search that starts in a position looks at a line. -/
def columnIn (origin : Position) (n : Nat) : Nat := if n = origin.line then origin.character else 0

theorem columnIn_add (origin : Position) (i : Nat) :
    columnIn origin (origin.line + i) = if i = 0 then origin.character else 0 := by
  simp only [columnIn, Nat.add_eq_left]

theorem le_start_iff (hn : origin.line ≤ r.start.line) :
    origin ≤ r.start ↔ columnIn origin r.start.line ≤ r.start.character := by
  rw [Position.le_def, columnIn]
  split <;> omega

theorem columnFrom?_of_findInLines? {number column : Nat} {lines : List Text}
    (h : findInLines? name number column lines = none) {i : Nat} (hi : lines[i]? = some line) :
    columnFrom? name line (if i = 0 then column else 0) = none := by
  induction lines generalizing number column i with
  | nil => cases hi
  | cons first lines ih =>
    rw [findInLines?] at h
    split at h
    · cases h
    · next hc =>
      cases i with
      | zero =>
        cases hi
        exact hc
      | succ i =>
        have := ih h hi
        rwa [ite_self] at this

/-- An occurrence at or behind a position is on one of the lines that a search from there sees, and
not before the column from which it looks at that line. -/
theorem Occurs.exists_line (h : Occurs name t r) (ho : origin ≤ r.start) :
    ∃ i line, r.start.line = origin.line + i ∧ (t.lines.drop origin.line)[i]? = some line ∧
      WordAt name line r.start.character ∧
      (if i = 0 then origin.character else 0) ≤ r.start.character := by
  obtain ⟨⟨line, hl, hw⟩, -⟩ := h
  have hline : origin.line ≤ r.start.line := by
    rw [Position.le_def] at ho
    omega
  obtain ⟨i, hi⟩ := Nat.exists_eq_add_of_le hline
  have hc := (le_start_iff hline).1 ho
  rw [hi, columnIn_add] at hc
  refine ⟨i, line, hi, ?_, hw, hc⟩
  rwa [List.getElem?_drop, ← hi]

theorem isFirst_of_findIdentifier? (h : findIdentifier? t name origin = some r) :
    IsFirst (Occurs name t) origin r := by
  rw [findIdentifier?] at h
  split at h
  · cases h
  · next hne =>
    obtain ⟨i, line, start, hi, hc, rfl, hbefore⟩ := exists_of_findInLines? h
    obtain ⟨hle, hword, hleast⟩ := first_of_columnFrom? hne hc
    have hline : t.lines[origin.line + i]? = some line := by rwa [← List.getElem?_drop]
    refine ⟨occurs_rangeAt hline hword, ?_, fun r' hr' ho => ?_⟩
    · refine (le_start_iff (Nat.le_add_right _ i)).2 ?_
      rw [rangeAt, columnIn_add]
      exact hle
    · obtain ⟨j, other, hj, hl, hw, hcol⟩ := hr'.exists_line ho
      rw [Position.le_def, hj]
      rcases Nat.lt_trichotomy i j with hlt | rfl | hgt
      · exact .inl (Nat.add_lt_add_left hlt _)
      · cases hi.symm.trans hl
        exact .inr ⟨rfl, hleast _ hcol hw⟩
      · -- the line of the other occurrence has been searched before
        exact absurd hw (not_wordAt_of_columnFrom? hne (hbefore j hgt other hl) hcol)

theorem not_occurs_of_findIdentifier? (hne : name ≠ []) (h : findIdentifier? t name origin = none)
    (hr : Occurs name t r) : ¬ origin ≤ r.start := by
  intro ho
  rw [findIdentifier?, if_neg hne] at h
  obtain ⟨i, line, -, hl, hw, hcol⟩ := hr.exists_line ho
  exact not_wordAt_of_columnFrom? hne (columnFrom?_of_findInLines? h hl) hcol hw

theorem findIdentifier?_eq_none_iff (hne : name ≠ []) :
    findIdentifier? t name origin = none ↔ ∀ r, Occurs name t r → ¬ origin ≤ r.start := by
  constructor
  · exact fun h r hr => not_occurs_of_findIdentifier? hne h hr
  · intro h
    rw [Option.eq_none_iff_forall_ne_some]
    intro r hr
    have hfirst := isFirst_of_findIdentifier? hr
    exact h r hfirst.holds hfirst.behind

theorem findIdentifier?_eq_some_iff (hne : name ≠ []) :
    findIdentifier? t name origin = some r ↔ IsFirst (Occurs name t) origin r := by
  constructor
  · exact isFirst_of_findIdentifier?
  · intro h
    cases hf : findIdentifier? t name origin with
    | none => exact absurd h.behind (not_occurs_of_findIdentifier? hne hf h.holds)
    | some r' => rw [(isFirst_of_findIdentifier? hf).unique h]

/-- An occurrence is what a search from its own start finds. -/
theorem Occurs.findIdentifier? (hne : name ≠ []) (h : Occurs name t r) :
    findIdentifier? t name r.start = some r :=
  (findIdentifier?_eq_some_iff hne).2 ⟨h, Position.le_refl _, fun _ _ ho => ho⟩

end

/-! ## The name at a position -/

section

variable {name line : Text}

/-- In a word, and at both of its ends, the characters around a column are those of the word. -/
theorem identifierInLine?_of_wordAt (hne : name ≠ []) (hw : ∀ c ∈ name, isWordChar c) {n i : Nat}
    (h : WordAt name line n) (hi : i ≤ name.length) :
    identifierInLine? line (n + i) = some name := by
  obtain ⟨a, b, rfl, rfl, ha, hb⟩ := Text.exists_of_wordAt hne h
  have hcut := List.take_append_drop i name
  have hbefore : (a ++ (name ++ b)).take (a.length + i) = a ++ name.take i := by
    rw [List.take_length_add_append, List.take_append_of_le_length hi]
  have hbehind : (a ++ (name ++ b)).drop (a.length + i) = name.drop i ++ b := by
    rw [List.drop_length_add_append, List.drop_append_of_le_length hi]
  have hleft := (Text.takeWhile_isWordChar (w := (name.take i).reverse)
    (fun c hc => hw c (List.take_subset i name (List.mem_reverse.1 hc))) ha).1
  have hright := (Text.takeWhile_isWordChar (w := name.drop i)
    (fun c hc => hw c (List.drop_subset i name hc)) hb).1
  have hlength : a.length + i ≤ (a ++ (name ++ b)).length := by
    rw [List.length_append, List.length_append]
    omega
  simp only [identifierInLine?, hbefore, hbehind, List.reverse_append, hleft, hright,
    List.reverse_reverse, hcut]
  exact if_pos ⟨hlength, hne⟩

/-- The identifier characters around a column are a word that reaches up to it from both sides. -/
theorem wordAt_of_identifierInLine? {column : Nat} (h : identifierInLine? line column = some name) :
    name ≠ [] ∧ ∃ n, WordAt name line n ∧ n ≤ column ∧ column ≤ n + name.length := by
  simp only [identifierInLine?] at h
  split at h
  · next hc =>
    obtain ⟨hcolumn, hne⟩ := hc
    cases h
    refine ⟨hne, ?_⟩
    have hbefore := List.takeWhile_append_dropWhile (p := isWordChar) (l := (line.take column).reverse)
    have hbehind := List.takeWhile_append_dropWhile (p := isWordChar) (l := line.drop column)
    have ha := Text.endsWord_dropWhile (line.take column).reverse
    have hb := Text.endsWord_dropWhile (line.drop column)
    have hline := List.take_append_drop column line
    have hlength := List.length_take_of_le hcolumn
    rw [← List.length_reverse, ← hbefore, List.length_append] at hlength
    rw [← List.reverse_reverse (line.take column), ← hbefore, ← hbehind, List.reverse_append] at hline
    generalize (line.take column).reverse.takeWhile isWordChar = x,
      (line.take column).reverse.dropWhile isWordChar = a, (line.drop column).takeWhile isWordChar = y,
      (line.drop column).dropWhile isWordChar = b at *
    subst hline
    refine ⟨a.reverse.length, ?_, ?_, ?_⟩
    · have hword := @Text.wordAt_append (x.reverse ++ y) a.reverse b (by rwa [List.reverse_reverse]) hb
      simpa only [List.append_assoc] using hword
    · rw [List.length_reverse]
      omega
    · rw [List.length_reverse, List.length_append, List.length_reverse]
      omega
  · cases h

end

section

variable {name t : Text} {p : Position} {r : Range}

/-- At every place of an occurrence, both ends included, the name is found. -/
theorem Occurs.identifierAt? (hne : name ≠ []) (hw : ∀ c ∈ name, isWordChar c)
    (h : Occurs name t r) (hp : p.line = r.start.line) (hs : r.start ≤ p) (he : p ≤ r.stop) :
    identifierAt? t p = some name := by
  obtain ⟨⟨line, hl, hword⟩, hstop⟩ := h
  rw [hstop] at he
  rw [Position.le_def] at hs he
  dsimp only at he
  obtain ⟨i, hi⟩ := Nat.exists_eq_add_of_le (by omega : r.start.character ≤ p.character)
  rw [Editor.identifierAt?, hp, hl, hi]
  exact identifierInLine?_of_wordAt hne hw hword (by omega)

/-- What is found at a position is the name of an occurrence that has the position in it or at one
of its ends. -/
theorem exists_of_identifierAt? (h : identifierAt? t p = some name) :
    name ≠ [] ∧ ∃ r, Occurs name t r ∧ r.start.line = p.line ∧ r.start ≤ p ∧ p ≤ r.stop := by
  obtain ⟨line, hl, hi⟩ := Option.bind_eq_some_iff.1 h
  obtain ⟨hne, n, hn, hle, hge⟩ := wordAt_of_identifierInLine? hi
  exact ⟨hne, rangeAt name p.line n, occurs_rangeAt hl hn, rfl, .inr ⟨rfl, hle⟩, .inr ⟨rfl, hge⟩⟩

end

/-- The search and the look at a position agree on what a word is. A search finds the first
occurrence at or behind its origin, and nothing exactly where there is none. At every position of
what it finds, both ends included, the name is seen, and what is seen at a position is found around
it. -/
theorem lookup_agrees_search (t : Text) {name : Text} (hne : name ≠ [])
    (hw : ∀ c ∈ name, isWordChar c) (origin : Position) :
    (∀ r, findIdentifier? t name origin = some r ↔ IsFirst (Occurs name t) origin r) ∧
    (findIdentifier? t name origin = none ↔ ∀ r, Occurs name t r → ¬ origin ≤ r.start) ∧
    (∀ r, findIdentifier? t name origin = some r → ∀ p : Position, p.line = r.start.line →
      r.start ≤ p → p ≤ r.stop → identifierAt? t p = some name) ∧
    ∀ p word, identifierAt? t p = some word → ∃ r, r.start.line = p.line ∧ r.start ≤ p ∧
      p ≤ r.stop ∧ findIdentifier? t word r.start = some r := by
  refine ⟨fun r => findIdentifier?_eq_some_iff hne, findIdentifier?_eq_none_iff hne, ?_, ?_⟩
  · intro r hr p hline hs he
    exact (isFirst_of_findIdentifier? hr).holds.identifierAt? hne hw hline hs he
  · intro p word hp
    obtain ⟨hword, r, hr, hline, hs, he⟩ := exists_of_identifierAt? hp
    exact ⟨r, hline, hs, he, hr.findIdentifier? hword⟩

/-- A search that starts inside a word, in front of a longer one; the name is at the start of the
next line and at the end of the text. -/
theorem lookup_agrees_search_nextLine :
    "b".toList ≠ [] ∧ (∀ c ∈ "b".toList, isWordChar c) ∧
    findIdentifier? "ab b$\r\nb".toList "b".toList ⟨0, 1⟩ = some (rangeAt "b".toList 1 0) ∧
    IsFirst (Occurs "b".toList "ab b$\r\nb".toList) ⟨0, 1⟩ (rangeAt "b".toList 1 0) ∧
    identifierAt? "ab b$\r\nb".toList ⟨1, 1⟩ = some "b".toList ∧
    ∃ r : Range, r.start.line = 0 ∧ r.start ≤ ⟨0, 5⟩ ∧ ⟨0, 5⟩ ≤ r.stop ∧
      findIdentifier? "ab b$\r\nb".toList "b$".toList r.start = some r := by
  have hw : ∀ c ∈ "b".toList, isWordChar c := Text.forall_of_all (by decide)
  have hfound : findIdentifier? "ab b$\r\nb".toList "b".toList ⟨0, 1⟩ =
      some (rangeAt "b".toList 1 0) := by decide
  obtain ⟨hfirst, -, hlook, hback⟩ :=
    lookup_agrees_search "ab b$\r\nb".toList (List.cons_ne_nil 'b' []) hw ⟨0, 1⟩
  exact ⟨List.cons_ne_nil 'b' [], hw, hfound, (hfirst _).1 hfound,
    hlook _ hfound ⟨1, 1⟩ rfl (by decide) (by decide), hback ⟨0, 5⟩ "b$".toList (by decide)⟩

end Editor
end Pinout
