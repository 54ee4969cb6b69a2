import Pinout.Proofs.Text.Blank
import Pinout.Proofs.Text.Line
import Pinout.Snippet.Column

/-!
# Pinout.Proofs.Snippet.Column

Generated code line by line. A column that is wide enough for all of its texts has one width in all
lines (`connects_connection`), and a list of lines written one after the other is read back as these
lines, as no text in them breaks off its line (`splitNewlines_separated`).
-/

namespace Pinout
namespace Snippet

open Text (spaces padRight padLeft splitNewlines)

/-- The line connects a name to a value. Blanks fill up the name to the parenthesis at the column
`opening`, and the value to the one at the column `closing`, behind which the rest stands. -/
def Connects (opening closing : Nat) (name value rest line : Text) : Prop :=
  ∃ i j, line = "        .".toList ++ name ++ spaces i ++ '(' :: (value ++ spaces j ++ ')' :: rest) ∧
    opening = 9 + name.length + i ∧ closing = opening + 1 + value.length + j

/-- Each item has a line that connects it, in the same columns. A comma stands behind each connection
but the last, behind which `last` stands. -/
structure Connections {α : Type} (name value comment : α → Text) (last : Text) (items : List α)
    (lines : List Text) (opening closing : Nat) : Prop where
  length : lines.length = items.length
  line : ∀ i item, items[i]? = some item → ∃ line, lines[i]? = some line ∧
    Connects opening closing (name item) (value item)
      ((if i + 1 = items.length then last else [',']) ++ comment item) line

/-! ## Columns -/

theorem le_nameWidth {names : List Text} {name : Text} (h : name ∈ names) :
    name.length ≤ nameWidth names := by
  have hlongest := length_le_longest h
  rw [nameWidth, tabStop]
  omega

theorem padRight_eq (width : Nat) (t : Text) :
    padRight width t = t ++ spaces (width - t.length) := rfl

theorem length_spaces (n : Nat) : (spaces n).length = n := List.length_replicate

theorem connects_connection {width valueWidth : Nat} {name value : Text} (hn : name.length ≤ width)
    (hv : value.length ≤ valueWidth) (rest : Text) :
    Connects (9 + width) (10 + width + valueWidth) name value rest
      (connection width valueWidth name value ++ rest) := by
  refine ⟨width - name.length, valueWidth - value.length, ?_, by omega, by omega⟩
  unfold connection
  simp only [padRight_eq, List.append_assoc, List.cons_append, List.nil_append]

/-- Two marks of a line at their columns, with the text between them and the text from the second one
on. -/
theorem columns_of_marks {t a b rest : Text} {c d : Char} {first second : Nat}
    (h : t = a ++ c :: (b ++ d :: rest)) (hf : first = a.length)
    (hs : second = first + 1 + b.length) :
    t[first]? = some c ∧ t[second]? = some d ∧ (t.take second).drop (first + 1) = b ∧
      t.drop second = d :: rest := by
  have hfirst : t = a ++ c :: (b ++ d :: rest) ∧ a.length = first := ⟨h, hf.symm⟩
  have hsecond : t = a ++ [c] ++ b ++ d :: rest ∧ (a ++ [c] ++ b).length = second := by
    refine ⟨by rw [h]; simp, ?_⟩
    simp only [List.length_append, List.length_singleton]
    omega
  have hdrop : t.drop second = d :: rest := by rw [hsecond.1, List.drop_left' hsecond.2]
  refine ⟨?_, ?_, ?_, hdrop⟩
  · rw [hfirst.1, ← List.head?_drop, List.drop_left' hfirst.2]
    rfl
  · rw [← List.head?_drop, hdrop]
    rfl
  · rw [hsecond.1, List.take_left' hsecond.2]
    exact List.drop_left' (by rw [List.length_append, hfirst.2]; rfl)

theorem Connects.columns {opening closing : Nat} {name value rest t : Text}
    (h : Connects opening closing name value rest t) :
    t[opening]? = some '(' ∧ t[closing]? = some ')' ∧
      (∃ j, (t.take closing).drop (opening + 1) = value ++ spaces j) ∧
      t.drop closing = ')' :: rest := by
  obtain ⟨i, j, hline, ho, hc⟩ := h
  have hmark : "        .".toList.length = 9 := by decide
  obtain ⟨hopen, hclose, hbetween, hrest⟩ := @columns_of_marks t _ (value ++ spaces j) rest '(' ')'
    opening closing hline (by simp only [List.length_append, hmark, length_spaces, ho])
    (by simp only [List.length_append, length_spaces]; omega)
  exact ⟨hopen, hclose, ⟨j, hbetween⟩, hrest⟩

/-! ## Lines -/

theorem not_mem_padRight {c : Char} (hc : c ≠ ' ') {t : Text} (h : c ∉ t) (width : Nat) :
    c ∉ padRight width t := by
  rw [padRight_eq, List.mem_append, not_or]
  exact ⟨h, Text.not_mem_spaces hc _⟩

theorem not_mem_padLeft {c : Char} (hc : c ≠ ' ') {t : Text} (h : c ∉ t) (width : Nat) :
    c ∉ padLeft width t := by
  rw [padLeft, List.mem_append, not_or]
  exact ⟨Text.not_mem_spaces hc _, h⟩

theorem not_mem_connection (width valueWidth : Nat) {name value : Text} (hn : '\n' ∉ name)
    (hv : '\n' ∉ value) : '\n' ∉ connection width valueWidth name value := by
  have hfront : '\n' ∉ "        .".toList := by decide
  have hchars : ∀ c ∈ ['(', ')'], '\n' ≠ c := by simp
  unfold connection
  simp only [List.mem_append, List.mem_cons, List.not_mem_nil, or_false, not_or]
  exact ⟨⟨⟨hfront, not_mem_padRight (by decide) hn _⟩, hchars _ (by simp),
    not_mem_padRight (by decide) hv _⟩, hchars _ (by simp)⟩

theorem splitNewlines_line {t : Text} (h : '\n' ∉ t) (u : Text) :
    splitNewlines (t ++ '\n' :: u) = t :: splitNewlines u := by
  rw [Text.splitNewlines_append_newline, Text.splitNewlines_of_not_mem h, List.singleton_append]

theorem splitNewlines_lineOf {parts : List Text} (h : ∀ part ∈ parts, '\n' ∉ part) (u : Text) :
    splitNewlines (lineOf parts ++ u) = parts.flatten :: splitNewlines u := by
  have hflat : '\n' ∉ parts.flatten := by simpa using h
  rw [lineOf, List.append_assoc]
  exact splitNewlines_line hflat u

theorem splitNewlines_flatMap {α : Type} {parts : α → List Text} {items : List α}
    (h : ∀ item ∈ items, ∀ part ∈ parts item, '\n' ∉ part) (u : Text) :
    splitNewlines (items.flatMap (fun item => lineOf (parts item)) ++ u) =
      items.map (fun item => (parts item).flatten) ++ splitNewlines u := by
  induction items with
  | nil => rfl
  | cons item items ih =>
    obtain ⟨hitem, hitems⟩ := List.forall_mem_cons.1 h
    rw [List.flatMap_cons, List.append_assoc, splitNewlines_lineOf hitem, ih hitems]
    rfl

/-! ## Separated lines -/

section Separated

variable {α : Type} (last : Text)

/-- The items, each with the separator that is passed to its line. -/
def withSeparators : List α → List (α × Text)
  | [] => []
  | [item] => [(item, last)]
  | item :: next :: items => (item, [',']) :: withSeparators (next :: items)

theorem separated_eq (line : α → Text → Text) (items : List α) :
    separated last line items = (withSeparators last items).flatMap fun r => line r.1 r.2 := by
  fun_induction withSeparators last items with
  | case1 => rfl
  | case2 item => simp [separated]
  | case3 item next items ih => rw [separated, ih, List.flatMap_cons]

theorem getElem?_withSeparators (items : List α) (i : Nat) : (withSeparators last items)[i]? =
    items[i]?.map fun item => (item, if i + 1 = items.length then last else [',']) := by
  fun_induction withSeparators last items generalizing i with
  | case1 => rfl
  | case2 item => cases i <;> rfl
  | case3 item next items ih =>
    cases i with
    | zero => simp
    | succ i => simp [ih]

theorem length_withSeparators (items : List α) :
    (withSeparators last items).length = items.length := by
  fun_induction withSeparators last items with
  | case1 => rfl
  | case2 item => rfl
  | case3 item next items ih => rw [List.length_cons, ih]; rfl

theorem mem_of_mem_withSeparators {items : List α} {r : α × Text} (h : r ∈ withSeparators last items) :
    r.1 ∈ items ∧ (r.2 = last ∨ r.2 = [',']) := by
  obtain ⟨i, hi⟩ := List.mem_iff_getElem?.1 h
  rw [getElem?_withSeparators, Option.map_eq_some_iff] at hi
  obtain ⟨item, hitem, rfl⟩ := hi
  refine ⟨List.mem_of_getElem? hitem, ?_⟩
  dsimp only
  split
  · exact .inl rfl
  · exact .inr rfl

variable {last}

/-- Connections written one after the other are read back line by line, in columns. -/
theorem connections_separated {width valueWidth : Nat} {name value : α → Text}
    {comments : α → List Text} {items : List α}
    (hwidth : ∀ item ∈ items, (name item).length ≤ width ∧ (value item).length ≤ valueWidth)
    (hlast : '\n' ∉ last) (hitems : ∀ item ∈ items,
      '\n' ∉ name item ∧ '\n' ∉ value item ∧ ∀ t ∈ comments item, '\n' ∉ t) :
    ∃ lines, (∀ u, splitNewlines (separated last (fun item separator =>
        lineOf (connection width valueWidth (name item) (value item) :: separator :: comments item))
        items ++ u) = lines ++ splitNewlines u) ∧
      Connections name value (fun item => (comments item).flatten) last items lines (9 + width)
        (10 + width + valueWidth) := by
  let parts (r : α × Text) : List Text :=
    connection width valueWidth (name r.1) (value r.1) :: r.2 :: comments r.1
  have hparts : ∀ r ∈ withSeparators last items, ∀ part ∈ parts r, '\n' ∉ part := by
    intro r hr
    obtain ⟨hitem, hseparator⟩ := mem_of_mem_withSeparators last hr
    obtain ⟨hn, hv, hc⟩ := hitems r.1 hitem
    refine List.forall_mem_cons.2 ⟨not_mem_connection _ _ hn hv, List.forall_mem_cons.2 ⟨?_, hc⟩⟩
    rcases hseparator with h | h
    · rwa [h]
    · rw [h]
      decide
  refine ⟨(withSeparators last items).map fun r => (parts r).flatten, fun u => ?_, ?_, ?_⟩
  · rw [separated_eq, splitNewlines_flatMap hparts]
  · rw [List.length_map, length_withSeparators]
  · intro i item hi
    have hmem := List.mem_of_getElem? hi
    rw [List.getElem?_map, getElem?_withSeparators, hi]
    exact ⟨_, rfl, connects_connection (hwidth item hmem).1 (hwidth item hmem).2 _⟩

end Separated

end Snippet
end Pinout
