import Pinout.Proofs.Note.Separator

/-!
# Pinout.Proofs.Note.Indented

A document with spaces in front of all its lines. It is the same document further to the right
(`ofLines_shifted`), if the spaces are a whole number of tab stops or no line is indented by tabs.

Columns of tabs move along (`columnAfterIndent_add`), so the indentation of every line grows by the
spaces, and the lines of a payload lose just the spaces with it (`stripIndent_indented`). What is
read of a line otherwise does not depend on the blanks in front of it.
-/

namespace Pinout
namespace Note

/-- No tab is among the spaces and tabs at the head of the line. -/
def Untabbed (line : Text) : Prop := '\t' ∉ line.takeWhile fun c => c == ' ' || c == '\t'

/-- The line behind `n` spaces. -/
def indented (n : Nat) (line : Text) : Text := Text.spaces n ++ line

/-- Tabs of the line reach the next stop from `n` columns further on as well. -/
def Shifts (n : Nat) (line : Text) : Prop := tabWidth ∣ n ∨ Untabbed line

def Segment.shift (n : Nat) (s : Segment) : Segment := { s with indent := s.indent + n }

def Document.shift (n : Nat) (d : Document) : Document := ⟨d.segments.map (·.shift n), d.hasWave⟩

def Reading.shift (n : Nat) (r : Reading) : Reading := ⟨r.toDocument.shift n, r.warnings⟩

def Wave.Opening.shift (n : Nat) (o : Opening) : Opening := { o with indent := o.indent + n }

def Table.Start.shift (n : Nat) : Start → Start
  | none => none
  | mismatch head align => mismatch head align
  | table indent head align => table (indent + n) head align

/-! ## Columns -/

section

variable {n : Nat} {line : Text}

theorem shifts_of_prefix {t : Text} (h : Shifts n line) (ht : t <+: line) : Shifts n t := by
  refine h.imp_right fun hu hm => hu ?_
  obtain ⟨r, rfl⟩ := ht
  rw [List.takeWhile_append]
  split
  · exact List.mem_append_left _ (List.takeWhile_sublist _ |>.subset hm)
  · exact hm

theorem shifts_tail {c : Char} (h : Shifts n (c :: line)) (hc : c = ' ' ∨ c = '\t') :
    Shifts n line := by
  refine h.imp_right fun hu hm => hu ?_
  rw [List.takeWhile_cons_of_pos (by simpa using hc)]
  exact List.mem_cons_of_mem _ hm

theorem nextColumn?_add {c : Char} (h : Shifts n (c :: line)) (column : Nat) :
    nextColumn? (column + n) c = (nextColumn? column c).map (· + n) := by
  unfold nextColumn?
  split
  · simp
    omega
  · split
    · next hc =>
      have hn : tabWidth ∣ n := by
        refine h.resolve_right fun hu => hu ?_
        simp [hc]
      have hmod : (column + n) % tabWidth = column % tabWidth := by
        obtain ⟨k, rfl⟩ := hn
        exact Nat.add_mul_mod_self_left column tabWidth k
      rw [hmod]
      simp
      omega
    · rfl

theorem isIndent_of_nextColumn? {column next : Nat} {c : Char}
    (h : nextColumn? column c = some next) : c = ' ' ∨ c = '\t' := by
  unfold nextColumn? at h
  split at h
  · exact .inl ‹_›
  · split at h
    · exact .inr ‹_›
    · cases h

theorem columnAfterIndent_add (h : Shifts n line) (column : Nat) :
    columnAfterIndent (column + n) line = columnAfterIndent column line + n := by
  induction line generalizing column with
  | nil => rfl
  | cons c line ih =>
    rw [columnAfterIndent, columnAfterIndent, nextColumn?_add h]
    cases hn : nextColumn? column c with
    | none => rfl
    | some next => exact ih (shifts_tail h (isIndent_of_nextColumn? hn)) next

theorem le_columnAfterIndent (column : Nat) (t : Text) : column ≤ columnAfterIndent column t := by
  induction t generalizing column with
  | nil => exact Nat.le_refl _
  | cons c t ih =>
    rw [columnAfterIndent]
    split
    · next next hn =>
      have := le_nextColumn hn
      have := ih next
      omega
    · exact Nat.le_refl _

theorem columnAfterIndent_indented (n column : Nat) (line : Text) :
    columnAfterIndent column (indented n line) = columnAfterIndent (column + n) line := by
  induction n generalizing column with
  | zero => rfl
  | succ n ih =>
    show columnAfterIndent (column + 1) (indented n line) = _
    rw [ih]
    congr 1
    omega

theorem indentOf_indented (h : Shifts n line) : indentOf (indented n line) = indentOf line + n := by
  have := le_columnAfterIndent markerWidth line
  rw [indentOf, columnAfterIndent_indented, columnAfterIndent_add h, indentOf]
  omega

theorem stripIndentFrom_add (h : Shifts n line) {column : Nat} (hc : markerWidth ≤ column)
    (limit : Nat) :
    stripIndentFrom (column + n) (limit + n) line = stripIndentFrom column limit line := by
  induction line generalizing column with
  | nil => rfl
  | cons c line ih =>
    rw [stripIndentFrom, stripIndentFrom, nextColumn?_add h]
    cases hn : nextColumn? column c with
    | none => rfl
    | some next =>
      have hlt := le_nextColumn hn
      have hiff : limit + n < next + n - markerWidth ↔ limit < next - markerWidth := by omega
      simp only [Option.map_some, hiff,
        ih (shifts_tail h (isIndent_of_nextColumn? hn)) (by omega : markerWidth ≤ next)]

theorem stripIndentFrom_indented (n : Nat) {column limit : Nat} (hl : column + n ≤ limit + markerWidth)
    (line : Text) :
    stripIndentFrom column limit (indented n line) = stripIndentFrom (column + n) limit line := by
  induction n generalizing column with
  | zero => rfl
  | succ n ih =>
    show (if limit < column + 1 - markerWidth then _ else
      stripIndentFrom (column + 1) limit (indented n line)) = _
    rw [if_neg (by omega), ih (by omega)]
    congr 1
    omega

theorem stripIndent_indented (h : Shifts n line) (limit : Nat) :
    stripIndent (limit + n) (indented n line) = stripIndent limit line := by
  rw [stripIndent, stripIndentFrom_indented n (by omega), stripIndentFrom_add h (Nat.le_refl _)]
  rfl

theorem trim_indented (n : Nat) (line : Text) : (indented n line).trim = line.trim :=
  Text.trim_append (Text.allBlank_spaces n) line

end

/-! ## Tables -/

section

variable {n : Nat}

namespace Table

theorem isRow_indented (n : Nat) (line : Text) : isRow (indented n line) = isRow line := by
  rw [isRow, trim_indented, isRow]

theorem isAlignRow_indented (n : Nat) (line : Text) :
    isAlignRow (indented n line) = isAlignRow line := by
  rw [isAlignRow, trim_indented, isAlignRow]

theorem cells_indented (n : Nat) (line : Text) : cells (indented n line) = cells line := by
  rw [cells, trim_indented, cells]

theorem isRowAt_indented {line : Text} (h : Shifts n line) (indent : Nat) :
    isRowAt (indent + n) (indented n line) = isRowAt indent line := by
  have hiff : (indentOf line + n == indent + n) = (indentOf line == indent) := by
    rw [Bool.eq_iff_iff, beq_iff_eq, beq_iff_eq]
    omega
  rw [isRowAt, isRow_indented, indentOf_indented h, hiff, isRowAt]

theorem start_indented {first second third : Text} (h₁ : Shifts n first) (h₂ : Shifts n second)
    (h₃ : Shifts n third) :
    start (indented n first) (indented n second) (indented n third) =
      (start first second third).shift n := by
  have hiff : (indentOf second + n == indentOf first + n) = (indentOf second == indentOf first) := by
    rw [Bool.eq_iff_iff, beq_iff_eq, beq_iff_eq]
    omega
  simp only [start, isRow_indented, isAlignRow_indented, cells_indented, indentOf_indented h₁,
    indentOf_indented h₂, isRowAt_indented h₃, hiff]
  split
  · split <;> rfl
  · rfl

end Table

/-- Taking items while they pass commutes with a change that the test does not see. -/
theorem takeWhile_map_of_forall {α β : Type} {f : α → β} {p : β → Bool} {q : α → Bool} {xs : List α}
    (h : ∀ x ∈ xs, p (f x) = q x) :
    (xs.map f).takeWhile p = (xs.takeWhile q).map f ∧
      (xs.map f).dropWhile p = (xs.dropWhile q).map f := by
  induction xs with
  | nil => exact ⟨rfl, rfl⟩
  | cons x xs ih =>
    obtain ⟨ht, hd⟩ := ih fun y hy => h y (List.mem_cons_of_mem _ hy)
    simp only [List.map_cons, List.takeWhile_cons, List.dropWhile_cons, h x List.mem_cons_self, ht, hd]
    split <;> simp

namespace Reading

theorem shift_append (n : Nat) (a b : Reading) : (a ++ b).shift n = a.shift n ++ b.shift n := by
  show Reading.mk ⟨_, _⟩ _ = Reading.mk ⟨_, _⟩ _
  rw [segments_append, List.map_append]
  rfl

theorem shift_empty (n : Nat) : empty.shift n = empty := rfl

theorem shift_warning (n : Nat) (w : Warning) : (warning w).shift n = warning w := rfl

theorem ofLine_indented {line : Text} (h : Shifts n line) :
    ofLine (indented n line) = (ofLine line).shift n := by
  rw [ofLine, classify?, trim_indented, ← classify?, indentOf_indented h, ofLine]
  cases classify? line <;> rfl

theorem ofLines_indented {lines : List Text} (h : ∀ line ∈ lines, Shifts n line) (number : Nat) :
    ofLines number (lines.map (indented n)) = (ofLines number lines).shift n := by
  fun_induction ofLines number lines with
  | case1 number first second third rest indent head align hs rows body ih =>
    simp only [List.forall_mem_cons] at h
    obtain ⟨h₁, h₂, h₃, hrest⟩ := h
    obtain ⟨ht, hd⟩ := takeWhile_map_of_forall (f := indented n) (p := Table.isRowAt (indent + n))
      (q := Table.isRowAt indent) fun line hl => Table.isRowAt_indented (hrest line hl) indent
    have hbody : ((indented n third :: (rest.map (indented n)).takeWhile
        (Table.isRowAt (indent + n))).map fun row => Table.fitTo head.length (Table.cells row)) =
          body := by
      rw [ht, ← List.map_cons, List.map_map]
      exact List.map_congr_left fun row _ => by simp [Table.cells_indented]
    have hlen : (indented n third :: (rest.map (indented n)).takeWhile
        (Table.isRowAt (indent + n))).length = rows.length := by
      rw [ht, ← List.map_cons, List.length_map]
    have ih := ih fun line hl => hrest line ((List.dropWhile_sublist _).subset hl)
    rw [List.map_cons, List.map_cons, List.map_cons, ofLines, Table.start_indented h₁ h₂ h₃, hs]
    dsimp only [Table.Start.shift]
    rw [hbody, hlen, hd, ih, shift_append]
    rfl
  | case2 number first second third rest head align hs ih =>
    have h' := h
    simp only [List.forall_mem_cons] at h'
    obtain ⟨h₁, h₂, h₃, hrest⟩ := h'
    have ih := ih fun line hl => h line (List.mem_cons_of_mem _ hl)
    rw [List.map_cons, List.map_cons, List.map_cons, ofLines, Table.start_indented h₁ h₂ h₃, hs]
    dsimp only [Table.Start.shift]
    rw [← List.map_cons, ← List.map_cons, ih, ofLine_indented h₁, shift_append, shift_append,
      shift_warning]
  | case3 number first second third rest hs ih =>
    have h' := h
    simp only [List.forall_mem_cons] at h'
    obtain ⟨h₁, h₂, h₃, hrest⟩ := h'
    have ih := ih fun line hl => h line (List.mem_cons_of_mem _ hl)
    rw [List.map_cons, List.map_cons, List.map_cons, ofLines, Table.start_indented h₁ h₂ h₃, hs]
    dsimp only [Table.Start.shift]
    rw [← List.map_cons, ← List.map_cons, ih, ofLine_indented h₁, shift_append]
  | case4 number first rest hr ih =>
    have ih := ih fun line hl => h line (List.mem_cons_of_mem _ hl)
    have hr' : ∀ second third more, rest.map (indented n) ≠ second :: third :: more := by
      intro second third more he
      cases rest with
      | nil => cases he
      | cons a rest =>
        cases rest with
        | nil => cases he
        | cons b rest => exact hr a b rest rfl
    rw [List.map_cons, ofLines.eq_def]
    split
    · next he =>
      obtain ⟨_, he⟩ := List.cons.inj he
      exact absurd he (hr' _ _ _)
    · next he =>
      obtain ⟨rfl, rfl⟩ := List.cons.inj he
      rw [ih, ofLine_indented (h first List.mem_cons_self), shift_append]
    · next he => cases he
  | case5 => rw [List.map_nil, ofLines, shift_empty]

end Reading

/-! ## Wave blocks -/

namespace Wave

theorem splitAround?_indented (n : Nat) (p line : Text) :
    Text.splitAround? ('<' :: p) (indented n line) =
      (Text.splitAround? ('<' :: p) line).map fun (before, after) => (indented n before, after) := by
  induction n with
  | zero =>
    show Text.splitAround? ('<' :: p) line = _
    cases Text.splitAround? ('<' :: p) line <;> rfl
  | succ n ih =>
    have hn : Text.dropLead? ('<' :: p) (' ' :: indented n line) = none := if_neg (by decide)
    show Text.splitAround? ('<' :: p) (' ' :: indented n line) = _
    rw [Text.splitAround?, hn, ih]
    simp [Option.map_map]
    rfl

/-- An opening that stands `n` characters further on in the line. -/
def placeShift (n : Nat) (o : Nat × Opening) : Nat × Opening := (n + o.1, o.2.shift n)

theorem openingOf?_indented {line : Text} (h : Shifts n line) (tag : Text × Format) :
    openingOf? (indented n line) tag = (openingOf? line tag).map (placeShift n) := by
  rw [openingOf?, List.cons_append, splitAround?_indented, openingOf?, List.cons_append,
    indentOf_indented h, Option.map_map, Option.map_map]
  congr 1
  funext cut
  simp [placeShift, Opening.shift, indented, Text.spaces]

theorem firstOf_map_placeShift (n : Nat) (os : List (Nat × Opening)) :
    firstOf (os.map (placeShift n)) = (firstOf os).map (placeShift n) := by
  induction os with
  | nil => rfl
  | cons o os ih =>
    rw [List.map_cons, firstOf, firstOf, ih]
    cases firstOf os with
    | none => rfl
    | some p =>
      have hiff : n + p.1 < n + o.1 ↔ p.1 < o.1 := by omega
      simp only [Option.map_some, placeShift, hiff]
      split <;> rfl

theorem opening?_indented {line : Text} (h : Shifts n line) :
    opening? (indented n line) = (opening? line).map (·.shift n) := by
  have hall : tags.filterMap (openingOf? (indented n line)) =
      (tags.filterMap (openingOf? line)).map (placeShift n) := by
    rw [List.map_filterMap]
    congr 1
    funext tag
    exact openingOf?_indented h tag
  rw [opening?, hall, firstOf_map_placeShift, opening?, Option.map_map, Option.map_map]
  rfl

theorem firstOpening?_indented {lines : List Text} (h : ∀ line ∈ lines, Shifts n line) :
    firstOpening? (lines.map (indented n)) = (firstOpening? lines).map fun (before, o, behind) =>
      (before.map (indented n), o.shift n, behind.map (indented n)) := by
  induction lines with
  | nil => rfl
  | cons line lines ih =>
    have ih := ih fun l hl => h l (List.mem_cons_of_mem _ hl)
    rw [List.map_cons, firstOpening?, opening?_indented (h line List.mem_cons_self), ih,
      firstOpening?]
    cases opening? line with
    | some o => rfl
    | none =>
      simp only [Option.map_none, Option.map_map]
      rfl

theorem untilClosing?_indented {lines : List Text} (h : ∀ line ∈ lines, Shifts n line)
    (o : Opening) :
    untilClosing? (o.shift n) (lines.map (indented n)) =
      (untilClosing? o lines).map fun (body, rest) => (body, rest.map (indented n)) := by
  have hclosing : closing (o.shift n) = '<' :: ('/' :: (o.tag ++ ['>'])) := rfl
  induction lines with
  | nil => rfl
  | cons line lines ih =>
    have ih := ih fun l hl => h l (List.mem_cons_of_mem _ hl)
    have hline := h line List.mem_cons_self
    rw [List.map_cons, untilClosing?, hclosing, splitAround?_indented, ih, untilClosing?,
      show closing o = '<' :: ('/' :: (o.tag ++ ['>'])) from rfl]
    cases hs : Text.splitAround? ('<' :: ('/' :: (o.tag ++ ['>']))) line with
    | some cut =>
      have hb : Shifts n cut.1 := by
        have hcat := Text.append_of_splitAround? hs
        rw [List.append_assoc] at hcat
        exact shifts_of_prefix hline ⟨_, hcat.symm⟩
      simp only [Option.map_some, Opening.shift, stripIndent_indented hb]
    | none =>
      simp only [Option.map_none, Option.map_map, Opening.shift, stripIndent_indented hline]
      rfl

theorem body?_indented {lines : List Text} (h : ∀ line ∈ lines, Shifts n line) (o : Opening) :
    body? (o.shift n) (lines.map (indented n)) =
      (body? o lines).map fun cut => (cut.1, cut.2.map (indented n)) := by
  have hsame : Text.splitAround? (closing (o.shift n)) (o.shift n).rest =
      Text.splitAround? (closing o) o.rest := rfl
  rw [body?, untilClosing?_indented h, body?, hsame]
  cases Text.splitAround? (closing o) o.rest with
  | some cut => rfl
  | none =>
    simp only [Option.map_map]
    rfl

end Wave

/-! ## Documents -/

namespace Reading

theorem ofPayload_shift (o : Wave.Opening) (t : Text) :
    ofPayload (o.shift n) t = (ofPayload o t).shift n := by
  have hsame : Wave.payload (o.shift n).format t = Wave.payload o.format t := rfl
  rw [ofPayload, ofPayload, hsame]
  cases Wave.payload o.format t <;> rfl

theorem ofBlocks_indented {lines : List Text} (h : ∀ line ∈ lines, Shifts n line) (number : Nat) :
    ofBlocks number (lines.map (indented n)) = (ofBlocks number lines).shift n := by
  induction lines using blocks_induction generalizing number with
  | none lines hn =>
    have hn' : Wave.firstOpening? (lines.map (indented n)) = none := by
      rw [Wave.firstOpening?_indented h, hn]
      rfl
    rw [ofBlocks_none hn', ofBlocks_none hn, ofLines_indented h]
  | block lines before o behind t rest ho hb ih =>
    obtain ⟨first, _, rfl⟩ := Wave.exists_line_of_firstOpening? ho
    have hbefore : ∀ line ∈ before, Shifts n line := fun line hl => h line (by simp [hl])
    have hbehind : ∀ line ∈ behind, Shifts n line := fun line hl => h line (by simp [hl])
    have hrest : ∀ line ∈ rest, Shifts n line := fun line hl =>
      hbehind line ((Wave.suffix_of_body? hb).subset hl)
    have ho' := Wave.firstOpening?_indented h
    have hb' := Wave.body?_indented hbehind o
    rw [ho] at ho'
    rw [hb] at hb'
    rw [ofBlocks_block ho' hb', ofBlocks_block ho hb, shift_append, shift_append, List.length_map,
      List.length_map, ofLines_indented hbefore, ofPayload_shift, ih hrest]
  | unclosed lines before o behind ho hb =>
    obtain ⟨first, _, rfl⟩ := Wave.exists_line_of_firstOpening? ho
    have hbefore : ∀ line ∈ before, Shifts n line := fun line hl => h line (by simp [hl])
    have hbehind : ∀ line ∈ behind, Shifts n line := fun line hl => h line (by simp [hl])
    have ho' := Wave.firstOpening?_indented h
    have hb' := Wave.body?_indented hbehind o
    rw [ho] at ho'
    rw [hb] at hb'
    rw [ofBlocks_unclosed ho' hb', ofBlocks_unclosed ho hb, List.length_map, shift_append,
      ofLines_indented hbefore, shift_warning]

end Reading

end

namespace Document

/-- With `n` spaces in front of every line each segment stands `n` columns further to the right, and
nothing else changes, nor do the warnings. -/
theorem ofLines_shifted {n : Nat} {lines : List Text}
    (h : tabWidth ∣ n ∨ ∀ line ∈ lines, Untabbed line) :
    ofLines (lines.map (Text.spaces n ++ ·)) = ((ofLines lines).1.shift n, (ofLines lines).2) := by
  have hs : ∀ line ∈ lines, Shifts n line := by
    intro line hl
    exact h.imp_right fun hu => hu line hl
  have hread := Reading.ofBlocks_indented hs 1
  rw [ofLines, show lines.map (Text.spaces n ++ ·) = lines.map (indented n) from rfl, hread]
  rfl

/-- A payload whose lines lose a tab or four spaces, and a table without tabs in front of it. -/
theorem ofLines_shifted_tabs :
    tabWidth ∣ 4 ∧
    ofLines ["    \t<wave_yaml>".toList, "    \t  a:".toList, "        - 1".toList,
        "    \t</wave_yaml>|".toList] =
      ((ofLines ["\t<wave_yaml>".toList, "\t  a:".toList, "    - 1".toList,
          "\t</wave_yaml>|".toList]).1.shift 4,
        (ofLines ["\t<wave_yaml>".toList, "\t  a:".toList, "    - 1".toList,
          "\t</wave_yaml>|".toList]).2) ∧
    (∀ line ∈ [" x|\ty".toList, " ---|--:".toList, " 1|2".toList, "1|2".toList], Untabbed line) ∧
    (ofLines ["  x|\ty".toList, "  ---|--:".toList, "  1|2".toList,
      " 1|2".toList]).1.segments.map (·.indent) = [2, 1] := by
  have hstop : tabWidth ∣ 4 := Nat.dvd_refl 4
  have hnone : ∀ line ∈ [" x|\ty".toList, " ---|--:".toList, " 1|2".toList, "1|2".toList],
      Untabbed line := by
    unfold Untabbed
    decide
  have hpayload := @ofLines_shifted 4 ["\t<wave_yaml>".toList, "\t  a:".toList, "    - 1".toList,
    "\t</wave_yaml>|".toList] (.inl hstop)
  have htable := congrArg (·.1.segments.map (·.indent)) (ofLines_shifted (n := 1) (.inr hnone))
  exact ⟨hstop, hpayload, hnone, htable.trans (by decide +kernel)⟩

end Document
end Note
end Pinout
