import Pinout.Proofs.Json.Compact
import Pinout.Proofs.Note.Marker
import Pinout.Proofs.Note.Separator

/-!
# Pinout.Proofs.Note.Printed

Documents printed and read back. A document is printed from blocks, each a line of text, a table or
a wave diagram, at an indentation of its own and with any blank lines above it. Reading gives back
one segment for each block (`ofLines_printed`), as long as no table stands directly below another.

Each kind of block has a lemma that takes its lines off the front of what is read
(`blockSegments_text`, `blockSegments_table`, `blockSegments_wave`).
-/

namespace Pinout
namespace Note

/-! ## Lines of text -/

/-- What a line of text is, by the way it starts. -/
inductive Form where
  | plain
  | header
  | item

namespace Form

def Fits (t : Text) : Form → Prop
  | plain => ¬ IsHeading t ∧ ¬ IsItem t
  | header => IsHeading t
  | item => IsItem t

def content (t : Text) : Form → Content
  | plain => .plain t
  | header => .header t
  | item => .item t

/-- A number sign is no marker. -/
theorem not_isHeading_of_isItem {t : Text} (h : IsItem t) : ¬ IsHeading t := by
  rintro ⟨d, r, _, rfl⟩
  obtain ⟨marker, c, rest, hm, _, he⟩ := h
  cases hm with
  | sign hs =>
    cases he
    exact absurd hs (by decide)
  | number hne hd =>
    obtain ⟨e, es, rfl⟩ := List.exists_cons_of_ne_nil hne
    obtain ⟨rfl, _⟩ := List.cons.inj he
    cases hd '#' List.mem_cons_self

/-- Every text has a form. -/
theorem exists_fits (t : Text) : ∃ form : Form, form.Fits t := by
  by_cases hh : IsHeading t
  · exact ⟨header, hh⟩
  · by_cases hi : IsItem t
    · exact ⟨item, hi⟩
    · exact ⟨plain, hh, hi⟩

theorem classify?_eq {form : Form} {t line : Text} (h : form.Fits t) (ht : line.trim = t)
    (hne : t ≠ []) : classify? line = some (form.content t) := by
  subst ht
  simp only [classify?, if_neg hne]
  cases form with
  | plain => rw [if_neg (isHeader_iff.not.2 h.1), if_neg (isSome_afterItemMarker?_iff.not.2 h.2)]; rfl
  | header => rw [if_pos (isHeader_iff.2 h)]; rfl
  | item =>
    rw [if_neg (isHeader_iff.not.2 (not_isHeading_of_isItem h)),
      if_pos (isSome_afterItemMarker?_iff.2 h)]
    rfl

end Form

/-! ## Blocks -/

inductive Block where
  | text (form : Form) (t : Text)
  | table (table : Table)
  | wave (payload : Json)

/-- A block with its indentation, and the blank lines above it. -/
structure Placed where
  above : List Text
  indent : Nat
  block : Block

/-- No wave block opens in the text. -/
def Tagless (t : Text) : Prop := ∀ tag ∈ Wave.tags, ¬ '<' :: tag.1 ++ ['>'] <:+: t

namespace Block

def content : Block → Content
  | text form t => form.content t
  | table t => .table t
  | wave v => .wave v

/-- The lines of a block without indentation. -/
def lines : Block → List Text
  | text _ t => [t]
  | table t => Table.row t.head :: Table.row (t.align.map Table.token) :: t.body.map Table.row
  | wave v => ["<wave>".toList, v.compact, "</wave>".toList]

abbrev IsTable (b : Block) : Prop := b.content.isTable

/-- The blocks that can be printed. -/
def Valid : Block → Prop
  | text form t => t.trim = t ∧ t ≠ [] ∧ '|' ∉ t ∧ Tagless t ∧ form.Fits t
  | table t => t.head ≠ [] ∧ t.align.length = t.head.length ∧ t.body ≠ [] ∧
      (∀ row ∈ t.body, row.length = t.head.length) ∧
      ∀ row ∈ t.head :: t.body, ∀ cell ∈ row, cell.trim = cell ∧ Tagless (Table.escapePipes cell)
  | wave v => v.isObject ∧ v.isIntegral ∧ ¬ "</wave>".toList <:+: v.compact

end Block

namespace Placed

def lines (p : Placed) : List Text := p.above ++ p.block.lines.map (Text.spaces p.indent ++ ·)

def segment (p : Placed) : Segment := ⟨p.indent, p.block.content⟩

structure Valid (p : Placed) : Prop where
  above : ∀ line ∈ p.above, line.allBlank
  block : p.block.Valid

end Placed

/-- No table stands directly below another one. -/
def Separated : List Placed → Prop
  | p :: q :: rest => (p.block.IsTable → q.block.IsTable → q.above ≠ []) ∧ Separated (q :: rest)
  | _ => True

namespace Reading

theorem blockSegments_nil : blockSegments [] = [] := by
  rw [blockSegments_none rfl, textSegments_nil]

theorem blockSegments_blanks {above : List Text} (h : ∀ line ∈ above, line.allBlank)
    (rest : List Text) : blockSegments (above ++ rest) = blockSegments rest := by
  induction above with
  | nil => rfl
  | cons line above ih =>
    have hl := h line List.mem_cons_self
    have := @blockSegments_tail_blank [] line rfl hl (above ++ rest)
    rw [List.nil_append] at this
    rw [List.cons_append, this, blockSegments_nil, List.nil_append,
      ih fun l hm => h l (List.mem_cons_of_mem _ hm)]

theorem tagless_spaces {t : Text} (h : Tagless t) (n : Nat) : Tagless (Text.spaces n ++ t) := by
  intro tag ht hi
  exact h tag ht (Text.infix_append_of_head (Text.not_mem_spaces (by decide) n) hi)

/-- A line of text is a segment. -/
theorem blockSegments_text {form : Form} {t : Text} (h : (Block.text form t).Valid) (n : Nat)
    (rest : List Text) : blockSegments ((Text.spaces n ++ t) :: rest) =
      ⟨n, form.content t⟩ :: blockSegments rest := by
  obtain ⟨ht, hne, hp, htag, hf⟩ := h
  have hr : Table.isRow (Text.spaces n ++ t) = false := by
    apply Table.isRow_eq_false
    simp [Text.spaces, hp]
  have ho : Wave.firstOpening? [Text.spaces n ++ t] = none := by
    apply Wave.firstOpening?_eq_none
    intro line hl
    rw [List.mem_singleton.1 hl, Wave.opening?_eq_none_iff]
    exact tagless_spaces htag n
  have htrim : Text.trim (Text.spaces n ++ t) = t := by
    rw [Text.trim_append (Text.allBlank_spaces n), ht]
  have hline : (ofLine (Text.spaces n ++ t)).segments = [⟨n, form.content t⟩] := by
    rw [ofLine, Form.classify?_eq hf htrim hne,
      indentOf_spaces n (startsFlush_of_not_blank (Text.ends_of_trim ht).1)]
    rfl
  show blockSegments ([Text.spaces n ++ t] ++ rest) = [_] ++ blockSegments rest
  refine blockSegments_append ho fun before _ => ?_
  rw [List.singleton_append, textSegments_cons (Table.noStart_of_first hr before), hline]

/-! ## Tables -/

/-- What holds neither spaces nor pipes lies in a cell. -/
theorem infix_row {p : Text} (hne : p ≠ []) (hp : '|' ∉ p) (hs : ' ' ∉ p) {n : Nat}
    {cells : List Text} (h : p <:+: Text.spaces n ++ Table.row cells) :
    ∃ cell ∈ cells, p <:+: Table.escapePipes cell := by
  have hnil : ¬ p <:+: [] := fun hi => hne (List.infix_nil.1 hi)
  have hspaces : ¬ p <:+: Text.spaces n := by
    obtain ⟨c, q, rfl⟩ := List.exists_cons_of_ne_nil hne
    have hc : c ≠ ' ' := fun hc => hs (hc ▸ List.mem_cons_self)
    exact Text.not_infix_of_mem List.mem_cons_self (Text.not_mem_spaces hc n)
  have hrow := (Text.infix_append_cons hp h).resolve_left hspaces
  have hjoin := (Text.infix_append_cons hp hrow).resolve_right hnil
  obtain ⟨piece, hm, hi⟩ := Text.infix_joinWith hp hne hjoin
  obtain ⟨cell, hcell, rfl⟩ := List.mem_map.1 hm
  have hpad := (@Text.infix_append_cons p [] (Table.escapePipes cell ++ [' ']) ' ' hs hi).resolve_left
    hnil
  exact ⟨cell, hcell, (Text.infix_append_cons hs hpad).resolve_right hnil⟩

theorem tagless_row {cells : List Text} (h : ∀ cell ∈ cells, Tagless (Table.escapePipes cell))
    (n : Nat) : Tagless (Text.spaces n ++ Table.row cells) := by
  have htags : ∀ tag ∈ Wave.tags, '|' ∉ '<' :: tag.1 ++ ['>'] ∧ ' ' ∉ '<' :: tag.1 ++ ['>'] := by
    decide
  intro tag ht hi
  obtain ⟨cell, hc, hcell⟩ := infix_row (by simp) (htags tag ht).1 (htags tag ht).2 hi
  exact h cell hc tag ht hcell

theorem tagless_token (align : Align) : Tagless (Table.escapePipes (Table.token align)) := by
  rw [Table.escapePipes_eq_self (Table.token_spec align).2.2.2]
  have h : '<' ∉ Table.token align := by cases align <;> decide
  exact fun tag _ => Text.not_infix_of_mem List.mem_cons_self h

theorem tagless_table {t : Table} (h : (Block.table t).Valid) (n : Nat) :
    ∀ line ∈ (Block.table t).lines.map (Text.spaces n ++ ·), Tagless line := by
  obtain ⟨_, _, _, _, hc⟩ := h
  have hrow : ∀ row ∈ t.head :: t.body, Tagless (Text.spaces n ++ Table.row row) :=
    fun row hm => tagless_row (fun cell hcell => (hc row hm cell hcell).2) n
  intro line hl
  simp only [Block.lines, List.map_cons, List.mem_cons, List.mem_map] at hl
  rcases hl with rfl | rfl | ⟨_, ⟨row, hm, rfl⟩, rfl⟩
  · exact hrow _ List.mem_cons_self
  · refine tagless_row (fun cell hcell => ?_) n
    obtain ⟨align, _, rfl⟩ := List.mem_map.1 hcell
    exact tagless_token align
  · exact hrow _ (List.mem_cons_of_mem _ hm)

theorem fitTo_rows {width : Nat} {rows : List (List Text)} (hne : ∀ row ∈ rows, row ≠ [])
    (hl : ∀ row ∈ rows, row.length = width) (ht : ∀ row ∈ rows, ∀ cell ∈ row, cell.trim = cell)
    (n : Nat) :
    (rows.map fun row => Text.spaces n ++ Table.row row).map
      (fun line => Table.fitTo width (Table.cells line)) = rows := by
  rw [List.map_map]
  conv => rhs; rw [← List.map_id rows]
  refine List.map_congr_left fun row hm => ?_
  show Table.fitTo width (Table.cells (Text.spaces n ++ Table.row row)) = row
  rw [Table.cells_row n (hne row hm) (ht row hm), Table.fitTo_eq_self (hl row hm)]

/-- The rows of a table are one segment, where no row of the same indentation goes on below. -/
theorem textSegments_table_lines {t : Table} (h : (Block.table t).Valid) (n : Nat)
    {rest : List Text} (hr : ∀ line ∈ rest.head?, Table.isRowAt n line = false) :
    textSegments ((Block.table t).lines.map (Text.spaces n ++ ·) ++ rest) =
      ⟨n, .table t⟩ :: textSegments rest := by
  obtain ⟨head, align, body⟩ := t
  obtain ⟨hh, ha, hb, hl, hc⟩ := h
  dsimp only at hh ha hb hl hc
  have htrim : ∀ row ∈ head :: body, ∀ cell ∈ row, cell.trim = cell :=
    fun row hm cell hcell => (hc row hm cell hcell).1
  have hne : ∀ row ∈ body, row ≠ [] := by
    rintro row hm rfl
    exact hh (List.length_eq_zero_iff.1 (hl _ hm).symm)
  have hbody := fitTo_rows hne hl (fun row hm => htrim row (List.mem_cons_of_mem _ hm)) n
  obtain ⟨first, more, rfl⟩ := List.exists_cons_of_ne_nil hb
  have hs := Table.start_rows n hh (htrim head List.mem_cons_self) ha (hne first List.mem_cons_self)
  have hmore : ∀ line ∈ more.map fun row => Text.spaces n ++ Table.row row,
      Table.isRowAt n line := by
    intro line hm
    obtain ⟨row, hrow, rfl⟩ := List.mem_map.1 hm
    exact Table.isRowAt_row n (hne row (List.mem_cons_of_mem _ hrow))
  have hend : rest.takeWhile (Table.isRowAt n) = [] ∧ rest.dropWhile (Table.isRowAt n) = rest := by
    cases rest with
    | nil => exact ⟨rfl, rfl⟩
    | cons line rest =>
      have := hr line rfl
      exact ⟨List.takeWhile_cons_of_neg (by simp [this]), List.dropWhile_cons_of_neg (by simp [this])⟩
  have hlines : (Block.table ⟨head, align, first :: more⟩).lines.map (Text.spaces n ++ ·) ++ rest =
      (Text.spaces n ++ Table.row head) :: (Text.spaces n ++ Table.row (align.map Table.token)) ::
        (Text.spaces n ++ Table.row first) ::
          ((more.map fun row => Text.spaces n ++ Table.row row) ++ rest) := by
    simp [Block.lines]
  rw [hlines, textSegments_table hs, List.takeWhile_append_of_pos hmore,
    List.dropWhile_append_of_pos hmore, hend.1, hend.2, List.append_nil, tableSegment]
  rw [List.map_cons] at hbody
  rw [hbody]

theorem blockSegments_table {t : Table} (h : (Block.table t).Valid) (n : Nat) {rest : List Text}
    (hr : ∀ line ∈ rest.head?, Table.isRow line = false) :
    blockSegments ((Block.table t).lines.map (Text.spaces n ++ ·) ++ rest) =
      ⟨n, .table t⟩ :: blockSegments rest := by
  have ho : Wave.firstOpening? ((Block.table t).lines.map (Text.spaces n ++ ·)) = none :=
    Wave.firstOpening?_eq_none fun line hl => Wave.opening?_eq_none_iff.2 (tagless_table h n line hl)
  show blockSegments (_ ++ rest) = [_] ++ blockSegments rest
  refine blockSegments_append ho fun before hb => textSegments_table_lines h n fun line hl => ?_
  obtain ⟨more, rfl⟩ := hb
  obtain ⟨before, rfl⟩ := List.head?_eq_some_iff.1 hl
  rw [Table.isRowAt, hr line rfl, Bool.false_and]

/-! ## Wave diagrams -/

/-- The payload of a printed wave diagram; where groups nest too deep for the strict reader, the
relaxed one reads it. -/
theorem payload_compact {v : Json} (ho : v.isObject) (hi : v.isIntegral) :
    Wave.payload .json (v.compact ++ ['\n']) = .ok v := by
  have htrim : Text.trim (v.compact ++ ['\n']) = v.compact := by
    rw [Text.trim_append_right rfl]
    cases v with
    | object members =>
      rw [Json.compact]
      refine Text.trim_eq_self rfl ?_
      rw [List.getLast?_concat]
      rfl
    | _ => cases ho
  have hrelaxed := Json.Relaxed.read?_compact hi (w := ['\n']) rfl
  have hv : Wave.value (v.compact ++ ['\n']) .json = .ok v := by
    rw [Wave.value, htrim, Json.Strict.read?_compact hi, hrelaxed]
    by_cases hd : v.depth ≤ Json.Strict.maxDepth
    · rw [if_pos hd]
      rfl
    · rw [if_neg hd]
      rfl
  rw [Wave.payload, hv]
  exact if_pos ho

theorem opens_wave (n : Nat) :
    Wave.Opens (Text.spaces n ++ "<wave>".toList) ⟨"wave".toList, .json, n, []⟩ where
  tag := (by decide : ("wave".toList, Wave.Format.json) ∈ Wave.tags)
  indent := (indentOf_spaces n rfl).symm
  leftmost := by
    refine ⟨Text.spaces n, (List.append_nil _).symm, fun tag _ a b hline => ?_⟩
    rw [List.append_assoc, List.append_assoc] at hline
    exact Text.length_le_of_append_eq (Text.not_mem_spaces (by decide) n) hline

/-- The three lines of a wave diagram are one block. -/
theorem block_wave {v : Json} (h : (Block.wave v).Valid) (n : Nat) :
    Wave.Block ⟨"wave".toList, .json, n, []⟩ ((Block.wave v).lines.map (Text.spaces n ++ ·))
      (v.compact ++ ['\n']) := by
  obtain ⟨_, hi, hc⟩ := h
  obtain ⟨c, t, hct, hs⟩ := Json.exists_cons_compact hi
  have hflush : startsFlush v.compact := by
    refine startsFlush_of_not_blank ?_
    rw [hct]
    simp [(Json.startsValue_spec hs).1]
  have hmiddle : ∀ line ∈ [Text.spaces n ++ v.compact], ¬ "</wave>".toList <:+: line := by
    intro line hl hinfix
    rw [List.mem_singleton.1 hl] at hinfix
    exact hc (Text.infix_append_of_head (Text.not_mem_spaces (by decide) n) hinfix)
  have hblock := @Wave.Block.lines ⟨"wave".toList, .json, n, []⟩
    (Text.spaces n ++ "<wave>".toList) (Text.spaces n ++ "</wave>".toList) (Text.spaces n) []
    [Text.spaces n ++ v.compact] (opens_wave n) (by simp [Wave.closing]) hmiddle (by simp [Wave.closing])
    (Text.not_infix_of_mem (c := '<') (by simp [Wave.closing]) (Text.not_mem_spaces (by decide) n))
  have hclose : stripIndent n (Text.spaces n) = [] := by
    have := @stripIndent_spaces_self n [] rfl
    rwa [List.append_nil] at this
  have ht : Text.joinWith ['\n'] ([] ++ [Text.spaces n ++ v.compact].map (stripIndent n) ++
      [stripIndent n (Text.spaces n)]) = v.compact ++ ['\n'] := by
    rw [List.map_singleton, stripIndent_spaces_self n hflush, hclose]
    simp [Text.joinWith]
  rw [← ht]
  exact hblock

theorem blockSegments_wave {v : Json} (h : (Block.wave v).Valid) (n : Nat) (rest : List Text) :
    blockSegments ((Block.wave v).lines.map (Text.spaces n ++ ·) ++ rest) =
      ⟨n, .wave v⟩ :: blockSegments rest := by
  have := @blockSegments_tail_block [] _ _ _ rfl (block_wave h n) rest
  rw [List.nil_append, blockSegments_nil, List.nil_append] at this
  rw [this, waveSegments, ofPayload, payload_compact h.1 h.2.1]
  rfl

/-! ## Documents -/

/-- The lines of a block are one segment, unless a table would go on below. -/
theorem blockSegments_placed {p : Placed} (h : p.Valid) {rest : List Text}
    (hr : p.block.IsTable → ∀ line ∈ rest.head?, Table.isRow line = false) :
    blockSegments (p.lines ++ rest) = p.segment :: blockSegments rest := by
  obtain ⟨above, n, block⟩ := p
  rw [Placed.lines, List.append_assoc, blockSegments_blanks h.above]
  cases block with
  | text form t => exact blockSegments_text h.block n rest
  | table t => exact blockSegments_table h.block n (hr rfl)
  | wave v => exact blockSegments_wave h.block n rest

/-- Only a table without blank lines above it starts with a row. -/
theorem isRow_of_mem_head? {p : Placed} (h : p.Valid) (ht : p.block.IsTable → p.above ≠ [])
    {rest : List Text} : ∀ line ∈ (p.lines ++ rest).head?, Table.isRow line = false := by
  obtain ⟨above, n, block⟩ := p
  intro line hl
  apply Table.isRow_eq_false
  cases above with
  | cons blank above =>
    cases hl
    exact not_mem_of_allBlank (h.above _ List.mem_cons_self) rfl
  | nil =>
    cases block with
    | text form t =>
      cases hl
      simp [Text.spaces, h.block.2.2.1]
    | table t => exact absurd rfl (ht rfl)
    | wave v =>
      cases hl
      simp [Text.spaces]

end Reading

namespace Document

/-- Each block of a printed document is read back as one segment. -/
theorem ofLines_printed {blocks : List Placed} (hv : ∀ p ∈ blocks, p.Valid)
    (hs : Separated blocks) :
    (ofLines (blocks.flatMap Placed.lines)).1 =
      ⟨blocks.map Placed.segment, blocks.any (·.block.content.isWave)⟩ := by
  have hsegments : Reading.blockSegments (blocks.flatMap Placed.lines) =
      blocks.map Placed.segment := by
    induction blocks with
    | nil => exact Reading.blockSegments_nil
    | cons p blocks ih =>
      have hp := hv p List.mem_cons_self
      have hrest := fun q hq => hv q (List.mem_cons_of_mem _ hq)
      cases blocks with
      | nil =>
        rw [List.flatMap_cons, Reading.blockSegments_placed hp (by simp)]
        exact congrArg _ Reading.blockSegments_nil
      | cons q rest =>
        have hq := hrest q List.mem_cons_self
        rw [List.flatMap_cons, Reading.blockSegments_placed hp fun ht => ?_, ih hrest hs.2]
        · rfl
        · rw [List.flatMap_cons]
          exact Reading.isRow_of_mem_head? hq (hs.1 ht)
  rw [ofLines_eq, hsegments, ofSegments, List.any_map]
  rfl

/-- A table with a pipe in a cell, between a list item and a wave diagram. -/
theorem ofLines_printed_table :
    (∀ p ∈ [Placed.mk [] 2 (.text .item "1. a <wave".toList),
        ⟨[], 0, .table ⟨["|".toList, []], [.center, .left], [["b\\".toList, "---".toList]]⟩⟩,
        ⟨[[' ']], 3, .wave (.object [("</k>".toList, .int (-1))])⟩], p.Valid) ∧
    Separated [Placed.mk [] 2 (.text .item "1. a <wave".toList),
        ⟨[], 0, .table ⟨["|".toList, []], [.center, .left], [["b\\".toList, "---".toList]]⟩⟩,
        ⟨[[' ']], 3, .wave (.object [("</k>".toList, .int (-1))])⟩] ∧
    (ofLines ["  1. a <wave".toList, "| \\| |  |".toList, "| :---: | --- |".toList,
        "| b\\ | --- |".toList, [' '], "   <wave>".toList, "   \x7b\"</k>\":-1\x7d".toList,
        "   </wave>".toList]).1 =
      ⟨[⟨2, .item "1. a <wave".toList⟩,
        ⟨0, .table ⟨["|".toList, []], [.center, .left], [["b\\".toList, "---".toList]]⟩⟩,
        ⟨3, .wave (.object [("</k>".toList, .int (-1))])⟩], true⟩ := by
  have htext : (Block.text .item "1. a <wave".toList).Valid :=
    ⟨by decide, by decide, by decide, by unfold Tagless; decide,
      ['1', '.'], ' ', "a <wave".toList, @Marker.number ['1'] (by decide) (Text.forall_of_all rfl), rfl, rfl⟩
  have htable : (Block.table ⟨["|".toList, []], [.center, .left],
      [["b\\".toList, "---".toList]]⟩).Valid :=
    ⟨by decide, rfl, by decide, by decide, by unfold Tagless; decide⟩
  have hwave : (Block.wave (.object [("</k>".toList, .int (-1))])).Valid :=
    ⟨rfl, by decide +kernel, by decide +kernel⟩
  have hv : ∀ p ∈ [Placed.mk [] 2 (.text .item "1. a <wave".toList),
      ⟨[], 0, .table ⟨["|".toList, []], [.center, .left], [["b\\".toList, "---".toList]]⟩⟩,
      ⟨[[' ']], 3, .wave (.object [("</k>".toList, .int (-1))])⟩], p.Valid := by
    simp only [List.forall_mem_cons, List.not_mem_nil, false_imp_iff, implies_true, and_true]
    exact ⟨⟨by simp, htext⟩, ⟨by simp, htable⟩, ⟨by simp; decide, hwave⟩⟩
  have hs : Separated [Placed.mk [] 2 (.text .item "1. a <wave".toList),
      ⟨[], 0, .table ⟨["|".toList, []], [.center, .left], [["b\\".toList, "---".toList]]⟩⟩,
      ⟨[[' ']], 3, .wave (.object [("</k>".toList, .int (-1))])⟩] :=
    ⟨fun h => absurd h (by decide), fun _ h => absurd h (by decide), trivial⟩
  have hlines : [Placed.mk [] 2 (.text .item "1. a <wave".toList),
      ⟨[], 0, .table ⟨["|".toList, []], [.center, .left], [["b\\".toList, "---".toList]]⟩⟩,
      ⟨[[' ']], 3, .wave (.object [("</k>".toList, .int (-1))])⟩].flatMap Placed.lines =
      ["  1. a <wave".toList, "| \\| |  |".toList, "| :---: | --- |".toList,
        "| b\\ | --- |".toList, [' '], "   <wave>".toList, "   \x7b\"</k>\":-1\x7d".toList,
        "   </wave>".toList] := by decide +kernel
  have hread := ofLines_printed hv hs
  rw [hlines] at hread
  exact ⟨hv, hs, hread⟩

end Document

end Note
end Pinout
