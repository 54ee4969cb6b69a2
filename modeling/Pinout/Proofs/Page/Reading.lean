import Mathlib.Data.List.Basic
import Pinout.Page.Notes
import Pinout.Proofs.Diagram.Geometry
import Pinout.Proofs.Diagram.Reading
import Pinout.Proofs.Note.Marker

/-!
# Pinout.Proofs.Page.Reading

The notes and the tables of a page are read back (`block_notes`, `block_parameterTable`,
`block_portTable`), and their tags do not change when the texts are emptied. What a page shows of a
document is a relation of its own (`Document.Shows`): a header without its number signs, a list item
without its marker. A table of the notes shows a cell for each alignment, so it is read back when it
is rectangular.
-/

namespace Pinout
/-! ## Notes -/

namespace Note

/-- A table whose rows have a cell for each column, and each column an alignment. -/
structure Table.Rectangular (t : Table) : Prop where
  align : t.align.length = t.head.length
  width : ∀ cells ∈ t.body, cells.length = t.head.length

/-- The same table with empty cells. -/
def Table.erased (t : Table) : Table :=
  ⟨t.head.map fun _ => [], t.align, t.body.map fun cells => cells.map fun _ => []⟩

namespace Content

/-- Neither a wave diagram nor a table that is not rectangular. -/
def Readable : Content → Prop
  | wave _ => False
  | table t => t.Rectangular
  | _ => True

/-- The same content with its texts emptied. -/
def erased : Content → Content
  | plain _ => plain []
  | header _ => header []
  | item _ => item []
  | table t => table t.erased
  | wave v => wave v

/-- What a page shows of the content: no mark of a header or an item, and the cells row by row. -/
inductive Shows : Content → List Text → Prop where
  | plain (t : Text) : Shows (plain t) [t]
  | header {t u : Text} (h : IsTitle t u) : Shows (header t) [u]
  | item {t u : Text} (h : IsBody t u) : Shows (item t) [u]
  | table (t : Table) : Shows (table t) (t.head ++ t.body.flatten)

/-- The texts that `Shows` relates to a readable content. -/
def texts : Content → List Text
  | plain t => [t]
  | header t => [title t]
  | item t => [itemBody t]
  | table t => t.head ++ t.body.flatten
  | wave _ => []

theorem shows_iff {c : Content} (hc : c.Readable) {ts : List Text} : c.Shows ts ↔ c.texts = ts := by
  constructor
  · intro h
    cases h with
    | plain t => rfl
    | header h => exact congrArg ([·]) (isTitle_iff.1 h)
    | item h => exact congrArg ([·]) (isBody_iff.1 h)
    | table t => rfl
  · rintro rfl
    cases c with
    | plain t => exact .plain t
    | header t => exact .header (isTitle_iff.2 rfl)
    | item t => exact .item (isBody_iff.2 rfl)
    | table t => exact .table t
    | wave v => exact hc.elim

end Content

namespace Document

def Readable (d : Document) : Prop := ∀ s ∈ d.segments, s.content.Readable

/-- The same segments with their texts emptied. -/
def erased (d : Document) : Document :=
  ⟨d.segments.map fun s => ⟨s.indent, s.content.erased⟩, d.hasWave⟩

/-- What a page shows of the document, segment by segment. -/
def Shows (d : Document) (ts : List Text) : Prop :=
  ∃ shown, List.Forall₂ (fun s part => s.content.Shows part) d.segments shown ∧ ts = shown.flatten

def texts (d : Document) : List Text := d.segments.flatMap (·.content.texts)

theorem flatMap_of_shows {segments : List Segment} (hr : ∀ s ∈ segments, s.content.Readable)
    {shown : List (List Text)} (h : List.Forall₂ (fun s part => s.content.Shows part) segments shown) :
    segments.flatMap (·.content.texts) = shown.flatten := by
  induction h with
  | nil => rfl
  | cons h _ ih =>
    obtain ⟨hs, hr⟩ := List.forall_mem_cons.1 hr
    rw [List.flatMap_cons, List.flatten_cons, (Content.shows_iff hs).1 h, ih hr]

theorem shows_iff {d : Document} (hd : d.Readable) (ts : List Text) : d.Shows ts ↔ d.texts = ts := by
  constructor
  · rintro ⟨shown, h, rfl⟩
    exact flatMap_of_shows hd h
  · rintro rfl
    refine ⟨d.segments.map (·.content.texts), ?_, by rw [texts, List.flatMap_def]⟩
    rw [List.forall₂_map_right_iff, List.forall₂_same]
    exact fun s hs => (Content.shows_iff (hd s hs)).2 rfl

end Document
end Note

/-! ## Items of a module -/

/-- What a page shows of the parameter. -/
def Parameter.texts (p : Parameter) : List Text := [p.name, p.type, p.value.getD [], p.description]

/-- What a page shows of the port. -/
def Port.texts (p : Port) : List Text := [p.name, p.direction.keyword, p.type, p.description]

/-- What a diagram shows of the signature: the parameters, the inputs and the other ports. -/
def Diagram.Shows (s : Signature) (ts : List Text) : Prop :=
  ∃ inputs others, s.Sides inputs others ∧
    ts = s.parameters.map (·.name) ++ (inputs ++ others).flatMap fun p => [p.name, p.type]

theorem Diagram.shows_iff (s : Signature) (ts : List Text) : Shows s ts ↔ texts s = ts := by
  constructor
  · rintro ⟨inputs, others, h, rfl⟩
    obtain ⟨rfl, rfl⟩ := h.unique
    rfl
  · rintro rfl
    exact ⟨_, _, s.sides, rfl⟩

namespace Page

open Markup (Block Named named_nil textElements tagList)

/-! ## Tables -/

theorem named_aligned (align : Note.Align) (t : Text) : Named (Cell.aligned align t).attributes := by
  cases align with
  | left => exact named_nil
  | center | right => exact List.forall_mem_singleton.2 (by decide)

theorem text_aligned (align : Note.Align) (t : Text) : (Cell.aligned align t).text = t := by
  cases align <;> rfl

theorem block_cell {element : String} (he : element ∈ textElements) {c : Cell}
    (hc : Named c.attributes) : Block (c.markup element) [c.text] :=
  .line 3 (.text he hc c.text)

theorem block_row (element : String) (he : element ∈ textElements) {cells : List Cell}
    (hc : ∀ c ∈ cells, Named c.attributes) : Block (row element cells) (cells.map Cell.text) := by
  have h : Block (cells.flatMap (Cell.markup element)) (cells.flatMap fun c => [c.text]) :=
    .flatMap fun c hm => block_cell he (hc c hm)
  rw [List.map_eq_flatMap]
  exact .block 2 (by decide) (by decide) named_nil h

theorem block_grid (head : List Text) {body : List (List Cell)}
    (hb : ∀ cells ∈ body, ∀ c ∈ cells, Named c.attributes) :
    Block (grid head body) (head ++ body.flatMap (·.map Cell.text)) := by
  have hhead : (head.map Cell.plain).map Cell.text = head := by
    rw [List.map_map]
    exact List.map_id head
  have hrow : Block (row "th" (head.map Cell.plain)) head := by
    have hplain : ∀ c ∈ head.map Cell.plain, Named c.attributes := by
      intro c hc
      obtain ⟨t, -, rfl⟩ := List.mem_map.1 hc
      exact named_nil
    have := block_row "th" (by decide) hplain
    rwa [hhead] at this
  have hbody : Block (body.flatMap (row "td")) (body.flatMap (·.map Cell.text)) :=
    .flatMap fun cells hm => block_row "td" (by decide) (hb cells hm)
  exact .block 0 (by decide) (by decide) named_nil
    (.append (.block 1 (by decide) (by decide) named_nil hrow)
      (.block 1 (by decide) (by decide) named_nil hbody))

/-- The tags of a cell are those of its attributes. -/
theorem tagList_row {element : String} {cells cells' : List Cell}
    (h : cells.map Cell.attributes = cells'.map Cell.attributes) :
    tagList (row element cells) = tagList (row element cells') := by
  have hcell (cells : List Cell) : tagList (cells.flatMap (Cell.markup element)) =
      (cells.map Cell.attributes).flatMap fun attributes =>
        [element.toList ++ attributes.flatMap Markup.renderAttribute, '/' :: element.toList] := by
    rw [Markup.tagList_flatMap, List.flatMap_map]
    refine List.flatMap_congr fun c _ => ?_
    rw [Cell.markup, Markup.tagList_line, Markup.tagList_element]
    rfl
  rw [row, row, Markup.tagList_block, Markup.tagList_block, hcell, hcell, h]

theorem tagList_grid {head head' : List Text} {body body' : List (List Cell)}
    (hh : head.length = head'.length)
    (hb : body.map (·.map Cell.attributes) = body'.map (·.map Cell.attributes)) :
    tagList (grid head body) = tagList (grid head' body') := by
  have hhead : tagList (row "th" (head.map Cell.plain)) =
      tagList (row "th" (head'.map Cell.plain)) := by
    refine tagList_row ?_
    have hplain (head : List Text) : (head.map Cell.plain).map Cell.attributes =
        List.replicate head.length [] := by
      rw [List.map_map]
      exact List.map_const'
    rw [hplain, hplain, hh]
  have hbody : tagList (body.flatMap (row "td")) = tagList (body'.flatMap (row "td")) := by
    rw [Markup.tagList_flatMap, Markup.tagList_flatMap]
    induction body generalizing body' with
    | nil =>
      obtain rfl : body' = [] := by simpa using hb.symm
      exact rfl
    | cons cells body ih =>
      cases body' with
      | nil => cases hb
      | cons cells' body' =>
        obtain ⟨hc, hb⟩ := List.cons.inj hb
        rw [List.flatMap_cons, List.flatMap_cons, tagList_row hc, ih hb]
  simp only [grid, Markup.tagList_block, Markup.tagList_append, hhead, hbody]

/-! ## Notes -/

theorem named_paddingStyle (indent : Nat) : Named (paddingStyle indent) := by
  have hstyle (value : Text) : Named [("style", value)] :=
    List.forall_mem_singleton.2 ⟨by simp, by simp⟩
  unfold paddingStyle
  split
  · exact named_nil
  · exact hstyle _

theorem zipWith_aligned (align : List Note.Align) (cells : List Text) :
    List.zipWith Cell.aligned align cells =
      (align.zip cells).map fun p => Cell.aligned p.1 p.2 := by
  rw [List.zip, List.map_zipWith]

/-- A row shows each cell that has an alignment. -/
theorem map_text_aligned {align : List Note.Align} {cells : List Text}
    (h : cells.length ≤ align.length) :
    (List.zipWith Cell.aligned align cells).map Cell.text = cells := by
  rw [zipWith_aligned, List.map_map]
  have htext : Cell.text ∘ (fun p : Note.Align × Text => Cell.aligned p.1 p.2) = Prod.snd :=
    funext fun p => text_aligned p.1 p.2
  rw [htext, List.map_snd_zip h]

theorem named_aligned_cells {align : List Note.Align} {cells : List Text} {c : Cell}
    (hc : c ∈ List.zipWith Cell.aligned align cells) : Named c.attributes := by
  rw [zipWith_aligned] at hc
  obtain ⟨p, -, rfl⟩ := List.mem_map.1 hc
  exact named_aligned p.1 p.2

/-- A rectangular table shows all its cells. -/
theorem block_noteTable {t : Note.Table} (h : t.Rectangular) :
    Block (noteTable t) (t.head ++ t.body.flatten) := by
  have hbody : (t.body.map fun cells => List.zipWith Cell.aligned t.align cells).flatMap
      (·.map Cell.text) = t.body.flatten := by
    rw [List.flatMap_map, List.flatten_eq_flatMap]
    refine List.flatMap_congr fun cells hc => ?_
    exact map_text_aligned (by rw [h.align, h.width cells hc])
  rw [← hbody]
  refine block_grid t.head fun cells hm c hc => ?_
  obtain ⟨row, -, rfl⟩ := List.mem_map.1 hm
  exact named_aligned_cells hc

theorem tagList_noteTable (t : Note.Table) : tagList (noteTable t.erased) = tagList (noteTable t) := by
  refine tagList_grid (List.length_map _) ?_
  rw [Note.Table.erased, List.map_map, List.map_map, List.map_map]
  refine List.map_congr_left fun cells _ => ?_
  simp only [Function.comp_apply]
  have hcell : ∀ align t, (Cell.aligned align t).attributes = (Cell.aligned align []).attributes := by
    intro align t
    cases align <;> rfl
  rw [List.zipWith_map_right, List.map_zipWith, List.map_zipWith]
  simp only [hcell _ _]

theorem block_segment {s : Note.Segment} (h : s.content.Readable) :
    Block (segment s) s.content.texts := by
  obtain ⟨indent, content⟩ := s
  have hstyle := named_paddingStyle indent
  cases content with
  | plain t | header t | item t => exact .line 0 (.text (by decide) hstyle _)
  | table t => exact .block 0 (by decide) (by decide) hstyle (block_noteTable h)
  | wave v => exact h.elim

theorem tagList_segment (indent : Nat) (content : Note.Content) :
    tagList (segment ⟨indent, content.erased⟩) = tagList (segment ⟨indent, content⟩) := by
  cases content with
  | plain t | header t | item t => rfl
  | table t =>
    have ht := tagList_noteTable t
    simp only [segment, Note.Content.erased, Markup.tagList_block, ht]
  | wave v => rfl

theorem block_notes {d : Note.Document} (h : d.Readable) : Block (notes d) d.texts :=
  .flatMap fun s hs => block_segment (h s hs)

theorem tagList_notes (d : Note.Document) : tagList (notes d.erased) = tagList (notes d) := by
  rw [notes, notes, Markup.tagList_flatMap, Markup.tagList_flatMap, Note.Document.erased,
    List.flatMap_map]
  exact List.flatMap_congr fun s _ => tagList_segment s.indent s.content

/-! ## Items of a module -/

/-- What a table shows that lists items of a module. -/
def listingTexts (titles : List String) : List (List Text) → List Text
  | [] => []
  | rows => titles.map String.toList ++ rows.flatten

/-- What the table of the parameters shows. -/
def parameterTexts (ps : List Parameter) : List Text :=
  listingTexts ["Name", "Type", "Default", "Description"] (ps.map Parameter.texts)

/-- What the table of the ports shows. -/
def portTexts (ps : List Port) : List Text :=
  listingTexts ["Name", "Direction", "Type", "Description"] (ps.map Port.texts)

theorem block_listing (titles : List String) (rows : List (List Text)) :
    Block (listing titles rows) (listingTexts titles rows) := by
  cases rows with
  | nil => exact .nil
  | cons row rows =>
    have hrow (cells : List Text) : (cells.map Cell.plain).map Cell.text = cells := by
      rw [List.map_map]
      exact List.map_id cells
    have hrows : ((row :: rows).map (·.map Cell.plain)).flatMap (·.map Cell.text) =
        (row :: rows).flatten := by
      rw [List.flatMap_map, List.flatten_eq_flatMap]
      exact List.flatMap_congr fun cells _ => hrow cells
    show Block _ (_ ++ (row :: rows).flatten)
    rw [← hrows]
    refine block_grid _ fun cells hm c hc => ?_
    obtain ⟨texts, -, rfl⟩ := List.mem_map.1 hm
    obtain ⟨t, -, rfl⟩ := List.mem_map.1 hc
    exact named_nil

theorem tagList_listing (titles : List String) {rows rows' : List (List Text)}
    (h : rows.map List.length = rows'.map List.length) :
    tagList (listing titles rows) = tagList (listing titles rows') := by
  have hplain (rows : List (List Text)) :
      (rows.map (·.map Cell.plain)).map (·.map Cell.attributes) =
        (rows.map List.length).map fun n => List.replicate n [] := by
    rw [List.map_map, List.map_map]
    refine List.map_congr_left fun cells _ => ?_
    rw [Function.comp_apply, List.map_map]
    exact List.map_const'
  cases rows with
  | nil =>
    obtain rfl : rows' = [] := by simpa using h.symm
    rfl
  | cons row rows =>
    cases rows' with
    | nil => cases h
    | cons row' rows' => exact tagList_grid rfl (by rw [hplain, hplain, h])

theorem block_parameterTable (ps : List Parameter) :
    Block (parameterTable ps) (parameterTexts ps) := block_listing _ _

theorem block_portTable (ps : List Port) : Block (portTable ps) (portTexts ps) := block_listing _ _

theorem tagList_parameterTable (ps : List Parameter) :
    tagList (parameterTable (ps.map Parameter.erased)) = tagList (parameterTable ps) := by
  refine tagList_listing _ ?_
  rw [List.map_map, List.map_map, List.map_map]
  rfl

theorem tagList_portTable (ps : List Port) :
    tagList (portTable (ps.map Port.erased)) = tagList (portTable ps) := by
  refine tagList_listing _ ?_
  rw [List.map_map, List.map_map, List.map_map]
  rfl

/-! ## Pages -/

theorem readable_erased {d : Note.Document} (h : d.Readable) : d.erased.Readable := by
  intro s hs
  obtain ⟨s, hm, rfl⟩ := List.mem_map.1 hs
  have hc := h s hm
  obtain ⟨indent, content⟩ := s
  cases content with
  | table t =>
    refine ⟨hc.align.trans (List.length_map _).symm, fun cells hcells => ?_⟩
    obtain ⟨row, hrow, rfl⟩ := List.mem_map.1 hcells
    exact (List.length_map _).trans ((hc.width row hrow).trans (List.length_map _).symm)
  | _ => exact hc

open Markup (ReadsBack tags)
open Diagram (layout? withoutCoordinates)

/-- The notes, the tables and the diagram of a page are balanced tags around the texts that were put
in, and the tags are those of the same page with all its texts emptied, but for the coordinates of
the diagram. -/
theorem page_readsBack {d : Note.Document} (hd : d.Readable) (ps : List Parameter) (qs : List Port)
    {s : Signature} (hs : s.ports ≠ []) :
    ((∃ texts, d.Shows texts) ∧ (∀ texts, ReadsBack (notes d).render texts ↔ d.Shows texts) ∧
      tags (notes d.erased).render = tags (notes d).render) ∧
    (ReadsBack (parameterTable ps).render (parameterTexts ps) ∧
      tags (parameterTable (ps.map Parameter.erased)).render = tags (parameterTable ps).render) ∧
    (ReadsBack (portTable qs).render (portTexts qs) ∧
      tags (portTable (qs.map Port.erased)).render = tags (portTable qs).render) ∧
    ∃ l l', layout? s = some l ∧ layout? s.erased = some l' ∧
      (∃ texts, Diagram.Shows s texts) ∧
      (∀ texts, ReadsBack l.markup.render texts ↔ Diagram.Shows s texts) ∧
      (tags l'.markup.render).map withoutCoordinates =
        (tags l.markup.render).map withoutCoordinates := by
  have hnotes := block_notes hd
  have hparameters := block_parameterTable ps
  have hports := block_portTable qs
  refine ⟨⟨⟨_, (d.shows_iff hd _).2 rfl⟩, hnotes.readsBack.iff (d.shows_iff hd), ?_⟩,
    ⟨hparameters.readsBack, ?_⟩, ⟨hports.readsBack, ?_⟩, ?_⟩
  · rw [hnotes.tags_eq, (block_notes (readable_erased hd)).tags_eq, tagList_notes]
  · rw [hparameters.tags_eq, (block_parameterTable _).tags_eq, tagList_parameterTable]
  · rw [hports.tags_eq, (block_portTable _).tags_eq, tagList_portTable]
  · obtain ⟨l, hl⟩ := Diagram.exists_layout? hs
    obtain ⟨l', hl'⟩ := Diagram.exists_layout? (s := s.erased) (by simpa [Signature.erased] using hs)
    refine ⟨l, l', hl, hl', ⟨_, (Diagram.shows_iff s _).2 rfl⟩,
      (Diagram.block_markup hl).readsBack.iff (Diagram.shows_iff s), ?_⟩
    rw [(Diagram.block_markup hl).tags_eq, (Diagram.block_markup hl').tags_eq,
      Diagram.withoutCoordinates_markup hl hl']

/-- Texts that look like marks, tags and entities, one of them empty, and ports of all directions. -/
theorem page_readsBack_tags :
    let d : Note.Document := ⟨[⟨5, .header "## a < b".toList⟩, ⟨1, .item "12. <b>& * c".toList⟩,
      ⟨2, .plain "p # \"q\"".toList⟩, ⟨3, .table ⟨["<td>".toList, "b".toList],
        [.center, .left], [["&amp;".toList, []]]⟩⟩], false⟩
    let qs : List Port := [⟨"a".toList, .output, "(wire)".toList, none, "\"</td>\"".toList⟩,
      ⟨"b".toList, .input, "logic".toList, none, []⟩, ⟨"c".toList, .inout, "tri".toList, none, []⟩]
    let s : Signature := ⟨"m".toList, [⟨"P".toList, [], none, []⟩], qs⟩
    d.Readable ∧ s.ports ≠ [] ∧
    ReadsBack (notes d).render ["a < b".toList, "<b>& * c".toList, "p # \"q\"".toList, "<td>".toList,
      "b".toList, "&amp;".toList, []] ∧
    ReadsBack (portTable qs).render (["Name", "Direction", "Type", "Description",
      "a", "output", "(wire)", "\"</td>\"", "b", "input", "logic", "", "c", "inout", "tri", ""].map
        String.toList) ∧
    ∃ l, layout? s = some l ∧ ReadsBack l.markup.render
      (["P", "b", "logic", "a", "(wire)", "c", "tri"].map String.toList) := by
  intro d qs s
  have hd : d.Readable := by
    refine List.forall_mem_cons.2 ⟨trivial, List.forall_mem_cons.2 ⟨trivial,
      List.forall_mem_cons.2 ⟨trivial, List.forall_mem_singleton.2 ⟨rfl, ?_⟩⟩⟩⟩
    exact List.forall_mem_singleton.2 rfl
  obtain ⟨⟨-, hnotes, -⟩, -, ⟨hports, -⟩, l, -, hl, -, -, hdiagram, -⟩ :=
    page_readsBack hd [] qs (s := s) (List.cons_ne_nil _ _)
  exact ⟨hd, List.cons_ne_nil _ _, (hnotes _).2 ((d.shows_iff hd _).2 (by decide)), hports, l, hl,
    (hdiagram _).2 ((Diagram.shows_iff s _).2 (by decide))⟩

end Page
end Pinout
