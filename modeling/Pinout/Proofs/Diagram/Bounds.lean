import Pinout.Diagram.Drawing
import Pinout.Proofs.Signature.Size
import Pinout.Proofs.Signature.WellFormed
import Pinout.Snippet.Column

/-!
# Pinout.Proofs.Diagram.Bounds

The arithmetic of a diagram. Coordinates are written as unsigned words, so no difference on the way
to them may be negative. A layout does not see to that by itself: where all type labels are empty,
there is no room beside the boxes for a stub. But a port that is read from a source has a type, so
its layout is roomy (`roomy_of_layout?`), and in a roomy layout all differences are natural numbers
(`Layout.Roomy.subtracts`) and all shapes are inside the drawing (`Layout.Roomy.inside`). The size
of the drawing is bounded by the length of the source (`size_le`), so for any source that a machine
can hold the numbers fit into words as well, and are written as they are (`drawing_of_source`).
-/

namespace Pinout
namespace Diagram

/-! ## Layouts with room -/

/-- The boxes of a layout. -/
def Layout.HasBox (l : Layout) (b : Box) : Prop := l.parameterBox = some b ∨ l.portBox = b

/-- A layout with room for stubs and type labels beside its boxes, for names inside them, and for a
row above the first label. -/
structure Layout.Roomy (l : Layout) : Prop where
  margin : 20 ≤ l.margin
  box : ∀ b, l.HasBox b → b.x = l.margin ∧ 30 ≤ b.width ∧ 10 ≤ b.height ∧
    b.x + b.width + l.margin = l.width ∧ b.y + b.height ≤ l.height
  pin : ∀ p ∈ l.parameterPins ++ l.portPins, rowPitch ≤ p.textY ∧ p.textY ≤ l.height

/-- All differences that are taken in a drawing are natural numbers: those for the ends of stubs, for
type labels, for the tips of glyphs, for names on the right, for what is inside the outline of a box,
for the middles of rows, and for the points of glyphs. -/
structure Layout.Subtracts (l : Layout) : Prop where
  stub : 0 ≤ (l.margin : Int) - stubLength
  type : 0 ≤ (l.margin : Int) - 15
  tip : 0 ≤ l.rightEdge - border
  name : 0 ≤ l.rightEdge - 22
  inside : ∀ b, l.HasBox b → 0 ≤ (b.width : Int) - 2 * border ∧ 0 ≤ (b.height : Int) - 2 * border
  row : ∀ p ∈ l.parameterPins ++ l.portPins, 0 ≤ p.lineY
  glyph : ∀ p ∈ l.portPins, ∀ d ∈ p.glyph.offsets,
    0 ≤ l.rightEdge - border - d.1 ∧ 0 ≤ p.lineY + d.2

/-- The numbers that are written for a shape. -/
def Shape.numbers : Shape → List Int
  | rect x y width height _ => [x, y, width, height]
  | line x₁ x₂ y => [x₁, y, x₂]
  | polyline points => points.flatMap fun p => [p.1, p.2]
  | label x y _ _ => [x, y]

/-- A shape inside a drawing, for which no negative number is written. -/
structure Shape.Inside (width height : Nat) (s : Shape) : Prop where
  points : ∀ p ∈ s.points, (0 ≤ p.1 ∧ p.1 ≤ width) ∧ 0 ≤ p.2 ∧ p.2 ≤ height
  numbers : ∀ i ∈ s.numbers, 0 ≤ i

namespace Shape

variable {width height : Nat}

theorem inside_rect {x y w h : Int} (hx : 0 ≤ x ∧ 0 ≤ w ∧ x + w ≤ width)
    (hy : 0 ≤ y ∧ 0 ≤ h ∧ y + h ≤ height) (fill : String) :
    (rect x y w h fill).Inside width height := by
  constructor
  · simp only [points, List.forall_mem_cons]
    refine ⟨by omega, by omega, List.forall_mem_nil _⟩
  · simp only [numbers, List.forall_mem_cons]
    exact ⟨hx.1, hy.1, hx.2.1, hy.2.1, List.forall_mem_nil _⟩

theorem inside_line {x₁ x₂ y : Int} (h₁ : 0 ≤ x₁ ∧ x₁ ≤ width) (h₂ : 0 ≤ x₂ ∧ x₂ ≤ width)
    (hy : 0 ≤ y ∧ y ≤ height) : (line x₁ x₂ y).Inside width height := by
  constructor
  · simp only [points, List.forall_mem_cons]
    exact ⟨⟨h₁, hy⟩, ⟨h₂, hy⟩, List.forall_mem_nil _⟩
  · simp only [numbers, List.forall_mem_cons]
    exact ⟨h₁.1, hy.1, h₂.1, List.forall_mem_nil _⟩

theorem inside_label {x y : Int} (hx : 0 ≤ x ∧ x ≤ width) (hy : 0 ≤ y ∧ y ≤ height)
    (anchor : Anchor) (t : Text) : (label x y anchor t).Inside width height := by
  constructor
  · exact List.forall_mem_singleton.2 ⟨hx, hy⟩
  · simp only [numbers, List.forall_mem_cons]
    exact ⟨hx.1, hy.1, List.forall_mem_nil _⟩

theorem inside_polyline {ps : List (Int × Int)}
    (h : ∀ p ∈ ps, (0 ≤ p.1 ∧ p.1 ≤ width) ∧ 0 ≤ p.2 ∧ p.2 ≤ height) :
    (polyline ps).Inside width height := by
  refine ⟨h, fun i hi => ?_⟩
  obtain ⟨p, hp, hi⟩ := List.mem_flatMap.1 hi
  obtain ⟨⟨hx, -⟩, hy, -⟩ := h p hp
  rcases List.mem_cons.1 hi with rfl | hi
  · exact hx
  · rw [List.mem_singleton.1 hi]
    exact hy

/-- No number is greater than the width and the height of the drawing. -/
theorem Inside.le {s : Shape} (h : s.Inside width height) :
    ∀ i ∈ s.numbers, i ≤ max width height := by
  obtain ⟨hpoints, hnumbers⟩ := h
  cases s with
  | rect x y w h fill =>
    simp only [Shape.points, Shape.numbers, List.forall_mem_cons, List.not_mem_nil,
      IsEmpty.forall_iff, implies_true, and_true] at *
    omega
  | line x₁ x₂ y =>
    simp only [Shape.points, Shape.numbers, List.forall_mem_cons, List.not_mem_nil,
      IsEmpty.forall_iff, implies_true, and_true] at *
    omega
  | polyline ps =>
    intro i hi
    obtain ⟨p, hp, hi⟩ := List.mem_flatMap.1 hi
    have hp := hpoints p hp
    simp only [List.mem_cons, List.not_mem_nil, or_false] at hi
    omega
  | label x y anchor t =>
    simp only [Shape.points, Shape.numbers, List.forall_mem_cons, List.not_mem_nil,
      IsEmpty.forall_iff, implies_true, and_true] at *
    omega

end Shape

/-- A glyph reaches 15 to the left of its tip, and 5 above and below it. -/
theorem offsets_le (g : Glyph) : ∀ d ∈ g.offsets, 0 ≤ d.1 ∧ d.1 ≤ 15 ∧ -5 ≤ d.2 ∧ d.2 ≤ 5 := by
  cases g <;> decide

namespace Layout.Roomy

variable {l : Layout}

theorem portBox (h : l.Roomy) : l.portBox.x = l.margin ∧ 30 ≤ l.portBox.width ∧
    10 ≤ l.portBox.height ∧ l.portBox.x + l.portBox.width + l.margin = l.width ∧
    l.portBox.y + l.portBox.height ≤ l.height :=
  h.box _ (.inr rfl)

/-- The right edge of the boxes, with the margin on either side. -/
theorem rightEdge (h : l.Roomy) : 50 ≤ l.rightEdge ∧ l.rightEdge + l.margin = l.width := by
  obtain ⟨hx, hwidth, -, hright, -⟩ := h.portBox
  have hmargin := h.margin
  rw [Layout.rightEdge]
  omega

theorem lineY (h : l.Roomy) {p : Pin} (hp : p ∈ l.parameterPins ++ l.portPins) :
    15 ≤ p.lineY ∧ p.lineY + 5 ≤ l.height := by
  obtain ⟨htop, hbottom⟩ := h.pin p hp
  rw [rowPitch] at htop
  rw [Pin.lineY]
  omega

theorem subtracts (h : l.Roomy) : l.Subtracts := by
  have hmargin := h.margin
  obtain ⟨hedge, -⟩ := h.rightEdge
  refine ⟨?_, ?_, ?_, ?_, fun b hb => ?_, fun p hp => ?_, fun p hp d hd => ?_⟩
  · rw [stubLength]
    omega
  · omega
  · rw [border]
    omega
  · omega
  · obtain ⟨-, hwidth, hheight, -⟩ := h.box b hb
    rw [border]
    omega
  · have := h.lineY hp
    omega
  · have hline := h.lineY (List.mem_append_right _ hp)
    obtain ⟨hleft, hright, htop, hbottom⟩ := offsets_le p.glyph d hd
    rw [border]
    omega

/-! ## Shapes -/

theorem inside_box (h : l.Roomy) {b : Box} (hb : l.HasBox b) (fill : String) :
    ∀ s ∈ Shape.box b fill, s.Inside l.width l.height := by
  obtain ⟨hx, hwidth, hheight, hright, hbottom⟩ := h.box b hb
  simp only [Shape.box, border, List.forall_mem_cons]
  refine ⟨?_, ?_, List.forall_mem_nil _⟩
  · exact Shape.inside_rect (by omega) (by omega) _
  · exact Shape.inside_rect (by omega) (by omega) _

theorem inside_leftStub (h : l.Roomy) {p : Pin} (hp : p ∈ l.parameterPins ++ l.portPins) :
    (l.leftStub p).Inside l.width l.height := by
  have hmargin := h.margin
  obtain ⟨hedge, hright⟩ := h.rightEdge
  obtain ⟨htop, hbottom⟩ := h.lineY hp
  rw [leftStub, stubLength]
  exact Shape.inside_line (by omega) (by omega) (by omega)

theorem inside_parameterShapes (h : l.Roomy) {p : Pin} (hp : p ∈ l.parameterPins) :
    ∀ s ∈ l.parameterShapes p, s.Inside l.width l.height := by
  have hmem := List.mem_append_left l.portPins hp
  have hmargin := h.margin
  obtain ⟨hedge, hright⟩ := h.rightEdge
  have hrow := h.pin p hmem
  simp only [parameterShapes, List.forall_mem_cons]
  refine ⟨h.inside_leftStub hmem, ?_, List.forall_mem_nil _⟩
  exact Shape.inside_label (by omega) (by omega) _ _

/-- The points of a glyph stand at the right edge, in the row of its pin. -/
theorem inside_glyph (h : l.Roomy) {p : Pin} (hp : p ∈ l.portPins) :
    ∀ s ∈ p.glyph.shapes (l.rightEdge - border) p.lineY, s.Inside l.width l.height := by
  have hline := h.lineY (List.mem_append_right l.parameterPins hp)
  obtain ⟨hedge, hright⟩ := h.rightEdge
  have hpoints : (Shape.polyline (p.glyph.offsets.map fun d =>
      (l.rightEdge - border - d.1, p.lineY + d.2))).Inside l.width l.height := by
    refine Shape.inside_polyline fun q hq => ?_
    obtain ⟨d, hd, rfl⟩ := List.mem_map.1 hq
    have hd := offsets_le p.glyph d hd
    dsimp only [border]
    omega
  intro s hs
  cases hg : p.glyph with
  | stub =>
    rw [hg] at hs
    cases hs
  | arrow =>
    rw [hg] at hs hpoints
    rwa [List.mem_singleton.1 hs]
  | diamond =>
    rw [hg] at hs hpoints
    rwa [List.mem_singleton.1 hs]

theorem inside_portShapes (h : l.Roomy) {p : Pin} (hp : p ∈ l.portPins) :
    ∀ s ∈ l.portShapes p, s.Inside l.width l.height := by
  have hmem := List.mem_append_right l.parameterPins hp
  have hmargin := h.margin
  obtain ⟨hedge, hright⟩ := h.rightEdge
  have hrow := h.pin p hmem
  have hline := h.lineY hmem
  rw [portShapes]
  cases p.side with
  | left =>
    simp only [List.forall_mem_cons]
    refine ⟨h.inside_leftStub hmem, ?_, ?_, List.forall_mem_nil _⟩
    · exact Shape.inside_label (by omega) (by omega) _ _
    · exact Shape.inside_label (by omega) (by omega) _ _
  | right =>
    simp only [List.cons_append, List.forall_mem_cons, List.forall_mem_append]
    refine ⟨?_, h.inside_glyph hp, ?_, ?_, List.forall_mem_nil _⟩
    · exact Shape.inside_line (by omega) (by rw [stubLength]; omega) (by omega)
    · exact Shape.inside_label (by omega) (by omega) _ _
    · exact Shape.inside_label (by omega) (by omega) _ _

/-- All that is drawn is inside the drawing. -/
theorem inside (h : l.Roomy) : ∀ s ∈ l.shapes, s.Inside l.width l.height := by
  simp only [shapes, List.forall_mem_append]
  refine ⟨⟨?_, h.inside_box (.inr rfl) _⟩, ?_⟩
  · intro s hs
    cases hb : l.parameterBox with
    | none =>
      rw [hb] at hs
      cases hs
    | some b =>
      rw [hb] at hs
      rcases List.mem_append.1 hs with hs | hs
      · exact h.inside_box (.inl hb) _ s hs
      · obtain ⟨p, hp, hs⟩ := List.mem_flatMap.1 hs
        exact h.inside_parameterShapes hp s hs
  · intro s hs
    obtain ⟨p, hp, hs⟩ := List.mem_flatMap.1 hs
    exact h.inside_portShapes hp s hs

end Layout.Roomy

/-! ## Layouts of signatures -/

theorem mem_pinRows {α : Type} {pin : α → Nat → Pin} (hpin : ∀ item y, (pin item y).textY = y)
    {top : Nat} {items : List α} {p : Pin} (h : p ∈ pinRows pin top items) :
    top + rowPitch ≤ p.textY ∧ p.textY ≤ top + rowPitch * items.length := by
  obtain ⟨⟨item, i⟩, hi, rfl⟩ := List.mem_map.1 h
  obtain ⟨-, hlt, -⟩ := List.mem_zipIdx hi
  dsimp only
  rw [hpin, rowPitch]
  omega

/-- The rows of the ports are no more than those of the side with more ports. -/
theorem mem_portRows {s : Signature} {top : Nat} {p : Pin}
    (h : p ∈ pinRows (portPin .left) top s.leftPorts ++ pinRows (portPin .right) top s.rightPorts) :
    top + rowPitch ≤ p.textY ∧
      p.textY ≤ top + rowPitch * max s.leftPorts.length s.rightPorts.length := by
  rcases List.mem_append.1 h with h | h
  · obtain ⟨htop, hbottom⟩ := mem_pinRows (fun _ _ => rfl) h
    exact ⟨htop, hbottom.trans
      (Nat.add_le_add_left (Nat.mul_le_mul_left rowPitch (Nat.le_max_left ..)) top)⟩
  · obtain ⟨htop, hbottom⟩ := mem_pinRows (fun _ _ => rfl) h
    exact ⟨htop, hbottom.trans
      (Nat.add_le_add_left (Nat.mul_le_mul_left rowPitch (Nat.le_max_right ..)) top)⟩

/-- A type label that is not empty leaves room beside the boxes. -/
theorem marginWidth_ge {s : Signature} {t : Text}
    (h : t ∈ s.parameters.map (·.type) ++ s.ports.map (·.type)) (ht : t ≠ []) :
    20 ≤ marginWidth s := by
  have hlongest := Snippet.length_le_longest h
  have hlength := List.length_pos_iff.2 ht
  rw [marginWidth, charWidth]
  omega

/-- Without type labels the margin ends in front of them. -/
example : (layout? ⟨['m'], [], [⟨['a'], .input, [], none, []⟩]⟩).map (·.margin) = some 10 := by
  decide

theorem roomy_of_marginWidth {s : Signature} (hmargin : 20 ≤ marginWidth s) {l : Layout}
    (h : layout? s = some l) : l.Roomy := by
  rw [layout?] at h
  split at h
  · cases h
  · cases h
    have hwidth : 30 ≤ boxWidth s := by
      rw [boxWidth]
      omega
    have hheight (rows : Nat) : 10 ≤ boxHeight rows := by
      rw [boxHeight, boxPadding]
      omega
    -- The parameter box ends above the port box.
    have htop (hparameters : s.parameters ≠ []) : boxHeight s.parameters.length ≤ portTop s := by
      rw [portTop, if_neg hparameters]
      omega
    refine ⟨hmargin, fun b hb => ?_, fun p hp => ?_⟩
    · rcases hb with hb | rfl
      · dsimp only at hb ⊢
        split at hb
        · cases hb
        · next hparameters =>
          cases hb
          have := htop hparameters
          have := hheight s.parameters.length
          dsimp only
          omega
      · have := hheight (max s.leftPorts.length s.rightPorts.length)
        dsimp only
        omega
    · dsimp only at hp ⊢
      rcases List.mem_append.1 hp with hp | hp
      · have hrow := mem_pinRows (fun _ _ => rfl) hp
        have hparameters : s.parameters ≠ [] := by
          rintro he
          rw [he] at hp
          cases hp
        have := htop hparameters
        rw [boxHeight] at *
        rw [rowPitch] at *
        omega
      · have hrow := mem_portRows hp
        rw [boxHeight, boxPadding]
        rw [rowPitch] at *
        omega

theorem roomy_of_layout? {s : Signature} (htypes : ∀ p ∈ s.ports, p.type ≠ []) {l : Layout}
    (h : layout? s = some l) : l.Roomy := by
  have hports : s.ports ≠ [] := by
    intro he
    rw [layout?, if_pos he] at h
    cases h
  obtain ⟨p, hp⟩ := List.exists_mem_of_ne_nil _ hports
  have hmem : p.type ∈ s.parameters.map (·.type) ++ s.ports.map (·.type) :=
    List.mem_append_right _ (List.mem_map_of_mem hp)
  exact roomy_of_marginWidth (marginWidth_ge hmem (htypes p hp)) h

/-! ## The size of a drawing -/

theorem longest_le {ts : List Text} {n : Nat} (h : ∀ t ∈ ts, t.length ≤ n) :
    Text.longest ts ≤ n := by
  induction ts with
  | nil => exact Nat.zero_le n
  | cons t ts ih =>
    obtain ⟨ht, hts⟩ := List.forall_mem_cons.1 h
    exact Nat.max_le.2 ⟨ht, ih hts⟩

theorem longest_names_le {s : Signature} {n : Nat} (h : s.Within n) {ports : List Port}
    (hports : ∀ p ∈ ports, p ∈ s.ports) : Text.longest (ports.map (·.name)) ≤ n := by
  refine longest_le fun t ht => ?_
  obtain ⟨p, hp, rfl⟩ := List.mem_map.1 ht
  exact (h.ports.2 p (hports p hp)).name

theorem boxWidth_le {s : Signature} {n : Nat} (h : s.Within n) : boxWidth s ≤ 30 + 20 * n := by
  have hparameters : Text.longest (s.parameters.map (·.name)) ≤ n := by
    refine longest_le fun t ht => ?_
    obtain ⟨p, hp, rfl⟩ := List.mem_map.1 ht
    exact (h.parameters.2 p hp).name
  have hleft := longest_names_le h fun p (hp : p ∈ s.leftPorts) => (List.mem_filter.1 hp).1
  have hright := longest_names_le h fun p (hp : p ∈ s.rightPorts) => (List.mem_filter.1 hp).1
  rw [boxWidth, charWidth]
  omega

theorem marginWidth_le {s : Signature} {n : Nat} (h : s.Within n) : marginWidth s ≤ 80 + 10 * n := by
  have htypes : Text.longest (s.parameters.map (·.type) ++ s.ports.map (·.type)) ≤ n + 7 := by
    refine longest_le fun t ht => ?_
    rcases List.mem_append.1 ht with ht | ht
    · obtain ⟨p, hp, rfl⟩ := List.mem_map.1 ht
      exact Nat.le_add_right_of_le (h.parameters.2 p hp).type
    · obtain ⟨p, hp, rfl⟩ := List.mem_map.1 ht
      exact (h.ports.2 p hp).type
  rw [marginWidth, charWidth]
  omega

/-- A drawing grows with the length of the texts and the number of rows. -/
theorem size_le {s : Signature} {n : Nat} (h : s.Within n) {l : Layout} (hl : layout? s = some l) :
    l.width ≤ 40 * (n + 5) ∧ l.height ≤ 40 * (n + 5) := by
  have hwidth := boxWidth_le h
  have hmargin := marginWidth_le h
  have hparameters := h.parameters.1
  have hports := h.ports.1
  have hleft : s.leftPorts.length ≤ s.ports.length := List.length_filter_le _ _
  have hright : s.rightPorts.length ≤ s.ports.length := List.length_filter_le _ _
  have htop : portTop s ≤ boxHeight s.parameters.length + boxGap := by
    rw [portTop]
    split
    · exact Nat.zero_le _
    · exact Nat.le_refl _
  rw [layout?] at hl
  split at hl
  · cases hl
  · cases hl
    dsimp only
    rw [boxHeight, boxPadding] at *
    rw [rowPitch] at *
    rw [boxGap] at htop
    omega

theorem wordText_eq {i : Int} (hi : 0 ≤ i) (hlt : i < Nat.pow 2 64) :
    wordText i = Text.decimal i.toNat := by
  rw [wordText, Int.emod_eq_of_lt hi hlt]

/-- In the drawing of any source with ports no difference is negative, all shapes are inside the
drawing, and no negative number is written. No number is reduced to fit into a word, unless the source
has more characters than a machine can hold. -/
theorem drawing_of_source (source : Text) (h : (Signature.ofSource source).ports ≠ []) :
    ∃ l, layout? (Signature.ofSource source) = some l ∧ l.Subtracts ∧
      ∀ s ∈ l.shapes, s.Inside l.width l.height ∧
        (source.length < Nat.pow 2 58 → ∀ i ∈ s.numbers, wordText i = Text.decimal i.toNat) := by
  obtain ⟨l, hl⟩ : ∃ l, layout? (Signature.ofSource source) = some l := ⟨_, if_neg h⟩
  have hwellFormed := Signature.ofViews_wellFormed (Source.views source)
  have hroomy := roomy_of_layout? (fun p hp => (hwellFormed.ports p hp).type.notEmpty) hl
  obtain ⟨hwidth, hheight⟩ := size_le (Signature.ofSource_within source) hl
  refine ⟨l, hl, hroomy.subtracts, fun s hs => ?_⟩
  have hinside := hroomy.inside s hs
  refine ⟨hinside, fun hsource i hi => wordText_eq (hinside.numbers i hi) ?_⟩
  have hle := hinside.le i hi
  have hpow : Nat.pow 2 64 = 64 * Nat.pow 2 58 := rfl
  have hlarge : 200 < Nat.pow 2 58 := by decide
  omega

theorem drawing_of_source_adder :
    let source := "module adder #(parameter W = 8) (input [W-1:0] a, b, output q);".toList
    ∃ l, layout? (Signature.ofSource source) = some l ∧ l.Subtracts ∧
      ∀ s ∈ l.shapes, s.Inside l.width l.height ∧
        ∀ i ∈ s.numbers, wordText i = Text.decimal i.toNat := by
  intro source
  have hports : (Signature.ofSource source).ports ≠ [] := by decide +kernel
  have hlength : source.length < Nat.pow 2 58 := by decide +kernel
  obtain ⟨l, hl, hsubtracts, hshapes⟩ := drawing_of_source source hports
  exact ⟨l, hl, hsubtracts, fun s hs => ⟨(hshapes s hs).1, (hshapes s hs).2 hlength⟩⟩

end Diagram
end Pinout
