import Pinout.Proofs.Diagram.Geometry

/-!
# Pinout.Proofs.Diagram.Labels

The room that labels take. A label reaches as far as its characters do, at `charWidth` each. Names
stay inside their boxes, but the width of a box leaves 30 for what is beside two names that face each
other, and 42 are drawn; and the margin leaves 10 beside a type label, and 15 are drawn. So two names
that face each other are apart exactly when they leave two of the characters for which the box has
room, and a type label is inside the drawing exactly when it is shorter than the longest one
(`labels_of_source`). The smallest drawing with an input and an output misses both
(`labels_overlap`).
-/

namespace Pinout
namespace Diagram

/-- A text with the places at which it starts and ends. -/
structure Label where
  text : Text
  left : Int
  right : Int
  deriving DecidableEq, Repr

namespace Label

/-- All of the label lies between two places. -/
def Within (first last : Int) (t : Label) : Prop := first ≤ t.left ∧ t.right ≤ last

/-- One of the labels ends before the other one starts. -/
def Apart (t u : Label) : Prop := t.right ≤ u.left ∨ u.right ≤ t.left

instance (first last : Int) (t : Label) : Decidable (t.Within first last) :=
  inferInstanceAs (Decidable (_ ∧ _))

instance (t u : Label) : Decidable (t.Apart u) := inferInstanceAs (Decidable (_ ∨ _))

end Label

def Shape.label? : Shape → Option Label
  | label x _ .start t => some ⟨t, x, x + charWidth * t.length⟩
  | label x _ .finish t => some ⟨t, x - charWidth * t.length, x⟩
  | _ => none

/-- The labels that are drawn for the pin of a parameter. -/
def Layout.parameterLabels (l : Layout) (p : Pin) : List Label :=
  (l.parameterShapes p).filterMap Shape.label?

/-- The labels that are drawn for the pin of a port. -/
def Layout.portLabels (l : Layout) (p : Pin) : List Label :=
  (l.portShapes p).filterMap Shape.label?

def portsOn (s : Signature) : Side → List Port
  | .left => s.leftPorts
  | .right => s.rightPorts

/-- The length of the longest name on a side. -/
def longestOn (s : Signature) (side : Side) : Nat := Text.longest ((portsOn s side).map (·.name))

/-- How many characters of names a box has room for. -/
def nameColumns (s : Signature) : Nat :=
  max (Text.longest (s.parameters.map (·.name))) (longestOn s .left + longestOn s .right)

/-- How many characters of a type label there is room for beside the boxes. -/
def typeColumns (s : Signature) : Nat :=
  Text.longest (s.parameters.map (·.type) ++ s.ports.map (·.type))

/-- The labels of a layout are those of its pins, and lie so in its boxes and in the drawing. -/
structure Layout.Labelled (s : Signature) (l : Layout) : Prop where
  drawn : l.shapes.filterMap Shape.label? =
    l.parameterPins.flatMap l.parameterLabels ++ l.portPins.flatMap l.portLabels
  parameter : ∀ p ∈ l.parameterPins, ∃ b name, l.parameterBox = some b ∧
    l.parameterLabels p = [name] ∧ name.text = p.name ∧ name.Within b.x (b.x + b.width)
  port : ∀ p ∈ l.portPins, ∃ name type, l.portLabels p = [name, type] ∧ name.text = p.name ∧
    type.text = p.type ∧ name.Within l.portBox.x (l.portBox.x + l.portBox.width) ∧
    type.Within (-5) (l.width + 5) ∧ (type.Within 0 l.width ↔ p.type.length < typeColumns s)
  facing : ∀ p ∈ l.portPins, ∀ q ∈ l.portPins, p.side = .left → q.side = .right →
    ∀ name ∈ (l.portLabels p).head?, ∀ name' ∈ (l.portLabels q).head?,
      name.right ≤ name'.left + 12 ∧
        (name.Apart name' ↔ p.name.length + q.name.length + 2 ≤ nameColumns s)

/-! ## The labels of a pin -/

theorem label?_glyph (x y : Int) (g : Glyph) : (g.shapes x y).filterMap Shape.label? = [] := by
  cases g <;> rfl

theorem parameterLabels_eq (l : Layout) (p : Pin) : l.parameterLabels p =
    [⟨p.name, l.margin + 5, l.margin + 5 + charWidth * p.name.length⟩] := rfl

theorem portLabels_left (l : Layout) {p : Pin} (h : p.side = .left) : l.portLabels p =
    [⟨p.name, l.margin + 20, l.margin + 20 + charWidth * p.name.length⟩,
      ⟨p.type, l.margin - 15 - charWidth * p.type.length, l.margin - 15⟩] := by
  rw [Layout.portLabels, Layout.portShapes, h]
  rfl

theorem portLabels_right (l : Layout) {p : Pin} (h : p.side = .right) : l.portLabels p =
    [⟨p.name, l.rightEdge - 22 - charWidth * p.name.length, l.rightEdge - 22⟩,
      ⟨p.type, l.rightEdge + 15, l.rightEdge + 15 + charWidth * p.type.length⟩] := by
  rw [Layout.portLabels, Layout.portShapes, h]
  simp only [List.cons_append, List.filterMap_cons, List.filterMap_append, label?_glyph]
  rfl

/-! ## The room of a layout -/

variable {s : Signature} {l : Layout}

theorem columns_of_layout? (h : layout? s = some l) :
    l.margin = charWidth * typeColumns s + 10 ∧ l.portBox.x = l.margin ∧
      l.portBox.width = 30 + charWidth * nameColumns s ∧ l.width = l.portBox.width + l.margin * 2 := by
  rw [layout?] at h
  split at h
  · cases h
  · cases h
    exact ⟨rfl, rfl, rfl, rfl⟩

theorem exists_mem_pinRows {α : Type} {pin : α → Nat → Pin} {top : Nat} {items : List α} {p : Pin}
    (h : p ∈ pinRows pin top items) : ∃ item ∈ items, ∃ y, p = pin item y := by
  obtain ⟨⟨item, i⟩, hi, rfl⟩ := List.mem_map.1 h
  exact ⟨item, List.fst_mem_of_mem_zipIdx hi, _, rfl⟩

theorem exists_parameter_of_pin (h : layout? s = some l) {p : Pin} (hp : p ∈ l.parameterPins) :
    ∃ q ∈ s.parameters, p.name = q.name := by
  rw [layout?] at h
  split at h
  · cases h
  · cases h
    obtain ⟨q, hq, y, rfl⟩ := exists_mem_pinRows hp
    exact ⟨q, hq, rfl⟩

theorem exists_port_of_pin (h : layout? s = some l) {p : Pin} (hp : p ∈ l.portPins) :
    ∃ q ∈ portsOn s p.side, p.name = q.name ∧ p.type = q.type := by
  rw [layout?] at h
  split at h
  · cases h
  · cases h
    rcases List.mem_append.1 hp with hp | hp
    · obtain ⟨q, hq, y, rfl⟩ := exists_mem_pinRows hp
      exact ⟨q, hq, rfl, rfl⟩
    · obtain ⟨q, hq, y, rfl⟩ := exists_mem_pinRows hp
      exact ⟨q, hq, rfl, rfl⟩

theorem mem_ports_of_mem_portsOn {side : Side} {q : Port} (h : q ∈ portsOn s side) : q ∈ s.ports := by
  cases side with
  | left => exact (List.mem_filter.1 h).1
  | right => exact (List.mem_filter.1 h).1

/-- No name on a side is longer than the longest one, and no type label. -/
theorem length_of_pin (h : layout? s = some l) {p : Pin} (hp : p ∈ l.portPins) :
    p.name.length ≤ longestOn s p.side ∧ p.type.length ≤ typeColumns s := by
  obtain ⟨q, hq, hname, htype⟩ := exists_port_of_pin h hp
  rw [hname, htype]
  refine ⟨Snippet.length_le_longest (List.mem_map_of_mem hq), Snippet.length_le_longest ?_⟩
  exact List.mem_append_right _ (List.mem_map_of_mem (mem_ports_of_mem_portsOn hq))

theorem longestOn_le (s : Signature) (side : Side) : longestOn s side ≤ nameColumns s := by
  rw [nameColumns]
  cases side <;> omega

/-- Two names that face each other fit beside each other. -/
theorem facing_le (h : layout? s = some l) {p q : Pin} (hp : p ∈ l.portPins) (hq : q ∈ l.portPins)
    (hleft : p.side = .left) (hright : q.side = .right) :
    p.name.length + q.name.length ≤ nameColumns s := by
  have hp := (length_of_pin h hp).1
  have hq := (length_of_pin h hq).1
  rw [hleft] at hp
  rw [hright] at hq
  rw [nameColumns]
  omega

/-- There is a parameter box when there is something in it. -/
theorem exists_parameterBox (h : layout? s = some l) {p : Pin} (hp : p ∈ l.parameterPins) :
    ∃ b, l.parameterBox = some b := by
  obtain ⟨q, hq, -⟩ := exists_parameter_of_pin h hp
  exact Option.isSome_iff_exists.1
    ((arranged_of_layout? h).parameterBox.2 (List.ne_nil_of_mem hq))

/-! ## Where labels lie -/

theorem label?_shapes (h : layout? s = some l) : l.shapes.filterMap Shape.label? =
    l.parameterPins.flatMap l.parameterLabels ++ l.portPins.flatMap l.portLabels := by
  have hbox (b : Box) (fill : String) : (Shape.box b fill).filterMap Shape.label? = [] := rfl
  have hports : (l.portPins.flatMap l.portShapes).filterMap Shape.label? =
      l.portPins.flatMap l.portLabels := List.filterMap_flatMap ..
  rw [Layout.shapes, List.filterMap_append, List.filterMap_append, hbox, hports, List.append_nil]
  congr 1
  cases hb : l.parameterBox with
  | none =>
    have hpins : l.parameterPins = [] := List.eq_nil_iff_forall_not_mem.2 fun p hp => by
      obtain ⟨b, hsome⟩ := exists_parameterBox h hp
      rw [hb] at hsome
      cases hsome
    rw [hpins]
    rfl
  | some b =>
    dsimp only
    rw [List.filterMap_append, hbox, List.nil_append]
    exact List.filterMap_flatMap ..

theorem parameter_within (h : layout? s = some l) {p : Pin} (hp : p ∈ l.parameterPins) :
    ∃ b name, l.parameterBox = some b ∧ l.parameterLabels p = [name] ∧ name.text = p.name ∧
      name.Within b.x (b.x + b.width) := by
  obtain ⟨b, hb⟩ := exists_parameterBox h hp
  obtain ⟨-, hx, hwidth, -⟩ := columns_of_layout? h
  obtain ⟨hbx, hbwidth, -⟩ := (arranged_of_layout? h).boxes b hb
  obtain ⟨q, hq, hname⟩ := exists_parameter_of_pin h hp
  have hlength : p.name.length ≤ nameColumns s := by
    rw [hname]
    exact (Snippet.length_le_longest (List.mem_map_of_mem hq)).trans (Nat.le_max_left ..)
  rw [charWidth] at hwidth
  refine ⟨b, _, hb, parameterLabels_eq l p, rfl, ?_⟩
  simp only [Label.Within, charWidth]
  omega

theorem port_within (h : layout? s = some l) {p : Pin} (hp : p ∈ l.portPins) :
    ∃ name type, l.portLabels p = [name, type] ∧ name.text = p.name ∧ type.text = p.type ∧
      name.Within l.portBox.x (l.portBox.x + l.portBox.width) ∧
      type.Within (-5) (l.width + 5) ∧
      (type.Within 0 l.width ↔ p.type.length < typeColumns s) := by
  obtain ⟨hmargin, hx, hwidth, hlwidth⟩ := columns_of_layout? h
  obtain ⟨hname, htype⟩ := length_of_pin h hp
  have hlength := hname.trans (longestOn_le s p.side)
  rw [charWidth] at hmargin hwidth
  cases hside : p.side with
  | left =>
    refine ⟨_, _, portLabels_left l hside, rfl, rfl, ?_⟩
    simp only [Label.Within, charWidth]
    omega
  | right =>
    refine ⟨_, _, portLabels_right l hside, rfl, rfl, ?_⟩
    simp only [Label.Within, charWidth, Layout.rightEdge]
    omega

/-- The second name cannot end before the first one starts, as neither is empty. -/
theorem facing_apart (h : layout? s = some l) {p q : Pin} (hp : p ∈ l.portPins) (hq : q ∈ l.portPins)
    (hleft : p.side = .left) (hright : q.side = .right) (hpne : p.name ≠ []) (hqne : q.name ≠ []) :
    ∀ name ∈ (l.portLabels p).head?, ∀ name' ∈ (l.portLabels q).head?,
      name.right ≤ name'.left + 12 ∧
        (name.Apart name' ↔ p.name.length + q.name.length + 2 ≤ nameColumns s) := by
  obtain ⟨-, hx, hwidth, -⟩ := columns_of_layout? h
  have hfit := facing_le h hp hq hleft hright
  have hplength := List.length_pos_iff.2 hpne
  have hqlength := List.length_pos_iff.2 hqne
  rw [portLabels_left l hleft, portLabels_right l hright]
  rintro name ⟨⟩ name' ⟨⟩
  rw [charWidth] at hwidth
  simp only [Label.Apart, charWidth, Layout.rightEdge]
  omega

theorem labelled_of_layout? (hnames : ∀ p ∈ s.ports, p.name ≠ []) (h : layout? s = some l) :
    l.Labelled s := by
  have hne {p : Pin} (hp : p ∈ l.portPins) : p.name ≠ [] := by
    obtain ⟨q, hq, hname, -⟩ := exists_port_of_pin h hp
    rw [hname]
    exact hnames q (mem_ports_of_mem_portsOn hq)
  refine ⟨label?_shapes h, fun p hp => parameter_within h hp, fun p hp => port_within h hp, ?_⟩
  intro p hp q hq hleft hright
  exact facing_apart h hp hq hleft hright (hne hp) (hne hq)

/-- In the drawing of any source with ports, names are inside their boxes. Two names that face each
other are apart exactly when they leave two characters of the room for names, and overlap by 12 at
most; a type label is inside the drawing exactly when it is shorter than the longest one, and sticks
out by 5 at most. -/
theorem labels_of_source (source : Text) (h : (Signature.ofSource source).ports ≠ []) :
    ∃ l, layout? (Signature.ofSource source) = some l ∧ l.Labelled (Signature.ofSource source) := by
  obtain ⟨l, hl⟩ : ∃ l, layout? (Signature.ofSource source) = some l := ⟨_, if_neg h⟩
  have hwellFormed := Signature.ofViews_wellFormed (Source.views source)
  refine ⟨l, hl, labelled_of_layout? (fun p hp => ?_) hl⟩
  exact Text.ne_nil_of_isIdentifier (hwellFormed.ports p hp).name

/-- A parameter has the longest name and the longest type, and so makes room for all labels. -/
theorem labels_of_source_parameter :
    let source := "module m #(parameter integer unsigned WIDTH = 8) (input a, output b);".toList
    (Signature.ofSource source).ports ≠ [] ∧ nameColumns (Signature.ofSource source) = 5 ∧
      typeColumns (Signature.ofSource source) = 16 ∧
      ∃ l, layout? (Signature.ofSource source) = some l ∧
        l.Labelled (Signature.ofSource source) := by
  intro source
  have hports : (Signature.ofSource source).ports ≠ [] := by decide +kernel
  exact ⟨hports, by decide +kernel, by decide +kernel, labels_of_source source hports⟩

/-- An input and an output in one row, whose names overlap and whose types stick out. -/
theorem labels_overlap :
    let source := "module m (input a, output b);".toList
    ∃ l, layout? (Signature.ofSource source) = some l ∧
      ∃ p ∈ l.portPins, ∃ q ∈ l.portPins, p.side = .left ∧ q.side = .right ∧ p.textY = q.textY ∧
        ∃ name type name' type', l.portLabels p = [name, type] ∧ l.portLabels q = [name', type'] ∧
          ¬ name.Apart name' ∧ ¬ type.Within 0 l.width ∧ ¬ type'.Within 0 l.width := by
  have hsource : Signature.ofSource "module m (input a, output b);".toList =
      ⟨['m'], [], [⟨['a'], .input, "(wire)".toList, none, []⟩,
        ⟨['b'], .output, "(wire)".toList, none, []⟩]⟩ := by decide +kernel
  intro source
  rw [hsource]
  refine ⟨_, rfl, ⟨['a'], "(wire)".toList, .left, .stub, 20⟩, by decide,
    ⟨['b'], "(wire)".toList, .right, .arrow, 20⟩, by decide, rfl, rfl, rfl,
    ⟨['a'], 90, 100⟩, ⟨"(wire)".toList, -5, 55⟩, ⟨['b'], 88, 98⟩, ⟨"(wire)".toList, 135, 195⟩, ?_⟩
  decide

end Diagram
end Pinout
