import Mathlib.Data.List.Forall2
import Mathlib.Data.List.Perm.Basic
import Pinout.Proofs.Diagram.Bounds

/-!
# Pinout.Proofs.Diagram.Geometry

The geometry of a diagram. Each port has one pin and each parameter has one, on its side, in the
order of declaration and with the glyph of its direction (`Glyph.Marks`); the pins of a side stand in
rows of their box, and the boxes stand one above the other (`Layout.Arranged`). A signature with a
port and a type label that is not empty has a layout, it is arranged so, and all that is drawn of it
is inside the drawing (`layout?_geometry`).
-/

namespace Pinout

/-- The ports of either side: the inputs, and the others, each in the order of declaration. -/
structure Signature.Sides (s : Signature) (inputs others : List Port) : Prop where
  perm : (inputs ++ others).Perm s.ports
  inputsOrder : inputs.Sublist s.ports
  othersOrder : others.Sublist s.ports
  input : ∀ p ∈ inputs, p.direction = .input
  other : ∀ p ∈ others, p.direction ≠ .input

theorem Signature.sides (s : Signature) : s.Sides s.leftPorts s.rightPorts where
  perm := List.filter_append_perm (fun p : Port => p.direction == .input) s.ports
  inputsOrder := List.filter_sublist
  othersOrder := List.filter_sublist
  input p hp := by simpa using (List.mem_filter.1 hp).2
  other p hp := by simpa using (List.mem_filter.1 hp).2

/-- The part of a list that has a property, if it is in the order of the list. -/
theorem eq_filter_of_perm {α : Type} {p : α → Bool} {l xs ys : List α} (hl : (xs ++ ys).Perm l)
    (hs : xs.Sublist l) (hx : ∀ a ∈ xs, p a) (hy : ∀ a ∈ ys, ¬ p a) : xs = l.filter p := by
  have hxs : (xs ++ ys).filter p = xs := by
    rw [List.filter_append, List.filter_eq_self.2 hx, List.filter_eq_nil_iff.2 hy, List.append_nil]
  have hfilter := hs.filter p
  rw [List.filter_eq_self.2 hx] at hfilter
  refine hfilter.eq_of_length ?_
  rw [← (hl.filter p).length_eq, hxs]

/-- A signature has one pair of sides. -/
theorem Signature.Sides.unique {s : Signature} {inputs others : List Port}
    (h : s.Sides inputs others) : inputs = s.leftPorts ∧ others = s.rightPorts := by
  constructor
  · exact eq_filter_of_perm h.perm h.inputsOrder (fun p hp => by simpa using h.input p hp)
      (fun p hp => by simpa using h.other p hp)
  · exact eq_filter_of_perm (List.perm_append_comm.trans h.perm) h.othersOrder
      (fun p hp => by simpa using h.other p hp) (fun p hp => by simpa using h.input p hp)

namespace Diagram

/-- An input has the stub, an output the arrow, and an inout the diamond. -/
inductive Glyph.Marks : Glyph → Direction → Prop where
  | stub : Marks stub .input
  | arrow : Marks arrow .output
  | diamond : Marks diamond .inout

theorem Glyph.marks_iff {g : Glyph} {d : Direction} : g.Marks d ↔ ofDirection d = g := by
  constructor
  · rintro ⟨⟩ <;> rfl
  · rintro rfl
    cases d with
    | input => exact .stub
    | output => exact .arrow
    | inout => exact .diamond

/-- The pin of a parameter. -/
structure Pin.OfParameter (p : Parameter) (pin : Pin) : Prop where
  name : pin.name = p.name
  type : pin.type = []
  side : pin.side = .left
  glyph : pin.glyph = .stub

/-- The pin of a port on this edge of the box. -/
structure Pin.OfPort (edge : Side) (p : Port) (pin : Pin) : Prop where
  name : pin.name = p.name
  type : pin.type = p.type
  side : pin.side = edge
  glyph : pin.glyph.Marks p.direction

/-- The pins stand in consecutive rows from one row below the top of the box, with their labels and
stubs between its top and its bottom. -/
structure Box.Rows (b : Box) (pins : List Pin) : Prop where
  pitch : ∀ (i : Nat) (p : Pin), pins[i]? = some p → p.textY = b.y + rowPitch * (i + 1)
  text : ∀ p ∈ pins, b.y < p.textY ∧ p.textY < b.y + b.height
  line : ∀ p ∈ pins, (b.y : Int) < p.lineY ∧ p.lineY < b.y + b.height

/-- The pins and the boxes of a layout are those of a signature, each at its place. -/
structure Layout.Arranged (s : Signature) (l : Layout) : Prop where
  parameterPins : List.Forall₂ Pin.OfParameter s.parameters l.parameterPins
  portPins : ∃ inputs others left right, s.Sides inputs others ∧ l.portPins = left ++ right ∧
    List.Forall₂ (Pin.OfPort .left) inputs left ∧ List.Forall₂ (Pin.OfPort .right) others right
  parameterRows : ∀ b ∈ l.parameterBox, b.Rows l.parameterPins
  leftRows : l.portBox.Rows (l.portPins.filter (·.side == .left))
  rightRows : l.portBox.Rows (l.portPins.filter (·.side == .right))
  parameterBox : l.parameterBox.isSome ↔ s.parameters ≠ []
  boxes : ∀ b ∈ l.parameterBox, b.x = l.portBox.x ∧ b.width = l.portBox.width ∧
    b.y + b.height + boxGap = l.portBox.y

/-! ## Rows of pins -/

section Rows

variable {α : Type} (pin : α → Nat → Pin)

/-- The pins are those of the items, in their order. -/
theorem forall₂_pinRows {R : α → Pin → Prop} (hpin : ∀ item y, R item (pin item y)) (top : Nat)
    (items : List α) : List.Forall₂ R items (pinRows pin top items) := by
  have h : List.Forall₂ R (items.zipIdx.map Prod.fst) (pinRows pin top items) := by
    rw [pinRows, List.forall₂_map_left_iff, List.forall₂_map_right_iff, List.forall₂_same]
    exact fun r _ => hpin r.1 _
  rwa [List.zipIdx_map_fst] at h

theorem rows_pinRows (hpin : ∀ item y, (pin item y).textY = y) {b : Box} {items : List α}
    (h : rowPitch * items.length < b.height) : b.Rows (pinRows pin b.y items) := by
  refine ⟨fun i p hp => ?_, fun p hp => ?_, fun p hp => ?_⟩
  · rw [pinRows, List.getElem?_map, List.getElem?_zipIdx, Option.map_map] at hp
    obtain ⟨item, -, rfl⟩ := Option.map_eq_some_iff.1 hp
    rw [Function.comp_apply, hpin, Nat.zero_add]
  · have hrow := mem_pinRows hpin hp
    rw [rowPitch] at *
    omega
  · have hrow := mem_pinRows hpin hp
    rw [Pin.lineY]
    rw [rowPitch] at *
    omega

theorem filter_side_pinRows {side : Side} (hside : ∀ item y, (pin item y).side = side) (top : Nat)
    (items : List α) (side' : Side) : (pinRows pin top items).filter (·.side == side') =
      if side = side' then pinRows pin top items else [] := by
  have hpins : ∀ p ∈ pinRows pin top items, p.side = side := by
    intro p hp
    obtain ⟨r, -, rfl⟩ := List.mem_map.1 hp
    exact hside r.1 _
  split
  · next h =>
    refine List.filter_eq_self.2 fun p hp => ?_
    rw [hpins p hp, h]
    exact beq_self_eq_true _
  · next h =>
    refine List.filter_eq_nil_iff.2 fun p hp => ?_
    rw [hpins p hp]
    simpa using h

end Rows

/-! ## Layouts -/

theorem ofPort_portPin (edge : Side) (p : Port) (y : Nat) : Pin.OfPort edge p (portPin edge p y) where
  name := rfl
  type := rfl
  side := rfl
  glyph := Glyph.marks_iff.2 rfl

/-- The pins of one side are those of its ports. -/
theorem filter_side_portPins (s : Signature) (top : Nat) (side : Side) :
    (pinRows (portPin .left) top s.leftPorts ++
        pinRows (portPin .right) top s.rightPorts).filter (·.side == side) =
      match side with
      | .left => pinRows (portPin .left) top s.leftPorts
      | .right => pinRows (portPin .right) top s.rightPorts := by
  rw [List.filter_append, filter_side_pinRows (portPin .left) (fun _ _ => rfl),
    filter_side_pinRows (portPin .right) (fun _ _ => rfl)]
  cases side with
  | left => exact List.append_nil _
  | right => rfl

/-- A box is higher than its rows. -/
theorem rows_lt_boxHeight {n rows : Nat} (h : n ≤ rows) : rowPitch * n < boxHeight rows := by
  rw [boxHeight, rowPitch, boxPadding]
  omega

theorem arranged_of_layout? {s : Signature} {l : Layout} (h : layout? s = some l) :
    l.Arranged s := by
  rw [layout?] at h
  split at h
  · cases h
  · cases h
    constructor
    case parameterPins => exact forall₂_pinRows parameterPin (fun _ _ => ⟨rfl, rfl, rfl, rfl⟩) 0 _
    case portPins =>
      exact ⟨_, _, _, _, s.sides, rfl, forall₂_pinRows _ (ofPort_portPin .left) _ _,
        forall₂_pinRows _ (ofPort_portPin .right) _ _⟩
    case parameterRows =>
      intro b hb
      dsimp only at hb
      split at hb
      · cases hb
      · cases hb
        exact rows_pinRows _ (fun _ _ => rfl) (rows_lt_boxHeight (Nat.le_refl _))
    case leftRows =>
      rw [filter_side_portPins]
      exact rows_pinRows _ (fun _ _ => rfl) (rows_lt_boxHeight (Nat.le_max_left ..))
    case rightRows =>
      rw [filter_side_portPins]
      exact rows_pinRows _ (fun _ _ => rfl) (rows_lt_boxHeight (Nat.le_max_right ..))
    case parameterBox =>
      dsimp only
      split <;> simp_all
    case boxes =>
      intro b hb
      dsimp only at hb ⊢
      split at hb
      · cases hb
      · next hparameters =>
        cases hb
        refine ⟨rfl, rfl, ?_⟩
        rw [portTop, if_neg hparameters, Nat.zero_add]

/-- The geometry of the diagram of a signature with ports and a type label that is not empty. -/
theorem layout?_geometry {s : Signature} (hports : s.ports ≠ [])
    (htypes : ∃ t ∈ s.parameters.map (·.type) ++ s.ports.map (·.type), t ≠ []) :
    ∃ l, layout? s = some l ∧ l.Arranged s ∧ l.Subtracts ∧
      ∀ shape ∈ l.shapes, shape.Inside l.width l.height ∧
        (l.width < Nat.pow 2 64 → l.height < Nat.pow 2 64 →
          ∀ i ∈ shape.numbers, wordText i = Text.decimal i.toNat) := by
  obtain ⟨l, hl⟩ : ∃ l, layout? s = some l := ⟨_, if_neg hports⟩
  obtain ⟨t, hmem, ht⟩ := htypes
  have hroomy := roomy_of_marginWidth (marginWidth_ge hmem ht) hl
  refine ⟨l, hl, arranged_of_layout? hl, hroomy.subtracts, fun shape hshape => ?_⟩
  have hinside := hroomy.inside shape hshape
  refine ⟨hinside, fun hwidth hheight i hi => wordText_eq (hinside.numbers i hi) ?_⟩
  have hle := hinside.le i hi
  omega

/-- A parameter, whose type is the only label, and ports of all directions. -/
theorem layout?_geometry_bus :
    let s : Signature := ⟨['m'], [⟨['W'], "int".toList, none, []⟩],
      [⟨['q'], .output, [], none, []⟩, ⟨['a'], .input, [], none, []⟩,
        ⟨['z'], .inout, [], none, []⟩]⟩
    s.ports ≠ [] ∧ (∃ t ∈ s.parameters.map (·.type) ++ s.ports.map (·.type), t ≠ []) ∧
    ∃ l, layout? s = some l ∧ l.Arranged s ∧ l.Subtracts ∧
      l.portPins.map (fun pin => (pin.name, pin.side, pin.glyph)) =
        [(['a'], .left, .stub), (['q'], .right, .arrow), (['z'], .right, .diamond)] ∧
      ∀ shape ∈ l.shapes,
        shape.Inside l.width l.height ∧ ∀ i ∈ shape.numbers, wordText i = Text.decimal i.toNat := by
  intro s
  have hports : s.ports ≠ [] := by decide
  have htypes : ∃ t ∈ s.parameters.map (·.type) ++ s.ports.map (·.type), t ≠ [] := by decide
  obtain ⟨l, hl, harranged, hsubtracts, hshapes⟩ := layout?_geometry hports htypes
  have hsize : ∀ l ∈ layout? s, l.width < Nat.pow 2 64 ∧ l.height < Nat.pow 2 64 := by decide
  have hpins : ∀ l ∈ layout? s, l.portPins.map (fun pin => (pin.name, pin.side, pin.glyph)) =
      [(['a'], .left, .stub), (['q'], .right, .arrow), (['z'], .right, .diamond)] := by decide
  obtain ⟨hwidth, hheight⟩ := hsize l hl
  exact ⟨hports, htypes, l, hl, harranged, hsubtracts, hpins l hl, fun shape hshape =>
    ⟨(hshapes shape hshape).1, (hshapes shape hshape).2 hwidth hheight⟩⟩

end Diagram
end Pinout
