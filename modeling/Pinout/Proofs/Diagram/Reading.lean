import Mathlib.Data.List.Basic
import Mathlib.Data.List.DropRight
import Pinout.Diagram.Drawing
import Pinout.Proofs.Markup.Reading

/-!
# Pinout.Proofs.Diagram.Reading

The drawing of a layout is read back: first the names of the parameters, then the names and types of
the inputs, then those of the other ports (`block_markup`). Its tags without their coordinates do not
change when the texts of the signature are emptied (`withoutCoordinates_markup`).
-/

namespace Pinout

open Markup (Block named_of_names tagList alternate alternate_append alternate_cons escape
  renderAttribute)

namespace Diagram

/-! ## Tags without coordinates -/

-- Found once here, for the tests of membership below.
local instance : LawfulBEq Text := inferInstance

/-- The attributes that hold coordinates and lengths. -/
def coordinates : List Text :=
  ["x", "y", "width", "height", "x1", "y1", "x2", "y2", "points", "viewBox"].map String.toList

/-- The name at the end of `key`, before its equals sign. -/
def attributeName (key : Text) : Text := key.dropLast.rtakeWhile (· ≠ ' ')

/-- Keys and values in turn, of which `key` is the first, without the values of coordinates. -/
def hideValues (key : Text) : List Text → List Text
  | value :: next :: more =>
    (if attributeName key ∈ coordinates then [] else value) :: next :: hideValues next more
  | rest => rest

/-- A tag cut at its quotes, with the values of coordinates taken out. -/
def withoutCoordinates (tag : Text) : List Text :=
  let (key, pieces) := alternate '"' '"' tag
  key :: hideValues key pieces

/-- The attribute without its value, if that is a coordinate. -/
def hidden (a : String × Text) : String × Text :=
  (a.1, if a.1.toList ∈ coordinates then [] else a.2)

theorem attributeName_key {name : Text} (hn : ' ' ∉ name) (u : Text) :
    attributeName (u ++ ' ' :: (name ++ ['='])) = name := by
  have hcat : u ++ ' ' :: (name ++ ['=']) = u ++ ' ' :: name ++ ['='] := by simp
  have hrun : ∀ c ∈ name.reverse, decide (c ≠ ' ') = true := by
    intro c hc
    refine decide_eq_true ?_
    rintro rfl
    exact hn (List.mem_reverse.1 hc)
  rw [attributeName, hcat, List.dropLast_concat, List.rtakeWhile, List.reverse_append,
    List.reverse_cons, List.append_assoc, List.takeWhile_append_of_pos hrun]
  simp

theorem withoutCoordinates_attribute {u : Text} (hu : '"' ∉ u) {a : String × Text}
    (hq : '"' ∉ a.1.toList) (hs : ' ' ∉ a.1.toList) (rest : Text) :
    withoutCoordinates (u ++ (renderAttribute a ++ rest)) =
      (u ++ ' ' :: (a.1.toList ++ ['='])) ::
        (if a.1.toList ∈ coordinates then [] else escape a.2) :: withoutCoordinates rest := by
  have hkey : '"' ∉ u ++ ' ' :: (a.1.toList ++ ['=']) := by simp [hu, hq]
  have hcat : u ++ (renderAttribute a ++ rest) =
      u ++ ' ' :: (a.1.toList ++ ['=']) ++ '"' :: (escape a.2 ++ '"' :: rest) := by
    simp [renderAttribute]
  rw [withoutCoordinates, hcat, alternate_append hkey, alternate_cons,
    alternate_append (Markup.not_mem_escape a.2).2.2, alternate_cons]
  simp only [List.append_nil, hideValues, attributeName_key hs]
  rfl

/-- Tags whose attributes differ in coordinates only are the same without them. -/
theorem withoutCoordinates_congr {u : Text} (hu : '"' ∉ u) {attributes attributes' : Attributes}
    (hn : ∀ a ∈ attributes, '"' ∉ a.1.toList ∧ ' ' ∉ a.1.toList)
    (h : attributes.map hidden = attributes'.map hidden) :
    withoutCoordinates (u ++ attributes.flatMap renderAttribute) =
      withoutCoordinates (u ++ attributes'.flatMap renderAttribute) := by
  induction attributes generalizing u attributes' with
  | nil =>
    obtain rfl : attributes' = [] := by simpa using h.symm
    rfl
  | cons a more ih =>
    cases attributes' with
    | nil => cases h
    | cons a' more' =>
      obtain ⟨ha, hmore⟩ := List.cons.inj h
      obtain ⟨hq, hs⟩ := hn a List.mem_cons_self
      have hrest := ih (u := []) List.not_mem_nil (fun b hb => hn b (List.mem_cons_of_mem a hb)) hmore
      have hname : a.1 = a'.1 := (Prod.mk.inj ha).1
      have hvalue : (if a.1.toList ∈ coordinates then [] else escape a.2) =
          if a'.1.toList ∈ coordinates then [] else escape a'.2 := by
        have := congrArg (fun b => escape b.2) ha
        simp only [hidden, apply_ite escape] at this
        exact this
      rw [List.flatMap_cons, List.flatMap_cons, withoutCoordinates_attribute hu hq hs,
        withoutCoordinates_attribute hu (hname ▸ hq) (hname ▸ hs), hvalue, hname]
      exact congrArg (_ :: _ :: ·) hrest

/-! ## Shapes -/

namespace Shape

/-- The shape without its place and its text. -/
def erased : Shape → Shape
  | rect _ _ _ _ fill => rect 0 0 0 0 fill
  | line _ _ _ => line 0 0 0
  | polyline _ => polyline []
  | label _ _ anchor _ => label 0 0 anchor []

/-- The text of a label. -/
def texts : Shape → List Text
  | label _ _ _ t => [t]
  | _ => []

end Shape

theorem block_shape (s : Shape) : Block s.markup s.texts := by
  cases s with
  | rect x y width height fill =>
    exact .element (by decide) (by decide)
      (named_of_names ["x", "y", "width", "height", "fill"] rfl (by decide)) .nil
  | line x₁ x₂ y =>
    exact .element (by decide) (by decide)
      (named_of_names ["x1", "y1", "x2", "y2", "stroke", "stroke-width"] rfl (by decide)) .nil
  | polyline points =>
    exact .element (by decide) (by decide) (named_of_names ["points", "style"] rfl (by decide)) .nil
  | label x y anchor t =>
    refine .text (by decide) ?_ t
    cases anchor with
    | start => exact named_of_names ["x", "y", "font-size"] rfl (by decide)
    | finish => exact named_of_names ["x", "y", "text-anchor", "font-size"] rfl (by decide)

/-- The tags of an element do not depend on the coordinates among its attributes. -/
theorem withoutCoordinates_element (name : String) (hu : '"' ∉ name.toList)
    {attributes attributes' : Attributes} (names : List String)
    (h : attributes.map Prod.fst = names) (hn : ∀ n ∈ names, '"' ∉ n.toList ∧ ' ' ∉ n.toList)
    (ha : attributes.map hidden = attributes'.map hidden) {body body' : Markup}
    (hb : (tagList body).map withoutCoordinates = (tagList body').map withoutCoordinates) :
    (tagList (Markup.element name attributes body)).map withoutCoordinates =
      (tagList (Markup.element name attributes' body')).map withoutCoordinates := by
  have htag := withoutCoordinates_congr hu (fun a hm => hn _ (h ▸ List.mem_map_of_mem hm)) ha
  simp only [Markup.tagList_element, List.map_append, List.map_cons, htag, hb]

theorem hidden_coordinate (name : String) (h : name.toList ∈ coordinates) (v : Text) :
    hidden (name, v) = (name, []) := by
  rw [hidden, if_pos h]

theorem hidden_measure (name : String) (h : name.toList ∈ coordinates) (i : Int) :
    hidden (measure name i) = (name, []) := hidden_coordinate name h _

/-- The tags of a shape do not depend on its place and its text, but for coordinates. -/
theorem withoutCoordinates_shape (s : Shape) :
    (tagList s.markup).map withoutCoordinates = (tagList s.erased.markup).map withoutCoordinates := by
  have hx := hidden_measure "x" (by decide)
  have hy := hidden_measure "y" (by decide)
  cases s with
  | rect x y width height fill =>
    have hwidth := hidden_measure "width" (by decide)
    have hheight := hidden_measure "height" (by decide)
    refine withoutCoordinates_element "rect" (by decide) ["x", "y", "width", "height", "fill"] rfl
      (by decide) ?_ rfl
    simp only [List.map_cons, hx, hy, hwidth, hheight]
  | line x₁ x₂ y =>
    have hx₁ := hidden_measure "x1" (by decide)
    have hy₁ := hidden_measure "y1" (by decide)
    have hx₂ := hidden_measure "x2" (by decide)
    have hy₂ := hidden_measure "y2" (by decide)
    refine withoutCoordinates_element "line" (by decide)
      ["x1", "y1", "x2", "y2", "stroke", "stroke-width"] rfl (by decide) ?_ rfl
    simp only [List.map_cons, hx₁, hy₁, hx₂, hy₂]
  | polyline points =>
    have hpoints := hidden_coordinate "points" (by decide)
    refine withoutCoordinates_element "polyline" (by decide) ["points", "style"] rfl (by decide) ?_ rfl
    simp only [List.map_cons, hpoints]
  | label x y anchor t =>
    cases anchor with
    | start =>
      refine withoutCoordinates_element "text" (by decide) ["x", "y", "font-size"] rfl (by decide) ?_ rfl
      simp only [List.map_append, List.map_cons, hx, hy]
    | finish =>
      refine withoutCoordinates_element "text" (by decide) ["x", "y", "text-anchor", "font-size"] rfl
        (by decide) ?_ rfl
      simp only [List.map_append, List.map_cons, hx, hy]

/-! ## Layouts -/

/-- What is drawn for a pin depends on its item only, so the rows do not matter. -/
theorem flatMap_pinRows {α β : Type} {pin : α → Nat → Pin} {f : Pin → List β} {g : α → List β}
    (h : ∀ x y, f (pin x y) = g x) (top : Nat) (items : List α) :
    (pinRows pin top items).flatMap f = items.flatMap g := by
  rw [pinRows, List.flatMap_map]
  simp only [h]
  rw [← List.flatMap_map (f := Prod.fst), List.zipIdx_map_fst]

theorem exists_layout? {s : Signature} (h : s.ports ≠ []) : ∃ l, layout? s = some l :=
  ⟨_, if_neg h⟩

/-- What is drawn is drawn for the boxes, and for each item in its turn. -/
theorem flatMap_shapes {β : Type} {s : Signature} {l : Layout} (h : layout? s = some l)
    {f : Shape → List β} (boxes : String → List β) (parameter : Parameter → List β)
    (left right : Port → List β) (hbox : ∀ b fill, (Shape.box b fill).flatMap f = boxes fill)
    (hp : ∀ p y, (l.parameterShapes (parameterPin p y)).flatMap f = parameter p)
    (hleft : ∀ p y, (l.portShapes (portPin .left p y)).flatMap f = left p)
    (hright : ∀ p y, (l.portShapes (portPin .right p y)).flatMap f = right p) :
    l.shapes.flatMap f =
      (if s.parameters = [] then [] else boxes "#bdecb6" ++ s.parameters.flatMap parameter) ++
        (boxes "#fdfd96" ++ (s.leftPorts.flatMap left ++ s.rightPorts.flatMap right)) := by
  have hparameters : (pinRows parameterPin 0 s.parameters).flatMap
      (fun pin => (l.parameterShapes pin).flatMap f) = s.parameters.flatMap parameter :=
    flatMap_pinRows hp 0 s.parameters
  have hports : (pinRows (portPin .left) (portTop s) s.leftPorts ++
      pinRows (portPin .right) (portTop s) s.rightPorts).flatMap
        (fun pin => (l.portShapes pin).flatMap f) =
      s.leftPorts.flatMap left ++ s.rightPorts.flatMap right := by
    rw [List.flatMap_append, flatMap_pinRows hleft, flatMap_pinRows hright]
  rw [layout?] at h
  split at h
  · cases h
  · have hl := Option.some.inj h
    have hpins : l.parameterPins = pinRows parameterPin 0 s.parameters := hl ▸ rfl
    have hportPins : l.portPins = pinRows (portPin .left) (portTop s) s.leftPorts ++
      pinRows (portPin .right) (portTop s) s.rightPorts := hl ▸ rfl
    have hparameterBox : l.parameterBox = if s.parameters = [] then none
      else some ⟨marginWidth s, 0, boxWidth s, boxHeight s.parameters.length⟩ := hl ▸ rfl
    rw [Layout.shapes, hpins, hportPins, hparameterBox, List.append_assoc, List.flatMap_append,
      List.flatMap_append, hbox, List.flatMap_assoc, hports]
    by_cases hs : s.parameters = []
    · rw [if_pos hs, if_pos hs]
      rfl
    · rw [if_neg hs, if_neg hs]
      dsimp only
      rw [List.flatMap_append, hbox, List.flatMap_assoc, hparameters]

/-- What the diagram of a signature shows. -/
def texts (s : Signature) : List Text :=
  s.parameters.map (·.name) ++ (s.leftPorts ++ s.rightPorts).flatMap fun p => [p.name, p.type]

theorem texts_shapes {s : Signature} {l : Layout} (h : layout? s = some l) :
    l.shapes.flatMap Shape.texts = texts s := by
  have hright : ∀ p y, (l.portShapes (portPin .right p y)).flatMap Shape.texts = [p.name, p.type] := by
    intro p y
    cases hd : p.direction <;> simp [Layout.portShapes, portPin, hd, Glyph.ofDirection, Glyph.shapes,
      Shape.texts]
  have hshapes := flatMap_shapes h (fun _ => []) (fun p => [p.name]) (fun p => [p.name, p.type])
    (fun p => [p.name, p.type]) (fun _ _ => rfl) (fun _ _ => rfl) (fun _ _ => rfl) hright
  rw [hshapes, texts, List.map_eq_flatMap, List.flatMap_append]
  by_cases hs : s.parameters = []
  · rw [if_pos hs, hs]
    rfl
  · rw [if_neg hs]
    rfl

theorem block_markup {s : Signature} {l : Layout} (h : layout? s = some l) :
    Block l.markup (texts s) := by
  have hshapes : Block (l.shapes.flatMap fun shape => Markup.line 1 shape.markup)
      (l.shapes.flatMap Shape.texts) := .flatMap fun shape _ => .line 1 (block_shape shape)
  rw [← texts_shapes h]
  exact .block 0 (by decide) (by decide)
    (named_of_names ["xmlns", "version", "viewBox"] rfl (by decide)) hshapes

end Diagram

/-! ## Emptied texts -/

/-- The parameter with its texts emptied. -/
def Parameter.erased (_ : Parameter) : Parameter := ⟨[], [], none, []⟩

/-- The port with its texts emptied. -/
def Port.erased (p : Port) : Port := ⟨[], p.direction, [], none, []⟩

/-- The signature with its texts emptied. -/
def Signature.erased (s : Signature) : Signature :=
  ⟨[], s.parameters.map Parameter.erased, s.ports.map Port.erased⟩

theorem Signature.leftPorts_erased (s : Signature) :
    s.erased.leftPorts = s.leftPorts.map Port.erased := List.filter_map

theorem Signature.rightPorts_erased (s : Signature) :
    s.erased.rightPorts = s.rightPorts.map Port.erased := List.filter_map

namespace Diagram

/-- The shapes of a port on the right, without their places and texts. -/
def rightShapes (d : Direction) : List Shape :=
  .line 0 0 0 :: (Glyph.shapes 0 0 (.ofDirection d)).map Shape.erased ++
    [.label 0 0 .finish [], .label 0 0 .start []]

theorem erased_shapes {s : Signature} {l : Layout} (h : layout? s = some l) :
    l.shapes.flatMap (fun shape => [shape.erased]) =
      (if s.parameters = [] then [] else
        [.rect 0 0 0 0 "black", .rect 0 0 0 0 "#bdecb6"] ++
          s.parameters.flatMap fun _ => [.line 0 0 0, .label 0 0 .start []]) ++
      ([.rect 0 0 0 0 "black", .rect 0 0 0 0 "#fdfd96"] ++
        (s.leftPorts.flatMap (fun _ => [.line 0 0 0, .label 0 0 .start [], .label 0 0 .finish []]) ++
          s.rightPorts.flatMap fun p => rightShapes p.direction)) := by
  have hright : ∀ p y, (l.portShapes (portPin .right p y)).flatMap (fun shape => [shape.erased]) =
      rightShapes p.direction := by
    intro p y
    cases hd : p.direction <;> simp [Layout.portShapes, portPin, hd, Glyph.ofDirection, Glyph.shapes,
      rightShapes, Shape.erased]
  exact flatMap_shapes h (fun fill => [.rect 0 0 0 0 "black", .rect 0 0 0 0 fill])
    (fun _ => [.line 0 0 0, .label 0 0 .start []])
    (fun _ => [.line 0 0 0, .label 0 0 .start [], .label 0 0 .finish []])
    (fun p => rightShapes p.direction) (fun _ _ => rfl) (fun _ _ => rfl) (fun _ _ => rfl) hright

/-- A diagram has the shapes of the one with emptied texts, but for places and texts. -/
theorem map_erased_shapes {s : Signature} {l l' : Layout} (h : layout? s = some l)
    (h' : layout? s.erased = some l') :
    l'.shapes.map Shape.erased = l.shapes.map Shape.erased := by
  have hparameters : s.erased.parameters = s.parameters.map Parameter.erased := rfl
  rw [List.map_eq_flatMap, List.map_eq_flatMap, erased_shapes h, erased_shapes h',
    s.leftPorts_erased, s.rightPorts_erased, List.flatMap_map, List.flatMap_map]
  by_cases hs : s.parameters = []
  · rw [if_pos hs, if_pos (by rw [hparameters, hs]; rfl)]
    rfl
  · rw [if_neg hs, if_neg (by simpa [hparameters] using hs), hparameters, List.flatMap_map]
    rfl

/-- The tags of a diagram do not change when texts are emptied, but for coordinates. -/
theorem withoutCoordinates_markup {s : Signature} {l l' : Layout} (h : layout? s = some l)
    (h' : layout? s.erased = some l') :
    (tagList l'.markup).map withoutCoordinates = (tagList l.markup).map withoutCoordinates := by
  have hbody (l : Layout) :
      (tagList (l.shapes.flatMap fun shape => Markup.line 1 shape.markup)).map withoutCoordinates =
        (l.shapes.map Shape.erased).flatMap fun shape =>
          (tagList shape.markup).map withoutCoordinates := by
    rw [Markup.tagList_flatMap, List.map_flatMap, List.flatMap_map]
    refine List.flatMap_congr fun shape _ => ?_
    rw [Markup.tagList_line, withoutCoordinates_shape]
  have hbox := hidden_coordinate "viewBox" (by decide)
  have hblock (l : Layout) := Markup.tagList_element "svg"
    [("xmlns", "http://www.w3.org/2000/svg".toList), ("version", "1.1".toList),
      ("viewBox", "0 0 ".toList ++ Text.decimal l.width ++ ' ' :: Text.decimal l.height)]
    (l.shapes.flatMap fun shape => Markup.line 1 shape.markup)
  rw [Layout.markup, Layout.markup, Markup.tagList_block, Markup.tagList_block, ← hblock, ← hblock]
  refine withoutCoordinates_element "svg" (by decide) ["xmlns", "version", "viewBox"] rfl (by decide)
    ?_ ?_
  · simp only [List.map_cons, hbox]
  · rw [hbody, hbody, map_erased_shapes h h']

end Diagram
end Pinout
