import Mathlib.Data.List.TakeWhile
import Pinout.Markup
import Pinout.Text.Blank

/-!
# Pinout.Proofs.Markup.Reading

Markup read back. An output is cut at its tags (`readTags`), tags that open and close are matched by
a stack (`balanced`), and the text behind the opening tag of an element that holds text is read with
the entities undone (`contents`).

`Laid` are the markups that are built of layout, of elements around one text and of elements around
more markup. They are read back as they were put in (`readsBack_of_block`), by induction on `Laid`;
`Block` is what they are put together from.
-/

namespace Pinout
namespace Markup

open Text (allBlank isBlank)

/-! ## Outputs cut at their tags -/

/-- The text up to the first `a`, and the pieces behind it, which `b` and `a` end in turn. -/
def alternate (a b : Char) : Text → Text × List Text
  | [] => ([], [])
  | c :: t =>
    if c = a then
      let (piece, pieces) := alternate b a t
      ([], piece :: pieces)
    else
      let (piece, pieces) := alternate a b t
      (c :: piece, pieces)

/-- Tags, each with the text behind it. A tag that nothing ends is none. -/
def pairs : List Text → Option (List (Text × Text))
  | [] => some []
  | [_] => none
  | tag :: text :: more => (pairs more).map ((tag, text) :: ·)

/-- The text before the first tag of an output, and the tags without their angle brackets. -/
def readTags (output : Text) : Option (Text × List (Text × Text)) :=
  let (first, pieces) := alternate '<' '>' output
  (pairs pieces).map (first, ·)

/-- The tags of an output. -/
def tags (output : Text) : List Text := ((readTags output).map (·.2.map Prod.fst)).getD []

/-- The name of the element that a tag opens. -/
def tagName (tag : Text) : Text := tag.takeWhile (· ≠ ' ')

/-- Each tag closes the element that was opened last, and all elements are closed. -/
def balanced : List Text → List Text → Bool
  | opened, [] => opened.isEmpty
  | [], ('/' :: _) :: _ => false
  | name :: opened, ('/' :: closed) :: tags => name == closed && balanced opened tags
  | opened, tag :: tags => balanced (tagName tag :: opened) tags

/-! ## Texts read back -/

/-- The text with characters in place of their entities. -/
def unescape : Text → Text
  | '&' :: 'a' :: 'm' :: 'p' :: ';' :: t => '&' :: unescape t
  | '&' :: 'l' :: 't' :: ';' :: t => '<' :: unescape t
  | '&' :: 'g' :: 't' :: ';' :: t => '>' :: unescape t
  | '&' :: 'q' :: 'u' :: 'o' :: 't' :: ';' :: t => '"' :: unescape t
  | '&' :: '#' :: '3' :: '9' :: ';' :: t => '\'' :: unescape t
  | c :: t => c :: unescape t
  | [] => []

/-- The elements that hold a text. -/
def textElements : List String := ["h3", "li", "p", "th", "td", "text"]

/-- The tag opens an element that holds a text. -/
def holdsText (tag : Text) : Bool := (textElements.map String.toList).contains (tagName tag)

/-- The texts behind the tags that open an element for them. -/
def contents (tagged : List (Text × Text)) : List Text :=
  (tagged.filter (holdsText ·.1)).map (unescape ·.2)

/-- The output is balanced tags, the texts, and blanks. -/
def ReadsBack (output : Text) (texts : List Text) : Prop :=
  ∃ first tagged, readTags output = some (first, tagged) ∧
    balanced [] (tagged.map Prod.fst) ∧ contents tagged = texts ∧
    allBlank first ∧ ∀ p ∈ tagged, holdsText p.1 = false → allBlank p.2

/-- An output is read back in one way. -/
theorem ReadsBack.unique {output : Text} {texts texts' : List Text} (h : ReadsBack output texts)
    (h' : ReadsBack output texts') : texts = texts' := by
  obtain ⟨_, tagged, hr, -, rfl, -⟩ := h
  obtain ⟨_, tagged', hr', -, rfl, -⟩ := h'
  rw [hr] at hr'
  cases hr'
  rfl

/-- What is read back is exactly what the output shows, where that is described by a relation. -/
theorem ReadsBack.iff {output : Text} {texts : List Text} (h : ReadsBack output texts)
    {Shown : List Text → Prop} (hs : ∀ ts, Shown ts ↔ texts = ts) (ts : List Text) :
    ReadsBack output ts ↔ Shown ts := by
  rw [hs]
  exact ⟨h.unique, fun he => he ▸ h⟩

theorem unescape_entity (c : Char) (t : Text) : unescape (entity c ++ t) = c :: unescape t := by
  unfold entity
  split_ifs with h₁ h₂ h₃ h₄ h₅
  · rw [h₁]; rfl
  · rw [h₂]; rfl
  · rw [h₃]; rfl
  · rw [h₄]; rfl
  · rw [h₅]; rfl
  · rw [List.singleton_append, unescape] <;> simp [h₁]

theorem unescape_escape (t : Text) : unescape (escape t) = t := by
  induction t with
  | nil => rfl
  | cons c t ih =>
    have hc : escape (c :: t) = entity c ++ escape t := List.flatMap_cons
    rw [hc, unescape_entity, ih]

/-! ## The tags of a markup -/

/-- The tag that an item is. -/
def Item.tag? : Item → Option Text
  | opening name attributes => some (name.toList ++ attributes.flatMap renderAttribute)
  | closing name => some ('/' :: name.toList)
  | _ => none

/-- What an item shows between tags. -/
def Item.shown : Item → Text
  | text t => escape t
  | layout t | verbatim t => t
  | opening _ _ | closing _ => []

/-- No angle bracket stands in a tag or between tags. -/
def Item.Clean (item : Item) : Prop :=
  '<' ∉ item.tag?.getD item.shown ∧ '>' ∉ item.tag?.getD item.shown

/-- The text before the first tag of a markup, and its tags with the text behind each. -/
def tagged : Markup → Text × List (Text × Text)
  | [] => ([], [])
  | item :: m =>
    match item.tag? with
    | some tag => ([], (tag, (tagged m).1) :: (tagged m).2)
    | none => (item.shown ++ (tagged m).1, (tagged m).2)

theorem alternate_append {a : Char} {u : Text} (h : a ∉ u) (b : Char) (t : Text) :
    alternate a b (u ++ t) = (u ++ (alternate a b t).1, (alternate a b t).2) := by
  induction u with
  | nil => rfl
  | cons c u ih =>
    simp only [List.mem_cons, not_or] at h
    rw [List.cons_append, alternate, if_neg (Ne.symm h.1), ih h.2]
    rfl

theorem alternate_cons (a b : Char) (t : Text) :
    alternate a b (a :: t) = ([], (alternate b a t).1 :: (alternate b a t).2) := by
  rw [alternate, if_pos rfl]

theorem render_of_tag? {item : Item} {tag : Text} (h : item.tag? = some tag) :
    item.render = '<' :: (tag ++ ['>']) := by
  cases item with
  | opening | closing =>
    cases h
    simp [Item.render]
  | _ => cases h

theorem render_of_not_tag? {item : Item} (h : item.tag? = none) : item.render = item.shown := by
  cases item with
  | opening | closing => cases h
  | _ => rfl

theorem readTags_render {m : Markup} (h : ∀ item ∈ m, item.Clean) :
    readTags m.render = some (tagged m) := by
  induction m with
  | nil => rfl
  | cons item m ih =>
    have ih := ih fun i hi => h i (List.mem_cons_of_mem item hi)
    obtain ⟨hopen, hclose⟩ := h item List.mem_cons_self
    have hr : render (item :: m) = item.render ++ render m := List.flatMap_cons
    obtain ⟨behind, hpairs, htagged⟩ := Option.map_eq_some_iff.1 ih
    rw [hr, readTags, tagged]
    cases ht : item.tag? with
    | none =>
      rw [ht, Option.getD_none] at hopen
      rw [render_of_not_tag? ht, alternate_append hopen, ← htagged]
      simp only [hpairs, Option.map_some]
    | some tag =>
      rw [ht, Option.getD_some] at hclose
      have htag : item.render ++ render m = '<' :: (tag ++ '>' :: render m) := by
        rw [render_of_tag? ht]
        simp
      rw [htag, alternate_cons, alternate_append hclose, alternate_cons, ← htagged]
      simp [pairs, hpairs]

/-- The tags that a markup is written with. -/
def tagList (m : Markup) : List Text := m.filterMap Item.tag?

theorem map_fst_tagged (m : Markup) : (tagged m).2.map Prod.fst = m.tagList := by
  induction m with
  | nil => rfl
  | cons item m ih =>
    rw [tagged, tagList]
    cases ht : item.tag? with
    | none => rw [List.filterMap_cons_none ht, ← tagList, ← ih]
    | some tag => rw [List.filterMap_cons_some ht, List.map_cons, ih, tagList]

theorem tags_render {m : Markup} (h : ∀ item ∈ m, item.Clean) : tags m.render = m.tagList := by
  rw [tags, readTags_render h, ← map_fst_tagged]
  rfl

@[simp] theorem tagList_append (m n : Markup) : tagList (m ++ n) = tagList m ++ tagList n :=
  List.filterMap_append

@[simp] theorem tagList_flatMap {α : Type} (xs : List α) (f : α → Markup) :
    tagList (xs.flatMap f) = xs.flatMap fun x => tagList (f x) := by
  induction xs with
  | nil => rfl
  | cons x xs ih => rw [List.flatMap_cons, List.flatMap_cons, tagList_append, ih]

@[simp] theorem tagList_line (depth : Nat) (m : Markup) : tagList (line depth m) = tagList m := by
  rw [line, tagList_append]
  exact List.append_nil _

@[simp] theorem tagList_element (name : String) (attributes : Attributes) (body : Markup) :
    tagList (element name attributes body) =
      (name.toList ++ attributes.flatMap renderAttribute) :: tagList body ++ ['/' :: name.toList] := by
  rw [element, tagList_append]
  rfl

@[simp] theorem tagList_block (depth : Nat) (name : String) (attributes : Attributes)
    (body : Markup) : tagList (block depth name attributes body) =
      (name.toList ++ attributes.flatMap renderAttribute) :: tagList body ++ ['/' :: name.toList] := by
  rw [block, tagList_append, tagList_append, tagList_line, tagList_line]
  rfl

/-! ## Markup by rules -/

/-- Letters and digits. -/
def IsName (name : String) : Prop := name.toList.all Char.isAlphanum

instance (name : String) : Decidable (IsName name) :=
  inferInstanceAs (Decidable (name.toList.all Char.isAlphanum = true))

/-- The names of attributes hold no angle bracket. -/
def Named (attributes : Attributes) : Prop :=
  ∀ a ∈ attributes, '<' ∉ a.1.toList ∧ '>' ∉ a.1.toList

theorem named_nil : Named [] := List.forall_mem_nil _

theorem named_of_names {attributes : Attributes} (names : List String)
    (h : attributes.map Prod.fst = names) (hn : ∀ n ∈ names, '<' ∉ n.toList ∧ '>' ∉ n.toList) :
    Named attributes :=
  fun _ ha => hn _ (h ▸ List.mem_map_of_mem ha)

instance (attributes : Attributes) : Decidable (Named attributes) :=
  inferInstanceAs (Decidable (∀ a ∈ attributes, '<' ∉ a.1.toList ∧ '>' ∉ a.1.toList))

/-- The markup closes the elements `opened`, the last one first, and holds the texts. -/
inductive Laid : List String → Markup → List Text → Prop where
  | nil : Laid [] [] []
  | layout {opened : List String} {m : Markup} {texts : List Text} {w : Text} (hw : allBlank w)
      (h : Laid opened m texts) : Laid opened (.layout w :: m) texts
  | leaf {opened : List String} {m : Markup} {texts : List Text} {name : String}
      {attributes : Attributes} (hn : name ∈ textElements) (ha : Named attributes) (t : Text)
      (h : Laid opened m texts) :
      Laid opened (.opening name attributes :: .text t :: .closing name :: m) (t :: texts)
  | opening {opened : List String} {m : Markup} {texts : List Text} {name : String}
      {attributes : Attributes} (hn : IsName name) (ht : name ∉ textElements)
      (ha : Named attributes) (h : Laid (name :: opened) m texts) :
      Laid opened (.opening name attributes :: m) texts
  | closing {opened : List String} {m : Markup} {texts : List Text} {name : String}
      (hn : IsName name) (h : Laid opened m texts) : Laid (name :: opened) (.closing name :: m) texts

theorem isName_of_mem_textElements : ∀ name ∈ textElements, IsName name := by decide

theorem not_mem_of_isName {name : String} (h : IsName name) {c : Char} (hc : c.isAlphanum = false) :
    c ∉ name.toList := by
  intro hm
  rw [List.all_eq_true.1 h c hm] at hc
  cases hc

theorem not_mem_renderAttribute {attributes : Attributes} (h : Named attributes) :
    '<' ∉ attributes.flatMap renderAttribute ∧ '>' ∉ attributes.flatMap renderAttribute := by
  simp only [List.mem_flatMap, not_exists, not_and]
  have hescape := fun a : String × Text => not_mem_escape a.2
  constructor
  · intro a ha hm
    simp [renderAttribute, (h a ha).1, (hescape a).1] at hm
  · intro a ha hm
    simp [renderAttribute, (h a ha).2, (hescape a).2.1] at hm

theorem clean_opening {name : String} {attributes : Attributes} (hn : IsName name)
    (ha : Named attributes) : (Item.opening name attributes).Clean := by
  obtain ⟨hopen, hclose⟩ := not_mem_renderAttribute ha
  simp [Item.Clean, Item.tag?, not_mem_of_isName hn, hopen, hclose]

theorem clean_closing {name : String} (hn : IsName name) : (Item.closing name).Clean := by
  simp [Item.Clean, Item.tag?, not_mem_of_isName hn]

theorem clean_text (t : Text) : (Item.text t).Clean := ⟨(not_mem_escape t).1, (not_mem_escape t).2.1⟩

theorem clean_layout {w : Text} (hw : allBlank w) : (Item.layout w).Clean := by
  have h := List.all_eq_true.1 hw
  exact ⟨fun hm => absurd (h _ hm) (by decide), fun hm => absurd (h _ hm) (by decide)⟩

theorem tagName_opening {name : String} (hn : IsName name) (attributes : Attributes) :
    tagName (name.toList ++ attributes.flatMap renderAttribute) = name.toList := by
  have hspace : ∀ c ∈ name.toList, decide (c ≠ ' ') = true := by
    intro c hc
    refine decide_eq_true ?_
    rintro rfl
    exact not_mem_of_isName hn rfl hc
  rw [tagName, List.takeWhile_append_of_pos hspace]
  cases attributes with
  | nil => exact List.append_nil _
  | cons a more => exact List.append_nil _

/-- A tag that opens an element is no tag that closes one. -/
theorem balanced_opening {name : String} (hn : IsName name) (attributes : Attributes)
    (opened tags : List Text) :
    balanced opened ((name.toList ++ attributes.flatMap renderAttribute) :: tags) =
      balanced (name.toList :: opened) tags := by
  have htag := tagName_opening hn attributes
  have hslash : ∀ closed, name.toList ++ attributes.flatMap renderAttribute ≠ '/' :: closed := by
    intro closed he
    cases hname : name.toList with
    | nil =>
      rw [hname] at he
      cases attributes with
      | nil => cases he
      | cons a more => cases he
    | cons c r =>
      rw [hname] at he
      obtain ⟨rfl, -⟩ := List.cons.inj he
      exact not_mem_of_isName (c := '/') hn rfl (hname ▸ List.mem_cons_self)
  generalize name.toList ++ attributes.flatMap renderAttribute = tag at htag hslash
  rw [← htag]
  cases opened <;> rw [balanced] <;> simp [hslash]

theorem balanced_closing (name : Text) (opened tags : List Text) :
    balanced (name :: opened) (('/' :: name) :: tags) = balanced opened tags := by
  rw [balanced, beq_self_eq_true, Bool.true_and]

theorem holdsText_opening {name : String} (hn : IsName name) (attributes : Attributes) :
    holdsText (name.toList ++ attributes.flatMap renderAttribute) = decide (name ∈ textElements) := by
  rw [holdsText, tagName_opening hn]
  simp [String.toList_inj]

theorem not_holdsText_closing (name : Text) : holdsText ('/' :: name) = false := by
  have h : tagName ('/' :: name) = '/' :: tagName name := rfl
  rw [holdsText, h]
  rfl

/-- What a markup by the rules is read back as. -/
structure Faithful (opened : List String) (m : Markup) (texts : List Text) : Prop where
  clean : ∀ item ∈ m, item.Clean
  balanced : balanced (opened.map String.toList) ((tagged m).2.map Prod.fst)
  contents : contents (tagged m).2 = texts
  first : allBlank (tagged m).1
  rest : ∀ p ∈ (tagged m).2, holdsText p.1 = false → allBlank p.2

theorem contents_cons (p : Text × Text) (tagged : List (Text × Text)) : contents (p :: tagged) =
    if holdsText p.1 then unescape p.2 :: contents tagged else contents tagged := by
  rw [contents, List.filter_cons]
  split <;> rfl

theorem faithful_of_laid {opened : List String} {m : Markup} {texts : List Text}
    (h : Laid opened m texts) : Faithful opened m texts := by
  induction h with
  | nil => exact ⟨List.forall_mem_nil _, rfl, rfl, rfl, List.forall_mem_nil _⟩
  | layout hw h ih =>
    refine ⟨List.forall_mem_cons.2 ⟨clean_layout hw, ih.clean⟩, ih.balanced, ih.contents, ?_, ih.rest⟩
    exact List.all_append.trans (by rw [Bool.and_eq_true]; exact ⟨hw, ih.first⟩)
  | @leaf _ _ _ name attributes hn ha t h ih =>
    have hname := isName_of_mem_textElements name hn
    have htag : holdsText (name.toList ++ attributes.flatMap renderAttribute) = true := by
      rw [holdsText_opening hname]
      exact decide_eq_true hn
    have hclose := not_holdsText_closing name.toList
    refine ⟨?_, ?_, ?_, rfl, ?_⟩
    · exact List.forall_mem_cons.2 ⟨clean_opening hname ha, List.forall_mem_cons.2 ⟨clean_text t,
        List.forall_mem_cons.2 ⟨clean_closing hname, ih.clean⟩⟩⟩
    · show Markup.balanced _ (_ :: ('/' :: name.toList) :: _) = true
      rw [balanced_opening hname, balanced_closing]
      exact ih.balanced
    · show Markup.contents ((_, escape t ++ []) :: ('/' :: name.toList, _) :: _) = _
      rw [contents_cons, contents_cons, if_pos htag, if_neg (by simp [hclose]), ih.contents,
        List.append_nil, unescape_escape]
    · show ∀ p ∈ (_, escape t ++ []) :: ('/' :: name.toList, _) :: _, _
      refine List.forall_mem_cons.2 ⟨fun hf => ?_, List.forall_mem_cons.2 ⟨fun _ => ih.first, ih.rest⟩⟩
      rw [htag] at hf
      cases hf
  | @opening _ _ _ name attributes hn ht ha h ih =>
    have htag : holdsText (name.toList ++ attributes.flatMap renderAttribute) = false := by
      rw [holdsText_opening hn]
      exact decide_eq_false ht
    refine ⟨List.forall_mem_cons.2 ⟨clean_opening hn ha, ih.clean⟩, ?_, ?_, rfl,
      List.forall_mem_cons.2 ⟨fun _ => ih.first, ih.rest⟩⟩
    · show Markup.balanced _ (_ :: _) = true
      rw [balanced_opening hn]
      exact ih.balanced
    · show Markup.contents (_ :: _) = _
      rw [contents_cons, if_neg (by simp [htag]), ih.contents]
  | @closing _ _ _ name hn h ih =>
    have hclose := not_holdsText_closing name.toList
    refine ⟨List.forall_mem_cons.2 ⟨clean_closing hn, ih.clean⟩, ?_, ?_, rfl,
      List.forall_mem_cons.2 ⟨fun _ => ih.first, ih.rest⟩⟩
    · show Markup.balanced (name.toList :: _) (('/' :: name.toList) :: _) = true
      rw [balanced_closing]
      exact ih.balanced
    · show Markup.contents (('/' :: name.toList, _) :: _) = _
      rw [contents_cons, if_neg (by simp [hclose]), ih.contents]

/-! ## What markup is put together from -/

/-- Wherever the markup stands, it holds the texts and closes what it opens. -/
def Block (m : Markup) (texts : List Text) : Prop :=
  ∀ opened n more, Laid opened n more → Laid opened (m ++ n) (texts ++ more)

namespace Block

variable {m n : Markup} {texts more : List Text} {name : String} {attributes : Attributes}

theorem nil : Block [] [] := fun _ _ _ h => h

theorem append (hm : Block m texts) (hn : Block n more) : Block (m ++ n) (texts ++ more) := by
  intro opened k rest h
  rw [List.append_assoc, List.append_assoc]
  exact hm _ _ _ (hn _ _ _ h)

theorem flatMap {α : Type} {xs : List α} {f : α → Markup} {g : α → List Text}
    (h : ∀ x ∈ xs, Block (f x) (g x)) : Block (xs.flatMap f) (xs.flatMap g) := by
  induction xs with
  | nil => exact nil
  | cons x xs ih =>
    rw [List.flatMap_cons, List.flatMap_cons]
    exact append (h x List.mem_cons_self) (ih fun y hy => h y (List.mem_cons_of_mem x hy))

theorem layout {w : Text} (hw : allBlank w) : Block [.layout w] [] :=
  fun _ _ _ h => .layout hw h

theorem text (hn : name ∈ textElements) (ha : Named attributes) (t : Text) :
    Block (Markup.element name attributes [.text t]) [t] :=
  fun _ _ _ h => .leaf hn ha t h

theorem element (hn : IsName name) (ht : name ∉ textElements) (ha : Named attributes)
    (h : Block m texts) : Block (Markup.element name attributes m) texts := by
  intro opened n more hm
  have hbody := h (name :: opened) (.closing name :: n) more (.closing hn hm)
  have hcat : Markup.element name attributes m ++ n =
      .opening name attributes :: (m ++ .closing name :: n) := by simp [Markup.element]
  rw [hcat]
  exact .opening hn ht ha hbody

theorem tabs (depth : Nat) : Block [Markup.tabs depth] [] :=
  layout (by simp [allBlank, isBlank])

theorem lineEnd : Block [Markup.lineEnd] [] := layout rfl

theorem line (depth : Nat) (h : Block m texts) : Block (Markup.line depth m) texts := by
  have := append (append (tabs depth) h) lineEnd
  simpa [Markup.line] using this

theorem block (depth : Nat) (hn : IsName name) (ht : name ∉ textElements) (ha : Named attributes)
    (h : Block m texts) : Block (Markup.block depth name attributes m) texts := by
  -- the layout around the tags belongs to the body or stands around the element
  have hbody := append (append lineEnd h) (tabs depth)
  have := append (append (tabs depth) (element hn ht ha hbody)) lineEnd
  simpa [Markup.block, Markup.line, Markup.element] using this

theorem faithful (h : Block m texts) : Faithful [] m texts := by
  have := faithful_of_laid (h [] [] [] .nil)
  rwa [List.append_nil, List.append_nil] at this

/-- What is put together by the rules is read back. -/
theorem readsBack (h : Block m texts) : ReadsBack m.render texts := by
  have hf := h.faithful
  exact ⟨_, _, readTags_render hf.clean, hf.balanced, hf.contents, hf.first, hf.rest⟩

theorem tags_eq (h : Block m texts) : tags m.render = m.tagList :=
  tags_render h.faithful.clean

end Block

end Markup
end Pinout
