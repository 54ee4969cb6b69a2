import Pinout.Proofs.Signature.Scan
import Pinout.Proofs.Source.Layout
import Pinout.Proofs.Text.WholeWord
import Pinout.Signature.Declaration

/-!
# Pinout.Proofs.Signature.Declaration

Declarations laid out and read back. A declaration is a keyword, a type, a name and a value, each a
token (`Declaration.tokens`). With only blanks between the tokens its text is an `Item`, which
`parameterOfItem_item` and `portOfItem_item` read. Whatever stands in front of the name, the item is
cut in front of its value and its name is found (`Named`).
-/

namespace Pinout
namespace Signature

open Source (Token Spaced Blanks)

/-- A type or a value: its blanks are single spaces between words, its brackets are balanced, and
nothing in it ends the header, opens a comment or looks like a port. -/
structure Fragment (outside : Char → Bool) (t : Text) : Prop where
  collapsed : t.collapse = t
  nested : nests outside 0 t
  clean : ';' ∉ t ∧ '"' ∉ t
  openers : ∀ opener ∈ ["//".toList, "/*".toList, "(*".toList], ¬ opener <:+: t
  words : ∀ (d : Direction) n, ¬ Text.WordAt d.keyword t n
  last : t.getLast? ≠ some '/'

/-- What may stand in a type outside brackets. -/
def inType (c : Char) : Bool := c != '=' && c != ','

/-- What may stand in a value outside brackets. -/
def inValue (c : Char) : Bool := c != ','

theorem not_wordAt_keyword {t : Text} (h : ∀ d : Direction, ¬ d.keyword <:+: t) (d : Direction)
    (n : Nat) : ¬ Text.WordAt d.keyword t n :=
  Text.not_wordAt_of_not_infix (h d) n

theorem fragment_nil : Fragment inType [] :=
  ⟨by decide +kernel, rfl, by decide, by decide, not_wordAt_keyword (by rintro ⟨⟩ <;> decide),
    by decide⟩

/-- A parameter or a port as it is declared. -/
structure Declaration where
  keyword : Text
  type : Text
  name : Text
  value : Option Text

namespace Declaration

structure Valid (d : Declaration) : Prop where
  keyword : Text.isIdentifier d.keyword
  name : Text.isIdentifier d.name
  type : Fragment inType d.type
  value : ∀ v ∈ d.value, v ≠ [] ∧ Fragment inValue v

def typeTokens (type : Text) : List Token := if type = [] then [] else [⟨true, type⟩]

def valueTokens : Option Text → List Token
  | some v => [⟨false, ['=']⟩, ⟨false, v⟩]
  | none => []

/-- The words stand apart; only the equals sign may touch what is beside it. -/
def tokens (d : Declaration) : List Token :=
  ⟨false, d.keyword⟩ :: (typeTokens d.type ++ ⟨true, d.name⟩ :: valueTokens d.value)

end Declaration

/-! ## The text of a declaration -/

/-- A type with the blanks between the keyword and the name. -/
inductive Middle : Text → Text → Prop where
  | blank {w : Text} (hw : w.allBlank) (hne : w ≠ []) : Middle [] w
  | type {w type v : Text} (hw : w.allBlank) (hne : w ≠ []) (hv : v.allBlank) (hne' : v ≠ []) :
      Middle type (w ++ type ++ v)

/-- What stands behind the name. -/
inductive Ending : Option Text → Text → Prop where
  | none : Ending none []
  | value {w v value : Text} (hw : w.allBlank) (hv : v.allBlank) :
      Ending (some value) (w ++ '=' :: (v ++ value))

inductive Item (d : Declaration) : Text → Prop where
  | mk {middle ending : Text} (hm : Middle d.type middle) (he : Ending d.value ending) :
      Item d (d.keyword ++ (middle ++ d.name) ++ ending)

theorem exists_middle {type name t : Text} {tokens : List Token}
    (h : Spaced Blanks (Declaration.typeTokens type ++ ⟨true, name⟩ :: tokens) t) :
    ∃ middle u, t = middle ++ name ++ u ∧ Middle type middle ∧ Spaced Blanks tokens u := by
  unfold Declaration.typeTokens at h
  split at h
  · next ht =>
    subst ht
    obtain ⟨g, u, rfl, hg, hne, hu⟩ := Source.exists_of_spaced_cons h
    exact ⟨g, u, rfl, .blank hg (hne rfl), hu⟩
  · obtain ⟨g, u, rfl, hg, hne, hu⟩ := Source.exists_of_spaced_cons h
    obtain ⟨g', u', rfl, hg', hne', hu'⟩ := Source.exists_of_spaced_cons hu
    exact ⟨g ++ type ++ g', u', by simp, .type hg (hne rfl) hg' (hne' rfl), hu'⟩

theorem ending_of_spaced {value : Option Text} {t : Text}
    (h : Spaced Blanks (Declaration.valueTokens value) t) : Ending value t := by
  cases value with
  | none =>
    rw [Source.spaced_nil h]
    exact .none
  | some v =>
    obtain ⟨g, u, rfl, hg, _, hu⟩ := Source.exists_of_spaced_cons h
    obtain ⟨g', u', rfl, hg', _, hu'⟩ := Source.exists_of_spaced_cons hu
    rw [Source.spaced_nil hu']
    have := @Ending.value g g' v hg hg'
    simpa using this

theorem exists_item {d : Declaration} {t : Text} (h : Spaced Blanks d.tokens t) :
    ∃ w item, t = w ++ item ∧ w.allBlank ∧ Item d item := by
  obtain ⟨w, u, rfl, hw, _, hu⟩ := Source.exists_of_spaced_cons h
  obtain ⟨middle, u, rfl, hm, hu⟩ := exists_middle hu
  have he := ending_of_spaced hu
  exact ⟨w, _, by simp, hw, .mk hm he⟩

/-! ## What the cuts meet in a declaration -/

theorem clear_of_allBlank {w : Text} (h : w.allBlank) :
    ∀ c ∈ w, Text.isBlank c ∨ Text.isWordChar c := fun c hc => .inl (List.all_eq_true.1 h c hc)

theorem clear_of_isIdentifier {t : Text} (h : Text.isIdentifier t) :
    ∀ c ∈ t, Text.isBlank c ∨ Text.isWordChar c := by
  obtain ⟨_, _, _, _, hall⟩ := Text.exists_cons_of_isIdentifier h
  exact fun c hc => .inr (hall c hc)

/-- Commas and equals signs are neither blanks nor parts of words. -/
theorem ne_of_clear {c : Char} (h : Text.isBlank c ∨ Text.isWordChar c) :
    c != ',' ∧ c != '=' := by
  have hs : ∀ s ∈ [',', '='], ¬ (Text.isBlank s ∨ Text.isWordChar s) :=
    Text.forall_of_all (by decide)
  simp only [bne_iff_ne]
  refine ⟨?_, ?_⟩ <;>
  · rintro rfl
    exact hs _ (by decide) h

theorem collapse_middle {type middle : Text} (hc : type.collapse = type)
    (h : Middle type middle) : middle.collapse = type := by
  cases h with
  | blank hw =>
    have := Text.collapse_blanks hw (v := []) rfl []
    rw [List.append_nil, List.append_nil] at this
    exact this.trans hc
  | type hw _ hv => rw [Text.collapse_blanks hw hv, hc]

/-- The blanks keep the type apart from the keyword and from the name. -/
theorem endsWord_middle {type middle : Text} (h : Middle type middle) (t : Text) :
    Text.endsWord (middle ++ t) ∧ Text.endsWord middle.reverse := by
  cases h with
  | blank hw hne =>
    refine ⟨Text.endsWord_append (Text.endsWord_of_allBlank hw) hne t,
      Text.endsWord_of_allBlank ?_⟩
    rwa [Text.allBlank_reverse]
  | @type w type v hw hne hv hne' =>
    refine ⟨?_, ?_⟩
    · rw [List.append_assoc, List.append_assoc]
      exact Text.endsWord_append (Text.endsWord_of_allBlank hw) hne _
    · rw [List.reverse_append]
      refine Text.endsWord_append (Text.endsWord_of_allBlank ?_) (by simpa using hne') _
      rwa [Text.allBlank_reverse]

section

variable {o : Char → Bool} (ho : ∀ c, Text.isBlank c ∨ Text.isWordChar c → o c)
include ho

theorem nests_middle {type middle : Text} (ht : nests o 0 type) (h : Middle type middle) :
    nests o 0 middle := by
  cases h with
  | blank hw => exact nests_of_clear ho (clear_of_allBlank hw)
  | type hw _ hv =>
    exact nests_append (nests_append (nests_of_clear ho (clear_of_allBlank hw)) ht)
      (nests_of_clear ho (clear_of_allBlank hv))

end

theorem ne_nil_of_middle {type middle : Text} (h : Middle type middle) : middle ≠ [] := by
  cases h with
  | blank _ hne => exact hne
  | type _ hne => simp [hne]

/-! ## Names with what stands around them -/

/-- What may stand in front of a name: equals signs and commas only in brackets, and nothing that
runs into the name. -/
structure Lead (lead : Text) : Prop where
  nested : nests inType 0 lead
  apart : Text.endsWord lead.reverse
  head : lead.head?.all (!Text.isBlank ·)
  quotes : '"' ∉ lead

/-- The text of an item: what stands in front of the name, the name, and its value. -/
structure Named (lead name : Text) (value : Option Text) (item : Text) : Prop where
  front : Lead lead
  identifier : Text.isIdentifier name
  valued : ∀ v ∈ value, v ≠ [] ∧ Fragment inValue v
  text : ∃ ending, Ending value ending ∧ item = lead ++ name ++ ending

theorem inType_of_clear {c : Char} (h : Text.isBlank c ∨ Text.isWordChar c) : inType c := by
  rw [inType, Bool.and_eq_true]
  exact ⟨(ne_of_clear h).2, (ne_of_clear h).1⟩

namespace Named

variable {lead name item : Text} {value : Option Text} (h : Named lead name value item)
include h

theorem nests_declared : nests inType 0 (lead ++ name) :=
  nests_append h.front.nested
    (nests_of_clear (fun _ => inType_of_clear) (clear_of_isIdentifier h.identifier))

theorem head?_declared (t : Text) : (lead ++ name ++ t).head?.all (!Text.isBlank ·) := by
  rw [List.append_assoc]
  cases hl : lead with
  | nil => exact Text.head?_identifier h.identifier t
  | cons c r =>
    have hhead := h.front.head
    rw [hl] at hhead
    exact hhead

theorem trim_declared : Text.trim (lead ++ name) = lead ++ name := by
  have hhead := h.head?_declared []
  rw [List.append_nil] at hhead
  exact Text.trim_eq_self hhead (Text.getLast?_identifier h.identifier lead)

/-- The first equals sign is the one in front of the value. -/
theorem splitAssignment : ∃ declared, Signature.splitAssignment item = (declared, value) ∧
    Text.trim declared = lead ++ name := by
  have ho : ∀ c, inType c → c != '=' := fun _ hc => (Bool.and_eq_true _ _ ▸ hc).1
  have hd : nests (· != '=') 0 (lead ++ name) := nests_mono ho h.nests_declared
  obtain ⟨ending, he, rfl⟩ := h.text
  cases he with
  | none =>
    refine ⟨_, ?_, h.trim_declared⟩
    have hs := splitEquals_append hd []
    rw [Signature.splitAssignment, hs]
    simp [splitEquals]
  | @value w v t hw hv =>
    have hblank := nests_of_clear (fun _ hc => ho _ (inType_of_clear hc)) (clear_of_allBlank hw)
    have hs := splitEquals_append (nests_append hd hblank) ('=' :: (v ++ t))
    refine ⟨lead ++ name ++ w, ?_, ?_⟩
    · have hcut : splitEquals 0 ('=' :: (v ++ t)) = ([], some (v ++ t)) := rfl
      have hcat : lead ++ name ++ (w ++ '=' :: (v ++ t)) =
          lead ++ name ++ w ++ '=' :: (v ++ t) := by simp
      obtain ⟨hne, hf⟩ := h.valued t rfl
      have hcollapse : Text.collapse (v ++ t) = t := by
        have := Text.collapse_blanks hv (v := []) rfl t
        rwa [List.append_nil, hf.collapsed] at this
      rw [Signature.splitAssignment, hcat, hs, hcut]
      simp [hcollapse, hne]
    · rw [Text.trim_append_right hw]
      exact h.trim_declared

end Named

theorem lead_declared {d : Declaration} (hv : d.Valid) {middle : Text} (hm : Middle d.type middle) :
    Lead (d.keyword ++ middle) := by
  obtain ⟨keyword, type, name, value⟩ := d
  have ho : ∀ c, Text.isBlank c ∨ Text.isWordChar c → inType c := fun _ => inType_of_clear
  have hquote : ∀ {t : Text}, (∀ c ∈ t, Text.isBlank c ∨ Text.isWordChar c) → '"' ∉ t :=
    fun h hm => absurd (h _ hm) (by decide)
  refine ⟨?_, ?_, Text.head?_identifier hv.keyword middle, ?_⟩
  · exact nests_append (nests_of_clear ho (clear_of_isIdentifier hv.keyword))
      (nests_middle ho hv.type.nested hm)
  · rw [List.reverse_append]
    have hne : middle.reverse ≠ [] := by simpa using ne_nil_of_middle hm
    exact Text.endsWord_append (endsWord_middle hm []).2 hne _
  · rw [List.mem_append, not_or]
    refine ⟨hquote (clear_of_isIdentifier hv.keyword), ?_⟩
    cases hm with
    | blank hw => exact hquote (clear_of_allBlank hw)
    | type hw _ hw' =>
      simp only [List.mem_append, not_or]
      exact ⟨⟨hquote (clear_of_allBlank hw), hv.type.clean.2⟩, hquote (clear_of_allBlank hw')⟩

theorem named_item {d : Declaration} (hv : d.Valid) {item : Text} (h : Item d item) :
    ∃ middle, Middle d.type middle ∧ Named (d.keyword ++ middle) d.name d.value item := by
  cases h with
  | @mk middle ending hm he =>
    exact ⟨middle, hm, lead_declared hv hm, hv.name, hv.value, ending, he, by simp⟩

/-! ## Declarations read -/

def parameterKeyword : Text := "parameter".toList

theorem findSome?_parameterKeywords {keyword : Text} (hk : keyword ∈ parameterKeywords) {r : Text}
    (hr : Text.endsWord r) :
    parameterKeywords.findSome? (afterKeyword? (keyword ++ r)) = some r := by
  have hfound := @afterKeyword?_append keyword r hr
  simp only [parameterKeywords, List.mem_cons, List.not_mem_nil, or_false] at hk
  rcases hk with rfl | rfl
  · rw [parameterKeywords, List.findSome?_cons, hfound]
  · -- no keyword starts with the other
    have hother : afterKeyword? ("localparam".toList ++ r) "parameter".toList = none := rfl
    rw [parameterKeywords, List.findSome?_cons, hother, List.findSome?_cons, hfound]

theorem parameterOfItem_item {d : Declaration} (hv : d.Valid) (hk : d.keyword ∈ parameterKeywords)
    {item : Text} (h : Item d item) (inherited : Text) :
    parameterOfItem inherited item = (some ⟨d.name, d.type, d.value, []⟩, d.type) := by
  obtain ⟨middle, hm, hnamed⟩ := named_item hv h
  obtain ⟨declared, hs, ht⟩ := hnamed.splitAssignment
  have hfind := findSome?_parameterKeywords hk (endsWord_middle hm d.name).1
  have hsplit := splitTrailingIdentifier_append hv.name (endsWord_middle hm []).2
  have hcollapse := collapse_middle hv.type.collapsed hm
  rw [List.append_assoc] at ht
  simp only [parameterOfItem, hs, ht, hfind, hsplit, hcollapse,
    if_neg (Text.ne_nil_of_isIdentifier hv.name), ite_self]

/-- The type that a port has when `t` is declared: a net type names the kind of net, and where there
is none it is a wire. -/
def shownType (t : Text) : Text :=
  if netTypes.any fun net => (afterKeyword? t net).isSome then t
  else if t = [] then defaultNet
  else defaultNet ++ ' ' :: t

theorem splitIdentifier_eq_iff {net : Text} (hn : Text.isIdentifier net) (t : Text) :
    (Text.splitIdentifier t).1 = net ↔ (afterKeyword? t net).isSome := by
  constructor
  · intro h
    generalize hs : Text.splitIdentifier t = cut at h
    obtain ⟨word, r⟩ := cut
    obtain ⟨rfl, he⟩ := Text.splitIdentifier_spec hs
    obtain rfl : word = net := h
    rw [afterKeyword?_append (he (Text.ne_nil_of_isIdentifier hn))]
    rfl
  · intro h
    obtain ⟨r, hr⟩ := Option.isSome_iff_exists.1 h
    rw [afterKeyword?, Option.filter_eq_some_iff] at hr
    rw [Text.append_of_dropLead? hr.1, Text.splitIdentifier_append hn hr.2]

theorem isIdentifier_of_mem_netTypes : ∀ net ∈ netTypes, Text.isIdentifier net := by decide

theorem portType_middle {type middle : Text} (hc : type.collapse = type) (h : Middle type middle) :
    portType middle = shownType type := by
  have hn : netTypes.contains (Text.splitIdentifier type).1 =
      netTypes.any fun net => (afterKeyword? type net).isSome := by
    rw [Bool.eq_iff_iff, List.contains_iff_mem, List.any_eq_true]
    constructor
    · exact fun hm => ⟨_, hm, (splitIdentifier_eq_iff (isIdentifier_of_mem_netTypes _ hm) type).1 rfl⟩
    · rintro ⟨net, hm, hs⟩
      rwa [(splitIdentifier_eq_iff (isIdentifier_of_mem_netTypes net hm) type).2 hs]
  simp only [portType, collapse_middle hc h, hn, shownType]

theorem portOfItem_item {d : Declaration} (hv : d.Valid) {direction : Direction}
    (hk : d.keyword = direction.keyword) {item : Text} (h : Item d item)
    (current : Option (Direction × Text)) :
    portOfItem current item = (some ⟨d.name, direction, shownType d.type, d.value, []⟩,
      some (direction, shownType d.type)) := by
  obtain ⟨middle, hm, hnamed⟩ := named_item hv h
  obtain ⟨declared, hs, ht⟩ := hnamed.splitAssignment
  rw [List.append_assoc] at ht
  have hword := Text.splitIdentifier_append hv.keyword (endsWord_middle hm d.name).1
  have hsplit := splitTrailingIdentifier_append hv.name (endsWord_middle hm []).2
  have htype := portType_middle hv.type.collapsed hm
  have hdirection : Direction.ofKeyword? d.keyword = some direction := by
    rw [hk]
    cases direction <;> rfl
  simp only [portOfItem, hs, ht, hword, hdirection, hsplit, htype,
    if_neg (Text.ne_nil_of_isIdentifier hv.name)]

end Signature
end Pinout
