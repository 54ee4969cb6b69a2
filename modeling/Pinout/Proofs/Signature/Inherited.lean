import Pinout.Proofs.Signature.Items
import Pinout.Proofs.Signature.Stretched

/-!
# Pinout.Proofs.Signature.Inherited

Parameter lists in which keywords and types may be missing. An item is given by what stands in front
of its name (`Entry`): a keyword and perhaps a type, a type alone, or nothing. Read from a list, each
item has its own type, none behind a keyword alone, and a bare item has the type that was declared
last with a keyword (`parametersOf_entries`).

That need not be the type of the item just before it. The two are the same for all items exactly
where a type without a keyword in front of a bare item says what was declared already (`Repeats`).
-/

namespace Pinout
namespace Signature

open Source (Token Spaced Blanks)

/-- An item of a parameter list, by what stands in front of its name. -/
inductive Entry where
  | keyed (d : Declaration)
  | typed (type name : Text) (value : Option Text)
  | bare (name : Text) (value : Option Text)

namespace Entry

def name : Entry → Text
  | keyed d => d.name
  | typed _ name _ => name
  | bare name _ => name

def value : Entry → Option Text
  | keyed d => d.value
  | typed _ _ value => value
  | bare _ value => value

/-- The words and types are those of a declaration. What starts with a keyword is an item with a
keyword, so no other item does. -/
def Valid : Entry → Prop
  | keyed d => d.Valid ∧ d.keyword ∈ parameterKeywords
  | typed type name value =>
    Text.isIdentifier name ∧ (∀ v ∈ value, v ≠ [] ∧ Fragment inValue v) ∧
      Fragment inType type ∧ type ≠ [] ∧ (Text.splitIdentifier type).1 ∉ parameterKeywords
  | bare name value =>
    Text.isIdentifier name ∧ (∀ v ∈ value, v ≠ [] ∧ Fragment inValue v) ∧ name ∉ parameterKeywords

def tokens : Entry → List Token
  | keyed d => d.tokens
  | typed type name value => ⟨false, type⟩ :: ⟨true, name⟩ :: Declaration.valueTokens value
  | bare name value => ⟨false, name⟩ :: Declaration.valueTokens value

/-- The type of an item, if a bare one has the type `inherited`. -/
def type (inherited : Text) : Entry → Text
  | keyed d => d.type
  | typed type _ _ => type
  | bare _ _ => inherited

def parameter (inherited : Text) (e : Entry) : Parameter :=
  ⟨e.name, e.type inherited, e.value, []⟩

/-- The type that bare items have behind an item, if it was `inherited` in front of it. -/
def kept (inherited : Text) : Entry → Text
  | keyed d => d.type
  | typed _ _ _ => inherited
  | bare _ _ => inherited

/-- The parameters of a list, where `next` is the type that a bare item has behind an item. -/
def read (next : Text → Entry → Text) (inherited : Text) : List Entry → List Parameter
  | [] => []
  | e :: es => e.parameter inherited :: read next (next inherited e) es

/-- A type without a keyword in front of a bare item is the one that was declared last with a
keyword, or `inherited` where there is none. -/
def Repeats (inherited : Text) (es : List Entry) : Prop :=
  ∀ front type name value name' value' rest,
    es = front ++ typed type name value :: bare name' value' :: rest →
      type = front.foldl kept inherited

end Entry

/-! ## Items without a keyword -/

theorem lead_typed {type w : Text} (ht : Fragment inType type) (hne : type ≠ [])
    (hw : w.allBlank) (hne' : w ≠ []) : Lead (type ++ w) := by
  refine ⟨?_, ?_, ?_, ?_⟩
  · exact nests_append ht.nested (nests_of_clear (fun _ => inType_of_clear) (clear_of_allBlank hw))
  · rw [List.reverse_append]
    have hblank : Text.allBlank w.reverse := by rwa [Text.allBlank_reverse]
    exact Text.endsWord_append (Text.endsWord_of_allBlank hblank) (by simpa using hne') _
  · have hhead := (Text.collapsed_of_collapse ht.collapsed).head
    obtain ⟨c, type, rfl⟩ := List.exists_cons_of_ne_nil hne
    exact hhead
  · rw [List.mem_append, not_or]
    exact ⟨ht.clean.2, not_quote_of_clear (clear_of_allBlank hw)⟩

theorem lead_nil : Lead [] := ⟨rfl, rfl, rfl, List.not_mem_nil⟩

theorem isIdentifier_of_mem_parameterKeywords :
    ∀ keyword ∈ parameterKeywords, Text.isIdentifier keyword := by decide

theorem findSome?_parameterKeywords_eq_none {t : Text}
    (h : (Text.splitIdentifier t).1 ∉ parameterKeywords) :
    parameterKeywords.findSome? (afterKeyword? t) = none := by
  rw [List.findSome?_eq_none_iff]
  intro keyword hk
  rw [← Option.not_isSome_iff_eq_none,
    ← splitIdentifier_eq_iff (isIdentifier_of_mem_parameterKeywords keyword hk)]
  rintro rfl
  exact h hk

/-- Without a keyword, the type is what stands in front of the name, and it is not kept. -/
theorem parameterOfItem_named {lead name item : Text} {value : Option Text}
    (h : Named lead name value item) (hk : (Text.splitIdentifier (lead ++ name)).1 ∉ parameterKeywords)
    (inherited : Text) : parameterOfItem inherited item =
      (some ⟨name, if lead.allBlank then inherited else lead.collapse, value, []⟩, inherited) := by
  obtain ⟨declared, hs, ht⟩ := h.splitAssignment
  have hsplit := splitTrailingIdentifier_append h.identifier h.front.apart
  rw [parameterOfItem_eq, hs, ht, findSome?_parameterKeywords_eq_none hk]
  simp only [namedParameter, hsplit, if_neg (Text.ne_nil_of_isIdentifier h.identifier)]

theorem parameterOfItem_typed {type w name item : Text} {value : Option Text}
    (h : Named (type ++ w) name value item) (ht : Fragment inType type) (hne : type ≠ [])
    (hw : w.allBlank) (hne' : w ≠ [])
    (hk : (Text.splitIdentifier type).1 ∉ parameterKeywords) (inherited : Text) :
    parameterOfItem inherited item = (some ⟨name, type, value, []⟩, inherited) := by
  -- the blank behind the type ends its first word
  have hword : (Text.splitIdentifier (type ++ w ++ name)).1 ∉ parameterKeywords := by
    obtain ⟨c, w, rfl⟩ := List.exists_cons_of_ne_nil hne'
    rw [Text.allBlank, List.all_cons, Bool.and_eq_true] at hw
    rw [List.append_assoc, List.cons_append,
      Text.splitIdentifier_append_cons (Text.isWordChar_of_isBlank hw.1) hne]
    exact hk
  have hshown : Text.allBlank (type ++ w) = false := by
    have hhead := (Text.collapsed_of_collapse ht.collapsed).head
    obtain ⟨c, type, rfl⟩ := List.exists_cons_of_ne_nil hne
    have hc : Text.isBlank c = false := by simpa using hhead
    simp [Text.allBlank, hc]
  have hcollapse : Text.collapse (type ++ w) = type := by
    have := Text.collapse_blanks (w := []) rfl hw type
    rwa [List.nil_append, ht.collapsed] at this
  rw [parameterOfItem_named h hword, hshown, hcollapse]
  rfl

theorem parameterOfItem_bare {name item : Text} {value : Option Text}
    (h : Named [] name value item) (hk : name ∉ parameterKeywords) (inherited : Text) :
    parameterOfItem inherited item = (some ⟨name, inherited, value, []⟩, inherited) := by
  have hword : (Text.splitIdentifier ([] ++ name)).1 ∉ parameterKeywords := by
    have hname := Text.splitIdentifier_append (r := []) h.identifier rfl
    rw [List.append_nil] at hname
    rwa [List.nil_append, hname]
  rw [parameterOfItem_named h hword]
  rfl

/-! ## Lists read -/

namespace Entry

/-- The text of a valid item is read as the item, whatever it inherits. -/
theorem exists_item {e : Entry} (hv : e.Valid) {t : Text} (h : Spaced Blanks e.tokens t) :
    ∃ g item, t = g ++ item ∧ g.allBlank ∧ Whole item ∧ ∀ inherited,
      parameterOfItem inherited item = (some (e.parameter inherited), e.kept inherited) := by
  cases e with
  | keyed d =>
    obtain ⟨hd, hk⟩ := hv
    obtain ⟨g, item, rfl, hg, hi⟩ := Signature.exists_item h
    obtain ⟨_, -, hnamed⟩ := named_item hd hi
    exact ⟨g, item, rfl, hg, hnamed.whole, parameterOfItem_item hd hk hi⟩
  | typed type name value =>
    obtain ⟨hn, hvalue, ht, hne, hk⟩ := hv
    obtain ⟨g, u, rfl, hg, -, hu⟩ := Source.exists_of_spaced_cons h
    obtain ⟨w, u, rfl, hw, hne', hu⟩ := Source.exists_of_spaced_cons hu
    have hnamed : Named (type ++ w) name value (type ++ w ++ name ++ u) :=
      ⟨lead_typed ht hne hw (hne' rfl), hn, hvalue, u, ending_of_spaced hu, rfl⟩
    exact ⟨g, _, by simp, hg, hnamed.whole, parameterOfItem_typed hnamed ht hne hw (hne' rfl) hk⟩
  | bare name value =>
    obtain ⟨hn, hvalue, hk⟩ := hv
    obtain ⟨g, u, rfl, hg, -, hu⟩ := Source.exists_of_spaced_cons h
    have hnamed : Named [] name value (name ++ u) :=
      ⟨lead_nil, hn, hvalue, u, ending_of_spaced hu, rfl⟩
    exact ⟨g, _, by simp, hg, hnamed.whole, parameterOfItem_bare hnamed hk⟩

theorem read_items {es : List Entry} {items : List Text}
    (h : List.Forall₂ (fun (e : Entry) item => ∀ inherited,
      parameterOfItem inherited item = (some (e.parameter inherited), e.kept inherited)) es items)
    (inherited : Text) : parametersOfItems inherited items = read kept inherited es := by
  induction h generalizing inherited with
  | nil => rfl
  | cons hi _ ih =>
    rw [parametersOfItems, hi, read, ← ih]
    rfl

theorem repeats_nil (inherited : Text) : Repeats inherited [] := by
  intro front _ _ _ _ _ _ h
  cases front <;> cases h

theorem repeats_cons {inherited : Text} {e : Entry} {es : List Entry} :
    Repeats inherited (e :: es) ↔
      (∀ type name value name' value' rest, e = typed type name value →
        es = bare name' value' :: rest → type = inherited) ∧ Repeats (e.kept inherited) es := by
  constructor
  · intro h
    refine ⟨?_, fun front type name value name' value' rest he => ?_⟩
    · rintro type name value name' value' rest rfl rfl
      exact h [] type name value name' value' rest rfl
    · exact h (e :: front) type name value name' value' rest (by rw [he]; rfl)
  · rintro ⟨hhead, htail⟩ front type name value name' value' rest he
    cases front with
    | nil =>
      cases he
      exact hhead type name value name' value' rest rfl rfl
    | cons f front =>
      cases he
      exact htail front type name value name' value' rest rfl

/-- The type kept and the type of the item before give the same parameters where no bare item tells
them apart. -/
theorem read_eq_iff {current before : Text} {es : List Entry} :
    read kept current es = read type before es ↔
      (∀ name value rest, es = bare name value :: rest → current = before) ∧
        Repeats current es := by
  induction es generalizing current before with
  | nil => exact iff_of_true rfl ⟨nofun, repeats_nil current⟩
  | cons e es ih =>
    have hparameter : e.parameter current = e.parameter before ↔ e.type current = e.type before :=
      ⟨fun h => congrArg Parameter.type h, fun h => by rw [parameter, parameter, h]⟩
    rw [read, read, List.cons.injEq, hparameter, ih, repeats_cons]
    cases e with
    | keyed d =>
      constructor
      · exact fun ⟨_, _, hr⟩ => ⟨nofun, nofun, hr⟩
      · exact fun ⟨_, _, hr⟩ => ⟨rfl, fun _ _ _ _ => rfl, hr⟩
    | typed type name value =>
      constructor
      · rintro ⟨-, hhead, hr⟩
        refine ⟨nofun, fun _ _ _ name' value' rest he hb => ?_, hr⟩
        cases he
        exact (hhead name' value' rest hb).symm
      · rintro ⟨-, hhead, hr⟩
        exact ⟨rfl, fun name' value' rest hb => (hhead _ _ _ _ _ _ rfl hb).symm, hr⟩
    | bare name value =>
      constructor
      · rintro ⟨hsame, -, hr⟩
        exact ⟨fun _ _ _ _ => hsame, nofun, hr⟩
      · rintro ⟨hsame, -, hr⟩
        exact ⟨hsame _ _ _ rfl, fun _ _ _ _ => hsame _ _ _ rfl, hr⟩

end Entry

/-- Each item of a parameter list has its own type, or none behind a keyword alone, and a bare item
has the type that was declared last with a keyword. For all bare items that is the type of the item
just before it exactly where no bare item follows a type without a keyword that says another. -/
theorem parametersOf_entries {es : List Entry} (hv : ∀ e ∈ es, e.Valid) {t w : Text}
    (h : Spaced Blanks (listed (es.map Entry.tokens)) t) (hw : w.allBlank) :
    parametersOf (t ++ w) = Entry.read Entry.kept [] es ∧
      (parametersOf (t ++ w) = Entry.read Entry.type [] es ↔ Entry.Repeats [] es) := by
  have hitems := splitTopLevel_listed (fun e he _ hu => Entry.exists_item (hv e he) hu) h hw
  have hread : parametersOf (t ++ w) = Entry.read Entry.kept [] es := Entry.read_items hitems []
  refine ⟨hread, ?_⟩
  rw [hread, Entry.read_eq_iff]
  exact and_iff_right fun _ _ _ _ => rfl

/-- A bare item behind a type without a keyword. -/
def mixedEntries : List Entry :=
  [.keyed ⟨"parameter".toList, "int".toList, "A".toList, some "1".toList⟩,
    .typed "logic".toList "B".toList none, .bare "C".toList none]

def mixedList : Text := "parameter int A = 1, logic B, C".toList

theorem valid_mixedEntries : ∀ e ∈ mixedEntries, e.Valid := by
  have hint : Fragment inType "int".toList :=
    ⟨by decide +kernel, by decide, by decide, by decide,
      not_wordAt_keyword (by rintro ⟨⟩ <;> decide), by decide⟩
  have hlogic : Fragment inType "logic".toList :=
    ⟨by decide +kernel, by decide, by decide, by decide,
      not_wordAt_keyword (by rintro ⟨⟩ <;> decide), by decide⟩
  have hnumber : Fragment inValue "1".toList :=
    ⟨by decide +kernel, by decide, by decide, by decide,
      not_wordAt_keyword (by rintro ⟨⟩ <;> decide), by decide⟩
  refine List.forall_mem_cons.2 ⟨⟨⟨by decide, by decide, hint, ?_⟩, by decide⟩,
    List.forall_mem_cons.2 ⟨⟨by decide, nofun, hlogic, by decide, by decide⟩,
      List.forall_mem_singleton.2 ⟨by decide, nofun, by decide⟩⟩⟩
  intro v hv
  cases hv
  exact ⟨by decide, hnumber⟩

theorem spaced_mixedList : Spaced Blanks (listed (mixedEntries.map Entry.tokens)) mixedList := by
  have hnone : Blanks [] := rfl
  have hspace : Blanks [' '] := rfl
  exact .touch hnone rfl <| .apart hspace (by decide) <| .apart hspace (by decide) <|
    .apart hspace (by decide) <| .apart hspace (by decide) <| .touch hnone rfl <|
    .apart hspace (by decide) <| .apart hspace (by decide) <| .touch hnone rfl <|
    .apart hspace (by decide) .nil

theorem parametersOf_entries_mixed :
    (∀ e ∈ mixedEntries, e.Valid) ∧
    Spaced Blanks (listed (mixedEntries.map Entry.tokens)) mixedList ∧ Text.allBlank [' '] ∧
    parametersOf (mixedList ++ [' ']) = Entry.read Entry.kept [] mixedEntries ∧
    (parametersOf (mixedList ++ [' ']) = Entry.read Entry.type [] mixedEntries ↔
      Entry.Repeats [] mixedEntries) :=
  ⟨valid_mixedEntries, spaced_mixedList, rfl,
    parametersOf_entries valid_mixedEntries spaced_mixedList rfl⟩

/-- The bare item goes on with the type of the first, not with that of the second. -/
theorem parametersOf_entries_ne :
    (∀ e ∈ mixedEntries, e.Valid) ∧
    Spaced Blanks (listed (mixedEntries.map Entry.tokens)) mixedList ∧
    (parametersOf mixedList).map Parameter.type =
      ["int".toList, "logic".toList, "int".toList] ∧
    (Entry.read Entry.type [] mixedEntries).map Parameter.type =
      ["int".toList, "logic".toList, "logic".toList] :=
  ⟨valid_mixedEntries, spaced_mixedList, by decide +kernel, by decide⟩

end Signature
end Pinout
