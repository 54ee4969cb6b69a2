import Mathlib.Data.List.Forall2
import Pinout.Proofs.Signature.Stretched
import Pinout.Proofs.Text.Swapped

/-!
# Pinout.Proofs.Signature.Swapped

Declarations that differ in a literal. An item of a list is cut at its equals sign, and what stands
before that is cut into a keyword, a type and a name; each cut is made at the same place when the
literal has other contents (`Text.Swapped`). So the items declare the same names and directions, and
the literal is seen in a type at most (`parametersOfItems_swapped`, `portsOfItems_swapped`).
-/

namespace Pinout
namespace Signature

open Text (Swapped rel_map)

/-- Collapsed types that are the same, but for the literal `"c"` in one and `"d"` in the other. -/
inductive SameType (c d : Text) : Text → Text → Prop where
  | refl (t : Text) : SameType c d t t
  | literal (lead x y : Text) : SameType c d
      (lead ++ Text.collapse (x ++ '"' :: (c ++ '"' :: y)))
      (lead ++ Text.collapse (x ++ '"' :: (d ++ '"' :: y)))

/-- Parameters of the same name and, but for the literal, the same type. -/
def SameParameter (c d : Text) (p q : Parameter) : Prop :=
  p.name = q.name ∧ SameType c d p.type q.type

/-- Ports of the same name, the same direction and, but for the literal, the same type. -/
def SamePort (c d : Text) (p q : Port) : Prop :=
  p.name = q.name ∧ p.direction = q.direction ∧ SameType c d p.type q.type

section

variable {c d t u : Text}

theorem sameType_append_collapse (lead : Text) (h : Swapped c d t u) :
    SameType c d (lead ++ t.collapse) (lead ++ u.collapse) := by
  rcases h.exists_append with rfl | ⟨x, y, rfl, rfl⟩
  · exact .refl _
  · exact .literal lead x y

theorem sameType_collapse (h : Swapped c d t u) : SameType c d t.collapse u.collapse := by
  have := sameType_append_collapse [] h
  rwa [List.nil_append, List.nil_append] at this

theorem splitTrailingIdentifier_swapped (h : Swapped c d t u) :
    Swapped c d (splitTrailingIdentifier t).1 (splitTrailingIdentifier u).1 ∧
      (splitTrailingIdentifier t).2 = (splitTrailingIdentifier u).2 := by
  have hr := h.trimEnd.reverse
  rw [splitTrailingIdentifier_eq, splitTrailingIdentifier_eq, hr.takeWhile_eq (by decide)]
  split
  · exact ⟨h.trimEnd.reverse_dropWhile (by decide), rfl⟩
  · exact ⟨h.trimEnd, rfl⟩

theorem afterKeyword?_swapped {keyword : Text} (hk : '"' ∉ keyword) (h : Swapped c d t u) :
    Option.Rel (Swapped c d) (afterKeyword? t keyword) (afterKeyword? u keyword) :=
  Text.rel_filter (fun _ _ h => h.endsWord_eq) (h.dropLead? hk)

/-! ## Parameters -/

theorem namedParameter_swapped {inherited inherited' : Text}
    (hi : SameType c d inherited inherited') (value value' : Option Text) (h : Swapped c d t u) :
    Option.Rel (SameParameter c d) (namedParameter inherited value t)
      (namedParameter inherited' value' u) := by
  obtain ⟨htype, hname⟩ := splitTrailingIdentifier_swapped h
  simp only [namedParameter, hname, htype.allBlank_eq]
  split
  · exact .none
  · refine .some ⟨rfl, ?_⟩
    dsimp only
    split
    · exact hi
    · exact sameType_collapse htype

/-- Items that declare the same, but for the literal. -/
def SameItem (c d : Text) (i j : Text) : Prop :=
  Swapped c d (splitAssignment i).1 (splitAssignment j).1

theorem parameterOfItem_swapped {inherited inherited' i j : Text}
    (hi : SameType c d inherited inherited') (h : SameItem c d i j) :
    Option.Rel (SameParameter c d) (parameterOfItem inherited i).1
        (parameterOfItem inherited' j).1 ∧
      SameType c d (parameterOfItem inherited i).2 (parameterOfItem inherited' j).2 := by
  have hdeclared : Swapped c d (splitAssignment i).1.trim (splitAssignment j).1.trim := h.trim
  have hkeyword : Option.Rel (Swapped c d)
      (parameterKeywords.findSome? (afterKeyword? (splitAssignment i).1.trim))
      (parameterKeywords.findSome? (afterKeyword? (splitAssignment j).1.trim)) :=
    Text.rel_findSome? fun k hk => afterKeyword?_swapped (by revert k; decide) hdeclared
  rw [parameterOfItem_eq, parameterOfItem_eq]
  generalize parameterKeywords.findSome? (afterKeyword? (splitAssignment i).1.trim) = a,
    parameterKeywords.findSome? (afterKeyword? (splitAssignment j).1.trim) = b at hkeyword
  cases hkeyword with
  | none =>
    dsimp only
    exact ⟨namedParameter_swapped hi _ _ hdeclared, hi⟩
  | some hr =>
    dsimp only
    have htype := sameType_collapse (splitTrailingIdentifier_swapped hr).1
    exact ⟨namedParameter_swapped htype _ _ hr, htype⟩

theorem forall₂_toList_append {α β : Type} {r : α → β → Prop} {a : Option α} {b : Option β}
    (h : Option.Rel r a b) {xs : List α} {ys : List β} (hs : List.Forall₂ r xs ys) :
    List.Forall₂ r (a.toList ++ xs) (b.toList ++ ys) := by
  cases h with
  | none => exact hs
  | some h => exact .cons h hs

theorem parametersOfItems_cons (inherited item : Text) (items : List Text) :
    parametersOfItems inherited (item :: items) = (parameterOfItem inherited item).1.toList ++
      parametersOfItems (parameterOfItem inherited item).2 items := by
  rw [parametersOfItems]

theorem parametersOfItems_swapped {items items' : List Text}
    (h : List.Forall₂ (SameItem c d) items items') {inherited inherited' : Text}
    (hi : SameType c d inherited inherited') :
    List.Forall₂ (SameParameter c d) (parametersOfItems inherited items)
      (parametersOfItems inherited' items') := by
  induction h generalizing inherited inherited' with
  | nil => exact .nil
  | cons h _ ih =>
    obtain ⟨hparameter, hinherited⟩ := parameterOfItem_swapped hi h
    rw [parametersOfItems_cons, parametersOfItems_cons]
    exact forall₂_toList_append hparameter (ih hinherited)

/-! ## Ports -/

theorem portType_swapped (h : Swapped c d t u) : SameType c d (portType t) (portType u) := by
  have hnil : t.collapse = [] ↔ u.collapse = [] := by
    rw [Text.collapse_eq_nil_iff, Text.collapse_eq_nil_iff, h.trimStart.eq_nil_iff]
  simp only [portType, h.firstWord_eq, hnil]
  split
  · exact sameType_collapse h
  · split
    · exact .refl _
    · have := sameType_append_collapse (defaultNet ++ [' ']) h
      rwa [List.append_assoc, List.append_assoc] at this

/-- What a bare name goes on with: the same direction and, but for the literal, the same type. -/
def SameCurrent (c d : Text) (a b : Direction × Text) : Prop := a.1 = b.1 ∧ SameType c d a.2 b.2

theorem portOfItem_swapped {current current' : Option (Direction × Text)} {i j : Text}
    (hc : Option.Rel (SameCurrent c d) current current') (h : SameItem c d i j) :
    Option.Rel (SamePort c d) (portOfItem current i).1 (portOfItem current' j).1 ∧
      Option.Rel (SameCurrent c d) (portOfItem current i).2 (portOfItem current' j).2 := by
  have hdeclared : Swapped c d (splitAssignment i).1.trim (splitAssignment j).1.trim := h.trim
  obtain ⟨hword, hrest⟩ := hdeclared.splitIdentifier
  obtain ⟨htype, hname⟩ := splitTrailingIdentifier_swapped hrest
  have hport := portType_swapped htype
  simp only [portOfItem, hword, hname]
  cases Direction.ofKeyword? (Text.splitIdentifier (splitAssignment j).1.trim).1 with
  | some direction =>
    dsimp only
    refine ⟨?_, .some ⟨rfl, hport⟩⟩
    split
    · exact .none
    · exact .some ⟨rfl, rfl, hport⟩
  | none =>
    cases hc with
    | none => exact ⟨.none, .none⟩
    | some hc =>
      obtain ⟨hdirection, hinherited⟩ := hc
      dsimp only
      by_cases hr : (Text.splitIdentifier (splitAssignment j).1.trim).2 = []
      · rw [hdeclared.eq_of_splitIdentifier hr]
        split
        · exact ⟨.none, .some ⟨hdirection, hinherited⟩⟩
        · exact ⟨.some ⟨rfl, hdirection, hinherited⟩, .some ⟨hdirection, hinherited⟩⟩
      · rw [if_pos (.inr fun h => hr (hrest.eq_nil_iff.1 h)), if_pos (.inr hr)]
        exact ⟨.none, .some ⟨hdirection, hinherited⟩⟩

theorem portsOfItems_cons (current : Option (Direction × Text)) (item : Text) (items : List Text) :
    portsOfItems current (item :: items) =
      (portOfItem current item).1.toList ++ portsOfItems (portOfItem current item).2 items := by
  rw [portsOfItems]

theorem portsOfItems_swapped {items items' : List Text}
    (h : List.Forall₂ (SameItem c d) items items') {current current' : Option (Direction × Text)}
    (hc : Option.Rel (SameCurrent c d) current current') :
    List.Forall₂ (SamePort c d) (portsOfItems current items) (portsOfItems current' items') := by
  induction h generalizing current current' with
  | nil => exact .nil
  | cons h _ ih =>
    obtain ⟨hport, hcurrent⟩ := portOfItem_swapped hc h
    rw [portsOfItems_cons, portsOfItems_cons]
    exact forall₂_toList_append hport (ih hcurrent)

end

end Signature
end Pinout
