import Mathlib.Data.List.Forall2
import Pinout.Proofs.Signature.Described
import Pinout.Proofs.Signature.Header
import Pinout.Proofs.Text.Stretched

/-!
# Pinout.Proofs.Signature.Stretched

A header does not see one more newline behind a newline. Each cut of the header takes stretched
texts to stretched texts (`Text.Stretched`), a name holds no newline, and types and values are
collapsed; so the same header is found (`header?_stretched`), and it declares the same parameters and
ports (`Header.parameters_stretched`, `Header.ports_stretched`).
-/

namespace Pinout
namespace Signature

open Text (Stretched rel_map)

/-- Two texts cut at the same place. -/
def Cut (a b : Text × Text) : Prop := Stretched a.1 b.1 ∧ Stretched a.2 b.2

theorem rel_cut_refl (a : Option (Text × Text)) : Option.Rel Cut a a := by
  cases a with
  | none => exact .none
  | some a => exact .some ⟨.refl _, .refl _⟩

def consBefore (c : Char) (a : Text × Text) : Text × Text := (c :: a.1, a.2)

theorem rel_cut_cons (c : Char) {a b : Option (Text × Text)} (h : Option.Rel Cut a b) :
    Option.Rel Cut (a.map (consBefore c)) (b.map (consBefore c)) :=
  rel_map (fun _ _ h => ⟨.cons c h.1, h.2⟩) h

theorem rel_cut_newline (a : Option (Text × Text)) :
    Option.Rel Cut (a.map (consBefore '\n')) ((a.map (consBefore '\n')).map (consBefore '\n')) := by
  cases a with
  | none => exact .none
  | some a => exact .some ⟨.here _, .refl _⟩

section

variable {t u : Text}

/-! ## Scanning -/

theorem after_newline (mode : Mode) : (mode.after '\n').after '\n' = mode.after '\n' := by
  cases mode <;> rfl

theorem cutUnquoted?_stretched {stops : Text → Bool} (hn : ∀ t, stops ('\n' :: t) = false)
    (hs : ∀ t u, Stretched t u → stops t = stops u) (h : Stretched t u) (mode : Mode) :
    Option.Rel Cut (cutUnquoted? stops mode t) (cutUnquoted? stops mode u) := by
  have hcons (mode : Mode) (t : Text) : cutUnquoted? stops mode ('\n' :: t) =
      (cutUnquoted? stops (mode.after '\n') t).map (consBefore '\n') := by
    rw [cutUnquoted?, if_neg]
    · rfl
    · simp [hn]
  induction h generalizing mode with
  | refl t => exact rel_cut_refl _
  | here t =>
    -- behind the first newline no escape is open, so the second one changes nothing
    rw [hcons, hcons, hcons, after_newline]
    exact rel_cut_newline _
  | @cons c t u h ih =>
    rw [cutUnquoted?, cutUnquoted?, hs _ _ (.cons c h)]
    split
    · exact .some ⟨.refl _, .cons c h⟩
    · exact rel_cut_cons c (ih (mode.after c))

theorem consFirst_stretched (c : Char) {ps qs : List Text} (h : List.Forall₂ Stretched ps qs) :
    List.Forall₂ Stretched (consFirst c ps) (consFirst c qs) := by
  cases h with
  | nil => exact .cons (.refl _) .nil
  | cons h hs => exact .cons (.cons c h) hs

theorem consFirst_newline (ps : List Text) :
    List.Forall₂ Stretched (consFirst '\n' ps) (consFirst '\n' (consFirst '\n' ps)) := by
  cases ps with
  | nil => exact .cons (.here []) .nil
  | cons p ps => exact .cons (.here p) (List.forall₂_same.2 fun _ _ => .refl _)

theorem pieces_stretched {separator : Char} (hs : separator ≠ '\n') (h : Stretched t u)
    (mode : Mode) (depth : Nat) :
    List.Forall₂ Stretched (pieces separator mode depth t) (pieces separator mode depth u) := by
  have hcons (mode : Mode) (depth : Nat) (t : Text) : pieces separator mode depth ('\n' :: t) =
      consFirst '\n' (pieces separator (mode.after '\n') depth t) := by
    have hdepth : depthAfter depth '\n' = depth := rfl
    rw [pieces_cons, if_neg fun hc => hs hc.2.1.symm, hdepth, ite_self]
  induction h generalizing mode depth with
  | refl t => exact List.forall₂_same.2 fun _ _ => .refl _
  | here t =>
    rw [hcons, hcons, hcons, after_newline]
    exact consFirst_newline _
  | @cons c t u h ih =>
    rw [pieces_cons, pieces_cons]
    split
    · exact .cons (.refl _) (ih .code 0)
    · exact consFirst_stretched c (ih _ _)

theorem splitTopLevel_stretched {separator : Char} (hs : separator ≠ '\n') (h : Stretched t u) :
    List.Forall₂ Stretched (splitTopLevel separator t) (splitTopLevel separator u) := by
  have htrimmed := List.rel_map (fun _ _ h => h.trim) (pieces_stretched hs h .code 0)
  refine List.rel_filter (fun a b hab => ?_) htrimmed
  simp [hab.eq_nil_iff]

theorem splitEquals_stretched (h : Stretched t u) (depth : Nat) :
    Stretched (splitEquals depth t).1 (splitEquals depth u).1 ∧
      Option.Rel Stretched (splitEquals depth t).2 (splitEquals depth u).2 := by
  induction h generalizing depth with
  | refl t => exact ⟨.refl _, Stretched.rel_refl _⟩
  | here t => exact ⟨.here _, Stretched.rel_refl _⟩
  | @cons c t u h ih =>
    rw [splitEquals, splitEquals]
    split
    · exact ⟨.refl _, .some h⟩
    · exact ⟨.cons c (ih _).1, (ih _).2⟩

theorem splitAssignment_stretched (h : Stretched t u) :
    Stretched (splitAssignment t).1 (splitAssignment u).1 ∧
      (splitAssignment t).2 = (splitAssignment u).2 := by
  obtain ⟨hd, hv⟩ := splitEquals_stretched h 0
  exact ⟨hd, Text.bind_eq_of_rel (fun _ _ h => by rw [h.collapse_eq]) hv⟩

theorem splitTrailingIdentifier_stretched (h : Stretched t u) :
    Stretched (splitTrailingIdentifier t).1 (splitTrailingIdentifier u).1 ∧
      (splitTrailingIdentifier t).2 = (splitTrailingIdentifier u).2 := by
  have hr := h.trimEnd.reverse
  rw [splitTrailingIdentifier_eq, splitTrailingIdentifier_eq, hr.takeWhile_eq (by decide)]
  split
  · exact ⟨(hr.dropWhile _).reverse, rfl⟩
  · exact ⟨h.trimEnd, rfl⟩

theorem afterKeyword?_stretched {keyword : Text} (hk : '\n' ∉ keyword) (h : Stretched t u) :
    Option.Rel Stretched (afterKeyword? t keyword) (afterKeyword? u keyword) :=
  Text.rel_filter (fun _ _ h => h.endsWord_eq) (h.dropLead? hk)

/-! ## Declarations -/

/-- The parameter with the name at the end of what is declared. -/
def namedParameter (inherited : Text) (value : Option Text) (declared : Text) : Option Parameter :=
  let (type, name) := splitTrailingIdentifier declared
  if name = [] then none
  else some ⟨name, if Text.allBlank type then inherited else Text.collapse type, value, []⟩

theorem parameterOfItem_eq (inherited item : Text) : parameterOfItem inherited item =
    match parameterKeywords.findSome? (afterKeyword? (splitAssignment item).1.trim) with
    | some rest =>
      (namedParameter (splitTrailingIdentifier rest).1.collapse (splitAssignment item).2 rest,
        (splitTrailingIdentifier rest).1.collapse)
    | none =>
      (namedParameter inherited (splitAssignment item).2 (splitAssignment item).1.trim,
        inherited) := by
  simp only [parameterOfItem, namedParameter]
  cases parameterKeywords.findSome? (afterKeyword? (splitAssignment item).1.trim) with
  | none => dsimp only; split <;> rfl
  | some rest => dsimp only; split <;> rfl

theorem namedParameter_stretched (h : Stretched t u) (inherited : Text) (value : Option Text) :
    namedParameter inherited value t = namedParameter inherited value u := by
  obtain ⟨htype, hname⟩ := splitTrailingIdentifier_stretched h
  simp only [namedParameter, hname, htype.allBlank_eq, htype.collapse_eq]

theorem parameterOfItem_stretched (h : Stretched t u) (inherited : Text) :
    parameterOfItem inherited t = parameterOfItem inherited u := by
  obtain ⟨hd, hv⟩ := splitAssignment_stretched h
  have hkeyword : Option.Rel Stretched
      (parameterKeywords.findSome? (afterKeyword? (splitAssignment t).1.trim))
      (parameterKeywords.findSome? (afterKeyword? (splitAssignment u).1.trim)) :=
    Text.rel_findSome? fun k hk => afterKeyword?_stretched (by revert k; decide) hd.trim
  rw [parameterOfItem_eq, parameterOfItem_eq, hv, namedParameter_stretched hd.trim]
  generalize parameterKeywords.findSome? (afterKeyword? (splitAssignment t).1.trim) = a,
    parameterKeywords.findSome? (afterKeyword? (splitAssignment u).1.trim) = b at hkeyword
  cases hkeyword with
  | none => rfl
  | some hr =>
    dsimp only
    rw [namedParameter_stretched hr, (splitTrailingIdentifier_stretched hr).1.collapse_eq]

theorem portOfItem_stretched (h : Stretched t u) (current : Option (Direction × Text)) :
    portOfItem current t = portOfItem current u := by
  obtain ⟨hd, hv⟩ := splitAssignment_stretched h
  obtain ⟨hword, hrest⟩ := hd.trim.splitIdentifier
  obtain ⟨htype, hname⟩ := splitTrailingIdentifier_stretched hrest
  simp only [portOfItem, hword, hname, hv, portType, htype.collapse_eq]
  cases Direction.ofKeyword? (Text.splitIdentifier (splitAssignment u).1.trim).1 with
  | some direction => rfl
  | none =>
    cases current with
    | none => rfl
    | some current =>
      obtain ⟨direction, type⟩ := current
      dsimp only
      by_cases hr : (Text.splitIdentifier (splitAssignment u).1.trim).2 = []
      · rw [hd.trim.eq_of_splitIdentifier hr]
      · rw [if_pos (.inr fun h => hr (hrest.eq_nil_iff.1 h)), if_pos (.inr hr)]

theorem parametersOfItems_stretched {items items' : List Text}
    (h : List.Forall₂ Stretched items items') (inherited : Text) :
    parametersOfItems inherited items = parametersOfItems inherited items' := by
  induction h generalizing inherited with
  | nil => rfl
  | cons h _ ih =>
    rw [parametersOfItems, parametersOfItems, parameterOfItem_stretched h]
    exact congrArg _ (ih _)

theorem portsOfItems_stretched {items items' : List Text}
    (h : List.Forall₂ Stretched items items') (current : Option (Direction × Text)) :
    portsOfItems current items = portsOfItems current items' := by
  induction h generalizing current with
  | nil => rfl
  | cons h _ ih =>
    rw [portsOfItems, portsOfItems, portOfItem_stretched h]
    exact congrArg _ (ih _)

theorem parametersOf_stretched (h : Stretched t u) : parametersOf t = parametersOf u :=
  parametersOfItems_stretched (splitTopLevel_stretched (by decide) h) []

theorem portsOf_stretched (h : Stretched t u) : portsOf t = portsOf u :=
  portsOfItems_stretched (splitTopLevel_stretched (by decide) h) none

/-! ## The lists of a header -/

theorem startsWithDirection_stretched (h : Stretched t u) :
    startsWithDirection t = startsWithDirection u := by
  rw [startsWithDirection, startsWithDirection, h.trimStart.splitIdentifier.1]

theorem startsWithPorts_stretched (h : Stretched t u) : startsWithPorts t = startsWithPorts u := by
  rw [startsWithPorts, startsWithPorts]
  have hs := h.trimStart
  generalize t.trimStart = a, u.trimStart = b at hs
  cases hs with
  | refl => rfl
  | here => rfl
  | cons c h =>
    by_cases hc : c = '('
    · subst hc
      exact startsWithDirection_stretched h
    · simp [hc]

theorem splitClosing?_stretched {ends : Text → Bool}
    (he : ∀ t u, Stretched t u → ends t = ends u) (h : Stretched t u) :
    Option.Rel Cut (splitClosing? ends t) (splitClosing? ends u) := by
  have hcons (t : Text) : splitClosing? ends ('\n' :: t) =
      (splitClosing? ends t).map (consBefore '\n') := by
    rw [splitClosing?, if_neg (by simp)]
    rfl
  induction h with
  | refl t => exact rel_cut_refl _
  | here t =>
    rw [hcons, hcons, hcons]
    exact rel_cut_newline _
  | @cons c t u h ih =>
    rw [splitClosing?, splitClosing?, he _ _ h]
    split
    · exact .some ⟨.refl _, h⟩
    · exact rel_cut_cons c ih

/-- The text behind `#` and a parenthesis at the head of a text. -/
def afterHash? (body : Text) : Option Text :=
  (Text.dropLead? ['#'] body.trimStart).bind fun t => Text.dropLead? ['('] t.trimStart

/-- A text cut at the parenthesis that ends the parameter list. -/
def closeParameterList (t : Text) : Text × Text :=
  ((splitClosing? startsWithPorts t).or (splitClosing? (fun _ => true) t)).getD (t, [])

theorem splitParameterList_eq (body : Text) : splitParameterList body =
    match afterHash? body with
    | some t => (some (closeParameterList t).1, (closeParameterList t).2)
    | none => (none, body) := by
  have hlead (c : Char) (t : Text) : Text.dropLead? [c] (c :: t) = some t :=
    Text.dropLead?_append [c] t
  rw [splitParameterList]
  split
  · next t ht =>
    split
    · next t' ht' =>
      have hhash : afterHash? body = some t' := by
        rw [afterHash?, ht, hlead, Option.bind_some, ht', hlead]
      rw [hhash]
      dsimp only
      rw [closeParameterList]
      cases splitClosing? startsWithPorts t' with
      | some cut => rfl
      | none =>
        cases splitClosing? (fun _ => true) t' with
        | some cut => rfl
        | none => rfl
    · next hn =>
      have hhash : afterHash? body = none := by
        rw [afterHash?, ht, hlead, Option.bind_some, Text.dropLead?_eq_none_iff]
        rintro ⟨r, hr⟩
        exact hn r hr.symm
      rw [hhash]
  · next hn =>
    have hhash : afterHash? body = none := by
      rw [afterHash?, Text.dropLead?_eq_none_iff.2, Option.bind_none]
      rintro ⟨r, hr⟩
      exact hn r hr.symm
    rw [hhash]

theorem afterHash?_stretched (h : Stretched t u) :
    Option.Rel Stretched (afterHash? t) (afterHash? u) :=
  Text.rel_bind (fun _ _ h => h.trimStart.dropLead? (by decide)) (h.trimStart.dropLead? (by decide))

theorem closeParameterList_stretched (h : Stretched t u) :
    Cut (closeParameterList t) (closeParameterList u) := by
  have hcut := Text.rel_or (splitClosing?_stretched (fun _ _ => startsWithPorts_stretched) h)
    (@splitClosing?_stretched t u (fun _ => true) (fun _ _ _ => rfl) h)
  rw [closeParameterList, closeParameterList]
  generalize (splitClosing? startsWithPorts t).or (splitClosing? (fun _ => true) t) = a,
    (splitClosing? startsWithPorts u).or (splitClosing? (fun _ => true) u) = b at hcut
  cases hcut with
  | none => exact ⟨h, .refl []⟩
  | some hcut => exact hcut

theorem splitParameterList_stretched (h : Stretched t u) :
    Option.Rel Stretched (splitParameterList t).1 (splitParameterList u).1 ∧
      Stretched (splitParameterList t).2 (splitParameterList u).2 := by
  have hhash := afterHash?_stretched h
  rw [splitParameterList_eq, splitParameterList_eq]
  generalize afterHash? t = a, afterHash? u = b at hhash
  cases hhash with
  | none => exact ⟨.none, h⟩
  | some h =>
    obtain ⟨hlist, hrest⟩ := closeParameterList_stretched h
    exact ⟨.some hlist, hrest⟩

theorem afterPortsOpen?_stretched (h : Stretched t u) :
    Option.Rel Stretched (afterPortsOpen? t) (afterPortsOpen? u) := by
  induction h with
  | refl t => exact Stretched.rel_refl _
  | here t => exact Stretched.rel_refl _
  | @cons c t u h ih =>
    rw [afterPortsOpen?, afterPortsOpen?, startsWithDirection_stretched h]
    split
    · exact .some h
    · exact ih

theorem dropLast?_eq (c : Char) (t : Text) :
    dropLast? c t = (Text.dropLead? [c] t.trimEnd.reverse).map List.reverse := by
  rw [dropLast?]
  cases t.trimEnd.reverse with
  | nil => rfl
  | cons d r =>
    rw [Text.dropLead?, apply_ite (Option.map List.reverse)]
    simp only [eq_comm]
    rfl

theorem dropLast?_stretched {c : Char} (hc : c ≠ '\n') (h : Stretched t u) :
    Option.Rel Stretched (dropLast? c t) (dropLast? c u) := by
  rw [dropLast?_eq, dropLast?_eq]
  exact rel_map (fun _ _ h => h.reverse) (h.trimEnd.reverse.dropLead? (by simpa using hc.symm))

theorem portList?_stretched (h : Stretched t u) :
    Option.Rel Stretched (portList? t) (portList? u) := by
  rw [portList?, portList?]
  refine Text.rel_bind (fun _ _ h => ?_) (afterPortsOpen?_stretched h)
  exact Text.rel_bind (fun _ _ h => dropLast?_stretched (by decide) h)
    (dropLast?_stretched (by decide) h)

/-! ## Headers -/

/-- Headers of the same name that declare the same in stretched texts. -/
def Header.Stretched (h k : Header) : Prop := h.name = k.name ∧ Text.Stretched h.body k.body

theorem Header.parameters_stretched {h k : Header} (hk : h.Stretched k) :
    h.parameters = k.parameters := by
  have hlist := (splitParameterList_stretched hk.2).1
  rw [Header.parameters, Header.parameters]
  generalize (splitParameterList h.body).1 = a, (splitParameterList k.body).1 = b at hlist
  cases hlist with
  | none => rfl
  | some h => exact parametersOf_stretched h

theorem Header.ports_stretched {h k : Header} (hk : h.Stretched k) : h.ports = k.ports := by
  have hlist := portList?_stretched (splitParameterList_stretched hk.2).2
  rw [Header.ports, Header.ports]
  generalize portList? (splitParameterList h.body).2 = a,
    portList? (splitParameterList k.body).2 = b at hlist
  cases hlist with
  | none => rfl
  | some h => exact portsOf_stretched h

theorem headerOf?_stretched (name : Text) (h : Stretched t u) :
    Option.Rel Header.Stretched (headerOf? name t) (headerOf? name u) := by
  have hq : ∀ t : Text, (('"' :: t).head? == some ';') = false := fun _ => rfl
  rw [headerOf?, headerOf?, splitUnquoted?_eq hq, splitUnquoted?_eq hq]
  refine rel_map (fun _ _ hcut => ⟨rfl, hcut.1.append_right [';']⟩)
    (cutUnquoted?_stretched (fun _ => rfl) (fun _ _ h => ?_) h _)
  rw [h.head?_eq]

theorem header?_stretched (h : Stretched t u) :
    Option.Rel Header.Stretched (header? t) (header? u) := by
  have hword : Text.isIdentifier moduleKeyword := by decide
  induction t using header_induction generalizing u with
  | absent t ht =>
    have hafter := h.afterWord? hword
    rw [ht] at hafter
    generalize hu : Text.afterWord? moduleKeyword u = b at hafter
    cases hafter
    rw [header?_of_none ht, header?_of_none hu]
    exact .none
  | behind t rest ht ih =>
    have hafter := h.afterWord? hword
    rw [ht] at hafter
    generalize hu : Text.afterWord? moduleKeyword u = b at hafter
    cases hafter with
    | some hrest =>
      obtain ⟨hname, hbehind⟩ := hrest.trimStart.splitIdentifier
      rw [header?_of_some ht, header?_of_some hu, nameOf, nameOf, hname]
      split
      · exact ih hrest
      · exact headerOf?_stretched _ hbehind

end

end Signature
end Pinout
