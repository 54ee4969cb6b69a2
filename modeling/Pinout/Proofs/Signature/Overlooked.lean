import Pinout.Proofs.Signature.Literal

/-!
# Pinout.Proofs.Signature.Overlooked

A header around a literal. The searches for the name, for the lists and for their ends do not know
of literals; a quote separates what they look for, so each search comes to the text before the
literal, to its contents and to the text behind it, one after the other (`moduleName?_quote`,
`splitClosing?_quote`, `afterPortsOpen?_quote`). `Hidden x c y` says that they find nothing in the
contents `c` of a literal between `x` and `y`. Then the header declares the same whatever such
contents the literal has (`header?_literal`).
-/

namespace Pinout
namespace Signature

open Source (isContents)

/-! ## The name of the module -/

/-- The name of the first module of a text, and the text behind it. -/
def moduleName? (t : Text) : Option (Text × Text) :=
  match t with
  | [] => none
  | c :: t =>
    match _h : Text.afterWord? moduleKeyword (c :: t) with
    | none => none
    | some rest => if (nameOf rest).1 = [] then moduleName? rest else some (nameOf rest)
termination_by t.length
decreasing_by exact length_of_afterWord? (by decide) _h (by simp)

theorem moduleName?_eq (t : Text) : moduleName? t =
    (Text.afterWord? moduleKeyword t).bind fun rest =>
      if (nameOf rest).1 = [] then moduleName? rest else some (nameOf rest) := by
  cases t with
  | nil => rw [moduleName?, Text.afterWord?_nil, Option.bind_none]
  | cons c t =>
    rw [moduleName?]
    split
    · next h => rw [h, Option.bind_none]
    · next h => rw [h, Option.bind_some]

theorem header?_eq (t : Text) :
    header? t = (moduleName? t).bind fun (name, behind) => headerOf? name behind := by
  induction t using header_induction with
  | absent t h => rw [header?_of_none h, moduleName?_eq, h, Option.bind_none, Option.bind_none]
  | behind t rest h ih =>
    rw [header?_of_some h, moduleName?_eq, h, Option.bind_some]
    split
    · exact ih
    · rfl

theorem nameOf_quote (x t : Text) :
    nameOf (x ++ '"' :: t) = ((nameOf x).1, (nameOf x).2 ++ '"' :: t) := by
  rw [nameOf, nameOf, Text.trimStart_append_cons rfl]
  cases x.trimStart with
  | nil => rfl
  | cons e x => exact Text.splitIdentifier_append_cons (by decide) (List.cons_ne_nil e x) t

theorem moduleName?_quote (x t : Text) : moduleName? (x ++ '"' :: t) =
    ((moduleName? x).map fun (name, behind) => (name, behind ++ '"' :: t)).or (moduleName? t) := by
  have hafter := @Text.afterWord?_append_cons moduleKeyword (by decide) '"' (by decide)
  induction x using header_induction with
  | absent x h =>
    rw [moduleName?_eq, hafter, h, moduleName?_eq x, h, moduleName?_eq t]
    rfl
  | behind x rest h ih =>
    rw [moduleName?_eq, hafter, h, moduleName?_eq x, h, Option.map_some, Option.some_or,
      Option.bind_some, Option.bind_some, nameOf_quote]
    dsimp only
    split
    · exact ih
    · rfl

/-! ## The lists -/

theorem startsWithDirection_quote (x t : Text) :
    startsWithDirection (x ++ '"' :: t) = startsWithDirection x := by
  have h := congrArg Prod.fst (nameOf_quote x t)
  rw [nameOf, nameOf] at h
  rw [startsWithDirection, startsWithDirection, h]

theorem startsWithPorts_quote (x t : Text) :
    startsWithPorts (x ++ '"' :: t) = startsWithPorts x := by
  rw [startsWithPorts, startsWithPorts, Text.trimStart_append_cons rfl]
  cases x.trimStart with
  | nil => rfl
  | cons e x =>
    by_cases he : e = '('
    · subst he
      exact startsWithDirection_quote x t
    · simp [he]

theorem dropLead?_quote {e : Char} (he : e ≠ '"') (x t : Text) :
    Text.dropLead? [e] (x ++ '"' :: t) = (Text.dropLead? [e] x).map (· ++ '"' :: t) := by
  cases x with
  | nil => simp [Text.dropLead?, he]
  | cons f x =>
    simp only [List.cons_append, Text.dropLead?]
    split <;> rfl

theorem afterHash?_quote (x t : Text) :
    afterHash? (x ++ '"' :: t) = (afterHash? x).map (· ++ '"' :: t) := by
  rw [afterHash?, afterHash?, Text.trimStart_append_cons rfl, dropLead?_quote (by decide)]
  cases Text.dropLead? ['#'] x.trimStart with
  | none => rfl
  | some x =>
    rw [Option.map_some, Option.bind_some, Option.bind_some, Text.trimStart_append_cons rfl,
      dropLead?_quote (by decide)]

theorem splitClosing?_quote {ends : Text → Bool} (hends : ∀ x t, ends (x ++ '"' :: t) = ends x)
    (x t : Text) : splitClosing? ends (x ++ '"' :: t) =
      ((splitClosing? ends x).map fun (before, rest) => (before, rest ++ '"' :: t)).or
        ((splitClosing? ends t).map fun (before, rest) => (x ++ '"' :: before, rest)) := by
  induction x with
  | nil =>
    rw [List.nil_append, splitClosing?, splitClosing?, if_neg (by simp)]
    rfl
  | cons e x ih =>
    rw [List.cons_append, splitClosing?, splitClosing?, hends, ih]
    split
    · rfl
    · cases splitClosing? ends x with
      | some cut => rfl
      | none => simp [Function.comp_def]

theorem afterPortsOpen?_quote (x t : Text) : afterPortsOpen? (x ++ '"' :: t) =
    ((afterPortsOpen? x).map (· ++ '"' :: t)).or (afterPortsOpen? t) := by
  induction x with
  | nil =>
    rw [List.nil_append, afterPortsOpen?, afterPortsOpen?, if_neg (by simp)]
    rfl
  | cons e x ih =>
    rw [List.cons_append, afterPortsOpen?, afterPortsOpen?, startsWithDirection_quote, ih]
    split <;> rfl

theorem dropLast?_quote {e : Char} (he : e ≠ '"') (x t : Text) :
    dropLast? e (x ++ '"' :: t) = (dropLast? e t).map (x ++ '"' :: ·) := by
  have hcat : (x ++ '"' :: t.trimEnd).reverse = t.trimEnd.reverse ++ '"' :: x.reverse := by simp
  rw [dropLast?_eq, dropLast?_eq, Text.trimEnd_append_cons rfl, hcat, dropLead?_quote he,
    Option.map_map, Option.map_map]
  refine Option.map_congr fun r _ => ?_
  simp

theorem append_of_splitClosing? {ends : Text → Bool} {t before rest : Text}
    (h : splitClosing? ends t = some (before, rest)) :
    t = before ++ ')' :: rest ∧ ends rest := by
  induction t generalizing before with
  | nil => cases h
  | cons e t ih =>
    rw [splitClosing?] at h
    split at h
    · next hc =>
      cases h
      exact ⟨by rw [hc.1]; rfl, hc.2⟩
    · obtain ⟨⟨b, r⟩, hb, he⟩ := Option.map_eq_some_iff.1 h
      cases he
      obtain ⟨rfl, hr⟩ := ih hb
      exact ⟨rfl, hr⟩

theorem append_of_afterPortsOpen? {t rest : Text} (h : afterPortsOpen? t = some rest) :
    ∃ x, t = x ++ '(' :: rest ∧ startsWithDirection rest := by
  induction t with
  | nil => cases h
  | cons e t ih =>
    rw [afterPortsOpen?] at h
    split at h
    · next hc =>
      cases h
      exact ⟨[], by rw [hc.1]; rfl, hc.2⟩
    · obtain ⟨x, rfl, hr⟩ := ih h
      exact ⟨e :: x, rfl, hr⟩

theorem afterPortsOpen?_ne_none {x rest : Text} (h : startsWithDirection rest) :
    afterPortsOpen? (x ++ '(' :: rest) ≠ none := by
  induction x with
  | nil => simp [afterPortsOpen?, h]
  | cons e x ih =>
    rw [List.cons_append, afterPortsOpen?]
    split
    · simp
    · exact ih

/-- Where no port list opens, none follows a closing parenthesis. -/
theorem splitClosing?_of_afterPortsOpen? {t : Text} (h : afterPortsOpen? t = none) :
    splitClosing? startsWithPorts t = none := by
  cases hs : splitClosing? startsWithPorts t with
  | none => rfl
  | some cut =>
    obtain ⟨before, rest⟩ := cut
    obtain ⟨rfl, hr⟩ := append_of_splitClosing? hs
    unfold startsWithPorts at hr
    split at hr
    · next u hu =>
      refine absurd h ?_
      have hcat : before ++ ')' :: rest = before ++ ')' :: rest.takeWhile Text.isBlank ++ '(' :: u := by
        rw [← hu, List.append_assoc, List.cons_append, Text.trimStart,
          List.takeWhile_append_dropWhile]
      rw [hcat]
      exact afterPortsOpen?_ne_none hr
    · cases hr

/-- A text is cut in front of a literal, or behind it, or nowhere. -/
theorem splitClosing?_literal {ends : Text → Bool} (hends : ∀ x t, ends (x ++ '"' :: t) = ends x)
    (front rest : Text) :
    (∃ x list r, front = x ++ r ∧ ∀ c, splitClosing? ends c = none →
      splitClosing? ends (front ++ '"' :: (c ++ '"' :: rest)) =
        some (list, r ++ '"' :: (c ++ '"' :: rest))) ∨
    (∃ behind rest', splitClosing? ends front = none ∧ ∀ c, splitClosing? ends c = none →
      splitClosing? ends (front ++ '"' :: (c ++ '"' :: rest)) =
        some (front ++ '"' :: (c ++ '"' :: behind), rest')) ∨
    (splitClosing? ends front = none ∧ ∀ c, splitClosing? ends c = none →
      splitClosing? ends (front ++ '"' :: (c ++ '"' :: rest)) = none) := by
  have hcut (c : Text) (hc : splitClosing? ends c = none) :
      splitClosing? ends (front ++ '"' :: (c ++ '"' :: rest)) =
        ((splitClosing? ends front).map fun cut => (cut.1, cut.2 ++ '"' :: (c ++ '"' :: rest))).or
          ((splitClosing? ends rest).map fun cut => (front ++ '"' :: (c ++ '"' :: cut.1), cut.2)) := by
    rw [splitClosing?_quote hends, splitClosing?_quote hends, hc, Option.map_none, Option.none_or,
      Option.map_map]
    rfl
  cases hfront : splitClosing? ends front with
  | some cut =>
    obtain ⟨list, r⟩ := cut
    obtain ⟨hr, -⟩ := append_of_splitClosing? hfront
    refine .inl ⟨list ++ [')'], list, r, by rw [hr]; simp, fun c hc => ?_⟩
    rw [hcut c hc, hfront]
    rfl
  | none =>
    cases hrest : splitClosing? ends rest with
    | some cut =>
      refine .inr (.inl ⟨cut.1, cut.2, rfl, fun c hc => ?_⟩)
      rw [hcut c hc, hfront, hrest]
      rfl
    | none =>
      refine .inr (.inr ⟨rfl, fun c hc => ?_⟩)
      rw [hcut c hc, hfront, hrest]
      rfl

theorem splitClosing?_of_not_mem {ends : Text → Bool} {t : Text} (h : ')' ∉ t) :
    splitClosing? ends t = none := by
  cases hs : splitClosing? ends t with
  | none => rfl
  | some cut =>
    obtain ⟨rfl, -⟩ := append_of_splitClosing? hs
    simp at h

/-- No parenthesis of the contents `c` ends the parameter list `list` that they are part of. -/
def ClosedOutside (c list : Text) : Prop :=
  splitClosing? startsWithPorts c = none ∧
    (')' ∈ c → (splitClosing? startsWithPorts list).isSome)

/-- The parameter list ends in front of a literal, or behind it. -/
theorem closeParameterList_literal (front rest : Text) :
    (∃ x list r, front = x ++ r ∧
      ∀ c, ClosedOutside c (front ++ '"' :: (c ++ '"' :: rest)) →
        closeParameterList (front ++ '"' :: (c ++ '"' :: rest)) =
          (list, r ++ '"' :: (c ++ '"' :: rest))) ∨
    (∃ behind rest', splitClosing? startsWithPorts front = none ∧
      ∀ c, ClosedOutside c (front ++ '"' :: (c ++ '"' :: rest)) →
        closeParameterList (front ++ '"' :: (c ++ '"' :: rest)) =
          (front ++ '"' :: (c ++ '"' :: behind), rest')) := by
  rcases splitClosing?_literal startsWithPorts_quote front rest with
    ⟨x, list, r, hr, hports⟩ | ⟨behind, rest', hfront, hports⟩ | ⟨hfront, hports⟩
  · refine .inl ⟨x, list, r, hr, fun c hc => ?_⟩
    rw [closeParameterList, hports c hc.1]
    rfl
  · refine .inr ⟨behind, rest', hfront, fun c hc => ?_⟩
    rw [closeParameterList, hports c hc.1]
    rfl
  · -- without ports the first parenthesis ends the list, and the contents hold none
    have hfirst (c : Text) (hc : ClosedOutside c (front ++ '"' :: (c ++ '"' :: rest))) :
        splitClosing? (fun _ => true) c = none := by
      refine splitClosing?_of_not_mem fun hm => ?_
      have := hc.2 hm
      rw [hports c hc.1] at this
      cases this
    rcases @splitClosing?_literal (fun _ => true) (fun _ _ => rfl) front rest with
      ⟨x, list, r, hr, hany⟩ | ⟨behind, rest', -, hany⟩ | ⟨-, hany⟩
    · refine .inl ⟨x, list, r, hr, fun c hc => ?_⟩
      rw [closeParameterList, hports c hc.1, hany c (hfirst c hc)]
      rfl
    · refine .inr ⟨behind, rest', hfront, fun c hc => ?_⟩
      rw [closeParameterList, hports c hc.1, hany c (hfirst c hc)]
      rfl
    · refine .inr ⟨rest, [], hfront, fun c hc => ?_⟩
      rw [closeParameterList, hports c hc.1, hany c (hfirst c hc)]
      rfl

/-- The port list opens in front of a literal, or behind it. -/
theorem portList?_literal (front rest : Text) :
    (∃ x list behind, front = x ++ '(' :: list ∧ startsWithDirection list ∧
      ∀ c, portList? (front ++ '"' :: (c ++ '"' :: rest)) =
        Option.map (fun behind => list ++ '"' :: (c ++ '"' :: behind)) behind) ∨
    (∃ list, ∀ c, afterPortsOpen? c = none →
      portList? (front ++ '"' :: (c ++ '"' :: rest)) = list) := by
  cases hfront : afterPortsOpen? front with
  | some list =>
    obtain ⟨x, rfl, hd⟩ := append_of_afterPortsOpen? hfront
    refine .inl ⟨x, list, (dropLast? ';' rest).bind (dropLast? ')'), rfl, hd, fun c => ?_⟩
    have hlast {e : Char} (he : e ≠ '"') (t : Text) : dropLast? e (list ++ '"' :: (c ++ '"' :: t)) =
        (dropLast? e t).map fun behind => list ++ '"' :: (c ++ '"' :: behind) := by
      rw [dropLast?_quote he, dropLast?_quote he, Option.map_map]
      rfl
    rw [portList?, afterPortsOpen?_quote, hfront]
    simp only [Option.map_some, Option.some_or, Option.bind_eq_bind, Option.bind_some]
    rw [hlast (by decide)]
    cases dropLast? ';' rest with
    | none => rfl
    | some behind => exact hlast (by decide) behind
  | none =>
    refine .inr ⟨portList? rest, fun c hc => ?_⟩
    rw [portList?, afterPortsOpen?_quote, afterPortsOpen?_quote, hfront, hc]
    rfl

/-! ## Headers -/

/-- The front of a list of the header that is open at the end of the front of its body. -/
inductive ListFront (front : Text) : Text → Prop where
  | parameters {list : Text} (hl : afterHash? front = some list)
      (ho : splitClosing? startsWithPorts list = none) : ListFront front list
  | ports {x list : Text} (hl : front = x ++ '(' :: list) (hd : startsWithDirection list) :
      ListFront front list

/-- The searches in the body of a header that do not know of literals find nothing in the contents
`c` of a literal behind `front`. -/
structure Overlooked (front c body : Text) : Prop where
  /-- No port list opens in a literal, up to the end of this one. -/
  ports : ∀ x y, front ++ '"' :: c = x ++ '(' :: y → startsWithDirection y →
    Mode.run .code x = .code
  /-- No parenthesis in the literal ends the parameter list. -/
  closing : ')' ∈ c → ∀ list, afterHash? body = some list →
    (splitClosing? startsWithPorts list).isSome
  /-- The literal stands behind the equals sign of its item, or holds none and no open bracket. -/
  equals : Balanced c ∨ ∀ list, ListFront front list →
    (splitEquals 0 (lastItem list)).2.isSome

section

variable {front c d rest name : Text}

theorem Overlooked.afterPortsOpen? {body : Text} (h : Overlooked front c body)
    (hm : Mode.run .code front = .code) (hc : isContents c) : afterPortsOpen? c = none := by
  cases ho : Signature.afterPortsOpen? c with
  | none => rfl
  | some t =>
    obtain ⟨x, rfl, ht⟩ := append_of_afterPortsOpen? ho
    have hrun := h.ports (front ++ '"' :: x) t (by simp) ht
    rw [Mode.run_append, hm, Mode.run_cons] at hrun
    exact absurd hrun (run_contents hc (e := '(') (v := t ++ ['"']) (by simp))

theorem exists_of_afterHash? {list : Text} (h : afterHash? front = some list) :
    ∃ x, front = x ++ list ∧ '"' ∉ x := by
  have hblank (t : Text) : '"' ∉ t.takeWhile Text.isBlank := fun hm =>
    absurd (List.all_eq_true.1 List.all_takeWhile _ hm) (by decide)
  have htrim (t : Text) : t = t.takeWhile Text.isBlank ++ t.trimStart :=
    List.takeWhile_append_dropWhile.symm
  obtain ⟨t, ht, hl⟩ := Option.bind_eq_some_iff.1 h
  have hhash := Text.append_of_dropLead? ht
  have hparen := Text.append_of_dropLead? hl
  refine ⟨front.takeWhile Text.isBlank ++ '#' :: (t.takeWhile Text.isBlank ++ ['(']), ?_, ?_⟩
  · conv_lhs => rw [htrim front, hhash, htrim t, hparen]
    simp
  · simp [hblank]

/-- A literal that is a default in the parameter list, where no port list opens up to its end. -/
theorem overlooked_of_default {list body : Text} (hl : afterHash? front = some list)
    (hp : Signature.afterPortsOpen? (front ++ '"' :: c) = none)
    (he : (splitEquals 0 (lastItem list)).2.isSome)
    (hb : ∀ list, afterHash? body = some list → (splitClosing? startsWithPorts list).isSome) :
    Overlooked front c body := by
  refine ⟨fun x y hxy hy => ?_, fun _ => hb, .inr fun list' hl' => ?_⟩
  · rw [hxy] at hp
    exact absurd hp (afterPortsOpen?_ne_none hy)
  · cases hl' with
    | parameters hl' =>
      rw [hl] at hl'
      cases hl'
      exact he
    | @ports x _ hl' hd =>
      rw [hl', List.append_assoc, List.cons_append] at hp
      exact absurd hp (afterPortsOpen?_ne_none (by rwa [startsWithDirection_quote]))

theorem run_of_afterHash? {list : Text} (h : afterHash? front = some list) :
    Mode.run .code front = Mode.run .code list := by
  obtain ⟨x, rfl, hx⟩ := exists_of_afterHash? h
  rw [Mode.run_append, Mode.run_code hx]

/-- Headers of the same name that declare the same, but for the literal. -/
structure SameHeader (c d : Text) (h k : Header) : Prop where
  name : h.name = k.name
  parameters : List.Forall₂ (SameParameter c d) h.parameters k.parameters
  ports : List.Forall₂ (SamePort c d) h.ports k.ports

theorem forall₂_sameParameter (ps : List Parameter) : List.Forall₂ (SameParameter c d) ps ps :=
  List.forall₂_same.2 fun _ _ => ⟨rfl, .refl _⟩

theorem forall₂_samePort (ps : List Port) : List.Forall₂ (SamePort c d) ps ps :=
  List.forall₂_same.2 fun _ _ => ⟨rfl, rfl, .refl _⟩

variable (hc : isContents c) (hd : isContents d)
include hc hd

/-- A list that is open in front of a literal has the same items, but for the literal. -/
theorem sameItems_of_listFront {list bodyC bodyD : Text} (hl : ListFront front list)
    (hlm : Mode.run .code list = .code) (hoc : Overlooked front c bodyC)
    (hod : Overlooked front d bodyD) (behind : Text) :
    List.Forall₂ (SameItem c d) (splitTopLevel ',' (list ++ '"' :: (c ++ '"' :: behind)))
      (splitTopLevel ',' (list ++ '"' :: (d ++ '"' :: behind))) := by
  refine sameItems_literal hlm hc hd ?_ behind
  rcases hoc.equals with huc | hequals
  · rcases hod.equals with hud | hequals
    · exact .inr ⟨huc, hud⟩
    · exact .inl (hequals list hl)
  · exact .inl (hequals list hl)

variable (hm : Mode.run .code front = .code)
include hm

theorem ports_literal {x r bodyC bodyD : Text} (hr : front = x ++ r)
    (hoc : Overlooked front c bodyC) (hod : Overlooked front d bodyD) (rest : Text) :
    List.Forall₂ (SamePort c d)
      (((portList? (r ++ '"' :: (c ++ '"' :: rest))).map portsOf).getD [])
      (((portList? (r ++ '"' :: (d ++ '"' :: rest))).map portsOf).getD []) := by
  rcases portList?_literal r rest with ⟨y, list, behind, rfl, hlist, hports⟩ | ⟨list, hports⟩
  · rw [hports c, hports d]
    cases behind with
    | none => exact .nil
    | some behind =>
      have hl : front = (x ++ y) ++ '(' :: list := by rw [hr, List.append_assoc]
      have hopen := hoc.ports (x ++ y) (list ++ '"' :: c) (by rw [hl]; simp)
        (by rwa [startsWithDirection_quote])
      have hlm : Mode.run .code list = .code := by
        rw [hl, Mode.run_append, hopen, Mode.run_cons] at hm
        exact hm
      exact portsOfItems_swapped (sameItems_of_listFront hc hd (.ports hl hlist) hlm hoc hod behind)
        .none
  · rw [hports c (hoc.afterPortsOpen? hm hc), hports d (hod.afterPortsOpen? hm hd)]
    exact forall₂_samePort _

/-- What a header declares, but for a literal in it, does not depend on what the literal holds. -/
theorem sameHeader_literal {rest : Text}
    (hoc : Overlooked front c (front ++ '"' :: (c ++ '"' :: rest)))
    (hod : Overlooked front d (front ++ '"' :: (d ++ '"' :: rest))) :
    SameHeader c d ⟨name, front ++ '"' :: (c ++ '"' :: rest)⟩
      ⟨name, front ++ '"' :: (d ++ '"' :: rest)⟩ := by
  have hsplit (e : Text) := splitParameterList_eq (front ++ '"' :: (e ++ '"' :: rest))
  cases hfront : afterHash? front with
  | none =>
    simp only [afterHash?_quote, hfront, Option.map_none] at hsplit
    refine ⟨rfl, ?_, ?_⟩
    · rw [Header.parameters, Header.parameters, hsplit, hsplit]
      exact .nil
    · rw [Header.ports, Header.ports, hsplit, hsplit]
      exact ports_literal hc hd hm (x := []) rfl hoc hod rest
  | some list =>
    obtain ⟨x, hx, -⟩ := exists_of_afterHash? hfront
    have hlm : Mode.run .code list = .code := (run_of_afterHash? hfront).symm.trans hm
    have hclosed {e : Text} (he : isContents e)
        (ho : Overlooked front e (front ++ '"' :: (e ++ '"' :: rest))) :
        ClosedOutside e (list ++ '"' :: (e ++ '"' :: rest)) :=
      ⟨splitClosing?_of_afterPortsOpen? (ho.afterPortsOpen? hm he), fun hmem =>
        ho.closing hmem _ (by rw [afterHash?_quote, hfront]; rfl)⟩
    simp only [afterHash?_quote, hfront, Option.map_some] at hsplit
    rcases closeParameterList_literal list rest with
      ⟨y, closed, r, hr, hclose⟩ | ⟨behind, rest', ho, hclose⟩
    · have hsplit' {e : Text} (he : ClosedOutside e (list ++ '"' :: (e ++ '"' :: rest))) :
          splitParameterList (front ++ '"' :: (e ++ '"' :: rest)) =
            (some closed, r ++ '"' :: (e ++ '"' :: rest)) := by
        rw [hsplit, hclose e he]
      refine ⟨rfl, ?_, ?_⟩
      · rw [Header.parameters, Header.parameters, hsplit' (hclosed hc hoc),
          hsplit' (hclosed hd hod)]
        exact forall₂_sameParameter _
      · rw [Header.ports, Header.ports, hsplit' (hclosed hc hoc), hsplit' (hclosed hd hod)]
        have hcat : front = (x ++ y) ++ r := by rw [hx, hr, List.append_assoc]
        exact ports_literal hc hd hm hcat hoc hod rest
    · have hsplit' {e : Text} (he : ClosedOutside e (list ++ '"' :: (e ++ '"' :: rest))) :
          splitParameterList (front ++ '"' :: (e ++ '"' :: rest)) =
            (some (list ++ '"' :: (e ++ '"' :: behind)), rest') := by
        rw [hsplit, hclose e he]
      refine ⟨rfl, ?_, ?_⟩
      · rw [Header.parameters, Header.parameters, hsplit' (hclosed hc hoc),
          hsplit' (hclosed hd hod)]
        exact parametersOfItems_swapped
          (sameItems_of_listFront hc hd (.parameters hfront ho) hlm hoc hod behind) (.refl _)
      · rw [Header.ports, Header.ports, hsplit' (hclosed hc hoc), hsplit' (hclosed hd hod)]
        exact forall₂_samePort _

end

/-! ## The search for the header -/

/-- No search that does not know of literals finds something in the contents `c` of a literal
between `x` and `y`: neither the name of a module nor, if the literal is part of the header, what
the header consists of. -/
structure Hidden (x c y : Text) : Prop where
  name : moduleName? x = none → moduleName? c = none
  /-- The scan of the header takes the literal for one. -/
  code : ∀ name front, moduleName? x = some (name, front) → headerOf? name front = none →
    Mode.run .code front = .code
  header : ∀ name front h, moduleName? x = some (name, front) → headerOf? name front = none →
    headerOf? name (front ++ '"' :: (c ++ '"' :: y)) = some h → Overlooked front c h.body

theorem hidden_of_header {x c y name front : Text} (hx : moduleName? x = some (name, front))
    (hm : Mode.run .code front = .code) (ho : ∀ h,
      headerOf? name (front ++ '"' :: (c ++ '"' :: y)) = some h → Overlooked front c h.body) :
    Hidden x c y := by
  refine ⟨fun hn => ?_, fun _ _ hn _ => ?_, fun _ _ h hn _ hh => ?_⟩
  · rw [hx] at hn
    cases hn
  · rw [hx] at hn
    cases hn
    exact hm
  · rw [hx] at hn
    cases hn
    exact ho h hh

theorem SameHeader.refl (c d : Text) (h : Header) : SameHeader c d h h :=
  ⟨rfl, forall₂_sameParameter _, forall₂_samePort _⟩

theorem header?_literal {x c d y : Text} (hc : isContents c) (hd : isContents d)
    (hhc : Hidden x c y) (hhd : Hidden x d y) :
    Option.Rel (SameHeader c d) (header? (x ++ '"' :: (c ++ '"' :: y)))
      (header? (x ++ '"' :: (d ++ '"' :: y))) := by
  have hrefl (h : Option Header) : Option.Rel (SameHeader c d) h h := by
    cases h with
    | none => exact .none
    | some h => exact .some (.refl c d h)
  rw [header?_eq, header?_eq, moduleName?_quote x (c ++ _), moduleName?_quote x (d ++ _)]
  cases hx : moduleName? x with
  | none =>
    have hrest {e : Text} (he : moduleName? e = none) : moduleName? (e ++ '"' :: y) =
        moduleName? y := by
      rw [moduleName?_quote, he]
      rfl
    rw [hrest (hhc.name hx), hrest (hhd.name hx), Option.map_none, Option.map_none]
    exact hrefl _
  | some cut =>
    obtain ⟨name, front⟩ := cut
    rw [Option.map_some, Option.map_some, Option.some_or, Option.some_or, Option.bind_some,
      Option.bind_some]
    dsimp only
    cases hfront : headerOf? name front with
    | some h =>
      rw [headerOf?_append hfront, headerOf?_append hfront]
      exact hrefl _
    | none =>
      have hm := hhc.code name front hx hfront
      have hoc := hhc.header name front
      have hod := hhd.header name front
      rw [headerOf?_literal hfront hm hc] at hoc ⊢
      rw [headerOf?_literal hfront hm hd] at hod ⊢
      cases hy : cutUnquoted? isSemicolon .code y with
      | none => exact .none
      | some cut =>
        rw [hy] at hoc hod
        exact .some (sameHeader_literal hc hd hm (hoc _ hx hfront rfl) (hod _ hx hfront rfl))

end Signature
end Pinout
