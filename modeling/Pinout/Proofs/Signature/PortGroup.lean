import Pinout.Proofs.Signature.Commented
import Pinout.Proofs.Signature.Overlooked
import Pinout.Proofs.Signature.Printed

/-!
# Pinout.Proofs.Signature.PortGroup

The parameters in front of each kind of port group. In front of declared ports the parameter list is
read whole. In front of a list of names, of an empty pair of parentheses and of nothing it is read
up to its first closing parenthesis, whichever that one closes (`parameters_of_portGroup`).

No port list opens in such a group, so the search for the end of the parameter list falls back to
the first parenthesis (`closeParameterList_of_sealed`). What is read then holds no closing
parenthesis (`parametersOf_without`), and so it is what is declared only where no type and no value
holds one.
-/

namespace Pinout

/-- The character stands neither in the type nor in the value. -/
structure Parameter.Without (c : Char) (p : Parameter) : Prop where
  type : c ∉ p.type
  value : ∀ v ∈ p.value, c ∉ v

namespace Signature

open Source (Token Spaced Blanks Chunk Seamless Gap)

/-- What stands behind the parameters: the ports as they are declared, their names alone (none in an
empty pair of parentheses), or nothing. -/
inductive PortGroup where
  | ansi (ports : List Port)
  | named (names : List Text)
  | absent

/-- Names with commas between them, and the closing parenthesis. -/
def nameTokens : List Text → List Token
  | [] => [⟨false, [')']⟩]
  | [name] => [⟨false, name⟩, ⟨false, [')']⟩]
  | name :: next :: names => ⟨false, name⟩ :: ⟨false, [',']⟩ :: nameTokens (next :: names)

namespace PortGroup

def isAnsi : PortGroup → Bool
  | ansi _ => true
  | _ => false

def tokens : PortGroup → List Token
  | ansi ports => listTokens (ports.map Port.declaration)
  | named names => ⟨false, ['(']⟩ :: nameTokens names
  | absent => []

/-- Names are not directions, which would declare ports. -/
def Valid : PortGroup → Prop
  | ansi ports => ports ≠ [] ∧ ∀ p ∈ ports, p.declaration.Valid
  | named names => ∀ name ∈ names, Text.isIdentifier name ∧ Direction.ofKeyword? name = none
  | absent => True

end PortGroup

/-- The header up to its ports. -/
def frontTokens (name : Text) (ps : List Parameter) : List Token :=
  ⟨false, moduleKeyword⟩ :: ⟨true, name⟩ :: parameterTokens ps

/-! ## What a text without a character declares -/

theorem subset_of_mem_pieces (separator : Char) (mode : Mode) (depth : Nat) (t : Text) :
    ∀ p ∈ pieces separator mode depth t, p ⊆ t := by
  induction t generalizing mode depth with
  | nil => exact List.forall_mem_singleton.2 (List.Subset.refl _)
  | cons c t ih =>
    rw [pieces]
    split
    · exact List.forall_mem_cons.2
        ⟨List.nil_subset _, fun p hp => List.subset_cons_of_subset c (ih .code 0 p hp)⟩
    · have hrest := ih (mode.after c) (if mode = .code then depthAfter depth c else depth)
      dsimp only
      split
      · exact List.forall_mem_singleton.2 (List.cons_subset_cons c (List.nil_subset t))
      · next piece more he =>
        rw [he] at hrest
        obtain ⟨hpiece, hmore⟩ := List.forall_mem_cons.1 hrest
        exact List.forall_mem_cons.2
          ⟨List.cons_subset_cons c hpiece, fun p hp => List.subset_cons_of_subset c (hmore p hp)⟩

theorem subset_of_mem_splitTopLevel {separator : Char} {t item : Text}
    (h : item ∈ splitTopLevel separator t) : item ⊆ t := by
  obtain ⟨piece, hpiece, rfl⟩ := List.mem_map.1 (List.mem_filter.1 h).1
  exact fun c hc => subset_of_mem_pieces separator .code 0 t piece hpiece (Text.mem_of_mem_trim hc)

theorem splitEquals_subset (depth : Nat) (t : Text) :
    (splitEquals depth t).1 ⊆ t ∧ ∀ v ∈ (splitEquals depth t).2, v ⊆ t := by
  induction t generalizing depth with
  | nil => exact ⟨List.Subset.refl _, fun v hv => by cases hv⟩
  | cons c t ih =>
    rw [splitEquals]
    split
    · exact ⟨List.nil_subset _, fun v hv => by cases hv; exact List.subset_cons_self c t⟩
    · obtain ⟨hbefore, hvalue⟩ := ih (depthAfter depth c)
      exact ⟨List.cons_subset_cons c hbefore,
        fun v hv => List.subset_cons_of_subset c (hvalue v hv)⟩

theorem splitTrailingIdentifier_subset (t : Text) : (splitTrailingIdentifier t).1 ⊆ t := by
  have htrim : t.trimEnd ⊆ t := (Text.prefix_trimEnd t).subset
  rw [splitTrailingIdentifier]
  split
  · exact List.Subset.trans (List.take_subset _ _) htrim
  · exact htrim

theorem afterKeyword?_subset {t keyword rest : Text} (h : afterKeyword? t keyword = some rest) :
    rest ⊆ t := by
  rw [Text.append_of_dropLead? (Option.eq_some_of_filter_eq_some h)]
  exact List.subset_append_right keyword rest

section

variable {c : Char} (hc : c ≠ ' ')
include hc

theorem not_mem_collapse {t u : Text} (h : c ∉ t) (hu : u ⊆ t) : c ∉ u.collapse :=
  fun hm => h (hu (Text.mem_of_mem_collapse hc hm))

theorem not_mem_splitAssignment {item : Text} (h : c ∉ item) :
    c ∉ (splitAssignment item).1 ∧ ∀ v ∈ (splitAssignment item).2, c ∉ v := by
  obtain ⟨hdeclared, hvalue⟩ := splitEquals_subset 0 item
  refine ⟨fun hm => h (hdeclared hm), fun v hv => ?_⟩
  rw [splitAssignment, Option.mem_def] at hv
  obtain ⟨u, hu, he⟩ := Option.bind_eq_some_iff.1 hv
  split at he
  · cases he
  · cases he
    exact not_mem_collapse hc h (hvalue u hu)

theorem namedParameter_without {inherited declared : Text} {value : Option Text}
    (hi : c ∉ inherited) (hd : c ∉ declared) (hv : ∀ v ∈ value, c ∉ v) :
    ∀ p ∈ namedParameter inherited value declared, p.Without c := by
  intro p hp
  rw [namedParameter, Option.mem_def] at hp
  dsimp only at hp
  split at hp
  · cases hp
  · cases hp
    refine ⟨?_, hv⟩
    dsimp only
    split
    · exact hi
    · exact not_mem_collapse hc hd (splitTrailingIdentifier_subset declared)

theorem parameterOfItem_without {inherited item : Text} (hi : c ∉ inherited) (h : c ∉ item) :
    (∀ p ∈ (parameterOfItem inherited item).1, p.Without c) ∧
      c ∉ (parameterOfItem inherited item).2 := by
  obtain ⟨hdeclared, hvalue⟩ := not_mem_splitAssignment hc h
  have htrim : c ∉ (splitAssignment item).1.trim := fun hm => hdeclared (Text.mem_of_mem_trim hm)
  rw [parameterOfItem_eq]
  split
  · next rest hrest =>
    obtain ⟨keyword, -, hkeyword⟩ := List.exists_of_findSome?_eq_some hrest
    have hr : c ∉ rest := fun hm => htrim (afterKeyword?_subset hkeyword hm)
    have htype := not_mem_collapse hc hr (splitTrailingIdentifier_subset rest)
    exact ⟨namedParameter_without hc htype hr hvalue, htype⟩
  · exact ⟨namedParameter_without hc hi htrim hvalue, hi⟩

theorem parametersOfItems_without {inherited : Text} (hi : c ∉ inherited) {items : List Text}
    (h : ∀ item ∈ items, c ∉ item) : ∀ p ∈ parametersOfItems inherited items, p.Without c := by
  induction items generalizing inherited with
  | nil => exact List.forall_mem_nil _
  | cons item items ih =>
    obtain ⟨hitem, hitems⟩ := List.forall_mem_cons.1 h
    obtain ⟨hp, hnext⟩ := parameterOfItem_without hc hi hitem
    simp only [parametersOfItems, List.forall_mem_append]
    exact ⟨fun p hm => hp p (Option.mem_toList.1 hm), ih hnext hitems⟩

/-- No character but the space comes into a type or a value that does not stand in the list. -/
theorem parametersOf_without {list : Text} (h : c ∉ list) : ∀ p ∈ parametersOf list, p.Without c :=
  parametersOfItems_without hc List.not_mem_nil fun _ hm hi => h (subset_of_mem_splitTopLevel hm hi)

end

/-! ## The end of the parameter list -/

theorem afterHash?_append {g g' : Text} (hg : g.allBlank) (hg' : g'.allBlank) (t : Text) :
    afterHash? (g ++ '#' :: (g' ++ '(' :: t)) = some t := by
  have hlead (c : Char) (u : Text) : Text.dropLead? [c] (c :: u) = some u :=
    Text.dropLead?_append [c] u
  rw [afterHash?, Text.trimStart_append hg, Text.trimStart_cons rfl, hlead, Option.bind_some,
    Text.trimStart_append hg', Text.trimStart_cons rfl, hlead]

theorem afterPortsOpen?_of_sealed {t : Text} (h : Sealed t) : afterPortsOpen? t = none := by
  cases ho : afterPortsOpen? t with
  | none => rfl
  | some rest =>
    obtain ⟨x, rfl, hr⟩ := append_of_afterPortsOpen? ho
    have hno := h x rest rfl []
    rw [List.append_nil, hr] at hno
    cases hno

theorem splitClosing?_first {t : Text} (h : ')' ∈ t) :
    (splitClosing? (fun _ => true) t).map Prod.fst = some (t.takeWhile (· ≠ ')')) := by
  induction t with
  | nil => cases h
  | cons c t ih =>
    rw [splitClosing?]
    by_cases hc : c = ')'
    · rw [if_pos ⟨hc, rfl⟩, hc]
      rfl
    · have ht := ih (List.mem_of_ne_of_mem (Ne.symm hc) h)
      rw [if_neg fun hn => hc hn.1, List.takeWhile_cons_of_pos (by simpa using hc), Option.map_map]
      obtain ⟨cut, hcut, he⟩ := Option.map_eq_some_iff.1 ht
      rw [hcut, ← he]
      rfl

/-- Where no port list opens, the parameter list ends at its first closing parenthesis. -/
theorem closeParameterList_of_sealed {t : Text} (hs : Sealed t) (h : ')' ∈ t) :
    (closeParameterList t).1 = t.takeWhile (· ≠ ')') := by
  obtain ⟨cut, hcut, he⟩ := Option.map_eq_some_iff.1 (splitClosing?_first h)
  rw [closeParameterList, splitClosing?_of_afterPortsOpen? (afterPortsOpen?_of_sealed hs),
    Option.none_or, hcut]
  exact he

/-! ## Groups without declarations -/

theorem startsWithDirection_word {w name r : Text} (hw : w.allBlank) (hn : Text.isIdentifier name)
    (hd : Direction.ofKeyword? name = none) (hr : Text.endsWord r) :
    startsWithDirection (w ++ (name ++ r)) = false := by
  rw [startsWithDirection, Text.trimStart_append hw,
    Text.trimStart_eq_self (Text.head?_identifier hn r), Text.splitIdentifier_append hn hr, hd]
  rfl

/-- A comma or a parenthesis ends each name. -/
theorem exists_nameTokens_cons (name : Text) (names : List Text) : ∃ c more,
    nameTokens (name :: names) = ⟨false, name⟩ :: ⟨false, [c]⟩ :: more ∧
      Text.isWordChar c = false := by
  cases names with
  | nil => exact ⟨')', [], rfl, rfl⟩
  | cons next names => exact ⟨',', nameTokens (next :: names), rfl, rfl⟩

theorem startsWithDirection_names {names : List Text} (hv : (PortGroup.named names).Valid)
    {u : Text} (hu : Spaced Blanks (nameTokens names) u) (r : Text) :
    startsWithDirection (u ++ r) = false := by
  cases names with
  | nil =>
    obtain ⟨w, v, rfl, hw, -, -⟩ := Source.exists_of_spaced_cons hu
    rw [startsWithDirection, List.append_assoc, List.append_assoc, Text.trimStart_append hw]
    rfl
  | cons name names =>
    obtain ⟨c, more, he, hc⟩ := exists_nameTokens_cons name names
    rw [he] at hu
    obtain ⟨w, u, rfl, hw, -, hu⟩ := Source.exists_of_spaced_cons hu
    obtain ⟨v, u, rfl, hblank, -, -⟩ := Source.exists_of_spaced_cons hu
    obtain ⟨hn, hd⟩ := hv name List.mem_cons_self
    simp only [List.append_assoc, List.cons_append]
    exact startsWithDirection_word hw hn hd (Text.endsWord_append_cons hblank hc _)

theorem forall_nameTokens {P : Text → Prop} (comma : P [',']) (close : P [')']) {names : List Text}
    (h : ∀ name ∈ names, P name) : ∀ token ∈ nameTokens names, P token.text := by
  fun_induction nameTokens names with
  | case1 => exact List.forall_mem_singleton.2 close
  | case2 name =>
    exact List.forall_mem_cons.2 ⟨h name List.mem_cons_self, List.forall_mem_singleton.2 close⟩
  | case3 name next names ih =>
    obtain ⟨hname, hnames⟩ := List.forall_mem_cons.1 h
    exact List.forall_mem_cons.2 ⟨hname, List.forall_mem_cons.2 ⟨comma, ih hnames⟩⟩

/-- The only parenthesis that opens is the first one, and no direction stands behind it. -/
theorem sealed_names {names : List Text} (hv : (PortGroup.named names).Valid) {u : Text}
    (hu : Spaced Blanks (nameTokens names) u) : Sealed ('(' :: u) := by
  have hclear : ∀ {t : Text}, (∀ c ∈ t, Text.isBlank c ∨ Text.isWordChar c) → '(' ∉ t :=
    fun hc hm => absurd (hc '(' hm) (by decide)
  have hnone : '(' ∉ u := by
    refine Source.spaced_forall (P := fun t => '(' ∉ t) List.not_mem_nil
      (fun a b ha hb hm => (List.mem_append.1 hm).elim ha hb)
      (fun g hg => hclear (clear_of_allBlank hg)) ?_ hu
    exact forall_nameTokens (by decide) (by decide) fun name hm =>
      hclear (clear_of_isIdentifier (hv name hm).1)
  rintro x y he r
  cases x with
  | nil =>
    obtain ⟨-, rfl⟩ := List.cons.inj he
    exact startsWithDirection_names hv hu r
  | cons c x =>
    obtain ⟨-, rfl⟩ := List.cons.inj he
    exact absurd (List.mem_append_right x List.mem_cons_self) hnone

theorem PortGroup.sealed {g : PortGroup} (ha : g.isAnsi = false) (hv : g.Valid) {b w : Text}
    (hb : Spaced Blanks g.tokens b) (hw : w.allBlank) : Sealed (b ++ w ++ [';']) := by
  have hblank : ∀ {w : Text}, w.allBlank → Sealed w := fun hw =>
    sealed_of_not_mem fun hm => absurd (clear_of_allBlank hw '(' hm) (by decide)
  refine sealed_append (sealed_append ?_ (hblank hw)) (sealed_of_not_mem (by decide))
  cases g with
  | ansi ports => cases ha
  | named names =>
    obtain ⟨v, u, rfl, hv', -, hu⟩ := Source.exists_of_spaced_cons hb
    rw [List.append_assoc]
    exact sealed_append (hblank hv') (sealed_names hv hu)
  | absent =>
    rw [Source.spaced_nil hb]
    exact hblank rfl

/-! ## Tokens in a source -/

theorem chunk_frontTokens {name : Text} (hn : Text.isIdentifier name) {ps : List Parameter}
    (hv : ∀ p ∈ ps, p.declaration.Valid) : ∀ token ∈ frontTokens name ps, Chunk token.text := by
  refine List.forall_mem_cons.2 ⟨chunk_identifier (by decide), ?_⟩
  refine List.forall_mem_cons.2 ⟨chunk_identifier hn, ?_⟩
  exact forall_parameterTokens (fun _ h => chunk_identifier h) (fun _ hne h => chunk_fragment hne h)
    (fun _ hne h => chunk_fragment hne h) chunk_mark hv

theorem seamless_frontTokens {name : Text} (hn : Text.isIdentifier name) {ps : List Parameter}
    (hv : ∀ p ∈ ps, p.declaration.Valid) : Seamless (frontTokens name ps) := by
  have hps : Seamless (parameterTokens ps ++ []) := seamless_parameterTokens hv trivial
  rw [List.append_nil] at hps
  exact seamless_named hn hps

namespace PortGroup

variable {g : PortGroup} (hv : g.Valid)
include hv

theorem chunk : ∀ token ∈ g.tokens ++ [⟨false, [';']⟩], Chunk token.text := by
  refine List.forall_mem_append.2 ⟨?_, List.forall_mem_singleton.2 (chunk_mark ';' (by simp))⟩
  cases g with
  | ansi ports =>
    exact forall_declarations (fun _ h => chunk_identifier h) (fun _ hne h => chunk_fragment hne h)
      (fun _ hne h => chunk_fragment hne h) chunk_mark (List.forall_mem_map.2 hv.2)
  | named names =>
    refine List.forall_mem_cons.2 ⟨chunk_mark '(' (by simp), ?_⟩
    exact forall_nameTokens (chunk_mark ',' (by simp)) (chunk_mark ')' (by simp))
      fun name hm => chunk_identifier (hv name hm).1
  | absent => exact List.forall_mem_nil _

theorem clean {b : Text} (hb : Spaced Blanks g.tokens b) : Clean b := by
  have hmark : ∀ c ∈ ['(', ')', ','], Clean [c] := by simp [Clean]
  cases g with
  | ansi ports => exact clean_listTokens (List.forall_mem_map.2 hv.2) hb
  | named names =>
    refine clean_of_spaced (List.forall_mem_cons.2 ⟨hmark '(' (by simp), ?_⟩) hb
    exact forall_nameTokens (hmark ',' (by simp)) (hmark ')' (by simp)) fun name hm =>
      clean_of_clear (clear_of_isIdentifier (hv name hm).1)
  | absent =>
    rw [Source.spaced_nil hb]
    exact clean_of_clear (List.forall_mem_nil _)

theorem seamless : Seamless (g.tokens ++ [⟨false, [';']⟩]) := by
  have hend : Seamless [⟨false, [';']⟩] := by
    unfold Seamless
    decide
  cases g with
  | ansi ports => exact seamless_listTokens (List.forall_mem_map.2 hv.2) (by simpa using hv.1) hend
  | named names =>
    have hrest : Seamless (nameTokens names ++ [⟨false, [';']⟩]) := by
      refine seamless_append ?_ hend
      exact forall_nameTokens (P := fun t => t.getLast? ≠ some '(') (by decide) (by decide)
        fun name hm => not_open_identifier (hv name hm).1
    cases names with
    | nil => exact ⟨by decide, hrest⟩
    | cons name names =>
      obtain ⟨c, more, he, -⟩ := exists_nameTokens_cons name names
      obtain ⟨d, r, hname, hd, -⟩ := Text.exists_cons_of_isIdentifier (hv name List.mem_cons_self).1
      have hstart : name.head? ≠ some '*' := by
        rw [hname]
        rintro ⟨⟩
        cases hd
      rw [PortGroup.tokens]
      rw [he] at hrest ⊢
      exact ⟨fun _ => hstart, hrest⟩
  | absent => exact hend

end PortGroup

/-! ## Parameters -/

theorem not_mem_tokens {c : Char} (hw : Text.isWordChar c = false) (he : c ≠ '=') {d : Declaration}
    (hv : d.Valid) (ht : c ∉ d.type) (hvalue : ∀ v ∈ d.value, c ∉ v) :
    ∀ token ∈ d.tokens, c ∉ token.text := by
  have hword : ∀ t : Text, t.isIdentifier → c ∉ t := by
    intro t h hm
    obtain ⟨_, _, _, _, hall⟩ := Text.exists_cons_of_isIdentifier h
    rw [hall c hm] at hw
    cases hw
  obtain ⟨keyword, type, name, value⟩ := d
  refine List.forall_mem_cons.2 ⟨hword _ hv.keyword, List.forall_mem_append.2 ⟨?_, ?_⟩⟩
  · unfold Declaration.typeTokens
    split
    · exact List.forall_mem_nil _
    · exact List.forall_mem_singleton.2 ht
  · refine List.forall_mem_cons.2 ⟨hword _ hv.name, ?_⟩
    cases value with
    | none => exact List.forall_mem_nil _
    | some v =>
      exact List.forall_mem_cons.2
        ⟨by simpa using he, List.forall_mem_singleton.2 (hvalue v rfl)⟩

/-- Up to its first closing parenthesis a list declares what it declares as a whole exactly where
that parenthesis is the one that closes it. -/
theorem parametersOf_takeWhile_iff {ps : List Parameter} (hv : ∀ p ∈ ps, p.declaration.Valid)
    {list w : Text} (hl : Spaced Blanks (separated (ps.map Parameter.declaration)) list)
    (hw : w.allBlank) :
    parametersOf ((list ++ w).takeWhile (· ≠ ')')) = ps.map Parameter.undescribed ↔
      ∀ p ∈ ps, p.Without ')' := by
  constructor
  · intro h p hp
    have hnone : ')' ∉ (list ++ w).takeWhile (· ≠ ')') := fun hm => by
      simpa using List.all_eq_true.1 List.all_takeWhile _ hm
    have hread := parametersOf_without (by decide) hnone p.undescribed
      (h ▸ List.mem_map_of_mem hp)
    exact ⟨hread.type, hread.value⟩
  · intro h
    have htokens : ∀ token ∈ separated (ps.map Parameter.declaration), ')' ∉ token.text :=
      forall_separated (P := fun t => ')' ∉ t) (by decide) <| List.forall_mem_map.2 fun p hp =>
        not_mem_tokens rfl (by decide) (hv p hp) (h p hp).type (h p hp).value
    have hblank : ∀ {v : Text}, v.allBlank → ')' ∉ v := fun hv hm =>
      absurd (clear_of_allBlank hv ')' hm) (by decide)
    have hlist : ')' ∉ list := Source.spaced_forall (P := fun t => ')' ∉ t) List.not_mem_nil
      (fun a b ha hb hm => (List.mem_append.1 hm).elim ha hb) (fun _ hg => hblank hg) htokens hl
    have hwhole : (list ++ w).takeWhile (· ≠ ')') = list ++ w := by
      refine List.takeWhile_eq_self_iff.2 fun c hc => ?_
      rw [decide_eq_true_iff]
      rintro rfl
      exact (List.mem_append.1 hc).elim hlist (hblank hw)
    rw [hwhole, parametersOf_declarations hv hl hw]

/-! ## Headers -/

/-- The body of the header starts with the parameters, whatever ends it. -/
theorem exists_parameters {name : Text} (hn : Text.isIdentifier name) {ps : List Parameter}
    (hne : ps ≠ []) (hv : ∀ p ∈ ps, p.declaration.Valid) {u : Text}
    (hu : Spaced Blanks (frontTokens name ps) u) :
    ∃ a, Spaced Blanks (parameterTokens ps) a ∧
      ∀ b, Clean b → ∀ r, header? (u ++ (b ++ ';' :: r)) = some ⟨name, a ++ (b ++ [';'])⟩ := by
  obtain ⟨front, a, rfl, hfront, ha⟩ :=
    (Source.spaced_append_iff (a := [⟨false, moduleKeyword⟩, ⟨true, name⟩])).1 hu
  obtain ⟨hclean, hends⟩ := parameterTokens_spaced hv ha
  refine ⟨a, ha, fun b hb r => ?_⟩
  have hword : Text.endsWord (a ++ b ++ [';']) := by
    rw [List.append_assoc]
    exact hends hne _
  have hheader := header?_named hn hfront (clean_append hclean hb) hword r
  simpa using hheader

theorem Header.parameters_ansi {ps : List Parameter} (hv : ∀ p ∈ ps, p.declaration.Valid) {a : Text}
    (ha : Spaced Blanks (parameterTokens ps) a) {ports : List Port}
    (hg : (PortGroup.ansi ports).Valid) {b w : Text}
    (hb : Spaced Blanks (PortGroup.ansi ports).tokens b) (hw : w.allBlank) (name : Text) :
    (Header.mk name (a ++ (b ++ w ++ [';']))).parameters = ps.map Parameter.undescribed := by
  rw [List.append_assoc b]
  obtain ⟨-, hstart, hnone⟩ := exists_portList hg.2 hg.1 hw hb
  obtain ⟨list?, hsplit, hparameters⟩ := exists_parameterList hv ha hstart (hnone _)
  rw [Header.parameters, hsplit, hparameters]

theorem Header.parameters_sealed {g g' list behind : Text} (hg : g.allBlank) (hg' : g'.allBlank)
    (hl : Sealed list) (hb : Sealed behind) (name : Text) :
    (Header.mk name (g ++ '#' :: (g' ++ '(' :: (list ++ ')' :: behind)))).parameters =
      parametersOf (list.takeWhile (· ≠ ')')) := by
  have hs : Sealed (list ++ ')' :: behind) :=
    sealed_append hl (sealed_append (a := [')']) (sealed_of_not_mem (by decide)) hb)
  have hcut := closeParameterList_of_sealed hs (List.mem_append_right list List.mem_cons_self)
  rw [(Text.takeWhile_append_cons (by simp) list behind).1] at hcut
  rw [Header.parameters, splitParameterList_eq, afterHash?_append hg hg']
  exact congrArg parametersOf hcut

theorem parameters_ofViews {v : Source.Views} {h : Header} (hh : header? v.stripped = some h) :
    (ofViews v).parameters.map Parameter.undescribed = h.parameters := by
  rw [ofViews_of_header hh, List.map_map]
  refine (List.map_congr_left fun p hp => ?_).trans (List.map_id _)
  have hdescription := h.description_of_parameters p hp
  obtain ⟨name, type, value, description⟩ := p
  obtain rfl : description = [] := hdescription
  rfl

/-- What a group shows in a source, up to the semicolon. -/
theorem PortGroup.exists_shown {group : PortGroup} (hg : group.Valid) {behind : Text}
    (h : Spaced Gap (group.tokens ++ [⟨false, [';']⟩]) behind) :
    ∃ b w : Text, Spaced Blanks group.tokens b ∧ w.allBlank ∧ ∀ rest, ∃ r,
      Source.bare (behind ++ rest).unifyNewlines = b ++ w ++ ';' :: r := by
  obtain ⟨u, hu, hbare⟩ := Source.exists_bare h (chunk hg) (seamless hg)
  obtain ⟨b, v, rfl, hb, hv⟩ := Source.spaced_append_iff.1 hu
  obtain ⟨w, v, rfl, hw, -, hv⟩ := Source.exists_of_spaced_cons hv
  obtain rfl := Source.spaced_nil hv
  refine ⟨b, w, hb, hw, fun rest => ⟨Source.bare rest.unifyNewlines, ?_⟩⟩
  rw [hbare]
  simp

/-- The parameters of a module are read whole in front of declared ports. In front of names, of an
empty pair of parentheses and of nothing they are read up to the first closing parenthesis of their
list, the same in front of each, and that is all of them exactly where neither a type nor a value
holds a closing parenthesis. -/
theorem parameters_of_portGroup {name : Text} (hn : Text.isIdentifier name) {ps : List Parameter}
    (hne : ps ≠ []) (hv : ∀ p ∈ ps, p.declaration.Valid) {front : Text}
    (hf : Spaced Gap (frontTokens name ps) front) :
    ∃ list, Spaced Blanks (separated (ps.map Parameter.declaration) ++ [⟨false, [')']⟩])
        (list ++ [')']) ∧
      (parametersOf (list.takeWhile (· ≠ ')')) = ps.map Parameter.undescribed ↔
        ∀ p ∈ ps, p.Without ')') ∧
      ∀ group : PortGroup, group.Valid → ∀ behind,
        Spaced Gap (group.tokens ++ [⟨false, [';']⟩]) behind → ∀ rest,
          (ofSource (front ++ (behind ++ rest))).parameters.map Parameter.undescribed =
            if group.isAnsi then ps.map Parameter.undescribed
            else parametersOf (list.takeWhile (· ≠ ')')) := by
  -- the front shows one text in all sources, so the list is known before the group is
  obtain ⟨u, hu, hfront⟩ :=
    Source.exists_bare hf (chunk_frontTokens hn hv) (seamless_frontTokens hn hv)
  obtain ⟨a, ha, hheader⟩ := exists_parameters hn hne hv hu
  rcases exists_hash ha with ⟨h, -⟩ | ⟨g, t, rfl, hg, ht⟩
  · exact absurd h hne
  obtain ⟨g', list, w, rfl, hg', hw, hl⟩ := exists_list ht
  have hclose : Spaced Blanks [⟨false, [')']⟩] (w ++ [')'] ++ []) := .cons hw (by simp) .nil
  rw [List.append_nil] at hclose
  have hlist := Source.spaced_append_iff.2 ⟨list, _, rfl, hl, hclose⟩
  rw [← List.append_assoc] at hlist
  refine ⟨list ++ w, hlist, parametersOf_takeWhile_iff hv hl hw, ?_⟩
  intro group hgroup behind h rest
  obtain ⟨b, v, hb, hv', hshown⟩ := PortGroup.exists_shown hgroup h
  obtain ⟨r, hr⟩ := hshown rest
  have hclean : Clean (b ++ v) :=
    clean_append (PortGroup.clean hgroup hb) (clean_of_clear (clear_of_allBlank hv'))
  have hh := hheader _ hclean r
  rw [← hr, ← hfront, ← Source.stripped_views] at hh
  rw [ofSource, parameters_ofViews hh]
  cases hansi : group.isAnsi with
  | true =>
    cases group with
    | ansi ports =>
      exact Header.parameters_ansi hv ha hgroup hb hv' name
    | named | absent => cases hansi
  | false =>
    -- no port list opens behind the list, so its first parenthesis ends it
    have hcat : g ++ '#' :: (g' ++ '(' :: (list ++ w ++ [')'])) ++ (b ++ v ++ [';']) =
        g ++ '#' :: (g' ++ '(' :: (list ++ w ++ ')' :: (b ++ v ++ [';']))) := by simp
    rw [hcat, Header.parameters_sealed hg hg' (sealed_separated (List.forall_mem_map.2 hv) hl hw)
      (PortGroup.sealed hansi hgroup hb hv') name]
    rfl

/-- The width of an address, and how many there are. -/
def callParameters : List Parameter :=
  [⟨"A".toList, [], some "$clog2(8)".toList, []⟩, ⟨"N".toList, [], some "8".toList, []⟩]

def callFront : Text := "module m #(parameter A = $clog2(8), parameter N = 8)".toList

theorem valid_callParameters : ∀ p ∈ callParameters, p.declaration.Valid := by
  have hcall : Fragment inValue "$clog2(8)".toList :=
    ⟨by decide +kernel, by decide, by decide, by decide,
      not_wordAt_keyword (by rintro ⟨⟩ <;> decide), by decide⟩
  have hnumber : Fragment inValue "8".toList :=
    ⟨by decide +kernel, by decide, by decide, by decide,
      not_wordAt_keyword (by rintro ⟨⟩ <;> decide), by decide⟩
  refine List.forall_mem_cons.2 ⟨⟨by decide, by decide, fragment_nil, ?_⟩,
    List.forall_mem_singleton.2 ⟨by decide, by decide, fragment_nil, ?_⟩⟩
  · intro v hv
    cases hv
    exact ⟨by simp, hcall⟩
  · intro v hv
    cases hv
    exact ⟨by simp, hnumber⟩

theorem parameters_of_portGroup_call :
    Text.isIdentifier "m".toList ∧ callParameters ≠ [] ∧
    (∀ p ∈ callParameters, p.declaration.Valid) ∧
    Spaced Gap (frontTokens "m".toList callParameters) callFront ∧
    ∃ short, short ≠ callParameters ∧
      (ofSource (callFront ++ ("(input a);".toList ++ []))).parameters.map Parameter.undescribed =
        callParameters ∧
      (ofSource (callFront ++ ("();".toList ++ []))).parameters.map Parameter.undescribed = short ∧
      (ofSource (callFront ++ ("(a,b);".toList ++ []))).parameters.map Parameter.undescribed =
        short ∧
      (ofSource (callFront ++ (";".toList ++ []))).parameters.map Parameter.undescribed =
        short := by
  have hspace : Gap [' '] := .blank rfl .nil
  have hfront : Spaced Gap (frontTokens "m".toList callParameters) callFront :=
    .touch .nil rfl <| .apart hspace (by decide) <| .apart hspace (by decide) <| .touch .nil rfl <|
      .touch .nil rfl <| .apart hspace (by decide) <| .apart hspace (by decide) <|
      .apart hspace (by decide) <| .touch .nil rfl <| .apart hspace (by decide) <|
      .apart hspace (by decide) <| .apart hspace (by decide) <| .apart hspace (by decide) <|
      .touch .nil rfl .nil
  have hport : ∀ p ∈ [(⟨"a".toList, .input, [], none, []⟩ : Port)], p.declaration.Valid :=
    List.forall_mem_singleton.2 ⟨by decide, by decide, fragment_nil, fun v hv => by cases hv⟩
  have hnames : (PortGroup.named ["a".toList, "b".toList]).Valid := by
    unfold PortGroup.Valid
    decide
  have hansi : Spaced Gap ((PortGroup.ansi [⟨"a".toList, .input, [], none, []⟩]).tokens ++
      [⟨false, [';']⟩]) "(input a);".toList :=
    .touch .nil rfl <| .touch .nil rfl <| .apart hspace (by decide) <| .touch .nil rfl <|
      .touch .nil rfl .nil
  have hempty : Spaced Gap ((PortGroup.named []).tokens ++ [⟨false, [';']⟩]) "();".toList :=
    .touch .nil rfl <| .touch .nil rfl <| .touch .nil rfl .nil
  have hnamed : Spaced Gap ((PortGroup.named ["a".toList, "b".toList]).tokens ++ [⟨false, [';']⟩])
      "(a,b);".toList :=
    .touch .nil rfl <| .touch .nil rfl <| .touch .nil rfl <| .touch .nil rfl <| .touch .nil rfl <|
      .touch .nil rfl .nil
  have habsent : Spaced Gap (PortGroup.absent.tokens ++ [⟨false, [';']⟩]) ";".toList :=
    .touch .nil rfl .nil
  obtain ⟨list, -, hiff, hgroups⟩ :=
    parameters_of_portGroup rfl (by decide) valid_callParameters hfront
  have hshort : parametersOf (list.takeWhile (· ≠ ')')) ≠ callParameters := fun h =>
    (hiff.1 h _ List.mem_cons_self).value _ rfl (by decide)
  exact ⟨rfl, by decide, valid_callParameters, hfront, _, hshort,
    hgroups (.ansi _) ⟨by decide, hport⟩ _ hansi [],
    hgroups (.named []) (List.forall_mem_nil _) _ hempty [], hgroups (.named _) hnames _ hnamed [],
    hgroups .absent trivial _ habsent []⟩

/-- The first closing parenthesis is the one of the call, so the default is cut and the second
parameter is lost. -/
theorem parameters_of_portGroup_ne :
    (∀ p ∈ callParameters, p.declaration.Valid) ∧
    (ofSource (callFront ++ "(input a);".toList)).parameters = callParameters ∧
    (ofSource (callFront ++ "();".toList)).parameters =
      [⟨"A".toList, [], some "$clog2(8".toList, []⟩] :=
  ⟨valid_callParameters, by decide +kernel, by decide +kernel⟩

end Signature
end Pinout
