import Pinout.Proofs.Signature.Overlooked
import Pinout.Proofs.Signature.Stretched
import Pinout.Proofs.Source.Reading

/-!
# Pinout.Proofs.Signature.Size

A signature is not larger than its source (`ofSource_within`): what it declares is cut from the
source, so there are at most as many items as the source has characters, and no name or type is
longer than the source, but for the default net that is put in front of the type of a port. Each
cut answers for its own part, as it gives no more than it takes.
-/

namespace Pinout

/-! ## Texts -/

namespace Text

theorem length_trimStart_le (t : Text) : (trimStart t).length ≤ t.length :=
  (List.dropWhile_sublist _).length_le

theorem length_trimEnd_le (t : Text) : (trimEnd t).length ≤ t.length :=
  (prefix_trimEnd t).length_le

theorem length_trim_le (t : Text) : (trim t).length ≤ t.length :=
  Nat.le_trans (length_trimEnd_le _) (length_trimStart_le t)

/-- Blanks between words become one space, and those around them are gone. -/
theorem length_collapse_le_trimStart (t : Text) : (collapse t).length ≤ (trimStart t).length := by
  rw [collapse, trimStart]
  fun_induction words t with
  | case1 => exact Nat.zero_le _
  | case2 t c r ht ih =>
    have hcut := congrArg List.length (@List.takeWhile_append_dropWhile _ (!isBlank ·) r)
    rw [List.length_append] at hcut
    rw [ht]
    cases hrest : r.dropWhile (!isBlank ·) with
    | nil =>
      simp only [words_nil, joinWith, List.length_cons]
      omega
    | cons b rest =>
      have hb : isBlank b := by
        have := List.head?_dropWhile_not (!isBlank ·) r
        simpa [hrest] using this
      rw [hrest] at ih hcut
      rw [List.dropWhile_cons_of_pos hb] at ih
      have hrun := (List.dropWhile_sublist isBlank (l := rest)).length_le
      cases hw : words (b :: rest) with
      | nil =>
        simp only [joinWith, List.length_cons]
        omega
      | cons w ws =>
        rw [hw] at ih
        simp only [joinWith, List.length_append, List.length_cons, List.length_nil] at ih hcut ⊢
        omega

theorem length_collapse_le (t : Text) : (collapse t).length ≤ t.length :=
  Nat.le_trans (length_collapse_le_trimStart t) (length_trimStart_le t)

theorem length_unifyNewlines_le (t : Text) : (unifyNewlines t).length ≤ t.length := by
  fun_induction unifyNewlines t with
  | case1 => exact Nat.le_refl _
  | case2 c => exact Nat.le_refl _
  | case3 c d t h ih =>
    simp only [List.length_cons]
    omega
  | case4 c d t h ih =>
    simp only [List.length_cons] at ih ⊢
    omega

end Text

namespace Source

theorem length_bare_le (t : Text) : (bare t).length ≤ t.length := by
  induction t using reading_induction with
  | nil =>
    rw [bare_nil]
  | cons c t p r h ih =>
    rw [bare_cons h, List.length_append]
    cases h with
    | literal t =>
      have hcut := congrArg List.length (append_splitLiteral t)
      simp only [Piece.bare, List.length_append, List.length_cons] at hcut ⊢
      omega
    | _ =>
      simp only [Piece.bare, List.length_append, List.length_cons, List.length_nil] at ih ⊢
      omega

end Source

namespace Signature

/-! ## Cuts -/

theorem length_afterWord?_le {word t rest : Text} (h : Text.afterWord? word t = some rest) :
    rest.length ≤ t.length := by
  obtain ⟨n, -, rfl⟩ := Option.map_eq_some_iff.1 h
  rw [List.length_drop]
  omega

theorem length_splitIdentifier (t : Text) : (Text.splitIdentifier t).1.length +
    (Text.splitIdentifier t).2.length = t.length := by
  generalize hs : Text.splitIdentifier t = cut
  rw [(Text.splitIdentifier_spec hs).1, List.length_append]

theorem length_splitTrailingIdentifier_le (t : Text) : (splitTrailingIdentifier t).1.length +
    (splitTrailingIdentifier t).2.length ≤ t.length := by
  have htrim := Text.length_trimEnd_le t
  have hcut := congrArg List.length
    (@List.takeWhile_append_dropWhile _ Text.isWordChar t.trimEnd.reverse)
  rw [List.length_append, List.length_reverse] at hcut
  rw [splitTrailingIdentifier_eq]
  split
  · simp only [List.length_reverse]
    omega
  · simp only [List.length_nil]
    omega

theorem length_splitEquals_le (depth : Nat) (t : Text) :
    (splitEquals depth t).1.length ≤ t.length := by
  induction t generalizing depth with
  | nil => exact Nat.le_refl _
  | cons c t ih =>
    rw [splitEquals]
    split
    · exact Nat.zero_le _
    · exact Nat.succ_le_succ (ih _)

theorem length_afterKeyword?_le {t keyword rest : Text} (h : afterKeyword? t keyword = some rest) :
    rest.length ≤ t.length := by
  have hlead := Option.eq_some_of_filter_eq_some h
  rw [Text.append_of_dropLead? hlead, List.length_append]
  omega

/-- There is one piece more than there are separators, and each piece is a part of the text. -/
theorem pieces_le (separator : Char) (mode : Mode) (depth : Nat) (t : Text) :
    (pieces separator mode depth t).length ≤ t.length + 1 ∧
      ∀ p ∈ pieces separator mode depth t, p.length ≤ t.length := by
  induction t generalizing mode depth with
  | nil => exact ⟨Nat.le_refl _, List.forall_mem_singleton.2 (Nat.le_refl _)⟩
  | cons c t ih =>
    rw [pieces]
    split
    · obtain ⟨hcount, hlength⟩ := ih .code 0
      refine ⟨Nat.succ_le_succ hcount, List.forall_mem_cons.2 ⟨Nat.zero_le _, fun p hp => ?_⟩⟩
      exact Nat.le_succ_of_le (hlength p hp)
    · obtain ⟨hcount, hlength⟩ := ih (mode.after c) (if mode = .code then depthAfter depth c else depth)
      dsimp only
      split
      · exact ⟨Nat.succ_le_succ (Nat.zero_le _),
          List.forall_mem_singleton.2 (Nat.succ_le_succ (Nat.zero_le _))⟩
      · next piece more he =>
        rw [he] at hcount hlength
        obtain ⟨hpiece, hmore⟩ := List.forall_mem_cons.1 hlength
        refine ⟨Nat.le_succ_of_le hcount, List.forall_mem_cons.2 ⟨Nat.succ_le_succ hpiece, ?_⟩⟩
        exact fun p hp => Nat.le_succ_of_le (hmore p hp)

theorem splitTopLevel_le (separator : Char) (t : Text) :
    (splitTopLevel separator t).length ≤ t.length + 1 ∧
      ∀ item ∈ splitTopLevel separator t, item.length ≤ t.length := by
  obtain ⟨hcount, hlength⟩ := pieces_le separator .code 0 t
  constructor
  · refine Nat.le_trans (List.length_filter_le _ _) ?_
    rw [List.length_map]
    exact hcount
  · intro item hitem
    obtain ⟨piece, hpiece, rfl⟩ := List.mem_map.1 (List.mem_filter.1 hitem).1
    exact Nat.le_trans (Text.length_trim_le piece) (hlength piece hpiece)

/-! ## Items -/

end Signature

/-- The texts that are drawn for a parameter are no longer than `n`. -/
structure Parameter.Within (n : Nat) (p : Parameter) : Prop where
  name : p.name.length ≤ n
  type : p.type.length ≤ n

/-- The default net and a space may stand before the type that is declared. -/
structure Port.Within (n : Nat) (p : Port) : Prop where
  name : p.name.length ≤ n
  type : p.type.length ≤ n + 7

structure Signature.Within (n : Nat) (s : Signature) : Prop where
  parameters : s.parameters.length ≤ n + 1 ∧ ∀ p ∈ s.parameters, p.Within n
  ports : s.ports.length ≤ n + 1 ∧ ∀ p ∈ s.ports, p.Within n

namespace Signature

variable {n : Nat}

theorem namedParameter_within {inherited declared : Text} (hi : inherited.length ≤ n)
    (hd : declared.length ≤ n) (value : Option Text) :
    ∀ p ∈ namedParameter inherited value declared, p.Within n := by
  intro p hp
  have hcut := length_splitTrailingIdentifier_le declared
  rw [namedParameter, Option.mem_def] at hp
  dsimp only at hp
  split at hp
  · cases hp
  · cases hp
    refine ⟨by dsimp only; omega, ?_⟩
    dsimp only
    split
    · exact hi
    · have := Text.length_collapse_le (splitTrailingIdentifier declared).1
      omega

/-- An item keeps the type that is inherited within bounds. -/
theorem parameterOfItem_within {inherited item : Text} (hi : inherited.length ≤ n)
    (ht : item.length ≤ n) : (∀ p ∈ (parameterOfItem inherited item).1, p.Within n) ∧
      (parameterOfItem inherited item).2.length ≤ n := by
  have hdeclared : (splitAssignment item).1.trim.length ≤ n :=
    Nat.le_trans (Text.length_trim_le _) (Nat.le_trans (length_splitEquals_le 0 item) ht)
  rw [parameterOfItem_eq]
  split
  · next rest hrest =>
    obtain ⟨keyword, -, hkeyword⟩ := List.exists_of_findSome?_eq_some hrest
    have hle := length_afterKeyword?_le hkeyword
    have hcut := length_splitTrailingIdentifier_le rest
    have htype := Text.length_collapse_le (splitTrailingIdentifier rest).1
    dsimp only
    exact ⟨namedParameter_within (by omega) (by omega) _, by omega⟩
  · exact ⟨namedParameter_within hi hdeclared _, hi⟩

theorem parametersOfItems_within {inherited : Text} (hi : inherited.length ≤ n) {items : List Text}
    (ht : ∀ item ∈ items, item.length ≤ n) :
    (parametersOfItems inherited items).length ≤ items.length ∧
      ∀ p ∈ parametersOfItems inherited items, p.Within n := by
  induction items generalizing inherited with
  | nil => exact ⟨Nat.le_refl _, List.forall_mem_nil _⟩
  | cons item items ih =>
    obtain ⟨hitem, hitems⟩ := List.forall_mem_cons.1 ht
    obtain ⟨hp, hnext⟩ := parameterOfItem_within hi hitem
    obtain ⟨hcount, hmore⟩ := ih hnext hitems
    have hone : (parameterOfItem inherited item).1.toList.length ≤ 1 := by
      cases (parameterOfItem inherited item).1 <;> simp
    simp only [parametersOfItems, List.length_append, List.length_cons, List.forall_mem_append]
    exact ⟨by omega, fun p h => hp p (Option.mem_toList.1 h), hmore⟩

theorem length_portType_le (t : Text) : (portType t).length ≤ t.length + 7 := by
  have hcollapse := Text.length_collapse_le t
  have hnet : defaultNet.length = 6 := rfl
  rw [portType]
  split
  · omega
  · split
    · omega
    · rw [List.length_append, List.length_cons]
      omega

/-- The declaration that a bare name goes on with has a type within bounds. -/
def CurrentWithin (n : Nat) (current : Option (Direction × Text)) : Prop :=
  ∀ c ∈ current, c.2.length ≤ n + 7

theorem portOfItem_within {current : Option (Direction × Text)} (hc : CurrentWithin n current)
    {item : Text} (ht : item.length ≤ n) :
    (∀ p ∈ (portOfItem current item).1, p.Within n) ∧
      CurrentWithin n (portOfItem current item).2 := by
  have hdeclared : (splitAssignment item).1.trim.length ≤ n :=
    Nat.le_trans (Text.length_trim_le _) (Nat.le_trans (length_splitEquals_le 0 item) ht)
  have hword := length_splitIdentifier (splitAssignment item).1.trim
  have hcut := length_splitTrailingIdentifier_le
    (Text.splitIdentifier (splitAssignment item).1.trim).2
  have htype := length_portType_le
    (splitTrailingIdentifier (Text.splitIdentifier (splitAssignment item).1.trim).2).1
  have hnone : ∀ p ∈ (none : Option Port), p.Within n := by simp
  rw [portOfItem]
  dsimp only
  split
  · refine ⟨fun p hp => ?_, fun c hc => ?_⟩
    · dsimp only at hp
      split at hp
      · cases hp
      · cases hp
        exact ⟨by dsimp only; omega, by dsimp only; omega⟩
    · cases hc
      dsimp only
      omega
  · split
    · split
      · exact ⟨hnone, hc⟩
      · refine ⟨fun p hp => ?_, hc⟩
        cases hp
        exact ⟨hdeclared, hc _ rfl⟩
    · exact ⟨hnone, by simp [CurrentWithin]⟩

theorem portsOfItems_within {current : Option (Direction × Text)} (hc : CurrentWithin n current)
    {items : List Text} (ht : ∀ item ∈ items, item.length ≤ n) :
    (portsOfItems current items).length ≤ items.length ∧
      ∀ p ∈ portsOfItems current items, p.Within n := by
  induction items generalizing current with
  | nil => exact ⟨Nat.le_refl _, List.forall_mem_nil _⟩
  | cons item items ih =>
    obtain ⟨hitem, hitems⟩ := List.forall_mem_cons.1 ht
    obtain ⟨hp, hnext⟩ := portOfItem_within hc hitem
    obtain ⟨hcount, hmore⟩ := ih hnext hitems
    have hone : (portOfItem current item).1.toList.length ≤ 1 := by
      cases (portOfItem current item).1 <;> simp
    simp only [portsOfItems, List.length_append, List.length_cons, List.forall_mem_append]
    exact ⟨by omega, fun p h => hp p (Option.mem_toList.1 h), hmore⟩

theorem parametersOf_within {list : Text} (hl : list.length ≤ n) :
    (parametersOf list).length ≤ n + 1 ∧ ∀ p ∈ parametersOf list, p.Within n := by
  have hnil : ([] : Text).length ≤ n := Nat.zero_le n
  obtain ⟨hcount, hlength⟩ := splitTopLevel_le ',' list
  obtain ⟨hparameters, hwithin⟩ := parametersOfItems_within hnil
    fun item h => Nat.le_trans (hlength item h) hl
  exact ⟨Nat.le_trans hparameters (Nat.le_trans hcount (Nat.succ_le_succ hl)), hwithin⟩

theorem portsOf_within {list : Text} (hl : list.length ≤ n) :
    (portsOf list).length ≤ n + 1 ∧ ∀ p ∈ portsOf list, p.Within n := by
  have hnone : CurrentWithin n none := by simp [CurrentWithin]
  obtain ⟨hcount, hlength⟩ := splitTopLevel_le ',' list
  obtain ⟨hports, hwithin⟩ := portsOfItems_within hnone
    fun item h => Nat.le_trans (hlength item h) hl
  exact ⟨Nat.le_trans hports (Nat.le_trans hcount (Nat.succ_le_succ hl)), hwithin⟩

/-! ## Headers -/

theorem length_splitClosing?_le {ends : Text → Bool} {t before rest : Text}
    (h : splitClosing? ends t = some (before, rest)) :
    before.length ≤ t.length ∧ rest.length ≤ t.length := by
  have hcut := congrArg List.length (append_of_splitClosing? h).1
  rw [List.length_append, List.length_cons] at hcut
  omega

theorem length_closeParameterList_le (t : Text) :
    (closeParameterList t).1.length ≤ t.length ∧ (closeParameterList t).2.length ≤ t.length := by
  rw [closeParameterList]
  cases hp : splitClosing? startsWithPorts t with
  | some cut => exact length_splitClosing?_le hp
  | none =>
    cases hc : splitClosing? (fun _ => true) t with
    | some cut => exact length_splitClosing?_le hc
    | none => exact ⟨Nat.le_refl _, Nat.zero_le _⟩

theorem length_afterHash?_le {body t : Text} (h : afterHash? body = some t) :
    t.length ≤ body.length := by
  obtain ⟨u, hu, ht⟩ := Option.bind_eq_some_iff.1 h
  have hbody := Text.length_trimStart_le body
  have hinner := Text.length_trimStart_le u
  rw [Text.append_of_dropLead? hu, List.length_append] at hbody
  rw [Text.append_of_dropLead? ht, List.length_append] at hinner
  omega

theorem length_splitParameterList_le (body : Text) :
    (∀ list ∈ (splitParameterList body).1, list.length ≤ body.length) ∧
      (splitParameterList body).2.length ≤ body.length := by
  rw [splitParameterList_eq]
  cases h : afterHash? body with
  | none => exact ⟨fun _ hl => (by cases hl), Nat.le_refl _⟩
  | some t =>
    have ht := length_afterHash?_le h
    obtain ⟨hlist, hrest⟩ := length_closeParameterList_le t
    refine ⟨fun list hl => ?_, Nat.le_trans hrest ht⟩
    cases hl
    exact Nat.le_trans hlist ht

theorem length_dropLast?_le {c : Char} {t rest : Text} (h : dropLast? c t = some rest) :
    rest.length ≤ t.length := by
  rw [dropLast?_eq] at h
  obtain ⟨u, hu, rfl⟩ := Option.map_eq_some_iff.1 h
  have htrim := Text.length_trimEnd_le t
  rw [← List.length_reverse, Text.append_of_dropLead? hu, List.length_append] at htrim
  rw [List.length_reverse]
  omega

theorem length_portList?_le {t list : Text} (h : portList? t = some list) :
    list.length ≤ t.length := by
  obtain ⟨u, hu, h⟩ := Option.bind_eq_some_iff.1 h
  obtain ⟨v, hv, hlist⟩ := Option.bind_eq_some_iff.1 h
  obtain ⟨x, rfl, -⟩ := append_of_afterPortsOpen? hu
  have hbody := length_dropLast?_le hv
  have hend := length_dropLast?_le hlist
  rw [List.length_append, List.length_cons]
  omega

/-- The name stands in front of the body, which makes up for the semicolon. -/
theorem length_body_le {t : Text} {h : Header} (hh : header? t = some h) :
    h.body.length ≤ t.length := by
  induction t using header_induction with
  | absent t ht =>
    rw [header?_of_none ht] at hh
    cases hh
  | behind t rest ht ih =>
    have hrest := length_afterWord?_le ht
    rw [header?_of_some ht] at hh
    split at hh
    · exact Nat.le_trans (ih hh) hrest
    · next hname =>
      obtain ⟨⟨body, behind⟩, hcut, rfl⟩ := Option.map_eq_some_iff.1 hh
      have hq : ∀ t : Text, (('"' :: t).head? == some ';') = false := fun _ => rfl
      rw [splitUnquoted?_eq hq] at hcut
      have hbehind := congrArg List.length (append_of_cutUnquoted? hcut)
      have hidentifier := length_splitIdentifier rest.trimStart
      have hstart := Text.length_trimStart_le rest
      have hpositive := List.length_pos_iff.2 hname
      rw [nameOf] at hbehind hpositive
      rw [List.length_append] at hbehind
      dsimp only
      rw [List.length_append, List.length_singleton]
      omega

/-! ## Signatures -/

theorem Header.parameters_within {h : Header} (hn : h.body.length ≤ n) :
    h.parameters.length ≤ n + 1 ∧ ∀ p ∈ h.parameters, p.Within n := by
  obtain ⟨hlist, -⟩ := length_splitParameterList_le h.body
  rw [Header.parameters]
  cases hp : (splitParameterList h.body).1 with
  | none => exact ⟨Nat.zero_le _, List.forall_mem_nil _⟩
  | some list => exact parametersOf_within (Nat.le_trans (hlist list hp) hn)

theorem Header.ports_within {h : Header} (hn : h.body.length ≤ n) :
    h.ports.length ≤ n + 1 ∧ ∀ p ∈ h.ports, p.Within n := by
  obtain ⟨-, hrest⟩ := length_splitParameterList_le h.body
  rw [Header.ports]
  cases hp : portList? (splitParameterList h.body).2 with
  | none => exact ⟨Nat.zero_le _, List.forall_mem_nil _⟩
  | some list =>
    exact portsOf_within (Nat.le_trans (length_portList?_le hp) (Nat.le_trans hrest hn))

/-- Descriptions change neither names nor types. -/
theorem ofViews_within {v : Source.Views} (hn : v.stripped.length ≤ n) : (ofViews v).Within n := by
  cases hh : header? v.stripped with
  | none =>
    rw [ofViews_of_none hh]
    exact ⟨⟨Nat.zero_le _, List.forall_mem_nil _⟩, Nat.zero_le _, List.forall_mem_nil _⟩
  | some h =>
    have hbody := Nat.le_trans (length_body_le hh) hn
    obtain ⟨hpcount, hparameters⟩ := h.parameters_within hbody
    obtain ⟨hcount, hports⟩ := h.ports_within hbody
    rw [ofViews_of_header hh]
    refine ⟨⟨by rwa [List.length_map], fun p hp => ?_⟩, by rwa [List.length_map], fun p hp => ?_⟩
    · obtain ⟨q, hq, rfl⟩ := List.mem_map.1 hp
      exact ⟨(hparameters q hq).name, (hparameters q hq).type⟩
    · obtain ⟨q, hq, rfl⟩ := List.mem_map.1 hp
      exact ⟨(hports q hq).name, (hports q hq).type⟩

/-- The signature of any source is within the length of the source. -/
theorem ofSource_within (source : Text) : (ofSource source).Within source.length := by
  refine ofViews_within ?_
  rw [Source.stripped_views]
  exact Nat.le_trans (Source.length_bare_le _) (Text.length_unifyNewlines_le source)

end Signature
end Pinout
