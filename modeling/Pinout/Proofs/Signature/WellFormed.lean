import Pinout.Proofs.Signature.Stretched
import Pinout.Proofs.Snippet.Empty

/-!
# Pinout.Proofs.Signature.WellFormed

What every signature has that is read from a source, however the source is written
(`ofSource_wellFormed`): its names are identifiers, its types and values are collapsed, its
descriptions are on one line, and without a module it is empty. Nothing is asked of the source, so
each cut answers for its own part: `splitIdentifier` and `splitTrailingIdentifier` for names,
`collapse` for types and values, and the lines of the described text for descriptions.
-/

namespace Pinout

/-- A net type or the default net stands at the head of the text. -/
def Text.StartsWithNet (t : Text) : Prop :=
  (∃ net ∈ Signature.netTypes, ∃ r, t = net ++ r ∧ endsWord r) ∨ Signature.defaultNet <+: t

structure PortTypeWellFormed (t : Text) : Prop extends Text.Collapsed t where
  notEmpty : t ≠ []
  net : t.StartsWithNet

/-- A value that is there is not empty. -/
def ValueWellFormed (value : Option Text) : Prop := ∀ v ∈ value, v ≠ [] ∧ v.Collapsed

def DescriptionWellFormed (d : Text) : Prop := d.Trimmed ∧ '\n' ∉ d

structure Parameter.WellFormed (p : Parameter) : Prop where
  name : Text.isIdentifier p.name
  type : p.type.Collapsed
  value : ValueWellFormed p.value
  description : DescriptionWellFormed p.description

structure Port.WellFormed (p : Port) : Prop where
  name : Text.isIdentifier p.name
  type : PortTypeWellFormed p.type
  value : ValueWellFormed p.value
  description : DescriptionWellFormed p.description

structure Signature.WellFormed (s : Signature) : Prop where
  absent : s.name = [] → s.parameters = [] ∧ s.ports = []
  name : s.name ≠ [] → Text.isIdentifier s.name
  parameters : ∀ p ∈ s.parameters, p.WellFormed
  ports : ∀ p ∈ s.ports, p.WellFormed

namespace Signature

/-! ## Names -/

theorem isIdentifier_splitIdentifier {t : Text} (h : (Text.splitIdentifier t).1 ≠ []) :
    Text.isIdentifier (Text.splitIdentifier t).1 := by
  cases t with
  | nil => exact absurd rfl h
  | cons c t =>
    rw [Text.splitIdentifier] at h ⊢
    split
    · next hc =>
      rw [Text.isIdentifier, hc, List.all_takeWhile]
      rfl
    · next hc =>
      rw [if_neg hc] at h
      exact absurd rfl h

/-- Where nothing is left behind the identifier, it is the whole text. -/
theorem isIdentifier_of_splitIdentifier {t : Text} (hw : (Text.splitIdentifier t).1 ≠ [])
    (hr : (Text.splitIdentifier t).2 = []) : Text.isIdentifier t := by
  have hname := isIdentifier_splitIdentifier hw
  generalize hs : Text.splitIdentifier t = cut at hname hr
  obtain ⟨word, rest⟩ := cut
  obtain ⟨rfl, -⟩ := Text.splitIdentifier_spec hs
  obtain rfl : rest = [] := hr
  rwa [List.append_nil]

theorem isIdentifier_of_run {t : Text} (hs : t.head?.any Text.isWordStart)
    (h : ∀ c ∈ t, Text.isWordChar c) : Text.isIdentifier t := by
  cases t with
  | nil => cases hs
  | cons c t =>
    rw [Text.isIdentifier, Bool.and_eq_true, List.all_eq_true]
    exact ⟨hs, fun d hd => h d (List.mem_cons_of_mem _ hd)⟩

theorem isIdentifier_splitTrailingIdentifier {t : Text} (h : (splitTrailingIdentifier t).2 ≠ []) :
    Text.isIdentifier (splitTrailingIdentifier t).2 := by
  rw [splitTrailingIdentifier_eq] at h ⊢
  split
  · next hs =>
    refine isIdentifier_of_run hs fun c hc => ?_
    exact List.all_eq_true.1 List.all_takeWhile c (List.mem_reverse.1 hc)
  · next hs =>
    rw [if_neg hs] at h
    exact absurd rfl h

theorem isIdentifier_of_header? {t : Text} {h : Header} (hh : header? t = some h) :
    Text.isIdentifier h.name := by
  induction t using header_induction with
  | absent t ht =>
    rw [header?_of_none ht] at hh
    cases hh
  | behind t rest ht ih =>
    rw [header?_of_some ht] at hh
    split at hh
    · exact ih hh
    · next hn =>
      obtain ⟨_, _, rfl⟩ := Option.map_eq_some_iff.1 hh
      exact isIdentifier_splitIdentifier hn

/-! ## Types and values -/

theorem valueWellFormed_splitAssignment (item : Text) :
    ValueWellFormed (splitAssignment item).2 := by
  intro v hv
  rw [splitAssignment, Option.mem_def] at hv
  obtain ⟨u, -, hu⟩ := Option.bind_eq_some_iff.1 hv
  split at hu
  · cases hu
  · next hne =>
    cases hu
    exact ⟨hne, Text.collapsed_collapse u⟩

theorem defaultNet_spec : defaultNet ≠ [] ∧ ∀ c ∈ defaultNet, Text.isBlank c = false := by
  have hall : defaultNet.all (!Text.isBlank ·) := rfl
  exact ⟨List.cons_ne_nil _ _, by simpa using hall⟩

/-- The default net and the words behind it are words of one text. -/
theorem collapsed_portType (t : Text) : (portType t).Collapsed := by
  rw [portType]
  split
  · exact Text.collapsed_collapse t
  · split
    · exact @Text.collapsed_joinWith [defaultNet] (List.forall_mem_singleton.2 defaultNet_spec)
    · next hne =>
      have hcat : defaultNet ++ ' ' :: t.collapse =
          Text.joinWith [' '] (defaultNet :: Text.words t) := by
        rw [Text.collapse] at hne ⊢
        cases hw : Text.words t with
        | nil =>
          rw [hw] at hne
          exact absurd rfl hne
        | cons w ws => simp [Text.joinWith]
      rw [hcat]
      refine Text.collapsed_joinWith fun w hw => ?_
      rcases List.mem_cons.1 hw with rfl | hw
      · exact defaultNet_spec
      · exact ⟨Text.ne_nil_of_mem_words hw, Text.not_blank_of_mem_words hw⟩

theorem startsWithNet_portType (t : Text) : (portType t).StartsWithNet := by
  rw [portType]
  split
  · next hc =>
    have hnet := List.contains_iff_mem.1 hc
    generalize hs : Text.splitIdentifier t.collapse = cut at hnet
    obtain ⟨net, r⟩ := cut
    obtain ⟨ht, hr⟩ := Text.splitIdentifier_spec hs
    have hne := Text.ne_nil_of_isIdentifier (isIdentifier_of_mem_netTypes net hnet)
    exact .inl ⟨net, hnet, r, ht, hr hne⟩
  · split
    · exact .inr (List.prefix_refl _)
    · exact .inr (List.prefix_append _ _)

theorem ne_nil_of_startsWithNet {t : Text} (h : t.StartsWithNet) : t ≠ [] := by
  rintro rfl
  rcases h with ⟨net, hnet, r, ht, -⟩ | hp
  · have hne := Text.ne_nil_of_isIdentifier (isIdentifier_of_mem_netTypes net hnet)
    exact hne (List.append_eq_nil_iff.1 ht.symm).1
  · cases List.prefix_nil.1 hp

theorem portType_wellFormed (t : Text) : PortTypeWellFormed (portType t) :=
  ⟨collapsed_portType t, ne_nil_of_startsWithNet (startsWithNet_portType t),
    startsWithNet_portType t⟩

/-! ## Items -/

theorem description_nil : DescriptionWellFormed [] :=
  ⟨⟨rfl, rfl⟩, List.not_mem_nil⟩

theorem namedParameter_wellFormed {inherited declared : Text} {value : Option Text}
    (hi : inherited.Collapsed) (hv : ValueWellFormed value) :
    ∀ p ∈ namedParameter inherited value declared, p.WellFormed := by
  intro p hp
  rw [namedParameter, Option.mem_def] at hp
  dsimp only at hp
  split at hp
  · cases hp
  · next hn =>
    cases hp
    refine ⟨isIdentifier_splitTrailingIdentifier hn, ?_, hv, description_nil⟩
    dsimp only
    split
    · exact hi
    · exact Text.collapsed_collapse _

/-- An item keeps the type that is inherited collapsed, and what it declares is well formed. -/
theorem parameterOfItem_wellFormed {inherited : Text} (hi : inherited.Collapsed) (item : Text) :
    (∀ p ∈ (parameterOfItem inherited item).1, p.WellFormed) ∧
      (parameterOfItem inherited item).2.Collapsed := by
  have hv := valueWellFormed_splitAssignment item
  rw [parameterOfItem_eq]
  split
  · have hc := Text.collapsed_collapse (splitTrailingIdentifier ‹_›).1
    dsimp only
    exact ⟨namedParameter_wellFormed hc hv, hc⟩
  · dsimp only
    exact ⟨namedParameter_wellFormed hi hv, hi⟩

theorem parametersOfItems_wellFormed {inherited : Text} (hi : inherited.Collapsed)
    (items : List Text) : ∀ p ∈ parametersOfItems inherited items, p.WellFormed := by
  induction items generalizing inherited with
  | nil => exact List.forall_mem_nil _
  | cons item items ih =>
    intro p hp
    obtain ⟨hitem, hnext⟩ := parameterOfItem_wellFormed hi item
    simp only [parametersOfItems, List.mem_append] at hp
    rcases hp with hp | hp
    · exact hitem p (Option.mem_toList.1 hp)
    · exact ih hnext p hp

/-- The declaration that a bare name goes on with has the type of a port. -/
def CurrentWellFormed (current : Option (Direction × Text)) : Prop :=
  ∀ c ∈ current, PortTypeWellFormed c.2

theorem currentWellFormed_none : CurrentWellFormed none := by
  simp [CurrentWellFormed]

theorem portOfItem_wellFormed {current : Option (Direction × Text)} (hc : CurrentWellFormed current)
    (item : Text) : (∀ p ∈ (portOfItem current item).1, p.WellFormed) ∧
      CurrentWellFormed (portOfItem current item).2 := by
  have hv := valueWellFormed_splitAssignment item
  have hnone : ∀ p ∈ (none : Option Port), p.WellFormed := by simp
  rw [portOfItem]
  dsimp only
  split
  · refine ⟨fun p hp => ?_, fun c hc => ?_⟩
    · dsimp only at hp
      split at hp
      · cases hp
      · next hn =>
        cases hp
        exact ⟨isIdentifier_splitTrailingIdentifier hn, portType_wellFormed _, hv, description_nil⟩
    · cases hc
      exact portType_wellFormed _
  · split
    · next direction type =>
      split
      · exact ⟨hnone, hc⟩
      · next hbare =>
        obtain ⟨hword, hrest⟩ := not_or.1 hbare
        refine ⟨fun p hp => ?_, hc⟩
        cases hp
        have hname := isIdentifier_of_splitIdentifier hword (not_not.1 hrest)
        exact ⟨hname, hc _ rfl, hv, description_nil⟩
    · exact ⟨hnone, currentWellFormed_none⟩

theorem portsOfItems_wellFormed {current : Option (Direction × Text)}
    (hc : CurrentWellFormed current) (items : List Text) :
    ∀ p ∈ portsOfItems current items, p.WellFormed := by
  induction items generalizing current with
  | nil => exact List.forall_mem_nil _
  | cons item items ih =>
    intro p hp
    obtain ⟨hitem, hnext⟩ := portOfItem_wellFormed hc item
    simp only [portsOfItems, List.mem_append] at hp
    rcases hp with hp | hp
    · exact hitem p (Option.mem_toList.1 hp)
    · exact ih hnext p hp

theorem Header.parameters_wellFormed (h : Header) : ∀ p ∈ h.parameters, p.WellFormed := by
  rw [Header.parameters]
  cases (splitParameterList h.body).1 with
  | none => exact List.forall_mem_nil _
  | some list =>
    have hi : Text.Collapsed [] := @Text.collapsed_joinWith [] (List.forall_mem_nil _)
    exact parametersOfItems_wellFormed hi _

theorem Header.ports_wellFormed (h : Header) : ∀ p ∈ h.ports, p.WellFormed := by
  rw [Header.ports]
  cases portList? (splitParameterList h.body).2 with
  | none => exact List.forall_mem_nil _
  | some list =>
    exact portsOfItems_wellFormed currentWellFormed_none _

/-! ## Descriptions -/

/-- The comment of a line is the end of it, so it is on one line as well. -/
theorem describedBy?_wellFormed {keywords : List Text} {name line d : Text} (hn : '\n' ∉ line)
    (h : describedBy? keywords name line = some d) : DescriptionWellFormed d := by
  simp only [describedBy?, Option.bind_eq_bind, Option.bind_eq_some_iff] at h
  obtain ⟨⟨code, comment⟩, hc, rest, -, hd⟩ := h
  dsimp only at hd
  split at hd
  · cases hd
    refine ⟨Text.trimmed_trim comment, fun hm => hn ?_⟩
    rw [append_of_splitComment? hc]
    simp [Text.mem_of_mem_trim hm]
  · cases hd

theorem getD_description? {d : Text} (h : DescriptionWellFormed d) (described : Text)
    (keywords : List Text) (name : Text) :
    DescriptionWellFormed ((description? described keywords name).getD d) := by
  cases hd : description? described keywords name with
  | none => exact h
  | some e =>
    obtain ⟨line, hl, he⟩ := List.exists_of_findSome?_eq_some hd
    exact describedBy?_wellFormed (Text.not_mem_of_mem_lines hl) he

theorem describeParameter_wellFormed {p : Parameter} (hp : p.WellFormed) (described : Text) :
    (describeParameter described p).WellFormed :=
  ⟨hp.name, hp.type, hp.value, getD_description? hp.description described _ _⟩

theorem describePort_wellFormed {p : Port} (hp : p.WellFormed) (described : Text) :
    (describePort described p).WellFormed :=
  ⟨hp.name, hp.type, hp.value, getD_description? hp.description described _ _⟩

/-! ## Signatures -/

theorem ofViews_wellFormed (v : Source.Views) : (ofViews v).WellFormed := by
  cases hh : header? v.stripped with
  | none =>
    rw [ofViews_of_none hh]
    exact ⟨fun _ => ⟨rfl, rfl⟩, fun h => absurd rfl h, List.forall_mem_nil _, List.forall_mem_nil _⟩
  | some h =>
    have hname := isIdentifier_of_header? hh
    rw [ofViews_of_header hh]
    refine ⟨fun hn => absurd hn (Text.ne_nil_of_isIdentifier hname), fun _ => hname, ?_, ?_⟩
    · intro p hp
      obtain ⟨q, hq, rfl⟩ := List.mem_map.1 hp
      exact describeParameter_wellFormed (h.parameters_wellFormed q hq) _
    · intro p hp
      obtain ⟨q, hq, rfl⟩ := List.mem_map.1 hp
      exact describePort_wellFormed (h.ports_wellFormed q hq) _

open Snippet (instantiation testbench defaultTestbench)

/-- Without a module there are no ports, so all that is generated is empty for the same ones. -/
theorem WellFormed.agree {s : Signature} (h : s.WellFormed) (instancePrefix : Text) :
    (instantiation instancePrefix s = [] ↔ (Diagram.ofSignature s).render = []) ∧
      ∃ t, testbench defaultTestbench s = .ok t ∧
        ((Diagram.ofSignature s).render = [] ↔ t = []) := by
  have hports : s.name = [] ∨ s.ports = [] ↔ s.ports = [] :=
    or_iff_right_of_imp fun hn => (h.absent hn).2
  obtain ⟨t, ht, he⟩ := Snippet.exists_testbench s
  rw [hports] at he
  rw [Snippet.instantiation_eq_nil_iff, Diagram.render_ofSignature_eq_nil_iff, hports]
  exact ⟨Iff.rfl, t, ht, he.symm⟩

/-- The signature of any source is well formed, and its instantiation, its diagram and its default
testbench are empty together. -/
theorem ofSource_wellFormed (source : Text) :
    (ofSource source).WellFormed ∧ ∀ instancePrefix,
      (instantiation instancePrefix (ofSource source) = [] ↔
        (Diagram.ofSignature (ofSource source)).render = []) ∧
      ∃ t, testbench defaultTestbench (ofSource source) = .ok t ∧
        ((Diagram.ofSignature (ofSource source)).render = [] ↔ t = []) := by
  have h := ofViews_wellFormed (Source.views source)
  exact ⟨h, h.agree⟩

end Signature
end Pinout
