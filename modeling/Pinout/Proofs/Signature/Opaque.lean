import Pinout.Proofs.Signature.Described
import Pinout.Proofs.Signature.Overlooked
import Pinout.Proofs.Signature.TopLevel
import Pinout.Proofs.Signature.WellFormed

/-!
# Pinout.Proofs.Signature.Opaque

String literals are opaque to the extraction of a signature. With other contents in one of the
literals of a source, the same module is found, with the same names of parameters and ports, the
same directions and, where the literal is no part of a type, the same types; and a default that is a
literal is the value of its parameter, with its blanks collapsed (`ofSource_literal`).

The searches that do not know of literals make the exceptions, which `Hidden` spells out.
-/

namespace Pinout
namespace Signature

open Source (isContents)

/-! ## The value of a parameter -/

/-- In a list stands a parameter `name` whose default is the literal `"c"` and nothing else. -/
inductive LiteralDefault (name c : Text) : Text → Prop where
  | mk {front declared type v w behind : Text} (outside : EndsOutside front)
      (equals : splitEquals 0 (lastItem front) = (declared, some v)) (hv : v.allBlank)
      (identifier : splitTrailingIdentifier declared = (type, name)) (hn : name ≠ [])
      (hk : name ∉ parameterKeywords) (contents : isContents c) (hw : w.allBlank)
      (hb : behind = [] ∨ behind.head? = some ',') :
      LiteralDefault name c (front ++ '"' :: (c ++ '"' :: (w ++ behind)))

theorem run_of_endsOutside {front : Text} (h : EndsOutside front) :
    Mode.run .code front = .code := by
  obtain ⟨ps, item, depth, hfront, happend⟩ :=
    @exists_pieces_append ',' (by decide) .code 0 front
  by_contra hm
  rw [EndsOutside, happend, hfront, pieces_cons, if_neg fun hc => hm hc.1] at h
  simp [pieces, consFirst, appendFirst] at h

/-- Behind a literal that ends its item stands the next item. -/
theorem exists_pieces_behind {w behind : Text} (hw : w.allBlank)
    (hb : behind = [] ∨ behind.head? = some ',') :
    ∃ more, pieces ',' .code 0 (w ++ behind) = w :: more := by
  have hquote : '"' ∉ w := fun hm => absurd (List.all_eq_true.1 hw _ hm) (by decide)
  have hsettled : Settled (· != ',') 0 w := settled_of_nests hquote
    (nests_of_clear (fun e he => (ne_of_clear he).1) (clear_of_allBlank hw))
  rcases hb with rfl | hb
  · refine ⟨[], ?_⟩
    rw [pieces_settled separates_comma hsettled]
    simp [pieces, appendFirst]
  · obtain ⟨rest, rfl⟩ := List.head?_eq_some_iff.1 hb
    refine ⟨pieces ',' .code 0 rest, ?_⟩
    rw [pieces_settled separates_comma hsettled, pieces_separator]
    simp [appendFirst]

/-- The item with the literal, among the items of the list. -/
theorem exists_items {front c w behind : Text} (ho : EndsOutside front) (hc : isContents c)
    (hw : w.allBlank) (hb : behind = [] ∨ behind.head? = some ',') : ∃ items items',
      splitTopLevel ',' (front ++ '"' :: (c ++ '"' :: (w ++ behind))) =
        items ++ ((lastItem front).trimStart ++ '"' :: (c ++ ['"'])) :: items' := by
  obtain ⟨ps, depth, hdepth, hpieces⟩ := pieces_literal (run_of_endsOutside ho)
  obtain ⟨more, hmore⟩ := exists_pieces_behind hw hb
  have hend : w.trimEnd = [] := Text.trimEnd_append hw []
  have htrim := trim_literal (lastItem front) c w
  rw [hend] at htrim
  refine ⟨(ps.map Text.trim).filter (· ≠ []), (more.map Text.trim).filter (· ≠ []), ?_⟩
  rw [splitTopLevel, hpieces c hc, hdepth ho, hmore, appendFirst, List.map_append,
    List.filter_append, List.map_cons, List.filter_cons_of_pos]
  · simp [htrim]
  · simp [htrim]

/-! ## The name of a parameter -/

theorem splitTrailingIdentifier_spec {t type name : Text}
    (h : splitTrailingIdentifier t = (type, name)) (hn : name ≠ []) :
    t.trimEnd = type ++ name ∧ Text.isIdentifier name ∧ Text.endsWord type.reverse := by
  have hname : (splitTrailingIdentifier t).2 = name := congrArg Prod.snd h
  have hidentifier := isIdentifier_splitTrailingIdentifier (hname ▸ hn)
  rw [hname] at hidentifier
  rw [splitTrailingIdentifier_eq] at h
  split at h
  · obtain ⟨rfl, rfl⟩ := Prod.mk.inj h
    refine ⟨?_, hidentifier, ?_⟩
    · rw [← List.reverse_append, List.takeWhile_append_dropWhile, List.reverse_reverse]
    · have := List.head?_dropWhile_not Text.isWordChar t.trimEnd.reverse
      rw [List.reverse_reverse]
      cases hd : t.trimEnd.reverse.dropWhile Text.isWordChar with
      | nil => rfl
      | cons e r =>
        rw [hd] at this
        simpa [Text.endsWord] using this
  · exact absurd (Prod.mk.inj h).2.symm hn

/-- Behind a keyword in front of it, the identifier at the end of a text is still the same. -/
theorem name_of_afterKeyword? {type name keyword rest : Text} (hn : Text.isIdentifier name)
    (ht : Text.endsWord type.reverse) (hk : Text.isIdentifier keyword) (hne : name ≠ keyword)
    (h : afterKeyword? (type ++ name) keyword = some rest) :
    (splitTrailingIdentifier rest).2 = name := by
  obtain ⟨hrest, hends⟩ := Option.filter_eq_some_iff.1 h
  have happend := Text.append_of_dropLead? hrest
  obtain ⟨_, _, _, _, hword⟩ := Text.exists_cons_of_isIdentifier hn
  obtain ⟨_, _, _, _, hkeyword⟩ := Text.exists_cons_of_isIdentifier hk
  rcases List.append_eq_append_iff.1 happend with ⟨u, rfl, rfl⟩ | ⟨u, rfl, rfl⟩
  · -- the keyword would end in the name, so it would be the name
    refine absurd ?_ hne
    obtain rfl : rest = [] :=
      Text.eq_nil_of_endsWord (fun e he => hword e (List.mem_append_right _ he)) hends
    obtain rfl : type = [] := List.reverse_eq_nil_iff.1 <| Text.eq_nil_of_endsWord
      (fun e he => hkeyword e (List.mem_append_left _ (List.mem_reverse.1 he))) ht
    rw [List.append_nil, List.nil_append]
  · rw [List.reverse_append] at ht
    rw [splitTrailingIdentifier_append hn (Text.endsWord_left ht)]

theorem trim_of_splitTrailingIdentifier {declared type name : Text}
    (h : splitTrailingIdentifier declared = (type, name)) (hn : name ≠ []) :
    declared.trim = type.trimStart ++ name := by
  obtain ⟨hdeclared, hname, -⟩ := splitTrailingIdentifier_spec h hn
  obtain ⟨b, hb, hcat⟩ := Text.exists_trimEnd declared
  obtain ⟨e, r, rfl, he, -⟩ := Text.exists_cons_of_isIdentifier hname
  have hstart : declared.trimStart = type.trimStart ++ e :: r ++ b := by
    rw [hcat, hdeclared, List.append_assoc, List.cons_append, Text.trimStart_append_cons
      (Text.not_blank_of_isWordChar (Text.isWordChar_of_isWordStart he)), List.append_assoc]
    rfl
  rw [Text.trim, hstart, Text.trimEnd_append hb,
    Text.trimEnd_eq_self (Text.getLast?_identifier hname _)]

theorem endsWord_trimStart {t : Text} (h : Text.endsWord t.reverse) :
    Text.endsWord t.trimStart.reverse := by
  obtain ⟨w, hw⟩ := List.dropWhile_suffix Text.isBlank (l := t)
  rw [← hw, List.reverse_append] at h
  exact Text.endsWord_left h

/-- An item whose declaration ends in an identifier declares a parameter of that name. -/
theorem exists_parameter {declared type name item : Text} {value : Option Text}
    (h : splitTrailingIdentifier declared = (type, name)) (hn : name ≠ [])
    (hk : name ∉ parameterKeywords) (hd : (splitAssignment item).1.trim = declared.trim)
    (hv : (splitAssignment item).2 = value) (inherited : Text) :
    ∃ p ∈ (parameterOfItem inherited item).1, p.name = name ∧ p.value = value := by
  obtain ⟨-, hname, htype⟩ := splitTrailingIdentifier_spec h hn
  have hnamed (inherited t : Text) (ht : (splitTrailingIdentifier t).2 = name) :
      ∃ p ∈ namedParameter inherited value t, p.name = name ∧ p.value = value := by
    rw [namedParameter]
    dsimp only
    rw [ht, if_neg hn]
    exact ⟨_, rfl, rfl, rfl⟩
  rw [parameterOfItem_eq, hd, hv, trim_of_splitTrailingIdentifier h hn]
  split
  · next rest hrest =>
    obtain ⟨keyword, hmem, hkeyword⟩ := List.exists_of_findSome?_eq_some hrest
    have hidentifier : ∀ k ∈ parameterKeywords, Text.isIdentifier k := by decide
    have hne : name ≠ keyword := fun he => hk (he ▸ hmem)
    exact hnamed _ _
      (name_of_afterKeyword? hname (endsWord_trimStart htype) (hidentifier _ hmem) hne hkeyword)
  · refine hnamed _ _ ?_
    rw [splitTrailingIdentifier_append hname (endsWord_trimStart htype)]

theorem exists_mem_parametersOfItems (items : List Text) (item : Text) (items' : List Text)
    (inherited : Text) : ∃ inherited', ∀ p ∈ (parameterOfItem inherited' item).1,
      p ∈ parametersOfItems inherited (items ++ item :: items') := by
  induction items generalizing inherited with
  | nil =>
    refine ⟨inherited, fun p hp => ?_⟩
    rw [List.nil_append, parametersOfItems_cons]
    exact List.mem_append_left _ (Option.mem_toList.2 hp)
  | cons i items ih =>
    obtain ⟨inherited', h⟩ := ih (parameterOfItem inherited i).2
    refine ⟨inherited', fun p hp => ?_⟩
    rw [List.cons_append, parametersOfItems_cons]
    exact List.mem_append_right _ (h p hp)

/-- The value of a parameter with a literal as its default is the literal, collapsed. -/
theorem value_literalDefault {name c list : Text} (h : LiteralDefault name c list) :
    ∃ p ∈ parametersOf list,
      p.name = name ∧ p.value = some (Text.collapse ('"' :: (c ++ ['"']))) := by
  cases h with
  | @mk front declared type v w behind outside equals hv identifier hn hk contents hw hb =>
    obtain ⟨items, items', hitems⟩ := exists_items outside contents hw hb
    obtain ⟨blanks, hblanks, hstart⟩ := splitEquals_trimStart (lastItem front)
    rw [equals] at hstart
    obtain ⟨hdeclared, hvalue⟩ := Prod.mk.inj hstart
    have hcut := splitEquals_of_some hvalue.symm ('"' :: (c ++ ['"']))
    have hcollapse : Text.collapse (v ++ '"' :: (c ++ ['"'])) =
        Text.collapse ('"' :: (c ++ ['"'])) := by
      have := Text.collapse_blanks hv (v := []) rfl ('"' :: (c ++ ['"']))
      rwa [List.append_nil] at this
    have hne : Text.collapse ('"' :: (c ++ ['"'])) ≠ [] := fun hnil => by
      rw [Text.collapse_eq_nil_iff, Text.trimStart_cons rfl] at hnil
      cases hnil
    have hvalue : (splitAssignment ((lastItem front).trimStart ++ '"' :: (c ++ ['"']))).2 =
        some (Text.collapse ('"' :: (c ++ ['"']))) := by
      rw [splitAssignment, hcut]
      dsimp only
      rw [Option.bind_some, hcollapse, if_neg hne]
    obtain ⟨inherited, hmem⟩ := exists_mem_parametersOfItems items
      ((lastItem front).trimStart ++ '"' :: (c ++ ['"'])) items' []
    obtain ⟨p, hp, hpn⟩ := exists_parameter identifier hn hk
      (by rw [splitAssignment, hcut, hdeclared, Text.trim_append hblanks]) hvalue inherited
    refine ⟨p, ?_, hpn⟩
    rw [parametersOf, hitems]
    exact hmem p hp

/-! ## The signature -/

/-- Signatures of the same name that list the same, but for the literal. -/
structure SameSignature (c d : Text) (s t : Signature) : Prop where
  name : s.name = t.name
  parameters : List.Forall₂ (SameParameter c d) s.parameters t.parameters
  ports : List.Forall₂ (SamePort c d) s.ports t.ports

theorem sameSignature_ofViews {c d : Text} {v w : Source.Views}
    (h : Option.Rel (SameHeader c d) (header? v.stripped) (header? w.stripped)) :
    SameSignature c d (ofViews v) (ofViews w) := by
  cases hv : header? v.stripped with
  | none =>
    cases hw : header? w.stripped with
    | none =>
      rw [ofViews_of_none hv, ofViews_of_none hw]
      exact ⟨rfl, .nil, .nil⟩
    | some k =>
      rw [hv, hw] at h
      cases h
  | some k =>
    rw [hv] at h
    cases hw : header? w.stripped with
    | none =>
      rw [hw] at h
      cases h
    | some k' =>
      rw [hw] at h
      obtain ⟨hname, hparameters, hports⟩ : SameHeader c d k k' := by
        cases h
        assumption
      rw [ofViews_of_header hv, ofViews_of_header hw]
      -- a description is no part of what is compared
      refine ⟨hname, ?_, ?_⟩
      · exact List.forall₂_map_left_iff.2 (List.forall₂_map_right_iff.2 hparameters)
      · exact List.forall₂_map_left_iff.2 (List.forall₂_map_right_iff.2 hports)

/-- Other contents in a literal leave a signature as it is, but for the types that the literal is
part of; and a literal that is the default of a parameter is its value, with its blanks
collapsed. -/
theorem ofSource_literal :
    (∀ (a c d b : Text) (before after : List Source.Piece), Source.LiteralAt a c b before after →
      Source.Inert d → Source.ClosesNone before d →
      Hidden (before.flatMap Source.Piece.bare) c.unifyNewlines
        (after.flatMap Source.Piece.bare) →
      Hidden (before.flatMap Source.Piece.bare) d (after.flatMap Source.Piece.bare) →
      SameSignature c.unifyNewlines d (ofSource (a ++ '"' :: (c ++ '"' :: b)))
        (ofSource (a ++ '"' :: (d ++ '"' :: b)))) ∧
    ∀ (source : Text) (h : Header) (list name c : Text),
      header? (Source.views source).stripped = some h →
      (splitParameterList h.body).1 = some list → LiteralDefault name c list →
      ∃ p ∈ (ofSource source).parameters,
        p.name = name ∧ p.value = some (Text.collapse ('"' :: (c ++ ['"']))) := by
  constructor
  · intro a c d b before after hl hd hopen hhc hhd
    have hstripped := (hl.replace hd hopen).stripped
    rw [Source.unifyNewlines_of_inert hd] at hstripped
    refine sameSignature_ofViews ?_
    rw [hl.stripped, hstripped]
    exact header?_literal hl.closed (Source.isContents_of_inert hd) hhc hhd
  · intro source h list name c hh hlist hdefault
    obtain ⟨p, hp, hname, hvalue⟩ := value_literalDefault hdefault
    rw [ofSource, ofViews_of_header hh]
    refine ⟨_, List.mem_map_of_mem ?_, hname, hvalue⟩
    rw [Header.parameters, hlist]
    exact hp

/-- A default that holds what ends items, lists and headers, put in place of a plain one. -/
theorem ofSource_literal_default :
    SameSignature "x".toList "a, b) = [; // module n".toList
      (ofSource ("module m #(parameter S = ".toList ++
        '"' :: ("x".toList ++ '"' :: ", T = 2) (input [7:0] q);".toList)))
      (ofSource ("module m #(parameter S = ".toList ++
        '"' :: ("a, b) = [; // module n".toList ++ '"' :: ", T = 2) (input [7:0] q);".toList))) ∧
    ∃ p ∈ (ofSource ("module m #(parameter S = ".toList ++
        '"' :: ("a, b) = [; // module n".toList ++
          '"' :: ", T = 2) (input [7:0] q);".toList))).parameters,
      p.name = "S".toList ∧ p.value = some "\"a, b) = [; // module n\"".toList := by
  have hunify : Text.unifyNewlines "x".toList = "x".toList := by decide +kernel
  have hliteral : Source.LiteralAt "module m #(parameter S = ".toList "x".toList
      ", T = 2) (input [7:0] q);".toList [.code "module m #(parameter S = ".toList]
      [.code ", T = 2) (input [7:0] q);".toList] :=
    ⟨by decide +kernel, by decide +kernel, by decide +kernel⟩
  have hname : moduleName? "module m #(parameter S = ".toList =
      some ("m".toList, " #(parameter S = ".toList) := by decide +kernel
  have hlist : afterHash? " #(parameter S = ".toList = some "parameter S = ".toList := by
    decide +kernel
  have hhidden (c : Text) (hp : afterPortsOpen? (" #(parameter S = ".toList ++ '"' :: c) = none)
      (hb : ((headerOf? "m".toList (" #(parameter S = ".toList ++
        '"' :: (c ++ '"' :: ", T = 2) (input [7:0] q);".toList))).bind (afterHash? ·.body)).all
          fun list => (splitClosing? startsWithPorts list).isSome) :
      Hidden "module m #(parameter S = ".toList c ", T = 2) (input [7:0] q);".toList := by
    refine hidden_of_header hname (by decide +kernel) fun h hh => ?_
    refine overlooked_of_default hlist hp (by decide +kernel) fun list hl => ?_
    rw [hh, Option.bind_some, hl] at hb
    exact hb
  have hc := hhidden "x".toList (by decide +kernel) (by decide +kernel)
  have hd := hhidden "a, b) = [; // module n".toList (by decide +kernel) (by decide +kernel)
  refine ⟨?_, ?_⟩
  · have hsame := ofSource_literal.1 _ _ "a, b) = [; // module n".toList _ _ _ hliteral
      (Text.forall_of_all (by decide +kernel)) (fun hi => absurd hi (by decide +kernel))
      (by rw [hunify]; exact hc) hd
    rwa [hunify] at hsame
  · have hequals : splitEquals 0 (lastItem "parameter S = ".toList) =
        ("parameter S ".toList, some " ".toList) := by decide +kernel
    have hidentifier : splitTrailingIdentifier "parameter S ".toList =
        ("parameter ".toList, "S".toList) := by decide +kernel
    have hdefault : LiteralDefault "S".toList "a, b) = [; // module n".toList
        ("parameter S = ".toList ++
          '"' :: ("a, b) = [; // module n".toList ++ '"' :: ([] ++ ", T = 2".toList))) :=
      .mk (by unfold EndsOutside; decide +kernel) hequals rfl hidentifier (by decide) (by decide)
        (by decide +kernel) rfl (.inr rfl)
    have hvalue := ofSource_literal.2
      ("module m #(parameter S = ".toList ++
        '"' :: ("a, b) = [; // module n".toList ++ '"' :: ", T = 2) (input [7:0] q);".toList))
      ⟨"m".toList, " #(parameter S = \"a, b) = [; // module n\", T = 2) (input [7:0] q);".toList⟩
      _ _ _ (by decide +kernel) (by decide +kernel) hdefault
    have hcollapse : Text.collapse ('"' :: ("a, b) = [; // module n".toList ++ ['"'])) =
        "\"a, b) = [; // module n\"".toList := by decide +kernel
    rwa [hcollapse] at hvalue

/-- Blanks in a default are collapsed, a literal in a type is part of it, and the searches that do
not know of literals find the name of a module, the end of a list, a bracket or the end of an
attribute in one. -/
theorem literal_not_opaque :
    (ofSource "module m #(parameter P = \"a  b\") (input q);".toList).parameters.map
        (fun p => (p.name, p.value)) = [("P".toList, some "\"a b\"".toList)] ∧
    (ofSource "module m (input [W(\"a\"):0] q);".toList).ports.map (·.type) ≠
      (ofSource "module m (input [W(\"b\"):0] q);".toList).ports.map (·.type) ∧
    (ofSource "localparam S = \"module n\"; module m (input q);".toList).name ≠
      (ofSource "localparam S = \"n\"; module m (input q);".toList).name ∧
    (ofSource "module m #(parameter P = \"a) (input b\", Q = 1) (input q);".toList).parameters.map
        (·.name) ≠
      (ofSource "module m #(parameter P = \"a\", Q = 1) (input q);".toList).parameters.map
        (·.name) ∧
    (ofSource "module m #(parameter P = \"a)\", Q = 1);".toList).parameters.map (·.name) ≠
      (ofSource "module m #(parameter P = \"a\", Q = 1);".toList).parameters.map (·.name) ∧
    (ofSource "module m (input [f(\"[\"):0] q = 1);".toList).ports.map (·.name) ≠
      (ofSource "module m (input [f(\"a\"):0] q = 1);".toList).ports.map (·.name) ∧
    (ofSource "module m (input q = (* \"*)\" );".toList).name ≠
      (ofSource "module m (input q = (* \"a\" );".toList).name ∧
    (ofSource "module m #(parameter P = \"a\n, Q = \"b,c\") (input q);".toList).name ≠
      (ofSource "module m #(parameter P = \"a\n, Q = \"b;c\") (input q);".toList).name := by
  decide +kernel

end Signature
end Pinout
