import Pinout.Proofs.Signature.Header
import Pinout.Proofs.Signature.Items
import Pinout.Signature.Extract

/-!
# Pinout.Proofs.Signature.Printed

Module headers printed and read back. A signature is printed as the tokens of its header
(`headerTokens`), laid out with any blanks and comments between them and with any text behind the
semicolon. Reading the source gives the same name, parameters and ports in the same order
(`ofSource_printed`).

The source shows the tokens with blanks in the gaps (`chunk_headerTokens`, `seamless_headerTokens`);
`exists_list` cuts a list of declarations out of that text.
-/

namespace Pinout
namespace Signature

open Source (Token Spaced Blanks Chunk Seamless Gap)

/-- Declarations in parentheses. -/
def listTokens (ds : List Declaration) : List Token :=
  ⟨false, ['(']⟩ :: (separated ds ++ [⟨false, [')']⟩])

def parameterTokens (ps : List Parameter) : List Token :=
  if ps = [] then [] else ⟨false, ['#']⟩ :: listTokens (ps.map Parameter.declaration)

def headerTokens (s : Signature) : List Token :=
  ⟨false, moduleKeyword⟩ :: ⟨true, s.name⟩ ::
    (parameterTokens s.parameters ++
      (listTokens (s.ports.map Port.declaration) ++ [⟨false, [';']⟩]))

structure Printable (s : Signature) : Prop where
  name : Text.isIdentifier s.name
  parameters : ∀ p ∈ s.parameters, p.declaration.Valid
  ports : ∀ p ∈ s.ports, p.declaration.Valid
  ne : s.ports ≠ []

/-- What does not depend on the comments. -/
def undescribed (s : Signature) : Signature :=
  ⟨s.name, s.parameters.map Parameter.undescribed, s.ports.map Port.undescribed⟩

/-! ## Tokens in a source -/

theorem chunk_identifier {t : Text} (h : Text.isIdentifier t) : Chunk t := by
  obtain ⟨_, _, _, _, hall⟩ := Text.exists_cons_of_isIdentifier h
  have hs : ∀ s ∈ ['"', '\n', '\r', '/', '('], ¬ Text.isWordChar s :=
    Text.forall_of_all (by decide)
  have hne : ∀ s ∈ ['"', '\n', '\r', '/', '('], ∀ c ∈ t, c ≠ s := by
    rintro s hm c hc rfl
    exact hs c hm (hall c hc)
  refine ⟨Text.ne_nil_of_isIdentifier h, fun c hc => ?_, fun c d hi => ?_, fun hl => ?_⟩
  · exact ⟨hne _ (by decide) c hc, hne _ (by decide) c hc, hne _ (by decide) c hc⟩
  · have hc : c ∈ t := hi.subset List.mem_cons_self
    simp [Source.opens, hne '/' (by decide) c hc, hne '(' (by decide) c hc]
  · exact hne '/' (by decide) '/' (List.mem_of_getLast? hl) rfl

theorem chunk_fragment {outside : Char → Bool} {t : Text} (hne : t ≠ [])
    (h : Fragment outside t) : Chunk t := by
  have hspace := (Text.collapsed_of_collapse h.collapsed).spaces
  refine ⟨hne, fun c hc => ⟨?_, ?_, ?_⟩, fun c d hi => ?_, h.last⟩
  · rintro rfl
    exact h.clean.2 hc
  · rintro rfl
    exact absurd (hspace _ hc rfl) (by decide)
  · rintro rfl
    exact absurd (hspace _ hc rfl) (by decide)
  · rw [Bool.eq_false_iff]
    intro ho
    simp only [Source.opens, Bool.or_eq_true, Bool.and_eq_true, beq_iff_eq] at ho
    rcases ho with ⟨rfl, rfl | rfl⟩ | ⟨rfl, rfl⟩ <;>
    · exact h.openers _ (by decide) hi

theorem chunk_char {c : Char} (h : c ∉ ['"', '\n', '\r', '/']) : Chunk [c] := by
  simp only [List.mem_cons, List.not_mem_nil, or_false, not_or] at h
  refine ⟨by simp, by simp [h], fun a b hi => ?_, by simp [h]⟩
  have := hi.length_le
  simp at this

theorem forall_listTokens {P : Text → Prop} (left : P ['(']) (right : P [')'])
    {ds : List Declaration} (h : ∀ token ∈ separated ds, P token.text) :
    ∀ token ∈ listTokens ds, P token.text := by
  intro token hm
  simp only [listTokens, List.mem_cons, List.mem_append, List.not_mem_nil, or_false] at hm
  rcases hm with rfl | hm | rfl
  · exact left
  · exact h token hm
  · exact right

section

variable {P : Text → Prop} (word : ∀ t : Text, t.isIdentifier → P t)
  (type : ∀ t, t ≠ [] → Fragment inType t → P t) (value : ∀ t, t ≠ [] → Fragment inValue t → P t)
  (mark : ∀ c ∈ ['#', '(', ')', ',', '=', ';'], P [c])
include word type value mark

theorem forall_declarations {ds : List Declaration} (hv : ∀ d ∈ ds, d.Valid) :
    ∀ token ∈ listTokens ds, P token.text :=
  forall_listTokens (mark '(' (by simp)) (mark ')' (by simp)) <|
    forall_separated (mark ',' (by simp)) fun d hd =>
      forall_tokens word type value (mark '=' (by simp)) (hv d hd)

theorem forall_parameterTokens {ps : List Parameter} (hv : ∀ p ∈ ps, p.declaration.Valid) :
    ∀ token ∈ parameterTokens ps, P token.text := by
  intro token hm
  unfold parameterTokens at hm
  split at hm
  · cases hm
  · rcases List.mem_cons.1 hm with rfl | hm
    · exact mark '#' (by simp)
    · exact forall_declarations word type value mark (List.forall_mem_map.2 hv) token hm

/-- What holds of words, types, values and punctuation holds of all tokens. -/
theorem forall_headerTokens {s : Signature} (h : s.Printable) :
    ∀ token ∈ headerTokens s, P token.text := by
  intro token hm
  simp only [headerTokens, List.mem_cons, List.mem_append, List.not_mem_nil, or_false] at hm
  rcases hm with rfl | rfl | hm | hm | rfl
  · exact word _ (by decide)
  · exact word _ h.name
  · exact forall_parameterTokens word type value mark h.parameters token hm
  · exact forall_declarations word type value mark (List.forall_mem_map.2 h.ports) token hm
  · exact mark ';' (by simp)

end

theorem chunk_mark : ∀ c ∈ ['#', '(', ')', ',', '=', ';'], Chunk [c] := by
  have hmark : ∀ c ∈ ['#', '(', ')', ',', '=', ';'], c ∉ ['"', '\n', '\r', '/'] := by simp
  exact fun c hc => chunk_char (hmark c hc)

theorem chunk_headerTokens {s : Signature} (h : s.Printable) :
    ∀ token ∈ headerTokens s, Chunk token.text :=
  forall_headerTokens (fun _ h => chunk_identifier h) (fun _ hne h => chunk_fragment hne h)
    (fun _ hne h => chunk_fragment hne h) chunk_mark h

theorem not_open_identifier {t : Text} (h : Text.isIdentifier t) : t.getLast? ≠ some '(' := by
  intro hl
  obtain ⟨_, _, _, _, hall⟩ := Text.exists_cons_of_isIdentifier h
  exact absurd (hall '(' (List.mem_of_getLast? hl)) (by decide)

/-- Only the parenthesis before a list ends in a parenthesis that opens. -/
theorem not_open_separated {ds : List Declaration} (hv : ∀ d ∈ ds, d.Valid) :
    ∀ token ∈ separated ds, token.text.getLast? ≠ some '(' := by
  have hfragment : ∀ (outside : Char → Bool) (t : Text), Fragment outside t →
      t.getLast? ≠ some '(' := by
    intro outside t h hl
    obtain ⟨a, rfl⟩ := List.getLast?_eq_some_iff.1 hl
    obtain ⟨e, he, _⟩ := exists_closing_of_opening rfl h.nested
    cases he
  exact forall_separated (P := fun t => t.getLast? ≠ some '(') (by decide) fun d hd =>
    forall_tokens (fun _ h => not_open_identifier h) (fun t _ h => hfragment _ t h)
      (fun t _ h => hfragment _ t h) (by decide) (hv d hd)

theorem seamless_append {a b : List Token} (ha : ∀ token ∈ a, token.text.getLast? ≠ some '(')
    (hb : Seamless b) : Seamless (a ++ b) := by
  induction a with
  | nil => exact hb
  | cons token a ih =>
    have hne := ha token List.mem_cons_self
    have hrest := ih fun c hc => ha c (List.mem_cons_of_mem _ hc)
    rw [List.cons_append]
    cases hab : a ++ b with
    | nil => exact hne
    | cons next rest =>
      rw [hab] at hrest
      exact ⟨fun hl => absurd hl hne, hrest⟩

theorem exists_separated_cons (d : Declaration) (ds : List Declaration) :
    ∃ rest, separated (d :: ds) = d.tokens ++ rest := by
  cases ds with
  | nil => exact ⟨[], (List.append_nil _).symm⟩
  | cons e ds => exact ⟨_, rfl⟩

theorem seamless_listTokens {ds : List Declaration} (hv : ∀ d ∈ ds, d.Valid) (hne : ds ≠ [])
    {more : List Token} (hm : Seamless more) : Seamless (listTokens ds ++ more) := by
  have hrest : Seamless (separated ds ++ (⟨false, [')']⟩ :: more)) :=
    seamless_append (not_open_separated hv) (seamless_append (a := [⟨false, [')']⟩]) (by decide) hm)
  obtain ⟨d, ds, rfl⟩ := List.exists_cons_of_ne_nil hne
  obtain ⟨tail, ht⟩ := exists_separated_cons d ds
  obtain ⟨c, r, hk, hc, _⟩ := Text.exists_cons_of_isIdentifier (hv d List.mem_cons_self).keyword
  have hcons : listTokens (d :: ds) ++ more =
      ⟨false, ['(']⟩ :: (separated (d :: ds) ++ ⟨false, [')']⟩ :: more) := by simp [listTokens]
  rw [hcons]
  rw [ht, Declaration.tokens] at hrest ⊢
  refine ⟨fun _ => ?_, hrest⟩
  show d.keyword.head? ≠ some '*'
  rw [hk]
  rintro ⟨⟩
  cases hc

theorem seamless_parameterTokens {ps : List Parameter} (hv : ∀ p ∈ ps, p.declaration.Valid)
    {more : List Token} (hm : Seamless more) : Seamless (parameterTokens ps ++ more) := by
  unfold parameterTokens
  split
  · exact hm
  · next hne =>
    exact seamless_append (a := [⟨false, ['#']⟩]) (by decide)
      (seamless_listTokens (List.forall_mem_map.2 hv) (by simpa using hne) hm)

theorem seamless_named {name : Text} (hn : Text.isIdentifier name) {tokens : List Token}
    (h : Seamless tokens) : Seamless (⟨false, moduleKeyword⟩ :: ⟨true, name⟩ :: tokens) := by
  refine seamless_append (a := [⟨false, moduleKeyword⟩, ⟨true, name⟩]) ?_ h
  simp only [List.forall_mem_cons, List.not_mem_nil, false_imp_iff, implies_true, and_true]
  exact ⟨by decide, not_open_identifier hn⟩

theorem seamless_headerTokens {s : Signature} (h : s.Printable) : Seamless (headerTokens s) := by
  have hports : Seamless (listTokens (s.ports.map Port.declaration) ++ [⟨false, [';']⟩]) :=
    seamless_listTokens (List.forall_mem_map.2 h.ports) (by simpa using h.ne)
      (by unfold Seamless; decide)
  exact seamless_named h.name (seamless_parameterTokens h.parameters hports)

/-! ## The header without comments -/

/-- The text between the parentheses is the list, and blanks behind it. -/
theorem exists_list {ds : List Declaration} {t : Text} (h : Spaced Blanks (listTokens ds) t) :
    ∃ g list w : Text, t = g ++ '(' :: (list ++ w ++ [')']) ∧ g.allBlank ∧ w.allBlank ∧
      Spaced Blanks (separated ds) list := by
  obtain ⟨g, u, rfl, hg, _, hu⟩ := Source.exists_of_spaced_cons h
  obtain ⟨list, v, rfl, hl, hv⟩ := Source.spaced_append_iff.1 hu
  obtain ⟨w, v, rfl, hw, _, hv⟩ := Source.exists_of_spaced_cons hv
  rw [Source.spaced_nil hv]
  exact ⟨g, list, w, by simp, hg, hw, hl⟩

theorem sealed_separated {ds : List Declaration} (hv : ∀ d ∈ ds, d.Valid) {t w : Text}
    (h : Spaced Blanks (separated ds) t) (hw : w.allBlank) : Sealed (t ++ w) := by
  have hclear : ∀ {t : Text}, (∀ c ∈ t, Text.isBlank c ∨ Text.isWordChar c) → Sealed t :=
    fun hc => sealed_of_not_mem fun hm => absurd (hc '(' hm) (by decide)
  have htokens := forall_separated (P := Sealed) (sealed_of_not_mem (by decide)) fun d hd =>
    forall_tokens (P := Sealed) (fun _ h => hclear (clear_of_isIdentifier h))
      (fun _ _ h => sealed_of_fragment h) (fun _ _ h => sealed_of_fragment h)
      (sealed_of_not_mem (by decide)) (hv d hd)
  refine sealed_append (Source.spaced_forall (sealed_of_not_mem List.not_mem_nil)
    (fun _ _ => sealed_append) (fun g hg => hclear (clear_of_allBlank hg)) htokens h)
    (hclear (clear_of_allBlank hw))

theorem startsWithDirection_ports {ps : List Port} (hne : ps ≠ []) {t : Text}
    (h : Spaced Blanks (separated (ps.map Port.declaration)) t) (r : Text) :
    startsWithDirection (t ++ r) := by
  obtain ⟨p, ps, rfl⟩ := List.exists_cons_of_ne_nil hne
  obtain ⟨tail, ht⟩ := exists_separated_cons p.declaration (ps.map Port.declaration)
  rw [List.map_cons, ht] at h
  obtain ⟨u, v, rfl, hu, _⟩ := Source.spaced_append_iff.1 h
  obtain ⟨w, item, rfl, hw, hi⟩ := exists_item hu
  cases hi with
  | @mk middle ending hm he =>
    have hs := startsWithDirection_append hw p.direction
      (endsWord_middle hm (p.declaration.name ++ ending ++ v ++ r)).1
    have hcat : w ++ (p.declaration.keyword ++ (middle ++ p.declaration.name) ++ ending) ++ v ++ r =
        w ++ (p.direction.keyword ++ (middle ++ (p.declaration.name ++ ending ++ v ++ r))) := by
      simp [Port.declaration]
    rw [hcat]
    exact hs

theorem clean_listTokens {ds : List Declaration} (hv : ∀ d ∈ ds, d.Valid) {t : Text}
    (h : Spaced Blanks (listTokens ds) t) : Clean t := by
  have hc : ∀ c, c ∉ [';', '"'] → Clean [c] := by
    intro c h
    simp only [List.mem_cons, List.not_mem_nil, or_false, not_or] at h
    simp [Clean, Ne.symm h.1, Ne.symm h.2]
  have hs : ∀ token ∈ separated ds, Clean token.text :=
    forall_separated (hc ',' (by decide)) fun d hd => clean_tokens (hv d hd)
  exact clean_of_spaced (forall_listTokens (hc '(' (by decide)) (hc ')' (by decide)) hs) h

theorem exists_hash {ps : List Parameter} {t : Text} (h : Spaced Blanks (parameterTokens ps) t) :
    (ps = [] ∧ t = []) ∨ ∃ g u : Text, t = g ++ '#' :: u ∧ g.allBlank ∧
      Spaced Blanks (listTokens (ps.map Parameter.declaration)) u := by
  unfold parameterTokens at h
  split at h
  · next hps => exact .inl ⟨hps, Source.spaced_nil h⟩
  · obtain ⟨g, u, rfl, hg, _, hu⟩ := Source.exists_of_spaced_cons h
    exact .inr ⟨g, u, by simp, hg, hu⟩

/-- Behind the name of a module with parameters stands a blank or a number sign. -/
theorem parameterTokens_spaced {ps : List Parameter} (hv : ∀ p ∈ ps, p.declaration.Valid) {a : Text}
    (ha : Spaced Blanks (parameterTokens ps) a) :
    Clean a ∧ (ps ≠ [] → ∀ t, Text.endsWord (a ++ t)) := by
  rcases exists_hash ha with ⟨rfl, rfl⟩ | ⟨g, u, rfl, hg, hu⟩
  · exact ⟨clean_of_clear (List.forall_mem_nil _), fun h => absurd rfl h⟩
  · have hhash : Clean ('#' :: u) :=
      clean_append (a := ['#']) (by unfold Clean; decide)
        (clean_listTokens (List.forall_mem_map.2 hv) hu)
    refine ⟨clean_append (clean_of_clear (clear_of_allBlank hg)) hhash, fun _ t => ?_⟩
    rw [List.append_assoc]
    exact Text.endsWord_append_cons hg rfl _

/-- The header is what stands behind the keyword and the name, up to the semicolon. -/
theorem header?_named {name u b : Text} (hn : Text.isIdentifier name)
    (hu : Spaced Blanks [⟨false, moduleKeyword⟩, ⟨true, name⟩] u) (hc : Clean b)
    (he : Text.endsWord (b ++ [';'])) (r : Text) :
    header? (u ++ (b ++ ';' :: r)) = some ⟨name, b ++ [';']⟩ := by
  obtain ⟨w, u, rfl, hw, _, hu⟩ := Source.exists_of_spaced_cons hu
  obtain ⟨v, u, rfl, hv, hne, hu⟩ := Source.exists_of_spaced_cons hu
  obtain rfl := Source.spaced_nil hu
  have hheader := header?_append hw hv (hne rfl) hn he hc r
  simp only [List.append_assoc, List.nil_append] at hheader ⊢
  exact hheader

theorem header?_spaced {s : Signature} (h : s.Printable) {u : Text}
    (hu : Spaced Blanks (headerTokens s) u) (r : Text) :
    ∃ a b g : Text, header? (u ++ r) = some ⟨s.name, a ++ (b ++ (g ++ [';']))⟩ ∧ g.allBlank ∧
      Spaced Blanks (parameterTokens s.parameters) a ∧
      Spaced Blanks (listTokens (s.ports.map Port.declaration)) b := by
  obtain ⟨name, u₁, rfl, hname, h₁⟩ :=
    (Source.spaced_append_iff (a := [⟨false, moduleKeyword⟩, ⟨true, s.name⟩])).1 hu
  obtain ⟨a, u₂, rfl, ha, h₂⟩ := Source.spaced_append_iff.1 h₁
  obtain ⟨b, u₃, rfl, hb, h₃⟩ := Source.spaced_append_iff.1 h₂
  obtain ⟨g, u₄, rfl, hg, _, h₄⟩ := Source.exists_of_spaced_cons h₃
  obtain rfl := Source.spaced_nil h₄
  refine ⟨a, b, g, ?_, hg, ha, hb⟩
  obtain ⟨hclean, hends⟩ := parameterTokens_spaced h.parameters ha
  have hbody : Clean (a ++ (b ++ g)) := clean_append hclean <|
    clean_append (clean_listTokens (List.forall_mem_map.2 h.ports) hb)
      (clean_of_clear (clear_of_allBlank hg))
  -- without parameters a blank or a parenthesis stands behind the name
  have hword : Text.endsWord (a ++ (b ++ g) ++ [';']) := by
    by_cases hps : s.parameters = []
    · rw [hps] at ha
      obtain rfl := Source.spaced_nil ha
      obtain ⟨g', list, v, rfl, hg', _⟩ := exists_list hb
      simp only [List.nil_append, List.append_assoc, List.cons_append]
      exact Text.endsWord_append_cons hg' rfl _
    · rw [List.append_assoc]
      exact hends hps _
  have hheader := header?_named h.name hname hbody hword r
  simp only [List.append_assoc] at hheader ⊢
  simpa using hheader

/-- The port list is read, whatever stands before its parenthesis. -/
theorem exists_portList {ps : List Port} (hv : ∀ p ∈ ps, p.declaration.Valid) (hne : ps ≠ [])
    {b g : Text} (hg : g.allBlank) (hb : Spaced Blanks (listTokens (ps.map Port.declaration)) b) :
    (∃ list, portList? (b ++ (g ++ [';'])) = some list ∧
      portsOf list = ps.map fun p => p.shown.undescribed) ∧
      startsWithPorts (b ++ (g ++ [';'])) ∧ ∀ t, splitParameterList (b ++ t) = (none, b ++ t) := by
  obtain ⟨g', list, w, rfl, hg', hw, hl⟩ := exists_list hb
  have hstart : ∀ t, startsWithDirection (list ++ w ++ ')' :: t) := fun t => by
    rw [List.append_assoc]
    exact startsWithDirection_ports hne hl _
  have hcat : ∀ t, g' ++ '(' :: (list ++ w ++ [')']) ++ t = g' ++ '(' :: (list ++ w ++ ')' :: t) :=
    fun t => by simp
  refine ⟨⟨list ++ w, ?_, portsOf_declarations hv hl hw⟩, ?_, fun t => ?_⟩
  · rw [hcat, portList?_append hg' hg hstart]
  · have htrim : Text.trimStart (g' ++ '(' :: (list ++ w ++ ')' :: (g ++ [';']))) =
        '(' :: (list ++ w ++ ')' :: (g ++ [';'])) := by
      rw [Text.trimStart_append hg']
      exact Text.trimStart_cons rfl _
    rw [hcat, startsWithPorts, htrim]
    exact hstart _
  · rw [hcat]
    exact splitParameterList_paren hg' _

/-- The parameter list is read, and leaves the port list. -/
theorem exists_parameterList {ps : List Parameter} (hv : ∀ p ∈ ps, p.declaration.Valid)
    {a rest : Text} (ha : Spaced Blanks (parameterTokens ps) a) (hr : startsWithPorts rest)
    (hnone : splitParameterList rest = (none, rest)) :
    ∃ list?, splitParameterList (a ++ rest) = (list?, rest) ∧
      (list?.map parametersOf).getD [] = ps.map Parameter.undescribed := by
  rcases exists_hash ha with ⟨rfl, rfl⟩ | ⟨g, u, rfl, hg, hu⟩
  · exact ⟨none, hnone, rfl⟩
  · obtain ⟨g', list, w, rfl, hg', hw, hl⟩ := exists_list hu
    have hs := sealed_separated (List.forall_mem_map.2 hv) hl hw
    have hcat : g ++ '#' :: (g' ++ '(' :: (list ++ w ++ [')'])) ++ rest =
        g ++ '#' :: (g' ++ '(' :: (list ++ w ++ ')' :: rest)) := by simp
    refine ⟨some (list ++ w), ?_, parametersOf_declarations hv hl hw⟩
    rw [hcat, splitParameterList_hash hg hg' hs hr]

/-! ## Signatures -/

theorem undescribed_ofViews {v : Source.Views} {header : Header} (hh : header? v.stripped = some header)
    {list? : Option Text} {rest list : Text} (hp : splitParameterList header.body = (list?, rest))
    (hl : portList? rest = some list) :
    (ofViews v).undescribed = ⟨header.name,
      ((list?.map parametersOf).getD []).map Parameter.undescribed,
      (portsOf list).map Port.undescribed⟩ := by
  simp only [ofViews, hh, hp, hl, undescribed, List.map_map]
  rfl

/-- The signature of a printed header, with any text behind it, whatever blanks and comments stand
between the tokens. -/
theorem ofSource_printed {s : Signature} (h : s.Printable) {t : Text}
    (ht : Spaced Gap (headerTokens s) t) (rest : Text) :
    (ofSource (t ++ rest)).undescribed =
      ⟨s.name, s.parameters.map Parameter.undescribed, s.ports.map fun p => p.shown.undescribed⟩ := by
  obtain ⟨u, r, hu, hstripped⟩ :=
    Source.stripped_spaced ht (chunk_headerTokens h) (seamless_headerTokens h) rest
  obtain ⟨a, b, g, hheader, hg, ha, hb⟩ := header?_spaced h hu r
  obtain ⟨⟨list, hlist, hports⟩, hstart, hnone⟩ := exists_portList h.ports h.ne hg hb
  obtain ⟨list?, hsplit, hparameters⟩ := exists_parameterList h.parameters ha hstart (hnone _)
  rw [← hstripped] at hheader
  rw [ofSource, undescribed_ofViews hheader hsplit hlist, hparameters, hports, List.map_map,
    List.map_map]
  rfl

/-- Parentheses in a value and in comments, and a port of a kind of net. -/
theorem ofSource_printed_comments :
    Printable ⟨"m".toList, [⟨"W".toList, [], some "f(1, (2))".toList, []⟩],
      [⟨"a".toList, .input, "reg [1:0]".toList, none, []⟩, ⟨"q".toList, .output, [], none, []⟩]⟩ ∧
    Spaced Gap (headerTokens ⟨"m".toList, [⟨"W".toList, [], some "f(1, (2))".toList, []⟩],
        [⟨"a".toList, .input, "reg [1:0]".toList, none, []⟩, ⟨"q".toList, .output, [], none, []⟩]⟩)
      "module/*(input*/m #( // )\r\nparameter W=f(1, (2)))(input reg [1:0] a,output q);".toList ∧
    (ofSource ("module/*(input*/m #( // )\r\nparameter W=f(1, (2)))(input reg [1:0] a,output q);".toList
        ++ " endmodule".toList)).undescribed =
      ⟨"m".toList, [⟨"W".toList, [], some "f(1, (2))".toList, []⟩],
        [⟨"a".toList, .input, "reg [1:0]".toList, none, []⟩,
          ⟨"q".toList, .output, "(wire)".toList, none, []⟩]⟩ := by
  have hwords : ∀ t : Text, (∀ d : Direction, ¬ d.keyword <:+: t) →
      ∀ (d : Direction) n, ¬ Text.WordAt d.keyword t n :=
    fun t h d n hw => h d (hw.1.isInfix.trans (List.drop_suffix n t).isInfix)
  have hempty : Fragment inType [] :=
    ⟨by decide +kernel, rfl, by decide, by decide, hwords [] (by rintro ⟨⟩ <;> decide), by decide⟩
  have hnet : Fragment inType "reg [1:0]".toList :=
    ⟨by decide +kernel, by decide, by decide, by decide, hwords _ (by rintro ⟨⟩ <;> decide),
      by decide⟩
  have hcall : Fragment inValue "f(1, (2))".toList :=
    ⟨by decide +kernel, by decide, by decide, by decide, hwords _ (by rintro ⟨⟩ <;> decide),
      by decide⟩
  have hprintable : Printable ⟨"m".toList, [⟨"W".toList, [], some "f(1, (2))".toList, []⟩],
      [⟨"a".toList, .input, "reg [1:0]".toList, none, []⟩,
        ⟨"q".toList, .output, [], none, []⟩]⟩ := by
    refine ⟨by decide, ?_, ?_, by simp⟩
    · simp only [List.forall_mem_singleton]
      exact ⟨by decide, by decide, hempty, fun v hv => by cases hv; exact ⟨by simp, hcall⟩⟩
    · simp only [List.forall_mem_cons, List.not_mem_nil, false_imp_iff, implies_true, and_true]
      exact ⟨⟨by decide, by decide, hnet, fun v hv => by cases hv⟩,
        ⟨by decide, by decide, hempty, fun v hv => by cases hv⟩⟩
  have touch {token : Token} {tokens : List Token} {t : Text} (ha : token.apart = false)
      (ht : Spaced Gap tokens t) : Spaced Gap (token :: tokens) (token.text ++ t) :=
    .cons .nil (fun h => absurd h (by simp [ha])) ht
  have apart {g : Text} (hg : Gap g) (hne : g ≠ []) {token : Token} {tokens : List Token} {t : Text}
      (ht : Spaced Gap tokens t) : Spaced Gap (token :: tokens) (g ++ token.text ++ t) :=
    .cons hg (fun _ => hne) ht
  have hspace : Gap [' '] := .blank rfl .nil
  have hblock : Gap "/*(input*/".toList := @Gap.block "(input".toList [] (by decide) .nil
  have hline : Gap " // )\r\n".toList :=
    .blank rfl (@Gap.line " )\r".toList [] (by decide) .nil)
  have hspaced : Spaced Gap
      (headerTokens ⟨"m".toList, [⟨"W".toList, [], some "f(1, (2))".toList, []⟩],
        [⟨"a".toList, .input, "reg [1:0]".toList, none, []⟩, ⟨"q".toList, .output, [], none, []⟩]⟩)
      "module/*(input*/m #( // )\r\nparameter W=f(1, (2)))(input reg [1:0] a,output q);".toList :=
    touch rfl <| apart hblock (by decide) <| apart hspace (by decide) <| touch rfl <|
      apart hline (by decide) <| apart hspace (by decide) <| touch rfl <| touch rfl <| touch rfl <|
      touch rfl <| touch rfl <| apart hspace (by decide) <| apart hspace (by decide) <| touch rfl <|
      touch rfl <| apart hspace (by decide) <| touch rfl <| touch rfl .nil
  exact ⟨hprintable, hspaced, ofSource_printed hprintable hspaced " endmodule".toList⟩

end Signature
end Pinout
