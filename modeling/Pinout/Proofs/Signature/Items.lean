import Pinout.Proofs.Signature.Declaration
import Pinout.Proofs.Signature.TopLevel

/-!
# Pinout.Proofs.Signature.Items

Lists of items with commas between them. The commas of an item stand in brackets (`Named.whole`), and
so the list is cut at its own ones and the blanks around the items go (`splitTopLevel_listed`). What
the tokens of the declarations have in common with the blanks in the gaps, the text of the list has
as well (`clean_of_spaced`).
-/

namespace Pinout

namespace Parameter

def declaration (p : Parameter) : Signature.Declaration :=
  ⟨Signature.parameterKeyword, p.type, p.name, p.value⟩

def undescribed (p : Parameter) : Parameter := { p with description := [] }

end Parameter

namespace Port

def declaration (p : Port) : Signature.Declaration :=
  ⟨p.direction.keyword, p.type, p.name, p.value⟩

def undescribed (p : Port) : Port := { p with description := [] }

/-- The port with the type that the declared one stands for. -/
def shown (p : Port) : Port := { p with type := Signature.shownType p.type }

end Port

namespace Signature

open Source (Token Spaced Blanks)

/-- Declarations with commas between them. -/
def separated : List Declaration → List Token
  | [] => []
  | [d] => d.tokens
  | d :: e :: ds => d.tokens ++ ⟨false, [',']⟩ :: separated (e :: ds)

theorem forall_tokens {P : Text → Prop} (word : ∀ t : Text, t.isIdentifier → P t)
    (type : ∀ t, t ≠ [] → Fragment inType t → P t) (value : ∀ t, t ≠ [] → Fragment inValue t → P t)
    (equals : P ['=']) {d : Declaration} (hv : d.Valid) : ∀ token ∈ d.tokens, P token.text := by
  obtain ⟨keyword, t, name, v⟩ := d
  intro token hm
  simp only [Declaration.tokens, List.mem_cons, List.mem_append] at hm
  rcases hm with rfl | hm | rfl | hm
  · exact word _ hv.keyword
  · unfold Declaration.typeTokens at hm
    split at hm
    · cases hm
    · next hne =>
      rw [List.mem_singleton.1 hm]
      exact type _ hne hv.type
  · exact word _ hv.name
  · cases v with
    | none => cases hm
    | some v =>
      obtain ⟨hne, hf⟩ := hv.value v rfl
      simp only [Declaration.valueTokens, List.mem_cons, List.not_mem_nil, or_false] at hm
      rcases hm with rfl | rfl
      · exact equals
      · exact value _ hne hf

theorem forall_separated {P : Text → Prop} (comma : P [',']) {ds : List Declaration}
    (h : ∀ d ∈ ds, ∀ token ∈ d.tokens, P token.text) : ∀ token ∈ separated ds, P token.text := by
  fun_induction separated ds with
  | case1 => exact fun _ hm => absurd hm List.not_mem_nil
  | case2 d => exact h d List.mem_cons_self
  | case3 d e ds ih =>
    intro token hm
    rw [List.mem_append, List.mem_cons] at hm
    rcases hm with hm | rfl | hm
    · exact h d List.mem_cons_self token hm
    · exact comma
    · exact ih (fun d hd => h d (List.mem_cons_of_mem _ hd)) token hm

/-- Quotes and semicolons stand in no token and in no gap. -/
def Clean (t : Text) : Prop := ';' ∉ t ∧ '"' ∉ t

theorem clean_append {a b : Text} (ha : Clean a) (hb : Clean b) : Clean (a ++ b) := by
  simp only [Clean, List.mem_append, not_or]
  exact ⟨⟨ha.1, hb.1⟩, ha.2, hb.2⟩

theorem clean_of_clear {t : Text} (h : ∀ c ∈ t, Text.isBlank c ∨ Text.isWordChar c) : Clean t := by
  have hs : ∀ s ∈ [';', '"'], ¬ (Text.isBlank s ∨ Text.isWordChar s) :=
    Text.forall_of_all (by decide)
  exact ⟨fun hm => hs _ (by decide) (h _ hm), fun hm => hs _ (by decide) (h _ hm)⟩

theorem clean_tokens {d : Declaration} (hv : d.Valid) : ∀ token ∈ d.tokens, Clean token.text :=
  forall_tokens (fun _ h => clean_of_clear (clear_of_isIdentifier h)) (fun _ _ h => h.clean)
    (fun _ _ h => h.clean) (by unfold Clean; decide) hv

theorem clean_of_spaced {tokens : List Token} (ht : ∀ token ∈ tokens, Clean token.text) {t : Text}
    (h : Spaced Blanks tokens t) : Clean t :=
  Source.spaced_forall (P := Clean) (by unfold Clean; decide) (fun _ _ => clean_append)
    (fun _ hg => clean_of_clear (clear_of_allBlank hg)) ht h

/-! ## Cuts at commas -/

/-- Items with commas between them. -/
def listed : List (List Token) → List Token
  | [] => []
  | [item] => item
  | item :: next :: more => item ++ ⟨false, [',']⟩ :: listed (next :: more)

theorem separated_eq (ds : List Declaration) : separated ds = listed (ds.map Declaration.tokens) := by
  fun_induction separated ds with
  | case1 => rfl
  | case2 => rfl
  | case3 d e ds ih =>
    rw [ih]
    rfl

/-- An item that a cut at commas leaves as it is. -/
structure Whole (item : Text) : Prop where
  nested : nests (· != ',') 0 item
  quotes : '"' ∉ item
  trimmed : item.trim = item
  ne : item ≠ []

theorem not_quote_of_clear {t : Text} (h : ∀ c ∈ t, Text.isBlank c ∨ Text.isWordChar c) : '"' ∉ t :=
  (clean_of_clear h).2

theorem nests_comma_of_allBlank {w : Text} (hw : w.allBlank) : nests (· != ',') 0 w :=
  nests_of_clear (fun _ hc => (ne_of_clear hc).1) (clear_of_allBlank hw)

theorem Named.whole {lead name item : Text} {value : Option Text}
    (h : Named lead name value item) : Whole item := by
  have hdeclared : nests (· != ',') 0 (lead ++ name) :=
    nests_mono (fun _ hc => (Bool.and_eq_true _ _ ▸ hc).2) h.nests_declared
  have hquotes : '"' ∉ lead ++ name := by
    rw [List.mem_append, not_or]
    exact ⟨h.front.quotes, not_quote_of_clear (clear_of_isIdentifier h.identifier)⟩
  obtain ⟨ending, he, rfl⟩ := h.text
  have hne : lead ++ name ++ ending ≠ [] := by
    have := Text.ne_nil_of_isIdentifier h.identifier
    simp [show name ≠ [] from this]
  suffices nests (· != ',') 0 ending ∧ '"' ∉ ending ∧
      (lead ++ name ++ ending).getLast?.all (!Text.isBlank ·) by
    obtain ⟨hn, hq, hlast⟩ := this
    refine ⟨nests_append hdeclared hn, ?_, Text.trim_eq_self (h.head?_declared ending) hlast, hne⟩
    rw [List.mem_append, not_or]
    exact ⟨hquotes, hq⟩
  cases he with
  | none =>
    rw [List.append_nil]
    exact ⟨rfl, List.not_mem_nil, Text.getLast?_identifier h.identifier lead⟩
  | @value w v t hw hv =>
    obtain ⟨ht, hf⟩ := h.valued t rfl
    refine ⟨?_, ?_, ?_⟩
    · exact nests_append (nests_comma_of_allBlank hw)
        (nests_append (a := ['=']) rfl (nests_append (nests_comma_of_allBlank hv) hf.nested))
    · simp only [List.mem_append, List.mem_cons, not_or]
      exact ⟨not_quote_of_clear (clear_of_allBlank hw), by decide,
        not_quote_of_clear (clear_of_allBlank hv), hf.clean.2⟩
    · have hl := (Text.collapsed_of_collapse hf.collapsed).last
      simp only [List.getLast?_append, List.getLast?_cons]
      rw [List.getLast?_eq_some_getLast ht] at hl ⊢
      exact hl

theorem Whole.listable {item : Text} (hi : Whole item) : Listable ',' item :=
  ⟨hi.ne, hi.trimmed, settled_of_nests hi.quotes hi.nested⟩

/-- The pieces between the commas are the items, once the blanks around them are gone. -/
theorem splitTopLevel_listed {α : Type} {tokens : α → List Token} {Shows : α → Text → Prop}
    {as : List α}
    (hitem : ∀ a ∈ as, ∀ u, Spaced Blanks (tokens a) u →
      ∃ g item, u = g ++ item ∧ g.allBlank ∧ Whole item ∧ Shows a item)
    {t w : Text} (h : Spaced Blanks (listed (as.map tokens)) t) (hw : w.allBlank) :
    List.Forall₂ Shows as (splitTopLevel ',' (t ++ w)) := by
  induction as generalizing t with
  | nil =>
    have hblank := @splitTopLevel_blanks ',' w hw []
    rw [List.append_nil] at hblank
    rw [Source.spaced_nil h, List.nil_append, hblank]
    exact .nil
  | cons a as ih =>
    have ha := hitem a List.mem_cons_self
    cases as with
    | nil =>
      obtain ⟨g, item, rfl, hg, hi, hs⟩ := ha t h
      have hlast := splitTopLevel_item separates_comma hi.listable hw (.inl rfl)
      rw [List.append_nil] at hlast
      rw [List.append_assoc, splitTopLevel_blanks hg, hlast]
      exact .cons hs .nil
    | cons b as =>
      obtain ⟨u, r, rfl, hu, hr⟩ := Source.spaced_append_iff.1 h
      obtain ⟨v, r, rfl, hv, -, hr⟩ := Source.exists_of_spaced_cons hr
      obtain ⟨g, item, rfl, hg, hi, hs⟩ := ha u hu
      have hcat : g ++ item ++ (v ++ [','] ++ r) ++ w = g ++ (item ++ (v ++ ',' :: (r ++ w))) := by
        simp
      rw [hcat, splitTopLevel_blanks hg,
        splitTopLevel_item separates_comma hi.listable hv (.inr ⟨_, rfl⟩), splitTopLevel_separator]
      exact .cons hs (ih (fun c hc => hitem c (List.mem_cons_of_mem _ hc)) hr)

theorem splitTopLevel_declarations {ds : List Declaration} (hv : ∀ d ∈ ds, d.Valid) {t w : Text}
    (h : Spaced Blanks (separated ds) t) (hw : w.allBlank) :
    List.Forall₂ Item ds (splitTopLevel ',' (t ++ w)) := by
  rw [separated_eq] at h
  refine splitTopLevel_listed (fun d hd u hu => ?_) h hw
  obtain ⟨g, item, rfl, hg, hi⟩ := exists_item hu
  obtain ⟨_, -, hnamed⟩ := named_item (hv d hd) hi
  exact ⟨g, item, rfl, hg, hnamed.whole, hi⟩

/-! ## Lists read -/

theorem parametersOf_declarations {ps : List Parameter}
    (hv : ∀ p ∈ ps, p.declaration.Valid) {t w : Text}
    (h : Spaced Blanks (separated (ps.map Parameter.declaration)) t) (hw : w.allBlank) :
    parametersOf (t ++ w) = ps.map Parameter.undescribed := by
  have hitems := splitTopLevel_declarations (List.forall_mem_map.2 hv) h hw
  rw [parametersOf]
  generalize splitTopLevel ',' (t ++ w) = items at hitems
  generalize ([] : Text) = inherited
  clear h
  induction ps generalizing items inherited with
  | nil =>
    cases hitems
    rfl
  | cons p ps ih =>
    cases hitems with
    | cons hi hrest =>
      rw [parametersOfItems, parameterOfItem_item (hv p List.mem_cons_self) List.mem_cons_self hi]
      simp only [ih (fun q hq => hv q (List.mem_cons_of_mem _ hq)) _ hrest]
      rfl

theorem portsOf_declarations {ps : List Port} (hv : ∀ p ∈ ps, p.declaration.Valid) {t w : Text}
    (h : Spaced Blanks (separated (ps.map Port.declaration)) t) (hw : w.allBlank) :
    portsOf (t ++ w) = ps.map fun p => p.shown.undescribed := by
  have hitems := splitTopLevel_declarations (List.forall_mem_map.2 hv) h hw
  rw [portsOf]
  generalize splitTopLevel ',' (t ++ w) = items at hitems
  generalize (none : Option (Direction × Text)) = current
  clear h
  induction ps generalizing items current with
  | nil =>
    cases hitems
    rfl
  | cons p ps ih =>
    cases hitems with
    | cons hi hrest =>
      rw [portsOfItems, portOfItem_item (hv p List.mem_cons_self) rfl hi]
      simp only [ih (fun q hq => hv q (List.mem_cons_of_mem _ hq)) _ hrest]
      rfl

end Signature
end Pinout
