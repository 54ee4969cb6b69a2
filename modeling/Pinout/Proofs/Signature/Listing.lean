import Mathlib.Data.List.Nodup
import Pinout.Proofs.Signature.Described
import Pinout.Proofs.Signature.Printed
import Pinout.Proofs.Source.Line

/-!
# Pinout.Proofs.Signature.Listing

Headers with one declaration a line, and the comments at the ends of the lines. Reading such a
source gives each parameter and each port the comment of its own line (`ofSource_listing`).

A description is looked up by words: a line describes a name if it has a keyword, the name behind
it, and a comment. So the lines are searched with the tokens of the header in view
(`describedBy?_row`): a keyword is found where a declaration starts and nowhere else, and behind it
a name is found only where it is declared, as long as no declaration of its kind mentions it
(`Bindable`).
-/

namespace Pinout
namespace Signature

open Source (Token Spaced Blanks Inline Line LaidOut Separate Chunk Seamless Gap)
open Text (Lacks WordAt)

/-! ## Rows -/

/-- What a line declares. -/
inductive Declared where
  | parameter (p : Parameter)
  | port (p : Port)

namespace Declared

def declaration : Declared → Declaration
  | parameter p => p.declaration
  | port p => p.declaration

/-- The keywords behind which the description is looked up. -/
def keywords : Declared → List Text
  | parameter _ => parameterKeywords
  | port p => [p.direction.keyword]

end Declared

/-- A line of a header: punctuation, perhaps a declaration, and punctuation behind it. -/
structure Row where
  before : List Token
  declared : Option Declared
  after : List Token
  comment : Option Text

namespace Row

def line (row : Row) : Line :=
  ⟨row.before ++ (row.declared.map (·.declaration.tokens)).getD [] ++ row.after, row.comment⟩

/-- The comment without the blanks around it. -/
def description (row : Row) : Text := (row.comment.map Text.trim).getD []

def parameter? (row : Row) : Option Parameter :=
  match row.declared with
  | some (.parameter p) => some { p with description := row.description }
  | _ => none

def port? (row : Row) : Option Port :=
  match row.declared with
  | some (.port p) => some { p with description := row.description }
  | _ => none

end Row

/-- What the rows declare, each item with the comment of its row. -/
def ofRows (name : Text) (rows : List Row) : Signature :=
  ⟨name, rows.filterMap Row.parameter?, rows.filterMap Row.port?⟩

def punctuation : List Text := ["#", "(", ")", ",", ";"].map String.toList

/-- The rows are the lines of the header of the module that they declare. -/
structure Listing (name : Text) (rows : List Row) : Prop where
  tokens : rows.flatMap (·.line.tokens) = headerTokens (ofRows name rows)
  before : ∀ row ∈ rows, ∀ token ∈ row.before, token.text ∈ moduleKeyword :: name :: punctuation
  after : ∀ row ∈ rows, ∀ token ∈ row.after, token.text ∈ punctuation
  shown : ∀ row ∈ rows, row.line.tokens ≠ []
  comment : ∀ row ∈ rows, ∀ c ∈ row.comment, '\n' ∉ c ∧ '\r' ∉ c

/-- The words that a description is looked up behind. -/
def reserved : List Text := parameterKeywords ++ [Direction.input, .output, .inout].map (·.keyword)

/-- The word stands in the type or in the value. -/
def Declaration.Mentions (word : Text) (d : Declaration) : Prop :=
  ∃ t ∈ d.type :: d.value.toList, ∃ n, WordAt word t n

/-- Names differ, and none is a keyword or stands in another declaration of its kind. -/
structure Bindable (s : Signature) : Prop where
  printable : s.Printable
  parameters : (s.parameters.map (·.name)).Nodup
  ports : (s.ports.map (·.name)).Nodup
  name : s.name ∉ reserved
  parameter : ∀ p ∈ s.parameters, p.name ∉ reserved ∧
    (∀ k ∈ parameterKeywords, ¬ p.declaration.Mentions k) ∧
    ∀ q ∈ s.parameters, q.name ≠ p.name → ¬ q.declaration.Mentions p.name
  port : ∀ p ∈ s.ports, p.name ∉ reserved ∧
    (∀ k ∈ parameterKeywords, ¬ p.declaration.Mentions k) ∧
    ∀ q ∈ s.ports, q.direction = p.direction → q.name ≠ p.name → ¬ q.declaration.Mentions p.name

/-! ## Tokens of a header -/

theorem separate_append {as bs : List Token} {mark : Token} (ha : as.IsChain Separate)
    (hb : bs.IsChain Separate) (hm : Text.endsWord mark.text ∧ Text.endsWord mark.text.reverse) :
    (as ++ mark :: bs).IsChain Separate := by
  refine List.isChain_append.2 ⟨ha, List.isChain_cons.2 ⟨fun b _ => .inr (.inl hm.2), hb⟩, ?_⟩
  intro a _ b hb
  cases hb
  exact .inr (.inr hm.1)

theorem separate_tokens (d : Declaration) : d.tokens.IsChain Separate := by
  obtain ⟨keyword, type, name, value⟩ := d
  have hvalue : (⟨true, name⟩ :: Declaration.valueTokens value).IsChain Separate := by
    cases value with
    | none => exact List.isChain_singleton _
    | some v =>
      refine List.isChain_cons_cons.2 ⟨.inr (.inr rfl), List.isChain_cons_cons.2 ⟨?_, ?_⟩⟩
      · exact .inr (.inl rfl)
      · exact List.isChain_singleton _
  unfold Declaration.tokens Declaration.typeTokens
  split
  · exact List.isChain_cons_cons.2 ⟨.inl rfl, hvalue⟩
  · exact List.isChain_cons_cons.2 ⟨.inl rfl, List.isChain_cons_cons.2 ⟨.inl rfl, hvalue⟩⟩

theorem separate_separated (ds : List Declaration) : (separated ds).IsChain Separate := by
  fun_induction separated ds with
  | case1 => exact List.isChain_nil
  | case2 d => exact separate_tokens d
  | case3 d e ds ih => exact separate_append (separate_tokens d) ih ⟨rfl, rfl⟩

theorem separate_listTokens (ds : List Declaration) {more : List Token}
    (hm : more.IsChain Separate) : (listTokens ds ++ more).IsChain Separate := by
  have hinner : (separated ds ++ ⟨false, [')']⟩ :: more).IsChain Separate :=
    separate_append (separate_separated ds) hm ⟨rfl, rfl⟩
  have hcat : listTokens ds ++ more =
      [] ++ ⟨false, ['(']⟩ :: (separated ds ++ ⟨false, [')']⟩ :: more) := by simp [listTokens]
  rw [hcat]
  exact separate_append List.isChain_nil hinner ⟨rfl, rfl⟩

theorem separate_headerTokens (s : Signature) : (headerTokens s).IsChain Separate := by
  have hports := separate_listTokens (s.ports.map Port.declaration)
    (List.isChain_singleton (⟨false, [';']⟩ : Token))
  unfold headerTokens parameterTokens
  split
  · exact .cons_cons (.inl rfl) (.cons_cons (.inr (.inr rfl)) hports)
  · have hlists := separate_listTokens (s.parameters.map Parameter.declaration) hports
    exact .cons_cons (.inl rfl) (.cons_cons (.inr (.inr rfl)) (.cons_cons (.inr (.inr rfl)) hlists))

theorem isChain_of_seamless {tokens : List Token} (h : Seamless tokens) :
    tokens.IsChain fun a b => a.text.getLast? = some '(' → b.text.head? ≠ some '*' := by
  induction tokens with
  | nil => exact .nil
  | cons a tokens ih =>
    cases tokens with
    | nil => exact .singleton a
    | cons b tokens => exact .cons_cons h.1 (ih h.2)

theorem not_allBlank_headerTokens {s : Signature} (h : s.Printable) :
    ∀ token ∈ headerTokens s, token.text.allBlank = false := by
  have hhead : ∀ t : Text, t ≠ [] → t.head?.all (!Text.isBlank ·) → t.allBlank = false := by
    intro t hne ht
    obtain ⟨c, t, rfl⟩ := List.exists_cons_of_ne_nil hne
    have hc : Text.isBlank c = false := by simpa using ht
    simp [Text.allBlank, hc]
  have hfragment : ∀ (outside : Char → Bool) (t : Text), t ≠ [] → Fragment outside t →
      t.allBlank = false := fun _ t hne hf =>
    hhead t hne (Text.collapsed_of_collapse hf.collapsed).head
  refine forall_headerTokens (fun t ht => hhead t (Text.ne_nil_of_isIdentifier ht) ?_)
    (hfragment _) (hfragment _) (by simp [Text.allBlank, Text.isBlank]) h
  have := Text.head?_identifier ht []
  rwa [List.append_nil] at this

/-! ## Keywords and names in a line -/

/-- No comment starts in code, so the search goes on with what stands behind it. -/
theorem cutUnquoted?_chunk {stops : Text → Bool}
    (hs : ∀ c t, stops (c :: t) → c = '/' ∧ t.head? = some '/') {u : Text} (h : Chunk u) (r : Text) :
    cutUnquoted? stops .code (u ++ r) =
      (cutUnquoted? stops .code r).map fun (before, rest) => (u ++ before, rest) := by
  induction u with
  | nil => exact absurd rfl h.ne
  | cons c u ih =>
    have hmode : Mode.after .code c = .code := if_neg (h.clean c List.mem_cons_self).1
    have hstop : ¬ (Mode.code = .code ∧ stops (c :: (u ++ r))) := by
      rintro ⟨-, he⟩
      obtain ⟨rfl, hd⟩ := hs _ _ he
      cases u with
      | nil => exact h.last rfl
      | cons d u =>
        obtain rfl : d = '/' := by simpa using hd
        cases h.pairs '/' '/' ⟨[], u, rfl⟩
    rw [List.cons_append, cutUnquoted?, if_neg hstop, hmode]
    cases u with
    | nil => rfl
    | cons d u =>
      rw [ih (Source.chunk_tail h (List.cons_ne_nil d u)), Option.map_map]
      rfl

theorem splitComment?_line {line : Line} (hp : line.Plain) {u : Text} (hu : line.Code u) :
    splitComment? (u ++ line.remark) = line.comment.map fun c => (u, c) := by
  have hs : ∀ (c : Char) (t : Text), (Text.dropLead? "//".toList (c :: t)).isSome →
      c = '/' ∧ t.head? = some '/' := by
    intro c t h
    obtain ⟨r, hr⟩ := Option.isSome_iff_exists.1 h
    cases Text.append_of_dropLead? hr
    exact ⟨rfl, rfl⟩
  rw [splitComment?, splitUnquoted?_eq (fun _ => rfl), if_neg Bool.false_ne_true,
    cutUnquoted?_chunk hs (Source.chunk_code hp hu), Line.remark]
  cases line.comment with
  | none => rfl
  | some c => simp [cutUnquoted?, Text.dropLead?]

theorem afterFirstKeyword?_eq_none {keywords : List Text} {code : Text}
    (h : ∀ k ∈ keywords, Lacks k code) : afterFirstKeyword? keywords code = none := by
  have hends : (keywords.filterMap fun k => (Text.findWord? k code).map (· + k.length)) = [] := by
    rw [List.filterMap_eq_nil_iff]
    intro k hk
    rw [h k hk]
    rfl
  rw [afterFirstKeyword?, hends]
  rfl

/-- The keyword that is there is the one that ends first. -/
theorem afterFirstKeyword?_append {keywords : List Text} {k x rest : Text} (hk : k ∈ keywords)
    (hfind : Text.findWord? k (x ++ (k ++ rest)) = some x.length)
    (hl : ∀ l ∈ keywords, l ≠ k → Lacks l (x ++ (k ++ rest))) :
    afterFirstKeyword? keywords (x ++ (k ++ rest)) = some rest := by
  have hmin : (keywords.filterMap fun l =>
      (Text.findWord? l (x ++ (k ++ rest))).map (· + l.length)).min? =
        some (x.length + k.length) := by
    rw [List.min?_eq_some_iff]
    refine ⟨List.mem_filterMap.2 ⟨k, hk, by rw [hfind]; rfl⟩, fun n hn => ?_⟩
    obtain ⟨l, hm, he⟩ := List.mem_filterMap.1 hn
    by_cases hlk : l = k
    · subst hlk
      rw [hfind] at he
      cases he
      exact Nat.le_refl _
    · rw [hl l hm hlk] at he
      cases he
  rw [afterFirstKeyword?, hmin, Option.map_some, ← List.drop_drop, List.drop_left, List.drop_left]

/-! ## What a row describes -/

theorem lacks_punctuation {word : Text} (hw : Text.isIdentifier word) :
    ∀ t ∈ punctuation, Lacks word t := by
  have hmark : ∀ t ∈ punctuation, ∃ c ∈ t, Text.isWordChar c = false ∧ t = [c] := by
    simp [punctuation, Text.isWordChar]
  intro t ht
  obtain ⟨c, -, hc, rfl⟩ := hmark t ht
  exact (Text.lacks_cons hw hc).2 Text.lacks_nil

def behindKeyword (d : Declaration) : List Token :=
  Declaration.typeTokens d.type ++ ⟨true, d.name⟩ :: Declaration.valueTokens d.value

/-- Behind its keyword a declaration has no word but its name and those that it mentions. -/
theorem lacks_declaration {word : Text} (hw : Text.isIdentifier word) {d : Declaration}
    (hd : d.Valid) (hn : d.name ≠ word) (hm : ¬ d.Mentions word) :
    ∀ token ∈ behindKeyword d, Lacks word token.text := by
  have hfragment : ∀ t ∈ d.type :: d.value.toList, Lacks word t := fun t ht =>
    Text.lacks_of_not_wordAt fun n hat => hm ⟨t, ht, n, hat⟩
  intro token htoken
  rw [behindKeyword, List.mem_append, List.mem_cons] at htoken
  rcases htoken with htoken | rfl | htoken
  · unfold Declaration.typeTokens at htoken
    split at htoken
    · cases htoken
    · rw [List.mem_singleton.1 htoken]
      exact hfragment _ List.mem_cons_self
  · exact Text.lacks_identifier hd.name hn
  · cases hv : d.value with
    | none =>
      rw [hv] at htoken
      cases htoken
    | some v =>
      rw [hv] at htoken
      simp only [Declaration.valueTokens, List.mem_cons, List.not_mem_nil, or_false] at htoken
      rcases htoken with rfl | rfl
      · exact (Text.lacks_cons hw rfl).2 Text.lacks_nil
      · exact hfragment v (by simp [hv])

/-- A name is found behind the keyword of a declaration if it is the one that is declared. -/
theorem isSome_findWord?_behindKeyword {d : Declaration} (hv : d.Valid) {after : List Token}
    (ha : ∀ token ∈ after, token.text ∈ punctuation) {y w : Text}
    (hy : Spaced Blanks (behindKeyword d ++ after) y)
    (hs : (behindKeyword d ++ after).IsChain Separate)
    (hne : ∀ token ∈ behindKeyword d ++ after, token.text ≠ []) (hw : w.allBlank) {x : Text}
    (hx : Text.isIdentifier x) (hm : d.name ≠ x → ¬ d.Mentions x) :
    (Text.findWord? x (y ++ w)).isSome ↔ d.name = x := by
  have hend : Text.endsWord w := Text.endsWord_of_allBlank hw
  constructor
  · intro hsome
    by_contra hn
    have htoken : ∀ token ∈ behindKeyword d ++ after, Lacks x token.text := by
      intro token ht
      rcases List.mem_append.1 ht with ht | ht
      · exact lacks_declaration hx hv hn (hm hn) token ht
      · exact lacks_punctuation hx _ (ha token ht)
    have hlacks := Text.lacks_append hx (Source.lacks_of_spaced hx hy hs hne htoken)
      (Text.lacks_of_allBlank hx hw) (.inr hend)
    rw [hlacks] at hsome
    cases hsome
  · rintro rfl
    rw [behindKeyword, List.append_assoc, List.cons_append] at hy hs hne
    obtain ⟨u, v, rfl, hu, hv', -⟩ := Source.exists_word hv.name hy hs hne
    have hcat : u ++ (d.name ++ v) ++ w = u ++ (d.name ++ (v ++ w)) := by simp
    rw [hcat, Text.findWord?_append_word hv.name hu (Text.endsWord_append_of_endsWord hv' hend)]
    simp

section

variable {name : Text} {rows : List Row} (hl : Listing name rows) {row : Row} (hrow : row ∈ rows)
include hl hrow

theorem Listing.exists_tokens :
    ∃ as bs, headerTokens (ofRows name rows) = as ++ row.line.tokens ++ bs := by
  obtain ⟨as, bs, hab⟩ := List.append_of_mem hrow
  rw [← hl.tokens]
  exact ⟨as.flatMap (·.line.tokens), bs.flatMap (·.line.tokens), by simp [hab]⟩

theorem Listing.plain (hp : (ofRows name rows).Printable) : row.line.Plain := by
  obtain ⟨as, bs, htokens⟩ := hl.exists_tokens hrow
  have hm : ∀ token ∈ row.line.tokens, token ∈ headerTokens (ofRows name rows) := by
    intro token ht
    simp [htokens, ht]
  have hseam := isChain_of_seamless (seamless_headerTokens hp)
  rw [htokens] at hseam
  obtain ⟨token, tokens, ht⟩ := List.exists_cons_of_ne_nil (hl.shown row hrow)
  have hfirst : token ∈ row.line.tokens := ht ▸ List.mem_cons_self
  exact ⟨fun a ha => chunk_headerTokens hp a (hm a ha), hseam.left_of_append.right_of_append,
    ⟨token, hfirst, not_allBlank_headerTokens hp token (hm token hfirst)⟩, hl.comment row hrow⟩

theorem Listing.separate : row.line.tokens.IsChain Separate := by
  obtain ⟨as, bs, htokens⟩ := hl.exists_tokens hrow
  have hs := separate_headerTokens (ofRows name rows)
  rw [htokens] at hs
  exact hs.left_of_append.right_of_append

theorem Listing.ne_nil (hp : (ofRows name rows).Printable) :
    ∀ token ∈ row.line.tokens, token.text ≠ [] :=
  fun token ht => ((hl.plain hrow hp).chunk token ht).ne

theorem Listing.lacks_before {word : Text} (hw : Text.isIdentifier word)
    (hname : Text.isIdentifier name) (hn : name ≠ word) (hm : moduleKeyword ≠ word) :
    ∀ token ∈ row.before, Lacks word token.text := by
  intro token ht
  rcases List.mem_cons.1 (hl.before row hrow token ht) with he | he
  · rw [he]
    exact Text.lacks_identifier (by decide) hm
  · rcases List.mem_cons.1 he with he | he
    · rw [he]
      exact Text.lacks_identifier hname hn
    · exact lacks_punctuation hw _ he

end

/-! ## Kinds of declarations -/

theorem reserved_spec : ∀ k ∈ reserved, Text.isIdentifier k ∧ moduleKeyword ≠ k := by decide

theorem Declared.keywords_subset (d : Declared) : d.keywords ⊆ reserved := by
  cases d with
  | parameter p => exact List.subset_append_left _ _
  | port p =>
    simp only [Declared.keywords]
    cases p.direction <;> decide

theorem Declared.keyword_mem (d : Declared) : d.declaration.keyword ∈ d.keywords := by
  cases d with
  | parameter p => exact List.mem_cons_self
  | port p => exact List.mem_cons_self

/-- Declarations are looked up behind the same keywords, or one does not start with any of them. -/
theorem Declared.keywords_cases (d e : Declared) :
    d.keywords = e.keywords ∨ d.declaration.keyword ∉ e.keywords := by
  cases d with
  | parameter p =>
    cases e with
    | parameter q => exact .inl rfl
    | port q =>
      right
      show parameterKeyword ∉ [q.direction.keyword]
      cases q.direction <;> decide
  | port p =>
    cases e with
    | parameter q =>
      right
      show p.direction.keyword ∉ parameterKeywords
      cases p.direction <;> decide
    | port q =>
      by_cases h : p.direction.keyword = q.direction.keyword
      · exact .inl (congrArg (fun k => [k]) h)
      · exact .inr fun hm => h (List.mem_singleton.1 hm)

theorem keywords_port_ne (p : Port) (q : Parameter) :
    (Declared.port p).keywords ≠ (Declared.parameter q).keywords := by
  show [p.direction.keyword] ≠ parameterKeywords
  cases p.direction <;> decide

theorem keyword_injective {d e : Direction} (h : d.keyword = e.keyword) : d = e := by
  revert h
  cases d <;> cases e <;> decide

section

variable {name : Text} {rows : List Row} {row row' : Row} (hrow : row ∈ rows) (hrow' : row' ∈ rows)
  (hb : (ofRows name rows).Bindable)
include hrow

variable (name) in
theorem mem_parameters {p : Parameter} (hd : row.declared = some (.parameter p)) :
    { p with description := row.description } ∈ (ofRows name rows).parameters :=
  List.mem_filterMap.2 ⟨row, hrow, by rw [Row.parameter?, hd]⟩

variable (name) in
theorem mem_ports {p : Port} (hd : row.declared = some (.port p)) :
    { p with description := row.description } ∈ (ofRows name rows).ports :=
  List.mem_filterMap.2 ⟨row, hrow, by rw [Row.port?, hd]⟩

include hb

/-- No declaration has a keyword for its name or mentions one. -/
theorem Bindable.declared {d : Declared} (hd : row.declared = some d) :
    d.declaration.Valid ∧ d.declaration.name ∉ reserved ∧
      ∀ k ∈ reserved, ¬ d.declaration.Mentions k := by
  have hdirection {d : Declaration} (hv : d.Valid) (k : Text)
      (hk : k ∈ [Direction.input, .output, .inout].map (·.keyword)) : ¬ d.Mentions k := by
    obtain ⟨direction, -, rfl⟩ := List.mem_map.1 hk
    rintro ⟨t, ht, n, hat⟩
    rcases List.mem_cons.1 ht with rfl | ht
    · exact hv.type.words direction n hat
    · exact (hv.value t (Option.mem_toList.1 ht)).2.words direction n hat
  cases d with
  | parameter p =>
    have hm := mem_parameters name hrow hd
    obtain ⟨hname, hkeyword, -⟩ := hb.parameter _ hm
    have hv := hb.printable.parameters _ hm
    exact ⟨hv, hname, fun k hk => (List.mem_append.1 hk).elim (hkeyword k) (hdirection hv k)⟩
  | port p =>
    have hm := mem_ports name hrow hd
    obtain ⟨hname, hkeyword, -⟩ := hb.port _ hm
    have hv := hb.printable.ports _ hm
    exact ⟨hv, hname, fun k hk => (List.mem_append.1 hk).elim (hkeyword k) (hdirection hv k)⟩

include hrow'

theorem Bindable.not_mentions {d e : Declared} (hd : row.declared = some d)
    (he : row'.declared = some e) (hk : d.keywords = e.keywords)
    (hn : d.declaration.name ≠ e.declaration.name) :
    ¬ d.declaration.Mentions e.declaration.name := by
  cases d with
  | parameter p =>
    cases e with
    | parameter q =>
      have hother := (hb.parameter _ (mem_parameters name hrow' he)).2.2
      exact hother { p with description := row.description } (mem_parameters name hrow hd) hn
    | port q => exact absurd hk.symm (keywords_port_ne q p)
  | port p =>
    cases e with
    | parameter q => exact absurd hk (keywords_port_ne p q)
    | port q =>
      have hdirection := keyword_injective (List.cons.inj hk).1
      have hother := (hb.port _ (mem_ports name hrow' he)).2.2
      exact hother { p with description := row.description } (mem_ports name hrow hd) hdirection hn

/-- One name is declared in one row. -/
theorem Bindable.description_eq {d e : Declared} (hd : row.declared = some d)
    (he : row'.declared = some e) (hk : d.keywords = e.keywords)
    (hn : d.declaration.name = e.declaration.name) : row.description = row'.description := by
  cases d with
  | parameter p =>
    cases e with
    | parameter q =>
      have hpq := List.inj_on_of_nodup_map hb.parameters (mem_parameters name hrow hd)
        (mem_parameters name hrow' he) hn
      exact congrArg Parameter.description hpq
    | port q => exact absurd hk.symm (keywords_port_ne q p)
  | port p =>
    cases e with
    | parameter q => exact absurd hk (keywords_port_ne p q)
    | port q =>
      have hpq := List.inj_on_of_nodup_map hb.ports (mem_ports name hrow hd)
        (mem_ports name hrow' he) hn
      exact congrArg Port.description hpq

end

/-! ## Rows read -/

theorem describedBy?_line {line : Line} (hp : line.Plain) {u : Text} (hu : line.Code u)
    (keywords : List Text) (x : Text) : describedBy? keywords x (u ++ line.remark) =
      line.comment.bind fun c => (afterFirstKeyword? keywords u).bind fun rest =>
        if (Text.findWord? x rest).isSome then some (Text.trim c) else none := by
  rw [describedBy?, splitComment?_line hp hu]
  cases line.comment with
  | none => rfl
  | some c => rfl

namespace Row

/-- The comment of a row that declares the name behind the keywords. -/
def describes? (keywords : List Text) (x : Text) (row : Row) : Option Text :=
  match row.declared with
  | some d =>
    if d.keywords = keywords ∧ d.declaration.name = x then row.comment.map Text.trim else none
  | none => none

end Row

section

variable {name : Text} {rows : List Row} (hl : Listing name rows)
  (hb : (ofRows name rows).Bindable) {row : Row} (hrow : row ∈ rows)
include hl hb hrow

/-- A keyword stands in no token but the one that a declaration starts with. -/
theorem Listing.lacks_keyword {k : Text} (hk : k ∈ reserved)
    (hd : ∀ d, row.declared = some d → d.declaration.keyword ≠ k) {u : Text}
    (hu : row.line.Code u) : Lacks k u := by
  obtain ⟨hid, hmodule⟩ := reserved_spec k hk
  refine Source.lacks_code hid (hl.separate hrow) (hl.ne_nil hrow hb.printable) ?_ hu
  intro token ht
  rw [Row.line, List.mem_append, List.mem_append] at ht
  rcases ht with (ht | ht) | ht
  · have hname : name ≠ k := fun he => hb.name (he ▸ hk)
    exact hl.lacks_before hrow hid hb.printable.name hname hmodule token ht
  · cases hdeclared : row.declared with
    | none =>
      rw [hdeclared] at ht
      cases ht
    | some d =>
      obtain ⟨hv, hname, hmention⟩ := hb.declared hrow hdeclared
      rw [hdeclared] at ht
      rcases List.mem_cons.1 ht with rfl | ht
      · exact Text.lacks_identifier hv.keyword (hd d hdeclared)
      · exact lacks_declaration hid hv (fun he => hname (he ▸ hk)) (hmention k hk) token ht
  · exact lacks_punctuation hid _ (hl.after row hrow token ht)

/-- Behind the keyword of a row only the name that is declared is found. -/
theorem Listing.exists_rest {d : Declared} (hd : row.declared = some d) {u : Text}
    (hu : row.line.Code u) : ∃ rest, afterFirstKeyword? d.keywords u = some rest ∧
      ∀ x, Text.isIdentifier x → (d.declaration.name ≠ x → ¬ d.declaration.Mentions x) →
        ((Text.findWord? x rest).isSome ↔ d.declaration.name = x) := by
  obtain ⟨hv, -⟩ := hb.declared hrow hd
  have hkeyword := d.keywords_subset d.keyword_mem
  obtain ⟨hid, hmodule⟩ := reserved_spec _ hkeyword
  have hs := hl.separate hrow
  have hne := hl.ne_nil hrow hb.printable
  have hother : ∀ k ∈ d.keywords, k ≠ d.declaration.keyword → Lacks k u := fun k hk hn =>
    hl.lacks_keyword hb hrow (d.keywords_subset hk)
      (fun d' h => by rw [hd] at h; cases h; exact hn.symm) hu
  have htokens : row.line.tokens = row.before ++ ⟨false, d.declaration.keyword⟩ ::
      (behindKeyword d.declaration ++ row.after) := by
    simp [Row.line, hd, Declaration.tokens, behindKeyword]
  cases hu with
  | @mk v w hv' hw =>
    have hspaced := Source.spaced_blanks hv'
    rw [htokens] at hs hne hspaced
    obtain ⟨x, y, rfl, hx, hy, hrest, hbefore⟩ := Source.exists_word hid hspaced hs hne
    have hyw := Text.endsWord_append_of_endsWord hy (Text.endsWord_of_allBlank hw.1)
    have hlacks : Lacks d.declaration.keyword x := hbefore _ hid <|
      hl.lacks_before hrow hid hb.printable.name (fun he => hb.name (he ▸ hkeyword)) hmodule
    have hcat : x ++ (d.declaration.keyword ++ y) ++ w =
        x ++ (d.declaration.keyword ++ (y ++ w)) := by simp
    rw [hcat] at hother ⊢
    refine ⟨y ++ w, afterFirstKeyword?_append d.keyword_mem ?_ hother, fun z hz hm => ?_⟩
    · rw [Text.findWord?_append_word hid hx hyw, hlacks]
      rfl
    · have hneb := fun token ht => hne token (List.mem_append_right _ (List.mem_cons_of_mem _ ht))
      exact isSome_findWord?_behindKeyword hv (hl.after row hrow) hrest
        (List.isChain_append.1 hs).2.1.tail hneb hw.1 hz hm

theorem Listing.describedBy?_row {row' : Row} (hrow' : row' ∈ rows) {e : Declared}
    (he : row'.declared = some e) {u : Text} (hu : row.line.Code u) :
    describedBy? e.keywords e.declaration.name (u ++ row.line.remark) =
      row.describes? e.keywords e.declaration.name := by
  rw [describedBy?_line (hl.plain hrow hb.printable) hu, Row.describes?]
  have hother (hk : ∀ d, row.declared = some d → d.declaration.keyword ∉ e.keywords) :
      afterFirstKeyword? e.keywords u = none :=
    afterFirstKeyword?_eq_none fun k hk' =>
      hl.lacks_keyword hb hrow (e.keywords_subset hk') (fun d hd heq => hk d hd (heq ▸ hk')) hu
  cases hd : row.declared with
  | none =>
    rw [hother fun d h => by rw [hd] at h; cases h]
    cases row.line.comment <;> rfl
  | some d =>
    dsimp only
    by_cases hk : d.keywords = e.keywords
    · obtain ⟨rest, hrest, hfind⟩ := hl.exists_rest hb hrow hd hu
      obtain ⟨hv, -⟩ := hb.declared hrow' he
      have hx := hfind _ hv.name (hb.not_mentions hrow hrow' hd he hk)
      rw [← hk, hrest]
      simp only [Option.bind_some]
      by_cases hn : d.declaration.name = e.declaration.name
      · simp only [hx.2 hn, if_true, hn, and_self]
        show row.comment.bind (fun c => some c.trim) = row.comment.map Text.trim
        cases row.comment <;> rfl
      · simp only [hx, hn, and_false, if_false]
        cases row.line.comment <;> rfl
    · have hkeyword := (d.keywords_cases e).resolve_left hk
      rw [hother fun d' h => by rw [hd] at h; cases h; exact hkeyword, if_neg fun h => hk h.1]
      cases row.line.comment <;> rfl

end

/-! ## Signatures -/

theorem description?_of_not_mem {t : Text} (h : '/' ∉ t) (keywords : List Text) (x : Text) :
    description? t keywords x = none := by
  rw [description?, List.findSome?_eq_none_iff]
  intro line hline
  have hcomment : splitComment? line = none := by
    rw [Option.eq_none_iff_forall_ne_some]
    rintro ⟨code, comment⟩ hc
    refine h (Text.subset_of_mem_lines hline ?_)
    rw [append_of_splitComment? hc]
    simp
  rw [describedBy?, hcomment]
  rfl

def endKeyword : Text := "endmodule".toList

theorem description?_end {w v : Text} (hw : w.allBlank) (hv : v.allBlank) (keywords : List Text)
    (x : Text) :
    description? (Source.views (w ++ endKeyword ++ v)).described keywords x = none := by
  have hblank {u : Text} (hu : u.allBlank) : ∀ c ∈ u, Source.Clear c := fun c hc =>
    Source.clear_of_isBlank (List.all_eq_true.1 hu c hc)
  have hend : ∀ c ∈ endKeyword, Source.Clear c := by
    intro c hc
    have hword : Text.isWordChar c :=
      List.all_eq_true.1 (rfl : endKeyword.all Text.isWordChar = true) c hc
    refine ⟨?_, ?_, ?_⟩ <;> rintro rfl <;> cases hword
  have hclear : ∀ c ∈ w ++ endKeyword ++ v, Source.Clear c := by
    intro c hc
    rw [List.mem_append, List.mem_append] at hc
    rcases hc with (hc | hc) | hc
    · exact hblank hw c hc
    · exact hend c hc
    · exact hblank hv c hc
  have hunified := fun c hc => hclear c (Text.unifyNewlines_subset _ hc)
  rw [Source.views_eq, Source.described_of_clear hunified]
  exact description?_of_not_mem (fun hm => (hunified '/' hm).2.1 rfl) keywords x

/-- The header of a source starts with what its tokens declare. -/
theorem exists_header_printed {s : Signature} (h : s.Printable) {t : Text}
    (ht : Spaced Gap (headerTokens s) t) (rest : Text) :
    ∃ header, header? (Source.views (t ++ rest)).stripped = some header ∧ header.name = s.name ∧
      header.parameters = s.parameters.map Parameter.undescribed ∧
      header.ports = s.ports.map fun p => p.shown.undescribed := by
  obtain ⟨u, r, hu, hstripped⟩ :=
    Source.stripped_spaced ht (chunk_headerTokens h) (seamless_headerTokens h) rest
  obtain ⟨a, b, g, hheader, hg, ha, hb⟩ := header?_spaced h hu r
  obtain ⟨⟨list, hlist, hports⟩, hstart, hnone⟩ := exists_portList h.ports h.ne hg hb
  obtain ⟨list?, hsplit, hparameters⟩ := exists_parameterList h.parameters ha hstart (hnone _)
  rw [← hstripped] at hheader
  refine ⟨_, hheader, rfl, ?_, ?_⟩
  · rw [Header.parameters, hsplit, hparameters]
  · rw [Header.ports, hsplit, hlist]
    exact hports

theorem getD_findSome? {α β : Type} {g : α → Option β} {items : List α} {item : α} {b v : β}
    (hitem : item ∈ items) (hv : (g item).getD b = v)
    (h : ∀ a ∈ items, ∀ r, g a = some r → r = v) : (items.findSome? g).getD b = v := by
  cases hf : items.findSome? g with
  | none =>
    rw [List.findSome?_eq_none_iff] at hf
    rwa [hf item hitem] at hv
  | some r =>
    obtain ⟨a, ha, hr⟩ := List.exists_of_findSome?_eq_some hf
    exact h a ha r hr

section

variable {name : Text} {rows : List Row} (hl : Listing name rows)
  (hb : (ofRows name rows).Bindable) {t : Text} (ht : LaidOut (rows.map Row.line) t) {w v : Text}
  (hw : w.allBlank) (hv : v.allBlank)
include hl hb ht hw hv

/-- What is declared in a row has the description of the row. -/
theorem Listing.description?_row {row : Row} (hrow : row ∈ rows) {d : Declared}
    (hd : row.declared = some d) :
    (description? (Source.views (t ++ (w ++ endKeyword ++ v))).described d.keywords
      d.declaration.name).getD [] = row.description := by
  have hsearch := Source.findSome?_laidOut ht (fun r hr => hl.plain hr hb.printable)
    (fun r hr u hu => hl.describedBy?_row hb hr hrow hd hu) (w ++ endKeyword ++ v)
  have hend := description?_end hw hv d.keywords d.declaration.name
  rw [description?] at hend
  rw [description?, hsearch, hend, Option.or_none]
  refine getD_findSome? hrow ?_ fun r hr text he => ?_
  · simp only [Row.describes?, hd, and_self, if_true]
    rfl
  · unfold Row.describes? at he
    split at he
    · next e hdeclared =>
      split at he
      · next heq =>
        rw [← hb.description_eq hr hrow hdeclared hd heq.1 heq.2, Row.description, he]
        rfl
      · cases he
    · cases he

theorem Listing.map_describeParameter : (ofRows name rows).parameters.map
    (describeParameter (Source.views (t ++ (w ++ endKeyword ++ v))).described ∘
      Parameter.undescribed) = (ofRows name rows).parameters := by
  refine (List.map_congr_left fun p hp => ?_).trans (List.map_id _)
  obtain ⟨row, hrow, he⟩ := List.mem_filterMap.1 hp
  unfold Row.parameter? at he
  split at he
  · next q hd =>
    cases he
    have hq := hl.description?_row hb ht hw hv hrow hd
    dsimp only [Declared.keywords, Declared.declaration, Parameter.declaration] at hq
    simp only [Function.comp_apply, describeParameter, Parameter.undescribed, hq, id_eq]
  · cases he

theorem Listing.map_describePort : (ofRows name rows).ports.map
    (describePort (Source.views (t ++ (w ++ endKeyword ++ v))).described ∘
      fun p => p.shown.undescribed) = (ofRows name rows).ports.map Port.shown := by
  refine List.map_congr_left fun p hp => ?_
  obtain ⟨row, hrow, he⟩ := List.mem_filterMap.1 hp
  unfold Row.port? at he
  split at he
  · next q hd =>
    cases he
    have hq := hl.description?_row hb ht hw hv hrow hd
    dsimp only [Declared.keywords, Declared.declaration, Port.declaration] at hq
    simp only [Function.comp_apply, describePort, Port.shown, Port.undescribed, hq]
  · cases he

end

/-- A header that is printed with one declaration a line, whatever the comments at the ends of the
lines say: each item is read with the comment of its own line, and without a comment it has no
description. The header has a port, since without one its parameter list would be read only up to
the first parenthesis in it. -/
theorem ofSource_listing {name : Text} {rows : List Row} (hl : Listing name rows)
    (hb : (ofRows name rows).Bindable) {t : Text} (ht : LaidOut (rows.map Row.line) t)
    {w v : Text} (hw : w.allBlank) (hv : v.allBlank) : ofSource (t ++ (w ++ endKeyword ++ v)) =
      ⟨name, (ofRows name rows).parameters, (ofRows name rows).ports.map Port.shown⟩ := by
  have hplain : ∀ line ∈ rows.map Row.line, line.Plain :=
    List.forall_mem_map.2 fun r hr => hl.plain hr hb.printable
  have hparameter := hl.map_describeParameter hb ht hw hv
  have hport := hl.map_describePort hb ht hw hv
  obtain ⟨u, g, rfl, -, hu⟩ := Source.exists_spaced_of_laidOut ht hplain
  rw [List.flatMap_map, hl.tokens] at hu
  obtain ⟨header, hheader, hname, hparameters, hports⟩ :=
    exists_header_printed hb.printable hu (g ++ (w ++ endKeyword ++ v))
  rw [← List.append_assoc] at hheader
  rw [ofSource, ofViews_of_header hheader, hname, hparameters, hports, List.map_map, List.map_map,
    hparameter, hport]
  rfl

/-- The comment of the parameter looks like a port, one port has no comment, and the line of the
other one ends the header. -/
def pairRows : List Row :=
  [⟨[⟨false, moduleKeyword⟩, ⟨true, "m".toList⟩, ⟨false, ['#']⟩, ⟨false, ['(']⟩], none, [], none⟩,
    ⟨[], some (.parameter ⟨"W".toList, [], some "8".toList, []⟩), [],
      some " // input a".toList⟩,
    ⟨[⟨false, [')']⟩, ⟨false, ['(']⟩], none, [], none⟩,
    ⟨[], some (.port ⟨"a".toList, .input, "[W:0]".toList, none, []⟩), [⟨false, [',']⟩], none⟩,
    ⟨[], some (.port ⟨"q".toList, .output, [], none, []⟩), [⟨false, [')']⟩, ⟨false, [';']⟩],
      some "b ".toList⟩]

def pairHeader : Text :=
  ["module m #(\n", " parameter W = 8 // // input a\n", ")(\r\n", "input [W:0] a,\n",
    " output q); //b \n"].flatMap String.toList

theorem ofSource_listing_pair :
    Listing "m".toList pairRows ∧ (ofRows "m".toList pairRows).Bindable ∧
    LaidOut (pairRows.map Row.line) pairHeader ∧
    ofSource (pairHeader ++ ([] ++ endKeyword ++ ['\n'])) =
      ⟨"m".toList, [⟨"W".toList, [], some "8".toList, "// input a".toList⟩],
        [⟨"a".toList, .input, "(wire) [W:0]".toList, none, []⟩,
          ⟨"q".toList, .output, "(wire)".toList, none, "b".toList⟩]⟩ := by
  have hl : Listing "m".toList pairRows := ⟨rfl, by decide, by decide, by decide, by decide⟩
  have hwords {t : Text} (h : ∀ d : Direction, ¬ d.keyword <:+: t) (d : Direction) (n : Nat) :
      ¬ WordAt d.keyword t n := Text.not_wordAt_of_not_infix (h d) n
  have hempty : Fragment inType [] :=
    ⟨by decide +kernel, rfl, by decide, by decide, hwords (by rintro ⟨⟩ <;> decide), by decide⟩
  have hrange : Fragment inType "[W:0]".toList :=
    ⟨by decide +kernel, by decide, by decide, by decide, hwords (by rintro ⟨⟩ <;> decide),
      by decide⟩
  have hvalue : Fragment inValue "8".toList :=
    ⟨by decide +kernel, by decide, by decide, by decide, hwords (by rintro ⟨⟩ <;> decide),
      by decide⟩
  have hmention {d : Declaration} {k : Text} (h : ∀ t ∈ d.type :: d.value.toList, ¬ k <:+: t) :
      ¬ d.Mentions k := fun ⟨t, ht, n, hat⟩ => Text.not_wordAt_of_not_infix (h t ht) n hat
  have hrows : ofRows "m".toList pairRows =
      ⟨"m".toList, [⟨"W".toList, [], some "8".toList, "// input a".toList⟩],
        [⟨"a".toList, .input, "[W:0]".toList, none, []⟩,
          ⟨"q".toList, .output, [], none, "b".toList⟩]⟩ := rfl
  have hb : (ofRows "m".toList pairRows).Bindable := by
    rw [hrows]
    refine ⟨⟨by decide, ?_, ?_, by simp⟩, List.nodup_singleton _, by simp, by decide, ?_, ?_⟩
    · refine List.forall_mem_singleton.2 ⟨by decide, by decide, hempty, fun v hv => ?_⟩
      cases hv
      exact ⟨by simp, hvalue⟩
    · refine List.forall_mem_cons.2 ⟨?_, List.forall_mem_singleton.2 ?_⟩
      · exact ⟨by decide, by decide, hrange, fun v hv => by cases hv⟩
      · exact ⟨by decide, by decide, hempty, fun v hv => by cases hv⟩
    · refine List.forall_mem_singleton.2 ⟨by decide, fun k hk => hmention ?_, ?_⟩
      · revert k
        decide
      · exact List.forall_mem_singleton.2 fun h => absurd rfl h
    · refine List.forall_mem_cons.2 ⟨⟨by decide, fun k hk => hmention ?_, by simp⟩,
        List.forall_mem_singleton.2 ⟨by decide, fun k hk => hmention ?_, by simp⟩⟩
      · revert k
        decide
      · revert k
        decide
  have touch {token : Token} {tokens : List Token} {t : Text} (ha : token.apart = false)
      (ht : Spaced Inline tokens t) : Spaced Inline (token :: tokens) (token.text ++ t) :=
    .cons ⟨rfl, List.not_mem_nil, List.not_mem_nil⟩ (fun h => absurd h (by simp [ha])) ht
  have hspace : Inline [' '] := ⟨rfl, by decide, by decide⟩
  have apart {token : Token} {tokens : List Token} {t : Text} (ht : Spaced Inline tokens t) :
      Spaced Inline (token :: tokens) (' ' :: (token.text ++ t)) :=
    .cons hspace (fun _ => List.cons_ne_nil _ _) ht
  have hnone : Inline [] := ⟨rfl, List.not_mem_nil, List.not_mem_nil⟩
  have hmodule : Line.Code (Row.line pairRows[0]) "module m #(".toList :=
    @Line.Code.mk _ "module m #(".toList [] (touch rfl <| apart <| apart <| touch rfl .nil) hnone
  have hwidth : Line.Code (Row.line pairRows[1]) " parameter W = 8 ".toList :=
    @Line.Code.mk _ " parameter W = 8".toList [' ']
      (apart <| apart <| apart <| apart .nil) hspace
  have hports : Line.Code (Row.line pairRows[2]) ")(".toList :=
    @Line.Code.mk _ ")(".toList [] (touch rfl <| touch rfl .nil) hnone
  have hinput : Line.Code (Row.line pairRows[3]) "input [W:0] a,".toList :=
    @Line.Code.mk _ "input [W:0] a,".toList [] (touch rfl <| apart <| apart <| touch rfl .nil) hnone
  have houtput : Line.Code (Row.line pairRows[4]) " output q); ".toList :=
    @Line.Code.mk _ " output q);".toList [' '] (apart <| apart <| touch rfl <| touch rfl .nil) hspace
  have hlaid : LaidOut (pairRows.map Row.line) pairHeader :=
    LaidOut.cons hmodule (.inl rfl) <| LaidOut.cons hwidth (.inl rfl) <|
      LaidOut.cons hports (.inr rfl) <| LaidOut.cons hinput (.inl rfl) <|
      LaidOut.cons houtput (.inl rfl) .nil
  exact ⟨hl, hb, hlaid, ofSource_listing hl hb hlaid rfl rfl⟩

end Signature
end Pinout
