import Pinout.Proofs.Signature.LineComment
import Pinout.Proofs.Signature.WellFormed
import Pinout.Proofs.Text.WholeWord

/-!
# Pinout.Proofs.Signature.Commented

A description is a comment of the source, and stands behind the keyword and the name of what it
describes (`description_commented`).

The line on which they stand is a line of the views. There a comment or an attribute over several
lines is a blank, so it may be more than a line of the source (`description_over_lines`).
-/

namespace Pinout
namespace Signature

open Source (Piece Remark remarks views)
open Text (lastLine WordAt)

/-- One of the keywords is a word of the code, and behind it the name is one. -/
def Declares (keywords : List Text) (name code : Text) : Prop :=
  ∃ k ∈ keywords, ∃ m n, WordAt k code m ∧ WordAt name code n ∧ m + k.length ≤ n

/-- The comment says `d`. -/
def Says (r : Remark) (d : Text) : Prop := ∃ body, r.text = '/' :: '/' :: body ∧ d = Text.trim body

/-- A line of the views describes the name as `d`. Unless it starts inside a literal, `d` is what a
comment of the source says, and in front of that comment stands a declaration of the name, with no
newline between them but in comments and attributes. -/
def CommentedBy (source : Text) (keywords : List Text) (name d : Text) : Prop :=
  ∃ n line, (Text.lines (views source).described)[n]? = some line ∧
    describedBy? keywords name line = some d ∧
    (StartsInLiteral (Source.pieces source) n ∨ ∃ r ∈ remarks source, r.row = n ∧ Says r d ∧
      Declares keywords name (lastLine (r.before.flatMap Piece.bare)))

/-! ## Words of a line -/

section

variable {keywords : List Text} {name code rest line d : Text}

/-- A word behind a word is a word of the text. -/
theorem wordAt_behind {word : Text} (hn : Text.isIdentifier name) {m n : Nat}
    (hk : WordAt word code m) (h : WordAt name (code.drop (m + word.length)) n) :
    WordAt name code (m + word.length + n) := by
  obtain ⟨hoccurs, hleft, hright⟩ := h
  rw [List.drop_drop] at hoccurs hright
  have hname : name ≠ [] := Text.ne_nil_of_isIdentifier hn
  have hpos : n ≠ 0 := by
    rintro rfl
    -- the keyword would go on with the name
    obtain ⟨s, hs⟩ := hoccurs
    have hedge := hk.2.2
    rw [← Nat.add_zero (m + word.length), ← hs] at hedge
    have hstart := (Text.not_endsWord_identifier hn).1
    cases name with
    | nil => exact hname rfl
    | cons c name => exact absurd (hstart.symm.trans hedge) Bool.false_ne_true
  refine ⟨hoccurs, ?_, by rwa [Nat.add_assoc]⟩
  rw [List.take_add, List.reverse_append]
  refine Text.endsWord_append hleft (fun hnil => ?_) _
  have hdrop : code.drop (m + word.length) = [] := by
    rcases List.take_eq_nil_iff.1 (List.reverse_eq_nil_iff.1 hnil) with h | h
    · exact absurd h hpos
    · exact h
  rw [← List.drop_drop, hdrop, List.drop_nil, List.prefix_nil] at hoccurs
  exact hname hoccurs

theorem declares_of_afterFirstKeyword? (hn : Text.isIdentifier name)
    (hrest : afterFirstKeyword? keywords code = some rest)
    (hname : (Text.findWord? name rest).isSome) : Declares keywords name code := by
  obtain ⟨e, he, rfl⟩ := Option.map_eq_some_iff.1 hrest
  obtain ⟨k, hk, hfound⟩ := List.mem_filterMap.1 (List.min?_mem he)
  obtain ⟨m, hm, rfl⟩ := Option.map_eq_some_iff.1 hfound
  obtain ⟨n, hn'⟩ := Option.isSome_iff_exists.1 hname
  have hword := Text.wordAt_of_findWord? hm
  exact ⟨k, hk, m, _, hword, wordAt_behind hn hword (Text.wordAt_of_findWord? hn'),
    Nat.le_add_right _ n⟩

theorem exists_of_describedBy? (hn : Text.isIdentifier name)
    (h : describedBy? keywords name line = some d) :
    ∃ code comment, splitComment? line = some (code, comment) ∧ d = Text.trim comment ∧
      Declares keywords name code := by
  simp only [describedBy?, Option.bind_eq_bind, Option.bind_eq_some_iff] at h
  obtain ⟨⟨code, comment⟩, hc, rest, hrest, hd⟩ := h
  dsimp only at hrest hd
  split at hd
  · next hname =>
    cases hd
    exact ⟨code, comment, hc, rfl, declares_of_afterFirstKeyword? hn hrest hname⟩
  · cases hd

theorem commentedBy_of_description? {source : Text} (hn : Text.isIdentifier name)
    (h : description? (views source).described keywords name = some d) :
    CommentedBy source keywords name d := by
  obtain ⟨line, hline, hd⟩ := List.exists_of_findSome?_eq_some h
  obtain ⟨n, hl⟩ := List.mem_iff_getElem?.1 hline
  refine ⟨n, line, hl, hd, or_iff_not_imp_left.2 fun hs => ?_⟩
  obtain ⟨code, comment, hc, rfl, hdeclares⟩ := exists_of_describedBy? hn hd
  obtain ⟨r, hr, hrow, hcode, w, hw, htext⟩ := exists_of_splitComment? hl hc hs
  exact ⟨r, hr, hrow, ⟨_, htext, (Text.trim_append_right hw comment).symm⟩, hcode ▸ hdeclares⟩

end

/-! ## What is declared is not described -/

theorem description_of_namedParameter (inherited : Text) (value : Option Text) (declared : Text) :
    ∀ p ∈ namedParameter inherited value declared, p.description = [] := by
  intro p hp
  rw [namedParameter, Option.mem_def] at hp
  dsimp only at hp
  split at hp
  · cases hp
  · cases hp
    rfl

theorem description_of_parametersOfItems (inherited : Text) (items : List Text) :
    ∀ p ∈ parametersOfItems inherited items, p.description = [] := by
  induction items generalizing inherited with
  | nil => exact List.forall_mem_nil _
  | cons item items ih =>
    intro p hp
    simp only [parametersOfItems, List.mem_append] at hp
    rcases hp with hp | hp
    · rw [Option.mem_toList, parameterOfItem_eq] at hp
      split at hp
      · exact description_of_namedParameter _ _ _ p hp
      · exact description_of_namedParameter _ _ _ p hp
    · exact ih _ p hp

theorem description_of_portOfItem (current : Option (Direction × Text)) (item : Text) :
    ∀ p ∈ (portOfItem current item).1, p.description = [] := by
  intro p hp
  simp only [portOfItem] at hp
  split at hp
  · dsimp only at hp
    split at hp
    · cases hp
    · cases hp
      rfl
  · split at hp
    · split at hp
      · cases hp
      · cases hp
        rfl
    · cases hp

theorem description_of_portsOfItems (current : Option (Direction × Text)) (items : List Text) :
    ∀ p ∈ portsOfItems current items, p.description = [] := by
  induction items generalizing current with
  | nil => exact List.forall_mem_nil _
  | cons item items ih =>
    intro p hp
    simp only [portsOfItems, List.mem_append] at hp
    rcases hp with hp | hp
    · exact description_of_portOfItem current item p (Option.mem_toList.1 hp)
    · exact ih _ p hp

theorem Header.description_of_parameters (h : Header) : ∀ p ∈ h.parameters, p.description = [] := by
  rw [Header.parameters]
  cases (splitParameterList h.body).1 with
  | none => exact List.forall_mem_nil _
  | some list => exact description_of_parametersOfItems [] _

theorem Header.description_of_ports (h : Header) : ∀ p ∈ h.ports, p.description = [] := by
  rw [Header.ports]
  cases portList? (splitParameterList h.body).2 with
  | none => exact List.forall_mem_nil _
  | some list => exact description_of_portsOfItems none _

/-! ## Descriptions -/

/-- A description that is not empty was found on a line. -/
theorem commentedBy_of_getD {source : Text} {keywords : List Text} {name d : Text}
    (hn : Text.isIdentifier name)
    (h : (description? (views source).described keywords name).getD [] = d) (hd : d ≠ []) :
    CommentedBy source keywords name d := by
  cases hf : description? (views source).described keywords name with
  | none =>
    rw [hf] at h
    exact absurd h.symm hd
  | some e =>
    rw [hf] at h
    exact h ▸ commentedBy_of_description? hn hf

/-- Every description comes from a comment of the source that stands behind the keyword and the name
of what it describes. -/
theorem description_commented (source : Text) :
    (∀ p ∈ (ofSource source).parameters, p.description ≠ [] →
      CommentedBy source parameterKeywords p.name p.description) ∧
    ∀ p ∈ (ofSource source).ports, p.description ≠ [] →
      CommentedBy source [p.direction.keyword] p.name p.description := by
  rw [ofSource]
  cases hh : header? (views source).stripped with
  | none =>
    rw [ofViews_of_none hh]
    exact ⟨List.forall_mem_nil _, List.forall_mem_nil _⟩
  | some h =>
    rw [ofViews_of_header hh]
    refine ⟨fun p hp hd => ?_, fun p hp hd => ?_⟩
    · obtain ⟨q, hq, rfl⟩ := List.mem_map.1 hp
      refine commentedBy_of_getD (h.parameters_wellFormed q hq).name ?_ hd
      rw [← h.description_of_parameters q hq]
      rfl
    · obtain ⟨q, hq, rfl⟩ := List.mem_map.1 hp
      refine commentedBy_of_getD (h.ports_wellFormed q hq).name ?_ hd
      rw [← h.description_of_ports q hq]
      rfl

/-- A default that looks like a comment, and comments on either side of the ports. -/
theorem description_commented_list :
    (ofSource "module m #(\n parameter P = \"// a\" // first\n) (input a); // second\n".toList) =
      ⟨"m".toList, [⟨"P".toList, [], some "\"// a\"".toList, "first".toList⟩],
        [⟨"a".toList, .input, "(wire)".toList, none, "second".toList⟩]⟩ ∧
    CommentedBy "module m #(\n parameter P = \"// a\" // first\n) (input a); // second\n".toList
      parameterKeywords "P".toList "first".toList ∧
    CommentedBy "module m #(\n parameter P = \"// a\" // first\n) (input a); // second\n".toList
      ["input".toList] "a".toList "second".toList := by
  have hs : (ofSource
      "module m #(\n parameter P = \"// a\" // first\n) (input a); // second\n".toList) =
      ⟨"m".toList, [⟨"P".toList, [], some "\"// a\"".toList, "first".toList⟩],
        [⟨"a".toList, .input, "(wire)".toList, none, "second".toList⟩]⟩ := by decide +kernel
  obtain ⟨hparameters, hports⟩ := description_commented
    "module m #(\n parameter P = \"// a\" // first\n) (input a); // second\n".toList
  rw [hs] at hparameters hports
  exact ⟨hs, hparameters _ List.mem_cons_self (by decide), hports _ List.mem_cons_self (by decide)⟩

/-- A block comment between the keyword and the name takes the name to another line of the source. -/
theorem description_over_lines :
    ∃ p ∈ (ofSource "module m (\n input /* first\n operand */ a // note\n);\n".toList).ports,
      p.description ≠ [] ∧
      ¬ ∃ r ∈ remarks "module m (\n input /* first\n operand */ a // note\n);\n".toList,
        Says r p.description ∧
          Declares [p.direction.keyword] p.name (lastLine (r.before.flatMap Piece.text)) := by
  have hports : (ofSource "module m (\n input /* first\n operand */ a // note\n);\n".toList).ports =
      [⟨"a".toList, .input, "(wire)".toList, none, "note".toList⟩] := by decide +kernel
  have hlines : (remarks "module m (\n input /* first\n operand */ a // note\n);\n".toList).map
      (fun r => lastLine (r.before.flatMap Piece.text)) = [" operand */ a ".toList] := by
    decide +kernel
  rw [hports]
  refine ⟨_, List.mem_cons_self, by decide, ?_⟩
  rintro ⟨r, hr, -, k, hk, m, -, hword, -⟩
  obtain rfl : k = "input".toList := List.mem_singleton.1 hk
  have hline := List.mem_map_of_mem (f := fun r => lastLine (r.before.flatMap Piece.text)) hr
  rw [hlines, List.mem_singleton] at hline
  rw [hline] at hword
  exact Text.not_wordAt_of_not_infix (by decide) m hword

end Signature
end Pinout
