import Pinout.Note.Wave
import Pinout.Proofs.Text.Search

/-!
# Pinout.Proofs.Note.Block

Wave blocks inside lists of lines. `Opens line o` says that `o` is the leftmost opening tag of a
line, and the search for one finds just that (`opening?_eq_some_iff`). `Block o lines t` says that
`lines` are one block, from the line that `o` opens to the first closing tag behind it, with the text
`t` in it, and `Unclosed o lines` that the closing tag never comes. `body?_of_block` and
`body?_of_unclosed` say that the search for the end finds just that.

The other lemmas say that neither the first opening nor the end of a block depends on the lines
behind it.
-/

namespace Pinout
namespace Note
namespace Wave

/-- The opening tag stands in the line, and none of any name stands further left. -/
structure Opens (line : Text) (o : Opening) : Prop where
  tag : (o.tag, o.format) ∈ tags
  indent : o.indent = indentOf line
  leftmost : ∃ before, line = before ++ ('<' :: o.tag ++ ['>']) ++ o.rest ∧
    ∀ tag ∈ tags, ∀ a b, line = a ++ ('<' :: tag.1 ++ ['>']) ++ b → before.length ≤ a.length

inductive Block (o : Opening) : List Text → Text → Prop where
  | line {first before after : Text} (ho : Opens first o)
      (hr : o.rest = before ++ closing o ++ after) (hb : ¬ closing o <:+: before) :
      Block o [first] before
  | lines {first last before after : Text} {middle : List Text} (ho : Opens first o)
      (hr : ¬ closing o <:+: o.rest) (hm : ∀ line ∈ middle, ¬ closing o <:+: line)
      (hl : last = before ++ closing o ++ after) (hb : ¬ closing o <:+: before) :
      Block o (first :: (middle ++ [last]))
        (Text.joinWith ['\n'] ((if o.rest.allBlank then [] else [o.rest]) ++
          middle.map (stripIndent o.indent) ++ [stripIndent o.indent before]))

structure Unclosed (o : Opening) (first : Text) (behind : List Text) : Prop where
  opens : Opens first o
  rest : ¬ closing o <:+: o.rest
  behind : ∀ line ∈ behind, ¬ closing o <:+: line

/-! ## Openings -/

theorem firstOf_eq_none_iff {os : List (Nat × Opening)} : firstOf os = none ↔ os = [] := by
  cases os with
  | nil => simp [firstOf]
  | cons o os =>
    simp only [firstOf, reduceCtorEq, iff_false]
    split
    · split <;> simp
    · simp

theorem mem_of_firstOf {os : List (Nat × Opening)} {o : Nat × Opening} (h : firstOf os = some o) :
    o ∈ os := by
  induction os with
  | nil => cases h
  | cons p os ih =>
    unfold firstOf at h
    split at h
    · next q hq =>
      split at h
      · cases h
        exact List.mem_cons_of_mem _ (ih hq)
      · cases h
        exact List.mem_cons_self
    · cases h
      exact List.mem_cons_self

theorem opening?_eq_none_iff {line : Text} :
    opening? line = none ↔ ∀ tag ∈ tags, ¬ '<' :: tag.1 ++ ['>'] <:+: line := by
  rw [opening?, Option.map_eq_none_iff, firstOf_eq_none_iff, List.filterMap_eq_nil_iff]
  simp only [openingOf?, Option.map_eq_none_iff, Text.splitAround?_eq_none_iff]

theorem le_of_firstOf {os : List (Nat × Opening)} {o : Nat × Opening} (h : firstOf os = some o) :
    ∀ p ∈ os, o.1 ≤ p.1 := by
  induction os generalizing o with
  | nil => cases h
  | cons q os ih =>
    rw [firstOf] at h
    cases hf : firstOf os with
    | none =>
      rw [hf] at h
      cases h
      rw [firstOf_eq_none_iff.1 hf]
      simp
    | some r =>
      have hr := ih hf
      rw [hf] at h
      dsimp only at h
      intro p hp
      split at h
      · next hlt =>
        cases h
        rcases List.mem_cons.1 hp with rfl | hp
        · exact Nat.le_of_lt hlt
        · exact hr p hp
      · next hle =>
        cases h
        rcases List.mem_cons.1 hp with rfl | hp
        · exact Nat.le_refl _
        · exact Nat.le_trans (Nat.le_of_not_lt hle) (hr p hp)

theorem opens_of_opening? {line : Text} {o : Opening} (h : opening? line = some o) :
    Opens line o := by
  obtain ⟨⟨n, p⟩, hp, he⟩ := Option.map_eq_some_iff.1 h
  cases he
  obtain ⟨tag, ht, hs⟩ := List.mem_filterMap.1 (mem_of_firstOf hp)
  obtain ⟨⟨before, rest⟩, hcut, he⟩ := Option.map_eq_some_iff.1 hs
  cases he
  refine ⟨ht, rfl, before, Text.append_of_splitAround? hcut, fun other hother a b hline => ?_⟩
  cases hcut' : Text.splitAround? ('<' :: other.1 ++ ['>']) line with
  | none => exact absurd ⟨a, b, hline.symm⟩ (Text.splitAround?_eq_none_iff.1 hcut')
  | some cut =>
    have hfound : openingOf? line other =
        some (cut.1.length, ⟨other.1, other.2, indentOf line, cut.2⟩) := by
      rw [openingOf?, hcut']
      rfl
    have hfirst := le_of_firstOf hp _ (List.mem_filterMap.2 ⟨other, hother, hfound⟩)
    exact Nat.le_trans hfirst (Text.length_le_of_splitAround? hcut' hline)

/-- A tag ends in its only `>`, so two tags that stand at one place are the same. -/
theorem Opens.unique {line : Text} {o p : Opening} (ho : Opens line o) (hp : Opens line p) :
    o = p := by
  have hgt : ∀ tag ∈ tags, '>' ∉ '<' :: tag.1 := by decide
  have hformat : ∀ tag ∈ tags, ∀ other ∈ tags, tag.1 = other.1 → tag.2 = other.2 := by decide
  obtain ⟨before, hline, hfirst⟩ := ho.leftmost
  obtain ⟨before', hline', hfirst'⟩ := hp.leftmost
  have hlength : before.length = before'.length :=
    Nat.le_antisymm (hfirst _ hp.tag _ _ hline') (hfirst' _ ho.tag _ _ hline)
  rw [hline] at hline'
  simp only [List.append_assoc] at hline'
  obtain ⟨-, htail⟩ := List.append_inj hline' hlength
  obtain ⟨hname, hrest⟩ := Text.append_cons_inj (hgt _ ho.tag) (hgt _ hp.tag) htail
  have htag : o.tag = p.tag := (List.cons.inj hname).2
  have hsame := hformat _ ho.tag _ hp.tag htag
  have hindent : o.indent = p.indent := ho.indent.trans hp.indent.symm
  cases o
  cases p
  congr

theorem opening?_eq_some_iff {line : Text} {o : Opening} :
    opening? line = some o ↔ Opens line o := by
  constructor
  · exact opens_of_opening?
  · intro h
    obtain ⟨before, hline, -⟩ := h.leftmost
    cases hfound : opening? line with
    | none => exact absurd ⟨before, o.rest, hline.symm⟩ (opening?_eq_none_iff.1 hfound _ h.tag)
    | some p => rw [(opens_of_opening? hfound).unique h]

instance (line : Text) (o : Opening) : Decidable (Opens line o) :=
  decidable_of_iff _ opening?_eq_some_iff

/-- A closing tag ends in its only `>`. -/
theorem gt_not_mem_closing {line : Text} {o : Opening} (h : Opens line o) :
    '>' ∉ "</".toList ++ o.tag := by
  have ht : ∀ tag ∈ tags, '>' ∉ "</".toList ++ tag.1 := by decide
  exact ht _ h.tag

theorem splitAround?_closing {line before after : Text} {o : Opening} (h : Opens line o)
    (hb : ¬ closing o <:+: before) :
    Text.splitAround? (closing o) (before ++ closing o ++ after) = some (before, after) :=
  Text.splitAround?_append_concat (gt_not_mem_closing h) hb

theorem firstOpening?_append_of_none {a : List Text} (h : firstOpening? a = none)
    (b : List Text) :
    firstOpening? (a ++ b) = (firstOpening? b).map fun (x, o, r) => (a ++ x, o, r) := by
  induction a with
  | nil => simp
  | cons line a ih =>
    unfold firstOpening? at h
    split at h
    · cases h
    · next ho =>
      rw [List.cons_append, firstOpening?, ho, ih (Option.map_eq_none_iff.1 h), Option.map_map]
      rfl

theorem firstOpening?_append_of_some {a x r : List Text} {o : Opening}
    (h : firstOpening? a = some (x, o, r)) (b : List Text) :
    firstOpening? (a ++ b) = some (x, o, r ++ b) := by
  induction a generalizing x with
  | nil => cases h
  | cons line a ih =>
    unfold firstOpening? at h
    rw [List.cons_append, firstOpening?]
    split at h
    · cases h
      rfl
    · obtain ⟨⟨y, p, s⟩, hy, he⟩ := Option.map_eq_some_iff.1 h
      cases he
      rw [ih hy]
      rfl

theorem firstOpening?_eq_none {lines : List Text} (h : ∀ line ∈ lines, opening? line = none) :
    firstOpening? lines = none := by
  induction lines with
  | nil => rfl
  | cons line lines ih =>
    rw [firstOpening?, h line List.mem_cons_self, ih fun l hl => h l (List.mem_cons_of_mem _ hl)]
    rfl

theorem prefix_of_firstOpening? {lines before behind : List Text} {o : Opening}
    (h : firstOpening? lines = some (before, o, behind)) : before <+: lines := by
  induction lines generalizing before with
  | nil => cases h
  | cons line lines ih =>
    unfold firstOpening? at h
    split at h
    · cases h
      exact List.nil_prefix
    · obtain ⟨⟨b, p, r⟩, hb, he⟩ := Option.map_eq_some_iff.1 h
      cases he
      exact List.cons_prefix_cons.2 ⟨rfl, ih hb⟩

theorem exists_line_of_firstOpening? {lines before behind : List Text} {o : Opening}
    (h : firstOpening? lines = some (before, o, behind)) :
    ∃ line, opening? line = some o ∧ lines = before ++ line :: behind := by
  induction lines generalizing before with
  | nil => cases h
  | cons line lines ih =>
    unfold firstOpening? at h
    split at h
    · next p ho =>
      cases h
      exact ⟨line, ho, rfl⟩
    · obtain ⟨⟨b, p, r⟩, hb, he⟩ := Option.map_eq_some_iff.1 h
      cases he
      obtain ⟨first, ho, rfl⟩ := ih hb
      exact ⟨first, ho, rfl⟩

/-! ## The end of a block -/

theorem suffix_of_untilClosing? {o : Opening} {lines body rest : List Text}
    (h : untilClosing? o lines = some (body, rest)) : rest <:+ lines := by
  induction lines generalizing body with
  | nil => cases h
  | cons line lines ih =>
    unfold untilClosing? at h
    split at h
    · cases h
      exact List.suffix_cons _ _
    · obtain ⟨⟨b, r⟩, hb, he⟩ := Option.map_eq_some_iff.1 h
      cases he
      exact (ih hb).trans (List.suffix_cons _ _)

theorem suffix_of_body? {o : Opening} {lines rest : List Text} {t : Text}
    (h : body? o lines = some (t, rest)) : rest <:+ lines := by
  unfold body? at h
  split at h
  · cases h
    exact List.suffix_rfl
  · obtain ⟨⟨b, r⟩, hb, he⟩ := Option.map_eq_some_iff.1 h
    cases he
    exact suffix_of_untilClosing? hb

theorem untilClosing?_append {o : Opening} {lines body rest : List Text}
    (h : untilClosing? o lines = some (body, rest)) (b : List Text) :
    untilClosing? o (lines ++ b) = some (body, rest ++ b) := by
  induction lines generalizing body with
  | nil => cases h
  | cons line lines ih =>
    unfold untilClosing? at h
    rw [List.cons_append, untilClosing?]
    split at h
    · cases h
      rfl
    · obtain ⟨⟨x, r⟩, hx, he⟩ := Option.map_eq_some_iff.1 h
      cases he
      rw [ih hx]
      rfl

theorem body?_append {o : Opening} {lines rest : List Text} {t : Text}
    (h : body? o lines = some (t, rest)) (b : List Text) :
    body? o (lines ++ b) = some (t, rest ++ b) := by
  unfold body? at h ⊢
  split at h
  · cases h
    rfl
  · obtain ⟨⟨x, r⟩, hx, he⟩ := Option.map_eq_some_iff.1 h
    cases he
    rw [untilClosing?_append hx]
    rfl

theorem untilClosing?_of_lines {first last before after : Text} {o : Opening} {middle : List Text}
    (ho : Opens first o) (hm : ∀ line ∈ middle, ¬ closing o <:+: line)
    (hl : last = before ++ closing o ++ after) (hb : ¬ closing o <:+: before) :
    untilClosing? o (middle ++ [last]) =
      some (middle.map (stripIndent o.indent) ++ [stripIndent o.indent before], []) := by
  induction middle with
  | nil =>
    rw [hl, List.nil_append, untilClosing?, splitAround?_closing ho hb]
    rfl
  | cons line middle ih =>
    rw [List.cons_append, untilClosing?,
      Text.splitAround?_eq_none_iff.2 (hm line List.mem_cons_self),
      ih fun l h => hm l (List.mem_cons_of_mem _ h)]
    rfl

/-- The search for the end of a block takes the lines of the block and no more. -/
theorem body?_of_block {o : Opening} {first : Text} {more : List Text} {t : Text}
    (h : Block o (first :: more) t) : Opens first o ∧ body? o more = some (t, []) := by
  generalize hl : first :: more = lines at h
  cases h with
  | line ho hr hb =>
    cases hl
    refine ⟨ho, ?_⟩
    rw [body?, hr, splitAround?_closing ho hb]
  | lines ho hr hm hlast hb =>
    cases hl
    refine ⟨ho, ?_⟩
    rw [body?, Text.splitAround?_eq_none_iff.2 hr, untilClosing?_of_lines ho hm hlast hb]
    dsimp only [Option.map_some]
    split <;> rfl

theorem body?_of_unclosed {o : Opening} {first : Text} {behind : List Text}
    (h : Unclosed o first behind) : body? o behind = none := by
  rw [body?, Text.splitAround?_eq_none_iff.2 h.rest]
  refine Option.map_eq_none_iff.2 ?_
  have hb := h.behind
  clear h
  induction behind with
  | nil => rfl
  | cons line behind ih =>
    rw [untilClosing?, Text.splitAround?_eq_none_iff.2 (hb line List.mem_cons_self),
      ih fun l hl => hb l (List.mem_cons_of_mem _ hl)]
    rfl

end Wave
end Note
end Pinout
