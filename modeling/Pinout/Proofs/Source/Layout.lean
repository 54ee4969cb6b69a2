import Pinout.Proofs.Source.Stripped
import Pinout.Proofs.Text.Blank

/-!
# Pinout.Proofs.Source.Layout

Tokens laid out with gaps. `Spaced gap tokens t` says that `t` is the tokens in order with a gap
before each one. When the gaps of a source are blanks and comments (`Gap`), its stripped view is the
same tokens with only blanks in the gaps (`bare_spaced`).

Newlines come first: `unifyNewlines_spaced` keeps the gaps what they are. Then each gap shows blanks
(`bare_gap`) and each token itself (`bare_chunk`), as long as no comment or attribute starts in a
token or where two meet.
-/

namespace Pinout
namespace Source

open Text (isBlank allBlank unifyNewlines)

/-- Any mix of blanks, block comments and comments at line ends. -/
inductive Gap : Text → Prop where
  | nil : Gap []
  | blank {c : Char} {g : Text} (hc : isBlank c) (hg : Gap g) : Gap (c :: g)
  | block {body g : Text} (hb : ¬ ['*', '/'] <:+: body) (hg : Gap g) :
      Gap ('/' :: '*' :: (body ++ ['*', '/'] ++ g))
  | line {body g : Text} (hb : '\n' ∉ body) (hg : Gap g) :
      Gap ('/' :: '/' :: (body ++ '\n' :: g))

/-- Gaps without comments. -/
abbrev Blanks (g : Text) : Prop := g.allBlank

/-- A text, and whether something must stand between it and the token before. -/
structure Token where
  apart : Bool
  text : Text

/-- The tokens in order, with a gap before each. -/
inductive Spaced (gap : Text → Prop) : List Token → Text → Prop where
  | nil : Spaced gap [] []
  | cons {g t : Text} {token : Token} {tokens : List Token} (hg : gap g)
      (ha : token.apart → g ≠ []) (ht : Spaced gap tokens t) :
      Spaced gap (token :: tokens) (g ++ token.text ++ t)

theorem spaced_nil {gap : Text → Prop} {t : Text} (h : Spaced gap [] t) : t = [] := by
  cases h
  rfl

theorem Spaced.touch {gap : Text → Prop} (hg : gap []) {token : Token} {tokens : List Token}
    {t : Text} (ha : token.apart = false) (ht : Spaced gap tokens t) :
    Spaced gap (token :: tokens) (token.text ++ t) :=
  .cons hg (fun h => absurd h (by simp [ha])) ht

theorem Spaced.apart {gap : Text → Prop} {g : Text} (hg : gap g) (hne : g ≠ []) {token : Token}
    {tokens : List Token} {t : Text} (ht : Spaced gap tokens t) :
    Spaced gap (token :: tokens) (g ++ token.text ++ t) :=
  .cons hg (fun _ => hne) ht

theorem exists_of_spaced_cons {gap : Text → Prop} {token : Token} {tokens : List Token} {t : Text}
    (h : Spaced gap (token :: tokens) t) :
    ∃ g u, t = g ++ token.text ++ u ∧ gap g ∧ (token.apart → g ≠ []) ∧ Spaced gap tokens u := by
  cases h with
  | cons hg ha ht => exact ⟨_, _, rfl, hg, ha, ht⟩

theorem spaced_append_iff {gap : Text → Prop} {a b : List Token} {t : Text} :
    Spaced gap (a ++ b) t ↔ ∃ u v, t = u ++ v ∧ Spaced gap a u ∧ Spaced gap b v := by
  induction a generalizing t with
  | nil =>
    constructor
    · exact fun h => ⟨[], t, rfl, .nil, h⟩
    · rintro ⟨u, v, rfl, hu, hv⟩
      cases hu
      exact hv
  | cons token a ih =>
    constructor
    · intro h
      cases h with
      | @cons g t _ _ hg ha ht =>
        obtain ⟨u, v, rfl, hu, hv⟩ := ih.1 ht
        exact ⟨g ++ token.text ++ u, v, by simp, .cons hg ha hu, hv⟩
    · rintro ⟨u, v, rfl, hu, hv⟩
      cases hu with
      | @cons g u _ _ hg ha hu =>
        have h := Spaced.cons hg ha (ih.2 ⟨u, v, rfl, hu, hv⟩)
        simpa using h

/-- What holds of the gaps and of the tokens holds of the text, if it holds of texts put together. -/
theorem spaced_forall {gap P : Text → Prop} (nil : P []) (append : ∀ a b, P a → P b → P (a ++ b))
    (hg : ∀ g, gap g → P g) {tokens : List Token} (ht : ∀ token ∈ tokens, P token.text) {t : Text}
    (h : Spaced gap tokens t) : P t := by
  induction h with
  | nil => exact nil
  | @cons g t token tokens hgap _ _ ih =>
    refine append _ _ (append _ _ (hg g hgap) (ht token List.mem_cons_self)) ?_
    exact ih fun a ha => ht a (List.mem_cons_of_mem _ ha)

/-- A text without quotes in which no comment starts, even with what follows it. -/
structure Chunk (t : Text) : Prop where
  ne : t ≠ []
  clean : ∀ c ∈ t, c ≠ '"' ∧ c ≠ '\n' ∧ c ≠ '\r'
  pairs : ∀ c d, [c, d] <:+: t → opens c d = false
  last : t.getLast? ≠ some '/'

/-- No attribute starts where two tokens meet. -/
def Seamless : List Token → Prop
  | a :: b :: rest =>
    (a.text.getLast? = some '(' → b.text.head? ≠ some '*') ∧ Seamless (b :: rest)
  | [a] => a.text.getLast? ≠ some '('
  | [] => True

/-! ## Newlines -/

theorem gap_unifyNewlines {g : Text} (h : Gap g) : Gap (unifyNewlines g) := by
  induction h with
  | nil => exact .nil
  | blank hc hg ih =>
    rw [Text.unifyNewlines_cons]
    split
    · exact ih
    · exact .blank hc ih
  | @block body g hb hg ih =>
    have hbody : ¬ ['*', '/'] <:+: unifyNewlines body :=
      fun hi => hb (Text.pair_infix_of_unifyNewlines (by decide) hi)
    have hu : unifyNewlines ('/' :: '*' :: (body ++ ['*', '/'] ++ g)) =
        '/' :: '*' :: (unifyNewlines body ++ ['*', '/'] ++ unifyNewlines g) := by
      rw [Text.unifyNewlines_cons_of_ne (by decide), Text.unifyNewlines_cons_of_ne (by decide),
        List.append_assoc, Text.unifyNewlines_append (by simp),
        Text.unifyNewlines_append_of_not_mem (by decide), List.append_assoc]
    rw [hu]
    exact .block hbody ih
  | @line body g hb hg ih =>
    obtain ⟨line, hl, he⟩ := Text.exists_line_unifyNewlines hb g
    rw [Text.unifyNewlines_cons_of_ne (by decide), Text.unifyNewlines_cons_of_ne (by decide), he]
    exact .line hl ih

theorem head?_chunk {t : Text} (h : Chunk t) (u : Text) : (t ++ u).head? ≠ some '\n' := by
  obtain ⟨c, t, rfl⟩ := List.exists_cons_of_ne_nil h.ne
  have := (h.clean c List.mem_cons_self).2.1
  simpa using this

theorem unifyNewlines_spaced {tokens : List Token} {t : Text} (h : Spaced Gap tokens t)
    (hc : ∀ token ∈ tokens, Chunk token.text) :
    ∃ u, Spaced Gap tokens u ∧ ∀ rest, unifyNewlines (t ++ rest) = u ++ unifyNewlines rest := by
  induction h with
  | nil => exact ⟨[], .nil, fun _ => rfl⟩
  | @cons g t token tokens hg ha ht ih =>
    obtain ⟨u, hu, he⟩ := ih fun a hm => hc a (List.mem_cons_of_mem _ hm)
    have htoken := hc token List.mem_cons_self
    refine ⟨_, .cons (gap_unifyNewlines hg) (fun h => Text.unifyNewlines_ne_nil (ha h)) hu,
      fun rest => ?_⟩
    rw [List.append_assoc, List.append_assoc, Text.unifyNewlines_append (head?_chunk htoken _),
      Text.unifyNewlines_append_of_not_mem fun hm => (htoken.clean _ hm).2.2 rfl, he]
    simp only [List.append_assoc]

/-! ## Comments -/

theorem bare_blank {c : Char} (hc : isBlank c) (t : Text) : bare (c :: t) = c :: bare t := by
  have h := rawPieces_blanks_append (w := [c]) (by rw [allBlank, List.all_cons, hc]; rfl) t
  rw [List.singleton_append, List.map_singleton, List.singleton_append] at h
  rw [bare, h, List.flatMap_cons]
  split
  · next hn => rw [hn]; rfl
  · rfl

theorem bare_gap {g : Text} (h : Gap g) :
    ∃ w : Text, w.allBlank ∧ (g ≠ [] → w ≠ []) ∧ ∀ r, bare (g ++ r) = w ++ bare r := by
  induction h with
  | nil => exact ⟨[], rfl, id, fun r => rfl⟩
  | @blank c g hc hg ih =>
    obtain ⟨w, hw, _, hr⟩ := ih
    refine ⟨c :: w, ?_, by simp, fun r => ?_⟩
    · rw [allBlank, List.all_cons, hc]
      exact hw
    · rw [List.cons_append, bare_blank hc, hr]
      rfl
  | @block body g hb hg ih =>
    obtain ⟨w, hw, _, hr⟩ := ih
    refine ⟨' ' :: w, hw, by simp, fun r => ?_⟩
    have hcat : '/' :: '*' :: (body ++ ['*', '/'] ++ g) ++ r =
        '/' :: '*' :: (body ++ ['*', '/'] ++ (g ++ r)) := by simp
    rw [hcat, bare_cons (.blockComment _ hb), hr]
    rfl
  | @line body g hb hg ih =>
    obtain ⟨w, hw, _, hr⟩ := ih
    refine ⟨'\n' :: w, hw, by simp, fun r => ?_⟩
    have hcat : '/' :: '/' :: (body ++ '\n' :: g) ++ r = '/' :: '/' :: (body ++ '\n' :: (g ++ r)) := by
      simp
    rw [hcat, bare_cons (.lineComment hb rfl), bare_newline, hr]
    rfl

/-- A token is code, and stays. -/
theorem bare_chunk {t : Text} (h : Chunk t) {r : Text}
    (hr : t.getLast? = some '(' → r.head? ≠ some '*') : bare (t ++ r) = t ++ bare r := by
  obtain ⟨hne, hclean, hpairs, hlast⟩ := h
  induction t with
  | nil => exact absurd rfl hne
  | cons c t ih =>
    have hc := hclean c List.mem_cons_self
    cases t with
    | nil =>
      refine bare_cons (.code hc.2.1 hc.1 fun d hd => ?_)
      have h₁ : c ≠ '/' := fun e => hlast (by rw [e]; rfl)
      have h₂ : ¬ (c = '(' ∧ d = '*') := fun e => hr (by rw [e.1]; rfl) (e.2 ▸ hd)
      simpa [opens, h₁] using h₂
    | cons d t =>
      have hd : ∀ e, (d :: t ++ r).head? = some e → opens c e = false := by
        intro e he
        cases he
        exact hpairs c d ⟨[], t, rfl⟩
      rw [List.cons_append, bare_cons (.code hc.2.1 hc.1 hd), ih hr (List.cons_ne_nil d t)
        (fun e he => hclean e (List.mem_cons_of_mem _ he))
        (fun a b hi => hpairs a b (List.infix_cons hi)) hlast]
      rfl

theorem head?_gap {g : Text} (h : Gap g) : g.head? ≠ some '*' := by
  cases h with
  | nil => simp
  | blank hc =>
    intro he
    cases he
    cases hc
  | block | line => simp

theorem head?_spaced {a b : Token} {rest : List Token} {t : Text} (hs : Seamless (a :: b :: rest))
    (h : Spaced Gap (b :: rest) t) (hb : Chunk b.text) (ha : a.text.getLast? = some '(') (u : Text) :
    (t ++ u).head? ≠ some '*' := by
  cases h with
  | @cons g t _ _ hg =>
    cases g with
    | nil =>
      have := hs.1 ha
      obtain ⟨c, v, hv⟩ := List.exists_cons_of_ne_nil hb.ne
      rw [hv] at this ⊢
      exact this
    | cons c g =>
      have := head?_gap hg
      simpa using this

/-- Without its comments a source shows its tokens, with blanks in the gaps. -/
theorem bare_spaced {tokens : List Token} {t : Text} (h : Spaced Gap tokens t)
    (hc : ∀ token ∈ tokens, Chunk token.text) (hs : Seamless tokens) :
    ∃ u, Spaced Blanks tokens u ∧ ∀ rest, bare (t ++ rest) = u ++ bare rest := by
  induction h with
  | nil => exact ⟨[], .nil, fun _ => rfl⟩
  | @cons g t token tokens hg ha ht ih =>
    have hrest := fun a hm => hc a (List.mem_cons_of_mem _ hm)
    have hseam (rest : Text) :
        token.text.getLast? = some '(' → (t ++ rest).head? ≠ some '*' := by
      intro hl
      cases tokens with
      | nil => exact absurd hl hs
      | cons b tokens => exact head?_spaced hs ht (hrest b List.mem_cons_self) hl rest
    have hs' : Seamless tokens := by
      cases tokens with
      | nil => trivial
      | cons b tokens => exact hs.2
    obtain ⟨u, hu, he⟩ := ih hrest hs'
    obtain ⟨w, hw, hne, hgap⟩ := bare_gap hg
    refine ⟨_, .cons hw (fun h => hne (ha h)) hu, fun rest => ?_⟩
    rw [List.append_assoc, List.append_assoc, hgap,
      bare_chunk (hc token List.mem_cons_self) (hseam rest), he]
    simp only [List.append_assoc]

/-- What tokens laid out in a source show does not depend on the text behind them. -/
theorem exists_bare {tokens : List Token} {t : Text} (h : Spaced Gap tokens t)
    (hc : ∀ token ∈ tokens, Chunk token.text) (hs : Seamless tokens) :
    ∃ u, Spaced Blanks tokens u ∧
      ∀ rest, bare (unifyNewlines (t ++ rest)) = u ++ bare (unifyNewlines rest) := by
  obtain ⟨u, hu, he⟩ := unifyNewlines_spaced h hc
  obtain ⟨v, hv, hb⟩ := bare_spaced hu hc hs
  exact ⟨v, hv, fun rest => by rw [he, hb]⟩

/-- The stripped view of tokens laid out in a source. -/
theorem stripped_spaced {tokens : List Token} {t : Text} (h : Spaced Gap tokens t)
    (hc : ∀ token ∈ tokens, Chunk token.text) (hs : Seamless tokens) (rest : Text) :
    ∃ u r, Spaced Blanks tokens u ∧ (views (t ++ rest)).stripped = u ++ r := by
  obtain ⟨u, hu, he⟩ := exists_bare h hc hs
  exact ⟨u, _, hu, by rw [stripped_views, he]⟩

end Source
end Pinout
