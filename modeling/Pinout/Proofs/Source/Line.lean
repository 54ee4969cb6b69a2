import Pinout.Proofs.Source.Layout
import Pinout.Proofs.Source.Seam
import Pinout.Proofs.Text.Line
import Pinout.Proofs.Text.WholeWord

/-!
# Pinout.Proofs.Source.Line

Sources of lines. A line holds tokens with blanks between them and perhaps a comment behind them
(`Line.Code`, `LaidOut`). The lines of a source are its tokens laid out with gaps
(`exists_spaced_of_laidOut`), and the described text shows them as they are, so a search through its
lines is a search through the lines of the source (`findSome?_laidOut`).

A word of the code of a line is a word of one of its tokens, if no identifier goes over the seam of
two that may touch (`Separate`, `lacks_of_spaced`).
-/

namespace Pinout
namespace Source

open Text (isBlank allBlank unifyNewlines endsWord Lacks)

/-- Blanks that end no line. -/
def Inline (g : Text) : Prop := g.allBlank ∧ '\n' ∉ g ∧ '\r' ∉ g

structure Line where
  tokens : List Token
  comment : Option Text

namespace Line

/-- What stands behind the code of a line. -/
def remark (line : Line) : Text :=
  match line.comment with
  | some c => '/' :: '/' :: c
  | none => []

/-- The tokens of the line with blanks between and behind them. -/
inductive Code (line : Line) : Text → Prop where
  | mk {u w : Text} (hu : Spaced Inline line.tokens u) (hw : Inline w) : Code line (u ++ w)

/-- What a line needs to be shown as it is: no comment starts in its code, its code is not blank,
and its comment ends with it. -/
structure Plain (line : Line) : Prop where
  chunk : ∀ token ∈ line.tokens, Chunk token.text
  seam : line.tokens.IsChain fun a b => a.text.getLast? = some '(' → b.text.head? ≠ some '*'
  shown : ∃ token ∈ line.tokens, token.text.allBlank = false
  comment : ∀ c ∈ line.comment, '\n' ∉ c ∧ '\r' ∉ c

end Line

/-- Lines one after the other, each ended by a newline or by a carriage return and a newline. -/
inductive LaidOut : List Line → Text → Prop where
  | nil : LaidOut [] []
  | cons {line : Line} {lines : List Line} {u e t : Text} (hu : line.Code u)
      (he : e = ['\n'] ∨ e = ['\r', '\n']) (ht : LaidOut lines t) :
      LaidOut (line :: lines) (u ++ line.remark ++ e ++ t)

/-! ## Lines as gaps -/

theorem gap_of_allBlank {g : Text} (h : g.allBlank) : Gap g := by
  induction g with
  | nil => exact .nil
  | cons c g ih =>
    rw [allBlank, List.all_cons, Bool.and_eq_true] at h
    exact .blank h.1 (ih h.2)

theorem gap_append {g h : Text} (hg : Gap g) (hh : Gap h) : Gap (g ++ h) := by
  induction hg with
  | nil => exact hh
  | blank hc _ ih => exact .blank hc ih
  | @block body g hb _ ih =>
    have := Gap.block hb ih
    simpa using this
  | @line body g hb _ ih =>
    have := Gap.line hb ih
    simpa using this

theorem spaced_mono {p q : Text → Prop} (h : ∀ g, p g → q g) {tokens : List Token} {t : Text}
    (ht : Spaced p tokens t) : Spaced q tokens t := by
  induction ht with
  | nil => exact .nil
  | cons hg ha _ ih => exact .cons (h _ hg) ha ih

/-- A gap in front of a text that starts with a gap. -/
theorem spaced_behind {g : Text} (hg : Gap g) {token : Token} {tokens : List Token} {t : Text}
    (ht : Spaced Gap (token :: tokens) t) : Spaced Gap (token :: tokens) (g ++ t) := by
  cases ht with
  | @cons g' t _ _ hg' ha ht =>
    have h := Spaced.cons (gap_append hg hg')
      (fun h => List.append_ne_nil_of_right_ne_nil g (ha h)) ht
    simpa using h

/-- The end of a line is a gap. -/
theorem gap_lineEnd {line : Line} (hc : ∀ c ∈ line.comment, '\n' ∉ c ∧ '\r' ∉ c) {e : Text}
    (he : e = ['\n'] ∨ e = ['\r', '\n']) : Gap (line.remark ++ e) := by
  have hblank : e.allBlank := by rcases he with rfl | rfl <;> rfl
  unfold Line.remark
  split
  · next c hcomment =>
    obtain ⟨hn, -⟩ := hc c hcomment
    rcases he with rfl | rfl
    · exact .line hn .nil
    · have hbody : '\n' ∉ c ++ ['\r'] := by simp [hn]
      have := Gap.line hbody .nil
      simpa using this
  · exact gap_of_allBlank hblank

theorem exists_spaced_of_laidOut {lines : List Line} {t : Text} (h : LaidOut lines t)
    (hc : ∀ line ∈ lines, line.Plain) :
    ∃ v g, t = v ++ g ∧ Gap g ∧ Spaced Gap (lines.flatMap Line.tokens) v := by
  induction h with
  | nil => exact ⟨[], [], rfl, .nil, .nil⟩
  | @cons line lines u e t hu he _ ih =>
    obtain ⟨v, g, rfl, hg, hv⟩ := ih fun l hl => hc l (List.mem_cons_of_mem _ hl)
    obtain ⟨hu, hw⟩ := hu
    next u w =>
    have hend : Gap (w ++ (line.remark ++ e)) :=
      gap_append (gap_of_allBlank hw.1) (gap_lineEnd (hc line List.mem_cons_self).comment he)
    have hcode : Spaced Gap line.tokens u := spaced_mono (fun g hg => gap_of_allBlank hg.1) hu
    rw [List.flatMap_cons]
    cases hrest : lines.flatMap Line.tokens with
    | nil =>
      rw [hrest] at hv
      obtain rfl := spaced_nil hv
      refine ⟨u, w ++ (line.remark ++ e) ++ g, by simp, gap_append hend hg, ?_⟩
      rwa [List.append_nil]
    | cons token tokens =>
      rw [hrest] at hv
      refine ⟨u ++ (w ++ (line.remark ++ e) ++ v), g, by simp, hg, ?_⟩
      exact spaced_append_iff.2 ⟨_, _, rfl, hcode, spaced_behind hend hv⟩

/-! ## Lines in the views -/

theorem chunk_inline {w : Text} (hw : Inline w) (hne : w ≠ []) : Chunk w := by
  obtain ⟨hb, hn, hr⟩ := hw
  rw [allBlank, List.all_eq_true] at hb
  refine ⟨hne, fun c hc => ⟨Text.ne_of_isBlank (hb c hc) rfl, ?_, ?_⟩, fun c d hi => ?_, fun hl => ?_⟩
  · rintro rfl
    exact hn hc
  · rintro rfl
    exact hr hc
  · have hc := hb c (hi.subset List.mem_cons_self)
    simp [opens, Text.ne_of_isBlank hc (d := '/') rfl, Text.ne_of_isBlank hc (d := '(') rfl]
  · exact Text.ne_of_isBlank (hb _ (List.mem_of_getLast? hl)) rfl rfl

theorem chunk_append {a b : Text} (ha : Chunk a) (hb : Chunk b)
    (hs : a.getLast? = some '(' → b.head? ≠ some '*') : Chunk (a ++ b) := by
  refine ⟨List.append_ne_nil_of_left_ne_nil ha.ne b, fun c hc => ?_, fun c d hi => ?_, fun hl => ?_⟩
  · exact (List.mem_append.1 hc).elim (ha.clean c) (hb.clean c)
  · rcases Text.pair_infix_append hi with hi | hi | ⟨hl, hh⟩
    · exact ha.pairs c d hi
    · exact hb.pairs c d hi
    · have h₁ : c ≠ '/' := fun e => ha.last (e ▸ hl)
      have h₂ : ¬ (c = '(' ∧ d = '*') := fun e => hs (e.1 ▸ hl) (e.2 ▸ hh)
      simpa [opens, h₁] using h₂
  · rw [List.getLast?_append, Option.or_eq_some_iff] at hl
    rcases hl with hl | ⟨hn, -⟩
    · exact hb.last hl
    · exact hb.ne (List.getLast?_eq_none_iff.1 hn)

theorem head?_inline {token : Token} {tokens : List Token} {t : Text}
    (h : Spaced Inline (token :: tokens) t) (hne : token.text ≠ [])
    (hs : token.text.head? ≠ some '*') : t.head? ≠ some '*' := by
  cases h with
  | @cons g t _ _ hg =>
    cases g with
    | nil =>
      obtain ⟨c, v, hv⟩ := List.exists_cons_of_ne_nil hne
      rw [hv] at hs ⊢
      exact hs
    | cons c g =>
      have hc := List.all_eq_true.1 hg.1 c List.mem_cons_self
      intro he
      exact Text.ne_of_isBlank hc rfl (Option.some.inj he)

/-- No comment starts where two tokens meet. -/
theorem chunk_of_spaced {tokens : List Token} {u : Text} (h : Spaced Inline tokens u)
    (hc : ∀ token ∈ tokens, Chunk token.text)
    (hs : tokens.IsChain fun a b => a.text.getLast? = some '(' → b.text.head? ≠ some '*')
    (hne : tokens ≠ []) : Chunk u := by
  induction h with
  | nil => exact absurd rfl hne
  | @cons g t token tokens hg _ ht ih =>
    have htoken := hc token List.mem_cons_self
    have hrest := fun a ha => hc a (List.mem_cons_of_mem token ha)
    have hcode : Chunk (token.text ++ t) := by
      cases tokens with
      | nil =>
        rw [spaced_nil ht, List.append_nil]
        exact htoken
      | cons b tokens =>
        obtain ⟨hseam, hs⟩ := List.isChain_cons_cons.1 hs
        refine chunk_append htoken (ih hrest hs (List.cons_ne_nil b tokens)) fun hl => ?_
        exact head?_inline ht (hrest b List.mem_cons_self).ne (hseam hl)
    cases g with
    | nil => exact hcode
    | cons c g =>
      rw [List.append_assoc]
      refine chunk_append (chunk_inline hg (List.cons_ne_nil c g)) hcode fun hl => ?_
      have hb := List.all_eq_true.1 hg.1 _ (List.mem_of_getLast? hl)
      cases hb

theorem chunk_code {line : Line} (hp : line.Plain) {u : Text} (hu : line.Code u) : Chunk u := by
  obtain ⟨token, hm, -⟩ := hp.shown
  cases hu with
  | @mk u w hu hw =>
    have hcode := chunk_of_spaced hu hp.chunk hp.seam (List.ne_nil_of_mem hm)
    cases w with
    | nil => rwa [List.append_nil]
    | cons c w =>
      refine chunk_append hcode (chunk_inline hw (List.cons_ne_nil c w)) fun _ he => ?_
      have hb := List.all_eq_true.1 hw.1 c List.mem_cons_self
      exact Text.ne_of_isBlank hb rfl (Option.some.inj he)

/-- The code of a line is not blank, so the comment behind it is shown. -/
theorem not_allBlank_code {line : Line} (hp : line.Plain) {u : Text} (hu : line.Code u) :
    u.allBlank = false := by
  obtain ⟨token, hm, hb⟩ := hp.shown
  cases hu with
  | @mk u w hu hw =>
    obtain ⟨as, bs, hab⟩ := List.append_of_mem hm
    rw [hab] at hu
    obtain ⟨x, y, rfl, -, hy⟩ := spaced_append_iff.1 hu
    obtain ⟨g, z, rfl, -⟩ := exists_of_spaced_cons hy
    simp only [allBlank, List.all_append] at hb ⊢
    simp [hb]

theorem chunk_tail {c : Char} {t : Text} (h : Chunk (c :: t)) (hne : t ≠ []) : Chunk t := by
  refine ⟨hne, fun d hd => h.clean d (List.mem_cons_of_mem c hd),
    fun a b hi => h.pairs a b (List.infix_cons hi), fun hl => h.last ?_⟩
  rw [List.getLast?_cons, hl]
  rfl

/-- Code is shown as it is before what does not make it a star group. -/
theorem viewsFrom_chunk {t : Text} (h : Chunk t) {r : Text} (hr : r.head? ≠ some '*')
    (atStart : Bool) :
    viewsFrom atStart (t ++ r) = Views.shown t ++ viewsFrom (atStart && t.allBlank) r := by
  induction t generalizing atStart with
  | nil => exact absurd rfl h.ne
  | cons c t ih =>
    have hc := h.clean c List.mem_cons_self
    have hread {u : Text} (ho : ∀ d, u.head? = some d → opens c d = false) :
        viewsFrom atStart (c :: u) = Views.shown [c] ++ viewsFrom (atStart && allBlank [c]) u :=
      viewsFrom_cons (.code hc.2.1 hc.1 ho) atStart
    cases t with
    | nil =>
      refine hread fun d hd => ?_
      have h₁ : c ≠ '/' := fun e => h.last (by rw [e]; rfl)
      have h₂ : d ≠ '*' := fun e => hr (e ▸ hd)
      simp [opens, h₁, h₂]
    | cons d t =>
      have ho : ∀ e, (d :: t ++ r).head? = some e → opens c e = false := by
        intro e he
        cases he
        exact h.pairs c d ⟨[], t, rfl⟩
      have hb : allBlank (c :: d :: t) = (allBlank [c] && allBlank (d :: t)) :=
        @List.all_append _ _ [c] (d :: t)
      rw [List.cons_append, hread ho, ih (chunk_tail h (List.cons_ne_nil d t)), hb,
        ← Views.append_assoc, Bool.and_assoc]
      rfl

theorem unifyNewlines_line {x e : Text} (hx : '\r' ∉ x) (he : e = ['\n'] ∨ e = ['\r', '\n'])
    (t : Text) : unifyNewlines (x ++ e ++ t) = x ++ '\n' :: unifyNewlines t := by
  rw [List.append_assoc, Text.unifyNewlines_append_of_not_mem hx]
  rcases he with rfl | rfl
  · exact congrArg _ (Text.unifyNewlines_newline t)
  · rfl

/-- A line holds no character that ends one. -/
theorem not_mem_line {line : Line} (hp : line.Plain) {u : Text} (hu : line.Code u) :
    '\n' ∉ u ++ line.remark ∧ '\r' ∉ u ++ line.remark := by
  have hcode := (chunk_code hp hu).clean
  have hremark : '\n' ∉ line.remark ∧ '\r' ∉ line.remark := by
    unfold Line.remark
    split
    · next c hc =>
      obtain ⟨hn, hr⟩ := hp.comment c hc
      simp [hn, hr]
    · exact ⟨List.not_mem_nil, List.not_mem_nil⟩
  simp only [List.mem_append, not_or]
  exact ⟨⟨fun hm => (hcode _ hm).2.1 rfl, hremark.1⟩, ⟨fun hm => (hcode _ hm).2.2 rfl, hremark.2⟩⟩

theorem views_line {line : Line} (hp : line.Plain) {u e : Text} (hu : line.Code u)
    (he : e = ['\n'] ∨ e = ['\r', '\n']) (t : Text) : views (u ++ line.remark ++ e ++ t) =
      ⟨u ++ ['\n'], u ++ line.remark ++ ['\n'], []⟩ ++ views t := by
  have hcode {r : Text} (hr : r.head? ≠ some '*') :
      viewsFrom true (u ++ r) = Views.shown u ++ viewsFrom false r := by
    rw [viewsFrom_chunk (chunk_code hp hu) hr, not_allBlank_code hp hu, Bool.and_false]
  rw [views_eq, views_eq, unifyNewlines_line (not_mem_line hp hu).2 he, List.append_assoc]
  generalize unifyNewlines t = r
  unfold Line.remark
  split
  · next c hc =>
    have hread : Read '/' ('/' :: (c ++ '\n' :: r)) (.lineComment ('/' :: '/' :: c)) ('\n' :: r) :=
      .lineComment (hp.comment c hc).1 rfl
    rw [List.cons_append, List.cons_append, hcode (by simp), viewsFrom_cons hread,
      viewsFrom_cons (.newline r)]
    simp [Views.ofPiece, Views.atStartAfter, Views.shown, Views.append_def]
  · rw [List.nil_append, hcode (by simp), viewsFrom_cons (.newline r)]
    simp [Views.ofPiece, Views.atStartAfter, Views.shown, Views.append_def]

/-- A search through the lines that are shown is a search through the lines. -/
theorem findSome?_laidOut {ρ α : Type} {line : ρ → Line} {f : Text → Option α} {g : ρ → Option α}
    {rows : List ρ} {t : Text} (h : LaidOut (rows.map line) t)
    (hp : ∀ row ∈ rows, (line row).Plain)
    (hf : ∀ row ∈ rows, ∀ u, (line row).Code u → f (u ++ (line row).remark) = g row) (r : Text) :
    (Text.lines (views (t ++ r)).described).findSome? f =
      (rows.findSome? g).or ((Text.lines (views r).described).findSome? f) := by
  induction rows generalizing t with
  | nil =>
    cases h
    rfl
  | cons row rows ih =>
    cases h with
    | @cons _ _ u e t hu he ht =>
      have hrow := hp row List.mem_cons_self
      obtain ⟨hn, hr⟩ := not_mem_line hrow hu
      have hshown : (views (u ++ (line row).remark ++ e ++ t ++ r)).described =
          u ++ (line row).remark ++ '\n' :: (views (t ++ r)).described := by
        rw [List.append_assoc _ t r, views_line hrow hu he, Views.append_def]
        simp
      rw [hshown, Text.lines_cons_line hn hr, List.findSome?_cons, List.findSome?_cons,
        hf row List.mem_cons_self u hu, ih ht (fun l hl => hp l (List.mem_cons_of_mem _ hl))
          fun l hl => hf l (List.mem_cons_of_mem _ hl)]
      cases g row with
      | none => rfl
      | some a => rfl

theorem described_of_clear {t : Text} (h : ∀ c ∈ t, Clear c) (atStart : Bool) :
    (viewsFrom atStart t).described = t := by
  obtain ⟨after, ha⟩ := viewsFrom_clear h atStart []
  rw [List.append_nil] at ha
  rw [ha, viewsFrom, rawPieces]
  exact List.append_nil t

/-! ## Words of a line -/

/-- No identifier goes over the seam of two tokens, even with nothing between them. -/
def Separate (a b : Token) : Prop := b.apart ∨ endsWord a.text.reverse ∨ endsWord b.text

/-- What is behind a token does not go on with its last identifier. -/
theorem endsWord_seam {token : Token} {tokens : List Token} (hs : (token :: tokens).IsChain Separate)
    (hne : ∀ b ∈ tokens, b.text ≠ []) {t : Text} (h : Spaced Blanks tokens t) :
    endsWord token.text.reverse ∨ endsWord t := by
  cases h with
  | nil => exact .inr rfl
  | @cons g t b bs hg ha =>
    by_cases hgap : g = []
    · rcases (List.isChain_cons_cons.1 hs).1 with hb | hl | hr
      · exact absurd hgap (ha hb)
      · exact .inl hl
      · subst hgap
        exact .inr (Text.endsWord_append hr (hne b List.mem_cons_self) t)
    · rw [List.append_assoc]
      exact .inr (Text.endsWord_append (Text.endsWord_of_allBlank hg) hgap _)

/-- What is in front of a token that starts with an identifier does not end in it. -/
theorem endsWord_before {as : List Token} {b : Token} {v g : Text} (hv : Spaced Blanks as v)
    (hg : g.allBlank) (ha : b.apart → g ≠ []) (hs : ∀ a ∈ as.getLast?, Separate a b)
    (hne : ∀ a ∈ as, a.text ≠ []) (hb : endsWord b.text = false) : endsWord (v ++ g).reverse := by
  rw [List.reverse_append]
  by_cases hgap : g = []
  · subst hgap
    cases as using List.reverseRecOn with
    | nil =>
      rw [spaced_nil hv]
      rfl
    | append_singleton as a =>
      have hlast := hs a (by simp)
      have hne := hne a (by simp)
      obtain ⟨p, q, rfl, -, hq⟩ := spaced_append_iff.1 hv
      obtain ⟨g, z, rfl, -, -, hz⟩ := exists_of_spaced_cons hq
      rw [spaced_nil hz, List.append_nil, List.reverse_append, List.reverse_append,
        List.append_assoc]
      rcases hlast with hab | hab | hab
      · exact absurd rfl (ha hab)
      · exact Text.endsWord_append hab (by simpa using hne) _
      · rw [hb] at hab
        cases hab
  · refine Text.endsWord_append (Text.endsWord_of_allBlank ?_) (by simpa using hgap) _
    rwa [Text.allBlank_reverse]

theorem lacks_of_spaced {word : Text} (hw : Text.isIdentifier word) {tokens : List Token} {u : Text}
    (h : Spaced Blanks tokens u) (hs : tokens.IsChain Separate)
    (hne : ∀ token ∈ tokens, token.text ≠ []) (hl : ∀ token ∈ tokens, Lacks word token.text) :
    Lacks word u := by
  induction h with
  | nil => exact Text.lacks_nil
  | @cons g t token tokens hg _ ht ih =>
    have hbehind := fun a ha => hne a (List.mem_cons_of_mem token ha)
    have hrest : Lacks word t := ih hs.tail hbehind fun a ha => hl a (List.mem_cons_of_mem token ha)
    have htoken := Text.lacks_append hw (hl token List.mem_cons_self) hrest
      (endsWord_seam hs hbehind ht)
    have hblank : endsWord g.reverse := by
      refine Text.endsWord_of_allBlank ?_
      rwa [Text.allBlank_reverse]
    rw [List.append_assoc]
    exact Text.lacks_append hw (Text.lacks_of_allBlank hw hg) htoken (.inl hblank)

theorem spaced_blanks {tokens : List Token} {t : Text} (h : Spaced Inline tokens t) :
    Spaced Blanks tokens t :=
  spaced_mono (fun _ hg => hg.1) h

theorem lacks_code {word : Text} (hw : Text.isIdentifier word) {line : Line}
    (hs : line.tokens.IsChain Separate) (hne : ∀ token ∈ line.tokens, token.text ≠ [])
    (hl : ∀ token ∈ line.tokens, Lacks word token.text) {u : Text} (hu : line.Code u) :
    Lacks word u := by
  cases hu with
  | mk hu hg =>
    exact Text.lacks_append hw (lacks_of_spaced hw (spaced_blanks hu) hs hne hl)
      (Text.lacks_of_allBlank hw hg.1) (.inr (Text.endsWord_of_allBlank hg.1))

/-- An identifier among the tokens stands apart in the text. -/
theorem exists_word {as bs : List Token} {b : Token} {t : Text} (hb : Text.isIdentifier b.text)
    (h : Spaced Blanks (as ++ b :: bs) t) (hs : (as ++ b :: bs).IsChain Separate)
    (hne : ∀ token ∈ as ++ b :: bs, token.text ≠ []) :
    ∃ x y, t = x ++ (b.text ++ y) ∧ endsWord x.reverse ∧ endsWord y ∧ Spaced Blanks bs y ∧
      ∀ word, Text.isIdentifier word → (∀ a ∈ as, Lacks word a.text) → Lacks word x := by
  obtain ⟨v, u, rfl, hv, hu⟩ := spaced_append_iff.1 h
  obtain ⟨g, y, rfl, hg, hapart, hy⟩ := exists_of_spaced_cons hu
  obtain ⟨hleft, hright⟩ := Text.not_endsWord_identifier hb
  obtain ⟨hsas, hsb, hseam⟩ := List.isChain_append.1 hs
  have hnea := fun a ha => hne a (List.mem_append_left _ ha)
  have hneb := fun a ha => hne a (List.mem_append_right _ (List.mem_cons_of_mem b ha))
  have hbefore := endsWord_before hv hg hapart (fun a ha => hseam a ha b rfl) hnea hleft
  have hbehind := (endsWord_seam hsb hneb hy).resolve_left (by simp [hright])
  refine ⟨v ++ g, y, by simp, hbefore, hbehind, hy, fun word hw hl => ?_⟩
  exact Text.lacks_append hw (lacks_of_spaced hw hv hsas hnea hl) (Text.lacks_of_allBlank hw hg)
    (.inr (Text.endsWord_of_allBlank hg))

end Source
end Pinout
