import Pinout.Proofs.Signature.Mode
import Pinout.Proofs.Signature.Swapped
import Pinout.Proofs.Source.Literal

/-!
# Pinout.Proofs.Signature.Literal

Scans that know of literals pass over one, whatever it holds: the search for the semicolon
(`headerOf?_literal`), and the cut of a list into items (`splitTopLevel_literal`). The search for
the equals sign of an item does not know of literals. It passes over one whose brackets
are balanced, with equals signs only inside them, and it does not come to one that stands behind the
equals sign (`sameItem_literal`).
-/

namespace Pinout
namespace Signature

open Source (isContents splitLiteral_contents)
open Text (Swapped)

section

variable {c d : Text}

/-! ## Inside a literal -/

theorem run_contents (h : isContents c) {x v : Text} {e : Char} (hc : c ++ ['"'] = x ++ e :: v) :
    Mode.run .literal x ≠ .code :=
  run_literal (t := c ++ ['"']) (by rw [splitLiteral_contents h]; exact hc)

theorem run_closed (h : isContents c) : Mode.run .literal (c ++ ['"']) = .code := by
  have hrun := run_splitLiteral (c ++ '"' :: ['a'])
  rw [splitLiteral_contents h] at hrun
  exact hrun.resolve_left (by simp [Source.endsLiteral, Source.atLineEnd])

/-- Before each character of the text the scanner is not in code. -/
def Quiet (mode : Mode) (t : Text) : Prop := ∀ x e v, t = x ++ e :: v → mode.run x ≠ .code

theorem quiet_contents (h : isContents c) : Quiet .literal (c ++ ['"']) :=
  fun _ _ _ hc => run_contents h hc

theorem Quiet.tail {mode : Mode} {e : Char} {t : Text} (h : Quiet mode (e :: t)) :
    mode ≠ .code ∧ Quiet (mode.after e) t :=
  ⟨h [] e t rfl, fun x f v hv => h (e :: x) f v (by rw [hv]; rfl)⟩

theorem cutUnquoted?_quiet {stops : Text → Bool} {mode : Mode} {t : Text} (h : Quiet mode t)
    (y : Text) : cutUnquoted? stops mode (t ++ y) =
      (cutUnquoted? stops (mode.run t) y).map fun (before, rest) => (t ++ before, rest) := by
  induction t generalizing mode with
  | nil => exact Option.map_id'.symm
  | cons e t ih =>
    rw [List.cons_append, cutUnquoted?, if_neg fun hs => h.tail.1 hs.1, ih h.tail.2, Option.map_map]
    rfl

theorem pieces_quiet {separator : Char} {mode : Mode} {t : Text} (h : Quiet mode t) (depth : Nat)
    (y : Text) : pieces separator mode depth (t ++ y) =
      appendFirst t (pieces separator (mode.run t) depth y) := by
  induction t generalizing mode with
  | nil => exact (appendFirst_nil (pieces_ne_nil _ _ _ _)).symm
  | cons e t ih =>
    rw [List.cons_append, pieces_cons_quoted separator h.tail.1, ih h.tail.2, appendFirst_cons,
      Mode.run_cons]

/-! ## The semicolon -/

/-- Behind a text without a stop the cut goes on. -/
theorem cutUnquoted?_of_none {stops : Text → Bool} (hs : ∀ e t t', stops (e :: t) = stops (e :: t'))
    {mode : Mode} {t : Text} (h : cutUnquoted? stops mode t = none) (y : Text) :
    cutUnquoted? stops mode (t ++ y) =
      (cutUnquoted? stops (mode.run t) y).map fun (before, rest) => (t ++ before, rest) := by
  induction t generalizing mode with
  | nil => exact Option.map_id'.symm
  | cons e t ih =>
    rw [cutUnquoted?] at h
    rw [List.cons_append, cutUnquoted?, hs e _ t]
    split at h
    · cases h
    · next hn =>
      rw [if_neg hn, ih (Option.map_eq_none_iff.1 h), Option.map_map]
      rfl

theorem cutUnquoted?_literal {stops : Text → Bool} (hq : ∀ t, stops ('"' :: t) = false)
    (h : isContents c) (y : Text) : cutUnquoted? stops .code ('"' :: (c ++ '"' :: y)) =
      (cutUnquoted? stops .code y).map fun (before, rest) => ('"' :: (c ++ '"' :: before), rest) := by
  have hcontents := @cutUnquoted?_quiet stops _ _ (quiet_contents h) y
  rw [List.append_assoc, List.singleton_append, run_closed h] at hcontents
  rw [cutUnquoted?, if_neg (by simp [hq])]
  show Option.map _ (cutUnquoted? stops .literal (c ++ '"' :: y)) = _
  rw [hcontents, Option.map_map]
  simp [Function.comp_def]

def isSemicolon (t : Text) : Bool := t.head? == some ';'

/-- The search for the end of a header passes over a literal. -/
theorem headerOf?_literal {name front : Text} (hn : headerOf? name front = none)
    (hm : Mode.run .code front = .code) (h : isContents c) (y : Text) :
    headerOf? name (front ++ '"' :: (c ++ '"' :: y)) =
      (cutUnquoted? isSemicolon .code y).map fun (before, _) =>
        ⟨name, front ++ '"' :: (c ++ '"' :: (before ++ [';']))⟩ := by
  have hq : ∀ t : Text, (('"' :: t).head? == some ';') = false := fun _ => rfl
  rw [headerOf?, splitUnquoted?_eq hq, Option.map_eq_none_iff] at hn
  rw [headerOf?, splitUnquoted?_eq hq]
  have hfront := cutUnquoted?_of_none (fun _ _ _ => rfl) hn ('"' :: (c ++ '"' :: y))
  rw [if_neg Bool.false_ne_true, hm, cutUnquoted?_literal hq h] at hfront
  rw [if_neg Bool.false_ne_true, hfront, Option.map_map, Option.map_map]
  refine Option.map_congr fun cut _ => ?_
  simp

/-! ## Items -/

/-- The item that is open at the end of the front of a list. -/
def lastItem (list : Text) : Text := (pieces ',' .code 0 list).getLastD []

theorem exists_pieces_append {separator : Char} (hs : separator ≠ '"') (mode : Mode) (depth : Nat)
    (front : Text) : ∃ ps item depth', pieces separator mode depth front = ps ++ [item] ∧
      ∀ t, pieces separator mode depth (front ++ t) =
        ps ++ appendFirst item (pieces separator (mode.run front) depth' t) := by
  induction front generalizing mode depth with
  | nil =>
    refine ⟨[], [], depth, rfl, fun t => ?_⟩
    exact (appendFirst_nil (pieces_ne_nil _ _ _ _)).symm
  | cons e front ih =>
    by_cases hc : mode = .code ∧ e = separator ∧ depth = 0
    · obtain ⟨ps, item, depth', hfront, happend⟩ := ih .code 0
      refine ⟨[] :: ps, item, depth', ?_, fun t => ?_⟩
      · rw [pieces_cons, if_pos hc, hfront]
        rfl
      · have hafter : mode.after e = .code := by
          obtain ⟨rfl, rfl, -⟩ := hc
          exact if_neg hs
        rw [List.cons_append, pieces_cons, if_pos hc, happend, Mode.run_cons, hafter]
        rfl
    · obtain ⟨ps, item, depth', hfront, happend⟩ :=
        ih (mode.after e) (if mode = .code then depthAfter depth e else depth)
      cases ps with
      | nil =>
        refine ⟨[], e :: item, depth', ?_, fun t => ?_⟩
        · rw [pieces_cons, if_neg hc, hfront]
          rfl
        · rw [List.cons_append, pieces_cons, if_neg hc, happend, Mode.run_cons, List.nil_append,
            List.nil_append, appendFirst_cons]
      | cons p ps =>
        refine ⟨(e :: p) :: ps, item, depth', ?_, fun t => ?_⟩
        · rw [pieces_cons, if_neg hc, hfront]
          rfl
        · rw [List.cons_append, pieces_cons, if_neg hc, happend, Mode.run_cons]
          rfl

/-- The front of a list ends outside literals and brackets: a comma behind it would separate. -/
def EndsOutside (front : Text) : Prop :=
  pieces ',' .code 0 (front ++ [',']) = pieces ',' .code 0 front ++ [[]]

/-- A literal is part of one item, whatever it holds. -/
theorem pieces_literal {front : Text} (hm : Mode.run .code front = .code) :
    ∃ ps depth, (EndsOutside front → depth = 0) ∧ ∀ c, isContents c → ∀ rest,
      pieces ',' .code 0 (front ++ '"' :: (c ++ '"' :: rest)) =
        ps ++ appendFirst (lastItem front ++ '"' :: (c ++ ['"'])) (pieces ',' .code depth rest) := by
  obtain ⟨ps, item, depth, hfront, happend⟩ :=
    @exists_pieces_append ',' (by decide) .code 0 front
  have hitem : lastItem front = item := by rw [lastItem, hfront]; simp
  rw [hm] at happend
  refine ⟨ps, depth, fun ho => ?_, fun c hc rest => ?_⟩
  · by_contra hd
    rw [EndsOutside, happend, hfront, pieces, if_neg fun h => hd h.2.2] at ho
    simp [pieces, appendFirst] at ho
  · have hquiet := @pieces_quiet ',' _ _ (quiet_contents hc) depth rest
    rw [List.append_assoc, List.singleton_append, run_closed hc] at hquiet
    have hdepth : depthAfter depth '"' = depth := rfl
    rw [happend, pieces_cons, if_neg (by simp), if_pos rfl, hdepth]
    show ps ++ appendFirst item (consFirst '"' (pieces ',' .literal depth _)) = _
    rw [hquiet, ← appendFirst_cons, hitem]
    cases pieces ',' .code depth rest <;> simp [appendFirst]

theorem trim_literal (x c y : Text) :
    Text.trim (x ++ '"' :: (c ++ '"' :: y)) = x.trimStart ++ '"' :: (c ++ '"' :: y.trimEnd) := by
  have := Text.trimEnd_append_cons (e := '"') rfl (x.trimStart ++ '"' :: c) y
  rw [Text.trim, Text.trimStart_append_cons rfl]
  simpa using this

/-- A literal in an item of a list, and what stands around that item in the list. -/
theorem splitTopLevel_literal {front : Text} (hm : Mode.run .code front = .code) (rest : Text) :
    ∃ items behind items', ∀ c, isContents c →
      splitTopLevel ',' (front ++ '"' :: (c ++ '"' :: rest)) =
        items ++ (lastItem front ++ '"' :: (c ++ '"' :: behind)).trim :: items' := by
  obtain ⟨ps, depth, -, hpieces⟩ := pieces_literal hm
  obtain ⟨behind, more, hrest⟩ := List.exists_cons_of_ne_nil (pieces_ne_nil ',' .code depth rest)
  refine ⟨(ps.map Text.trim).filter (· ≠ []), behind, (more.map Text.trim).filter (· ≠ []),
    fun c hc => ?_⟩
  have htrim := trim_literal (lastItem front) c behind
  rw [splitTopLevel, hpieces c hc rest, hrest, appendFirst, List.map_append, List.filter_append,
    List.map_cons, List.filter_cons_of_pos]
  · simp
  · simp [htrim]

/-! ## The equals sign -/

/-- Text with its own brackets closed, and equals signs only inside them. -/
def Balanced (t : Text) : Prop := nests (· != '=') 0 t

theorem splitEquals_nested {t : Text} {inner : Nat} (h : nests (· != '=') inner t) (depth : Nat)
    (r : Text) : splitEquals (depth + inner) (t ++ r) =
      (t ++ (splitEquals depth r).1, (splitEquals depth r).2) := by
  induction t generalizing inner with
  | nil =>
    obtain rfl : inner = 0 := by simpa [nests] using h
    rfl
  | cons e t ih =>
    have hn : ¬ (e = '=' ∧ depth + inner = 0) := by
      rintro ⟨rfl, hd⟩
      obtain rfl : inner = 0 := (Nat.add_eq_zero_iff.1 hd).2
      cases h
    have hdepth : depthAfter (depth + inner) e = depth + depthAfter inner e := by
      rw [nests, Bool.and_eq_true] at h
      unfold depthAfter
      split
      · rfl
      · next ho =>
        split
        · next hc =>
          have hpos : 0 < inner := by simpa [ho, hc] using h.1
          omega
        · rfl
    rw [List.cons_append, splitEquals, if_neg hn, hdepth, ih (nests_tail h)]
    rfl

theorem splitEquals_literal (hc : Balanced c) (depth : Nat) (r : Text) :
    splitEquals depth ('"' :: (c ++ '"' :: r)) =
      ('"' :: (c ++ '"' :: (splitEquals depth r).1), (splitEquals depth r).2) := by
  have hquote : nests (· != '=') 0 ['"'] := by decide
  have := splitEquals_nested (nests_append (nests_append hquote hc) hquote) depth r
  simpa using this

/-- What is declared in front of an equals sign does not depend on the text behind that. -/
theorem splitEquals_of_some {depth : Nat} {t v : Text} (h : (splitEquals depth t).2 = some v)
    (r : Text) : splitEquals depth (t ++ r) = ((splitEquals depth t).1, some (v ++ r)) := by
  induction t generalizing depth with
  | nil => cases h
  | cons e t ih =>
    rw [splitEquals] at h
    rw [List.cons_append, splitEquals, splitEquals]
    split at h
    · next hc =>
      cases h
      rw [if_pos hc, if_pos hc]
    · next hc => rw [if_neg hc, if_neg hc, ih h]

theorem splitEquals_of_none {depth : Nat} {t : Text} (h : (splitEquals depth t).2 = none) :
    ∃ depth', ∀ r, splitEquals depth (t ++ r) =
      (t ++ (splitEquals depth' r).1, (splitEquals depth' r).2) := by
  induction t generalizing depth with
  | nil => exact ⟨depth, fun _ => rfl⟩
  | cons e t ih =>
    rw [splitEquals] at h
    split at h
    · cases h
    · next hc =>
      obtain ⟨depth', ht⟩ := ih h
      refine ⟨depth', fun r => ?_⟩
      rw [List.cons_append, splitEquals, if_neg hc, ht]
      rfl

/-- Blanks at the head of an item are in front of what it declares. -/
theorem splitEquals_trimStart (t : Text) : ∃ w : Text, w.allBlank ∧
    splitEquals 0 t = (w ++ (splitEquals 0 t.trimStart).1, (splitEquals 0 t.trimStart).2) := by
  obtain ⟨w, hw, ht⟩ := Text.exists_trimStart t
  have hn : nests (· != '=') 0 w :=
    nests_of_clear (fun e he => (ne_of_clear he).2) (clear_of_allBlank hw)
  have := splitEquals_append hn t.trimStart
  rw [← ht] at this
  exact ⟨w, hw, this⟩

/-- An item with a literal behind its equals sign, or with one that is balanced, declares the same
whatever the literal holds. -/
theorem sameItem_literal {item : Text}
    (h : (splitEquals 0 item).2.isSome ∨ (Balanced c ∧ Balanced d)) (r : Text) :
    SameItem c d (item ++ '"' :: (c ++ '"' :: r)).trim (item ++ '"' :: (d ++ '"' :: r)).trim := by
  rw [SameItem, trim_literal, trim_literal, splitAssignment, splitAssignment]
  obtain ⟨w, -, hw⟩ := splitEquals_trimStart item
  rw [hw] at h
  cases hs : (splitEquals 0 item.trimStart).2 with
  | some v =>
    rw [splitEquals_of_some hs, splitEquals_of_some hs]
    exact .refl _
  | none =>
    obtain ⟨hc, hd⟩ := h.resolve_left (by rw [hs]; exact Bool.false_ne_true)
    obtain ⟨depth, happend⟩ := splitEquals_of_none hs
    rw [happend, happend, splitEquals_literal hc, splitEquals_literal hd]
    exact .literal _ _

/-! ## Lists -/

/-- A list that is open in front of a literal declares the same whatever the literal holds. -/
theorem sameItems_literal {front : Text} (hm : Mode.run .code front = .code) (hc : isContents c)
    (hd : isContents d)
    (h : (splitEquals 0 (lastItem front)).2.isSome ∨ (Balanced c ∧ Balanced d))
    (rest : Text) :
    List.Forall₂ (SameItem c d) (splitTopLevel ',' (front ++ '"' :: (c ++ '"' :: rest)))
      (splitTopLevel ',' (front ++ '"' :: (d ++ '"' :: rest))) := by
  obtain ⟨items, behind, items', hitems⟩ := splitTopLevel_literal hm rest
  rw [hitems c hc, hitems d hd]
  have hsame (items : List Text) : List.Forall₂ (SameItem c d) items items :=
    List.forall₂_same.2 fun _ _ => .refl _
  exact List.rel_append (hsame items) (.cons (sameItem_literal h behind) (hsame items'))

end

end Signature
end Pinout
