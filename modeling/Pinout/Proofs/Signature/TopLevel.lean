import Mathlib.Data.List.Forall2
import Pinout.Proofs.Signature.Scan

/-!
# Pinout.Proofs.Signature.TopLevel

Lists written out and cut again. Items with a separator between each two, and any blanks around it,
are cut into just these items (`splitTopLevel_joined`), if each is `Settled`: its literals are closed
and its brackets balanced, so that a scan comes out of it as it went in (`pieces_settled`).

Blanks belong to no item, and neither does what stands between two separators if there are only
blanks (`splitTopLevel_blanks`).
-/

namespace Pinout
namespace Signature

/-- A literal behind its opening quote, up to the quote that closes it. A backslash takes the next
character with it. -/
inductive ClosesLiteral : Text → Prop where
  | quote : ClosesLiteral ['"']
  | plain {c : Char} {t : Text} : c ≠ '"' → c ≠ '\\' → ClosesLiteral t → ClosesLiteral (c :: t)
  | escape {c : Char} {t : Text} : ClosesLiteral t → ClosesLiteral ('\\' :: c :: t)

/-- Behind `depth` open brackets the text closes these and its own, none too many and whatever their
kinds, and it closes its literals. Outside of both stand only characters that satisfy `outside`. -/
inductive Settled (outside : Char → Bool) : Nat → Text → Prop where
  | nil : Settled outside 0 []
  | char {depth : Nat} {c : Char} {t : Text} : c ≠ '"' → isOpening c = false → isClosing c = false →
      (depth = 0 → outside c) → Settled outside depth t → Settled outside depth (c :: t)
  | literal {depth : Nat} {l t : Text} : ClosesLiteral l → Settled outside depth t →
      Settled outside depth ('"' :: (l ++ t))
  | opening {depth : Nat} {c : Char} {t : Text} : isOpening c → Settled outside (depth + 1) t →
      Settled outside depth (c :: t)
  | closing {depth : Nat} {c : Char} {t : Text} : isClosing c → Settled outside depth t →
      Settled outside (depth + 1) (c :: t)

/-- A character that neither a literal nor a bracket begins or ends with. -/
structure Separates (separator : Char) : Prop where
  quote : separator ≠ '"'
  opening : isOpening separator = false
  closing : isClosing separator = false

/-- A trimmed item that has its separators in literals and brackets alone. -/
structure Listable (separator : Char) (item : Text) : Prop where
  ne : item ≠ []
  trimmed : item.trim = item
  settled : Settled (· != separator) 0 item

/-- The item with any blanks around it. -/
def Spread (item t : Text) : Prop :=
  ∃ g v : Text, g.allBlank ∧ v.allBlank ∧ t = g ++ item ++ v

section

variable {separator : Char} {o : Char → Bool} {depth : Nat} {item v t : Text}

/-! ## Settled text -/

theorem not_opening_of_closing {c : Char} (h : isClosing c) : isOpening c = false := by
  simp only [isClosing, Bool.or_eq_true, beq_iff_eq] at h
  rcases h with (rfl | rfl) | rfl <;> rfl

theorem after_bracket {c : Char} (h : isOpening c ∨ isClosing c) : Mode.after .code c = .code := by
  refine if_neg ?_
  rintro rfl
  rcases h with h | h <;> cases h

theorem depthAfter_plain {c : Char} (hopen : isOpening c = false) (hclose : isClosing c = false)
    (depth : Nat) : depthAfter depth c = depth := by
  simp [depthAfter, hopen, hclose]

theorem depthAfter_closing {c : Char} (h : isClosing c) (depth : Nat) :
    depthAfter (depth + 1) c = depth := by
  simp [depthAfter, not_opening_of_closing h, h]

/-- Without literals it is a matter of brackets. -/
theorem settled_of_nests (hq : '"' ∉ t) (h : nests o depth t) : Settled o depth t := by
  induction t generalizing depth with
  | nil =>
    obtain rfl : depth = 0 := by simpa [nests] using h
    exact .nil
  | cons c t ih =>
    simp only [List.mem_cons, not_or] at hq
    have htail := nests_tail h
    cases hopen : isOpening c with
    | true =>
      rw [depthAfter, if_pos hopen] at htail
      exact .opening hopen (ih hq.2 htail)
    | false =>
      cases hclose : isClosing c with
      | true =>
        cases depth with
        | zero => simp [nests, hopen, hclose] at h
        | succ depth =>
          rw [depthAfter_closing hclose] at htail
          exact .closing hclose (ih hq.2 htail)
      | false =>
        rw [depthAfter_plain hopen hclose] at htail
        refine .char (Ne.symm hq.1) hopen hclose ?_ (ih hq.2 htail)
        rintro rfl
        simpa [nests, hopen, hclose] using (Bool.and_eq_true_iff.1 h).1

theorem pieces_closesLiteral (separator : Char) {l : Text} (h : ClosesLiteral l) (depth : Nat)
    (r : Text) :
    pieces separator .literal depth (l ++ r) = appendFirst l (pieces separator .code depth r) := by
  have hquoted := @pieces_cons_quoted separator .literal (by decide) depth
  induction h with
  | quote =>
    rw [List.singleton_append, hquoted, appendFirst_cons, appendFirst_nil (pieces_ne_nil _ _ _ _)]
    rfl
  | plain hq hb _ ih =>
    rw [List.cons_append, hquoted, Mode.after_literal hq hb, ih, appendFirst_cons]
  | @escape c t _ ih =>
    have hescape : Mode.after .literal '\\' = .escape := rfl
    have hback : Mode.after .escape c = .literal := rfl
    rw [List.cons_append, List.cons_append, hquoted, hescape,
      pieces_cons_quoted separator (by decide), hback, ih, appendFirst_cons, appendFirst_cons]

/-- A scan comes out of settled text in code, and outside the brackets that the text has closed. No
cut is made in it. -/
theorem pieces_settled (hs : Separates separator) (h : Settled (· != separator) depth t) (r : Text) :
    pieces separator .code depth (t ++ r) = appendFirst t (pieces separator .code 0 r) := by
  induction h with
  | nil => exact (appendFirst_nil (pieces_ne_nil _ _ _ _)).symm
  | @char depth c t hq hopen hclose hout _ ih =>
    have hmode : Mode.after .code c = .code := if_neg hq
    have hcut : c = separator → depth ≠ 0 := fun hc h0 => by simpa [hc] using hout h0
    rw [List.cons_append, pieces_cons_uncut hcut, hmode, depthAfter_plain hopen hclose, ih,
      appendFirst_cons]
  | @literal depth l t hl _ ih =>
    have hcut : '"' = separator → depth ≠ 0 := fun hc => absurd hc.symm hs.quote
    have hmode : Mode.after .code '"' = .literal := rfl
    rw [List.cons_append, List.append_assoc, pieces_cons_uncut hcut, hmode,
      depthAfter_plain rfl rfl, pieces_closesLiteral separator hl, ih, appendFirst_cons,
      appendFirst_append]
  | @opening depth c t hopen _ ih =>
    have hcut : c = separator → depth ≠ 0 := by
      rintro rfl
      rw [hs.opening] at hopen
      cases hopen
    have hdepth : depthAfter depth c = depth + 1 := if_pos hopen
    rw [List.cons_append, pieces_cons_uncut hcut, after_bracket (.inl hopen), hdepth, ih,
      appendFirst_cons]
  | @closing depth c t hclose _ ih =>
    have hcut : c = separator → depth + 1 ≠ 0 := fun _ => Nat.succ_ne_zero depth
    rw [List.cons_append, pieces_cons_uncut hcut, after_bracket (.inr hclose),
      depthAfter_closing hclose, ih, appendFirst_cons]

/-! ## Blanks -/

theorem pieces_blank {c : Char} (hc : Text.isBlank c) (t : Text) : pieces separator .code 0 (c :: t) =
    if c = separator then [] :: pieces separator .code 0 t
    else consFirst c (pieces separator .code 0 t) := by
  obtain ⟨hopen, hclose⟩ := not_bracket (.inl hc)
  have hmode : Mode.after .code c = .code := by
    refine if_neg ?_
    rintro rfl
    cases hc
  rw [pieces_cons, hmode, depthAfter_plain hopen hclose, if_pos rfl]
  simp

theorem splitTopLevel_nil : splitTopLevel separator [] = [] := rfl

theorem splitTopLevel_separator (t : Text) :
    splitTopLevel separator (separator :: t) = splitTopLevel separator t := by
  rw [splitTopLevel, pieces_separator]
  rfl

/-- Blanks in front of a list go when its first item is trimmed. If one of them is the separator, the
item before it is empty and goes as well. -/
theorem splitTopLevel_blanks {g : Text} (hg : g.allBlank) (t : Text) :
    splitTopLevel separator (g ++ t) = splitTopLevel separator t := by
  induction g with
  | nil => rfl
  | cons c g ih =>
    rw [Text.allBlank, List.all_cons, Bool.and_eq_true] at hg
    rw [List.cons_append, splitTopLevel, pieces_blank hg.1, ← ih hg.2, splitTopLevel]
    split
    · rfl
    · obtain ⟨piece, more, hp⟩ :=
        List.exists_cons_of_ne_nil (pieces_ne_nil separator .code 0 (g ++ t))
      have hc : Text.allBlank [c] := by simpa [Text.allBlank] using hg.1
      have htrim : Text.trim (c :: piece) = piece.trim := Text.trim_append hc piece
      rw [hp, consFirst, List.map_cons, List.map_cons, htrim]

/-- Up to a separator, or to the end of the list, blanks make a blank piece. -/
theorem exists_blank_piece (hv : v.allBlank) (ht : t = [] ∨ ∃ r, t = separator :: r) :
    ∃ piece more, pieces separator .code 0 (v ++ t) = piece :: more ∧ piece.allBlank := by
  induction v with
  | nil =>
    rcases ht with rfl | ⟨r, rfl⟩
    · exact ⟨[], [], rfl, rfl⟩
    · exact ⟨[], _, pieces_separator separator r, rfl⟩
  | cons c v ih =>
    rw [Text.allBlank, List.all_cons, Bool.and_eq_true] at hv
    rw [List.cons_append, pieces_blank hv.1]
    split
    · exact ⟨[], _, rfl, rfl⟩
    · obtain ⟨piece, more, hp, hblank⟩ := ih hv.2
      refine ⟨c :: piece, more, by rw [hp, consFirst], ?_⟩
      rw [Text.allBlank, List.all_cons, hv.1]
      exact hblank

/-! ## Items -/

theorem separates_comma : Separates ',' := ⟨by decide, rfl, rfl⟩

/-- The first item goes up to the next separator, or to the end of the list. -/
theorem splitTopLevel_item (hs : Separates separator) (hi : Listable separator item)
    (hv : v.allBlank) (ht : t = [] ∨ ∃ r, t = separator :: r) :
    splitTopLevel separator (item ++ (v ++ t)) = item :: splitTopLevel separator t := by
  obtain ⟨piece, more, hp, hblank⟩ := exists_blank_piece hv ht
  have htrim : Text.trim (item ++ piece) = item := by
    rw [Text.trim_append_right hblank, hi.trimmed]
  have hrest : splitTopLevel separator t = (more.map Text.trim).filter (· ≠ []) := by
    rw [← splitTopLevel_blanks hv t, splitTopLevel, hp, List.map_cons, Text.trim_of_allBlank hblank]
    rfl
  rw [hrest, splitTopLevel, pieces_settled hs hi.settled, hp, appendFirst, List.map_cons, htrim,
    List.filter_cons_of_pos (by simpa using hi.ne)]

/-- Items joined by a separator, with any blanks around each, are the items of the list. Separators
in their literals and brackets cut none of them, and quotes and brackets in their literals merge no
two. -/
theorem splitTopLevel_joined (hs : Separates separator) {items texts : List Text}
    (hi : ∀ item ∈ items, Listable separator item) (ht : List.Forall₂ Spread items texts) :
    splitTopLevel separator (Text.joinWith [separator] texts) = items := by
  induction ht with
  | nil => rfl
  | @cons item u items texts hu hrest ih =>
    obtain ⟨g, v, hg, hv, rfl⟩ := hu
    have hitem := hi item List.mem_cons_self
    have htail := ih fun i hm => hi i (List.mem_cons_of_mem item hm)
    cases hrest with
    | nil =>
      have hlast := splitTopLevel_item hs hitem hv (.inl rfl)
      rw [List.append_nil] at hlast
      rw [Text.joinWith, List.append_assoc, splitTopLevel_blanks hg, hlast, splitTopLevel_nil]
    | @cons next w items texts hw hrest =>
      have hjoin : Text.joinWith [separator] ((g ++ item ++ v) :: w :: texts) =
          g ++ (item ++ (v ++ separator :: Text.joinWith [separator] (w :: texts))) := by
        simp [Text.joinWith]
      rw [hjoin, splitTopLevel_blanks hg, splitTopLevel_item hs hitem hv (.inr ⟨_, rfl⟩),
        splitTopLevel_separator, htail]

/-- Commas in nested brackets of crossed kinds, and a literal with a comma, brackets of its own and
an escaped quote. -/
theorem splitTopLevel_joined_nested :
    Separates ',' ∧
    (∀ item ∈ ["a = [1, f(x, y])".toList, "\"], (\\\"\"".toList, "c".toList], Listable ',' item) ∧
    List.Forall₂ Spread ["a = [1, f(x, y])".toList, "\"], (\\\"\"".toList, "c".toList]
      ["a = [1, f(x, y])".toList, "\n \"], (\\\"\" ".toList, "\tc".toList] ∧
    splitTopLevel ',' "a = [1, f(x, y]),\n \"], (\\\"\" ,\tc".toList =
      ["a = [1, f(x, y])".toList, "\"], (\\\"\"".toList, "c".toList] := by
  have hnested : Settled (· != ',') 0 "a = [1, f(x, y])".toList :=
    settled_of_nests (by decide) (by decide)
  have hliteral : Settled (· != ',') 0 "\"], (\\\"\"".toList :=
    .literal (l := "], (\\\"\"".toList) (.plain (by decide) (by decide) <|
      .plain (by decide) (by decide) <| .plain (by decide) (by decide) <|
      .plain (by decide) (by decide) <| .escape .quote) .nil
  have hname : Settled (· != ',') 0 "c".toList := settled_of_nests (by decide) (by decide)
  have hi : ∀ item ∈ ["a = [1, f(x, y])".toList, "\"], (\\\"\"".toList, "c".toList],
      Listable ',' item := by
    intro item hm
    simp only [List.mem_cons, List.not_mem_nil, or_false] at hm
    rcases hm with rfl | rfl | rfl
    · exact ⟨by decide, by decide, hnested⟩
    · exact ⟨by decide, by decide, hliteral⟩
    · exact ⟨by decide, by decide, hname⟩
  have ht : List.Forall₂ Spread ["a = [1, f(x, y])".toList, "\"], (\\\"\"".toList, "c".toList]
      ["a = [1, f(x, y])".toList, "\n \"], (\\\"\" ".toList, "\tc".toList] :=
    .cons ⟨[], [], rfl, rfl, rfl⟩ <| .cons ⟨"\n ".toList, " ".toList, rfl, rfl, rfl⟩ <|
      .cons ⟨"\t".toList, [], rfl, rfl, rfl⟩ .nil
  exact ⟨separates_comma, hi, ht, splitTopLevel_joined separates_comma hi ht⟩

end

end Signature
end Pinout
