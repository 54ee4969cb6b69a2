import Pinout.Proofs.Text.Word
import Pinout.Signature.Scan

/-!
# Pinout.Proofs.Signature.Scan

What the cuts of a declaration do not see. `nests outside depth t` says that `t` closes the brackets
that are open and its own, and which characters may stand outside all of them. A text that keeps the
equals sign inside brackets is passed over by the search for it (`splitEquals_append`).

A list is cut at a separator that stands in neither a literal nor brackets (`pieces_separator`). Any
other character goes on with its piece (`pieces_cons_quoted`, `pieces_cons_uncut`).
-/

namespace Pinout
namespace Signature

theorem not_bracket {c : Char} (h : Text.isBlank c ∨ Text.isWordChar c) :
    isOpening c = false ∧ isClosing c = false := by
  have hb : ∀ b ∈ ['(', '[', '{', ')', ']', '}'], ¬ (Text.isBlank b ∨ Text.isWordChar b) :=
    Text.forall_of_all (by decide)
  simp only [isOpening, isClosing, Bool.or_eq_false_iff, beq_eq_false_iff_ne]
  refine ⟨⟨⟨?_, ?_⟩, ?_⟩, ⟨?_, ?_⟩, ?_⟩ <;>
  · rintro rfl
    exact hb _ (by decide) h

/-- Behind `depth` open brackets, all brackets are closed and none too many, and what stands outside
brackets satisfies `outside`. -/
def nests (outside : Char → Bool) : Nat → Text → Bool
  | depth, [] => depth == 0
  | depth, c :: t =>
    (isOpening c || 0 < depth || (!isClosing c && outside c)) &&
      nests outside (depthAfter depth c) t

section

variable {o : Char → Bool} {d : Nat} {a b t : Text}

theorem nests_tail {c : Char} (h : nests o d (c :: t)) : nests o (depthAfter d c) t := by
  rw [nests, Bool.and_eq_true] at h
  exact h.2

theorem nests_append (ha : nests o d a) (hb : nests o 0 b) : nests o d (a ++ b) := by
  induction a generalizing d with
  | nil =>
    obtain rfl : d = 0 := by simpa [nests] using ha
    exact hb
  | cons c a ih =>
    rw [nests, Bool.and_eq_true] at ha
    rw [List.cons_append, nests, ha.1, ih ha.2]
    rfl

theorem nests_mono {p : Char → Bool} (h : ∀ c, o c → p c) (ht : nests o d t) : nests p d t := by
  induction t generalizing d with
  | nil => exact ht
  | cons c t ih =>
    rw [nests, Bool.and_eq_true, Bool.or_eq_true, Bool.and_eq_true] at ht
    rw [nests, Bool.and_eq_true, Bool.or_eq_true, Bool.and_eq_true]
    exact ⟨ht.1.imp_right (And.imp_right (h c)), ih ht.2⟩

theorem nests_of_forall (h : ∀ c ∈ t, o c ∧ isOpening c = false ∧ isClosing c = false) :
    nests o 0 t := by
  induction t with
  | nil => rfl
  | cons c t ih =>
    obtain ⟨ho, hopen, hclose⟩ := h c List.mem_cons_self
    have ht := ih fun d hd => h d (List.mem_cons_of_mem _ hd)
    simp [nests, depthAfter, ho, hopen, hclose, ht]

theorem nests_of_clear (ho : ∀ c, Text.isBlank c ∨ Text.isWordChar c → o c)
    (h : ∀ c ∈ t, Text.isBlank c ∨ Text.isWordChar c) : nests o 0 t :=
  nests_of_forall fun c hc => ⟨ho c (h c hc), not_bracket (h c hc)⟩

/-- A bracket that is open is closed later. -/
theorem exists_closing (h : nests o (d + 1) t) : ∃ c ∈ t, isClosing c := by
  induction t generalizing d with
  | nil => cases h
  | cons c t ih =>
    have ht := nests_tail h
    unfold depthAfter at ht
    split at ht
    · obtain ⟨e, he, hc⟩ := ih ht
      exact ⟨e, List.mem_cons_of_mem _ he, hc⟩
    · split at ht
      · next hc => exact ⟨c, List.mem_cons_self, hc⟩
      · obtain ⟨e, he, hc⟩ := ih ht
        exact ⟨e, List.mem_cons_of_mem _ he, hc⟩

theorem exists_closing_of_opening {c : Char} (hc : isOpening c) (h : nests o d (a ++ c :: b)) :
    ∃ e ∈ b, isClosing e := by
  induction a generalizing d with
  | nil =>
    have hb := nests_tail h
    rw [depthAfter, if_pos hc] at hb
    exact exists_closing hb
  | cons x a ih => exact ih (nests_tail h)

end

/-! ## Separators -/

theorem Mode.after_literal {c : Char} (hq : c ≠ '"') (hb : c ≠ '\\') :
    Mode.after .literal c = .literal := by
  simp [Mode.after, hq, hb]

/-- A character at the head of the first piece. -/
def consFirst (c : Char) : List Text → List Text
  | [] => [[c]]
  | piece :: more => (c :: piece) :: more

/-- A text in front of the first piece. -/
def appendFirst (t : Text) : List Text → List Text
  | [] => [t]
  | piece :: more => (t ++ piece) :: more

theorem appendFirst_cons (c : Char) (t : Text) (ps : List Text) :
    appendFirst (c :: t) ps = consFirst c (appendFirst t ps) := by
  cases ps <;> rfl

theorem appendFirst_append (a b : Text) (ps : List Text) :
    appendFirst (a ++ b) ps = appendFirst a (appendFirst b ps) := by
  cases ps <;> simp [appendFirst]

theorem appendFirst_nil {ps : List Text} (h : ps ≠ []) : appendFirst [] ps = ps := by
  cases ps with
  | nil => exact absurd rfl h
  | cons piece more => rfl

theorem pieces_cons (separator : Char) (mode : Mode) (depth : Nat) (c : Char) (t : Text) :
    pieces separator mode depth (c :: t) =
      if mode = .code ∧ c = separator ∧ depth = 0 then [] :: pieces separator .code 0 t
      else consFirst c (pieces separator (mode.after c)
        (if mode = .code then depthAfter depth c else depth) t) := by
  rw [pieces]
  rfl

theorem pieces_ne_nil (separator : Char) (mode : Mode) (depth : Nat) (t : Text) :
    pieces separator mode depth t ≠ [] := by
  cases t with
  | nil => simp [pieces]
  | cons c t =>
    rw [pieces_cons]
    split
    · simp
    · generalize pieces separator _ _ t = ps
      cases ps <;> simp [consFirst]

/-- In a literal no cut is made. -/
theorem pieces_cons_quoted (separator : Char) {mode : Mode} (hm : mode ≠ .code) (depth : Nat)
    (c : Char) (t : Text) : pieces separator mode depth (c :: t) =
      consFirst c (pieces separator (mode.after c) depth t) := by
  rw [pieces_cons, if_neg fun h => hm h.1, if_neg hm]

/-- In code the depth decides whether a cut is made. -/
theorem pieces_cons_uncut {separator : Char} {depth : Nat} {c : Char}
    (h : c = separator → depth ≠ 0) (t : Text) : pieces separator .code depth (c :: t) =
      consFirst c (pieces separator (Mode.after .code c) (depthAfter depth c) t) := by
  rw [pieces_cons, if_neg fun hc => h hc.2.1 hc.2.2, if_pos rfl]

theorem pieces_separator (separator : Char) (t : Text) :
    pieces separator .code 0 (separator :: t) = [] :: pieces separator .code 0 t :=
  if_pos ⟨rfl, rfl, rfl⟩

/-- What stands before the first equals sign outside brackets. -/
theorem splitEquals_append {a : Text} {d : Nat} (h : nests (· != '=') d a) (r : Text) :
    splitEquals d (a ++ r) = (a ++ (splitEquals 0 r).1, (splitEquals 0 r).2) := by
  induction a generalizing d with
  | nil =>
    obtain rfl : d = 0 := by simpa [nests] using h
    rfl
  | cons c a ih =>
    have hn : ¬ (c = '=' ∧ d = 0) := by
      rintro ⟨rfl, rfl⟩
      cases h
    rw [List.cons_append, splitEquals, if_neg hn, ih (nests_tail h)]
    rfl

/-! ## Words -/

/-- The text before the run of characters at its end. -/
theorem take_before_run (p : Char → Bool) (t : Text) :
    t.take (t.length - (t.reverse.takeWhile p).reverse.length) =
      (t.reverse.dropWhile p).reverse := by
  have ht : t = (t.reverse.dropWhile p).reverse ++ (t.reverse.takeWhile p).reverse := by
    rw [← List.reverse_append, List.takeWhile_append_dropWhile, List.reverse_reverse]
  generalize (t.reverse.takeWhile p).reverse = run, (t.reverse.dropWhile p).reverse = before
    at ht ⊢
  rw [ht, List.length_append, Nat.add_sub_cancel, List.take_left]

theorem splitTrailingIdentifier_eq (t : Text) :
    splitTrailingIdentifier t =
      if (t.trimEnd.reverse.takeWhile Text.isWordChar).reverse.head?.any Text.isWordStart then
        ((t.trimEnd.reverse.dropWhile Text.isWordChar).reverse,
          (t.trimEnd.reverse.takeWhile Text.isWordChar).reverse)
      else (t.trimEnd, []) := by
  rw [splitTrailingIdentifier]
  simp only [take_before_run]

/-- The identifier at the end of a text, where nothing before it goes on with it. -/
theorem splitTrailingIdentifier_append {a name : Text} (hn : Text.isIdentifier name)
    (ha : Text.endsWord a.reverse) : splitTrailingIdentifier (a ++ name) = (a, name) := by
  obtain ⟨c, r, hname, hc, hall⟩ := Text.exists_cons_of_isIdentifier hn
  have htrim : Text.trimEnd (a ++ name) = a ++ name :=
    Text.trimEnd_eq_self (Text.getLast?_identifier hn a)
  obtain ⟨hrun, hbefore⟩ :=
    Text.takeWhile_isWordChar (fun d hd => hall d (List.mem_reverse.1 hd)) ha
  have hhead : name.head?.any Text.isWordStart := by
    rw [hname]
    exact hc
  rw [splitTrailingIdentifier_eq, htrim, List.reverse_append, hrun, hbefore, List.reverse_reverse,
    List.reverse_reverse, if_pos hhead]

theorem afterKeyword?_append {keyword r : Text} (hr : Text.endsWord r) :
    afterKeyword? (keyword ++ r) keyword = some r := by
  rw [afterKeyword?, Text.dropLead?_append, Option.filter_some, if_pos hr]

/-! ## Literals one character at a time -/

/-- The text before the first place in code where `stops` holds, and the text from there on. -/
def cutUnquoted? (stops : Text → Bool) (mode : Mode) : Text → Option (Text × Text)
  | [] => none
  | c :: t =>
    if mode = .code ∧ stops (c :: t) then some ([], c :: t)
    else (cutUnquoted? stops (mode.after c) t).map fun (before, rest) => (c :: before, rest)

/-- A literal takes two characters at a backslash; the mode keeps count of them. -/
theorem splitUnquoted?_eq {stops : Text → Bool} (hq : ∀ t, stops ('"' :: t) = false)
    (inLiteral : Bool) (t : Text) : splitUnquoted? stops inLiteral t =
      cutUnquoted? stops (if inLiteral then .literal else .code) t := by
  fun_induction splitUnquoted? stops inLiteral t with
  | case1 => rfl
  | case2 inLiteral c h =>
    cases inLiteral with
    | true => cases h
    | false => exact (if_pos ⟨rfl, h⟩).symm
  | case3 inLiteral c h =>
    cases inLiteral with
    | true => rfl
    | false => exact (if_neg fun hc => h hc.2).symm
  | case4 inLiteral c d t h ih =>
    obtain ⟨rfl, rfl⟩ : inLiteral = true ∧ c = '\\' := by simpa using h
    rw [ih]
    simp [cutUnquoted?, Mode.after, Option.map_map, Function.comp_def]
  | case5 inLiteral d t h ih =>
    rw [ih]
    cases inLiteral <;> simp [cutUnquoted?, Mode.after, hq]
  | case6 inLiteral c d t h hc hs =>
    cases inLiteral with
    | true => cases hs
    | false => exact (if_pos ⟨rfl, hs⟩).symm
  | case7 inLiteral c d t h hc hs ih =>
    rw [ih]
    cases inLiteral with
    | true =>
      have hb : c ≠ '\\' := by simpa using h
      simp [cutUnquoted?, Mode.after, hb, hc]
    | false =>
      have hs : stops (c :: d :: t) = false := by simpa using hs
      simp [cutUnquoted?, Mode.after, hc, hs]

/-- A cut loses nothing. -/
theorem append_of_cutUnquoted? {stops : Text → Bool} {mode : Mode} {t before rest : Text}
    (h : cutUnquoted? stops mode t = some (before, rest)) : t = before ++ rest := by
  induction t generalizing mode before with
  | nil => cases h
  | cons c t ih =>
    rw [cutUnquoted?] at h
    split at h
    · cases h
      rfl
    · obtain ⟨⟨b, r⟩, hb, he⟩ := Option.map_eq_some_iff.1 h
      cases he
      rw [ih hb]
      rfl

theorem stops_of_cutUnquoted? {stops : Text → Bool} {mode : Mode} {t before rest : Text}
    (h : cutUnquoted? stops mode t = some (before, rest)) : stops rest := by
  induction t generalizing mode before with
  | nil => cases h
  | cons c t ih =>
    rw [cutUnquoted?] at h
    split at h
    · next hs =>
      cases h
      exact hs.2
    · obtain ⟨⟨b, r⟩, hb, he⟩ := Option.map_eq_some_iff.1 h
      cases he
      exact ih hb

/-- What stops a scan stops it at the same place before any text. -/
theorem cutUnquoted?_append {stops : Text → Bool} {u : Text}
    (hs : ∀ c t, stops (c :: t ++ u) = stops (c :: t)) {mode : Mode} {t before rest : Text}
    (h : cutUnquoted? stops mode t = some (before, rest)) :
    cutUnquoted? stops mode (t ++ u) = some (before, rest ++ u) := by
  induction t generalizing mode before with
  | nil => cases h
  | cons c t ih =>
    rw [cutUnquoted?] at h
    rw [List.cons_append, cutUnquoted?, ← List.cons_append, hs]
    split at h
    · next hc =>
      cases h
      rw [if_pos hc]
    · next hc =>
      obtain ⟨⟨b, r⟩, hb, he⟩ := Option.map_eq_some_iff.1 h
      cases he
      rw [if_neg hc, ih hb]
      rfl

/-- The first semicolon, where no literal stands before it. -/
theorem splitUnquoted?_semicolon {a : Text} (hq : '"' ∉ a) (hs : ';' ∉ a) (r : Text) :
    splitUnquoted? (·.head? == some ';') false (a ++ ';' :: r) = some (a, ';' :: r) := by
  rw [splitUnquoted?_eq (fun _ => rfl), if_neg Bool.false_ne_true]
  induction a with
  | nil => exact if_pos ⟨rfl, rfl⟩
  | cons c a ih =>
    simp only [List.mem_cons, not_or] at hq hs
    have hmode : Mode.after .code c = .code := if_neg (Ne.symm hq.1)
    have hstop : ¬ ((c :: (a ++ ';' :: r)).head? == some ';') := by simpa using Ne.symm hs.1
    rw [List.cons_append, cutUnquoted?, if_neg fun h => hstop h.2, hmode, ih hq.2 hs.2]
    rfl

end Signature
end Pinout
