import Pinout.Editor.Symbols
import Pinout.Proofs.Editor.Occurrence
import Pinout.Proofs.Signature.Commented
import Pinout.Proofs.Source.Word

/-!
# Pinout.Proofs.Editor.Outline

Where the outline of a document points (`outline?_located`). The name of a module is read from the
stripped view and looked for in the document; it is a word of the view (`wordAt_of_header?`), so it
is one of the document as well.

The search for it goes on behind each occurrence that does not follow the keyword. Occurrences of
one name do not overlap (`Occurs.eq_or_behind`), so it passes over none of them, and as each step
leaves less to be searched it ends (`goesOn_wellFounded`).
-/

namespace Pinout

namespace Signature

open Text (WordAt endsWord)

/-- A name behind blanks is a word of a text that goes on with no other one. -/
theorem wordAt_nameOf {t : Text} (h : (nameOf t).1 ≠ []) : ∃ n, WordAt (nameOf t).1 t n := by
  obtain ⟨left, hblank, ht⟩ := Text.exists_trimStart t
  obtain ⟨hcut, hend⟩ := Text.splitIdentifier_spec (t := Text.trimStart t) rfl
  rw [nameOf] at h ⊢
  rw [hcut] at ht
  refine ⟨left.length, ?_⟩
  conv => arg 2; rw [ht]
  exact Text.wordAt_append (Text.endsWord_of_allBlank (by rwa [Text.allBlank_reverse])) (hend h)

/-- The name of a header is a word of the text. -/
theorem wordAt_of_header? {t : Text} {h : Header} (hh : header? t = some h) :
    ∃ n, WordAt h.name t n := by
  have hname := isIdentifier_of_header? hh
  induction t using header_induction with
  | absent t ht =>
    rw [header?_of_none ht] at hh
    cases hh
  | behind t rest ht ih =>
    obtain ⟨m, hm, rfl⟩ := Option.map_eq_some_iff.1 ht
    -- in either case the name is a word of the text behind the keyword
    suffices hrest : ∃ n, WordAt h.name (t.drop (m + moduleKeyword.length)) n by
      obtain ⟨n, hn⟩ := hrest
      exact ⟨_, wordAt_behind hname (Text.wordAt_of_findWord? hm) hn⟩
    rw [header?_of_some ht] at hh
    split at hh
    · exact ih hh
    · next hne =>
      obtain ⟨_, _, rfl⟩ := Option.map_eq_some_iff.1 hh
      exact wordAt_nameOf hne

theorem exists_header_of_isAbsent {source : Text} (h : (ofSource source).isAbsent = false) :
    ∃ header, header? (Source.views source).stripped = some header ∧
      (ofSource source).name = header.name := by
  rw [ofSource] at h ⊢
  cases hh : header? (Source.views source).stripped with
  | none =>
    rw [ofViews_of_none hh] at h
    cases h
  | some header => exact ⟨header, rfl, by rw [ofViews_of_header hh]⟩

end Signature

namespace Editor

open Text (isWordChar endsWord WordAt)

theorem Position.zero_le (p : Position) : Position.zero ≤ p := by
  rw [Position.le_def]
  rcases Nat.eq_zero_or_pos p.line with h | h
  · exact .inr ⟨h.symm, Nat.zero_le _⟩
  · exact .inl h

section

variable {t name : Text} {origin : Position} {r r' : Range}

/-! ## Occurrences of one name -/

theorem Occurs.not_stop_le (hne : name ≠ []) (h : Occurs name t r) : ¬ r.stop ≤ r.start := by
  have := List.length_pos_iff.2 hne
  rw [h.stop, Position.le_def]
  dsimp only
  omega

/-- Of two occurrences of one name the later one starts behind the other. -/
theorem Occurs.eq_or_behind (hne : name ≠ []) (hw : ∀ c ∈ name, isWordChar c)
    (h : Occurs name t r) (h' : Occurs name t r') (hle : r.start ≤ r'.start) :
    r' = r ∨ r.stop ≤ r'.start := by
  obtain ⟨line, hl, hword⟩ := h.word
  obtain ⟨line', hl', hword'⟩ := h'.word
  rw [h.stop, Position.le_def]
  rw [Position.le_def] at hle
  rcases hle with hlt | ⟨hline, hcharacter⟩
  · exact .inr (.inl hlt)
  · rw [← hline] at hl'
    cases hl.symm.trans hl'
    obtain ⟨i, hi⟩ := Nat.exists_eq_add_of_le hcharacter
    rw [hi] at hword'
    by_cases hin : i < name.length
    · obtain rfl := Text.eq_zero_of_wordAt hne hw hword hword' hin
      refine .inl ?_
      rw [h.eq_rangeAt, h'.eq_rangeAt, hi, hline]
      rfl
    · exact .inr (.inr ⟨hline, by rw [hi]; dsimp only; omega⟩)

/-! ## The name of the module -/

/-- The search passes over an occurrence that does not follow the keyword, and goes on behind it. -/
def GoesOn (t name : Text) (p q : Position) : Prop :=
  ∃ r, findIdentifier? t name p = some r ∧ followsModule t r = false ∧ q = r.stop

/-- The search does not go on forever, wherever it starts. -/
theorem goesOn_wellFounded (t name : Text) : WellFounded fun q p => GoesOn t name p q := by
  refine Subrelation.wf ?_ (InvImage.wf (Position.left t)
    (Prod.lex ⟨_, Nat.lt_wfRel.wf⟩ ⟨_, Nat.lt_wfRel.wf⟩).wf)
  rintro q p ⟨r, hr, -, rfl⟩
  exact left_of_findIdentifier? hr

theorem moduleRangeFrom?_found (h : findIdentifier? t name origin = some r)
    (hf : followsModule t r) : moduleRangeFrom? t name origin = some r := by
  rw [moduleRangeFrom?]
  split
  · next hn => rw [h] at hn; cases hn
  · next hs =>
    cases h.symm.trans hs
    exact if_pos hf

theorem moduleRangeFrom?_passed (h : findIdentifier? t name origin = some r)
    (hf : followsModule t r = false) :
    moduleRangeFrom? t name origin = moduleRangeFrom? t name r.stop := by
  rw [moduleRangeFrom?]
  split
  · next hn => rw [h] at hn; cases hn
  · next hs =>
    cases h.symm.trans hs
    exact if_neg (Bool.eq_false_iff.1 hf)

/-- The search finds the first occurrence that follows the keyword. -/
theorem isFirst_of_moduleRangeFrom? (hne : name ≠ []) (hw : ∀ c ∈ name, isWordChar c)
    (h : moduleRangeFrom? t name origin = some r) :
    IsFirst (fun r => Occurs name t r ∧ followsModule t r) origin r := by
  fun_induction moduleRangeFrom? t name origin with
  | case1 => cases h
  | case2 origin found hfound hfollows =>
    cases h
    have hfirst := isFirst_of_findIdentifier? hfound
    exact ⟨⟨hfirst.holds, hfollows⟩, hfirst.behind, fun r' hr' => hfirst.least r' hr'.1⟩
  | case3 origin found hfound hfollows ih =>
    have hfirst := isFirst_of_findIdentifier? hfound
    obtain ⟨hr, hbehind, hleast⟩ := ih h
    refine ⟨hr, Position.le_trans hfirst.behind
      (Position.le_trans hfirst.holds.start_le_stop hbehind), ?_⟩
    intro r' hr' ho
    rcases hfirst.holds.eq_or_behind hne hw hr'.1 (hfirst.least r' hr'.1 ho) with rfl | hb
    · exact absurd hr'.2 hfollows
    · exact hleast r' hr' hb

/-- Without the keyword, the search has seen all occurrences. -/
theorem not_followsModule_of_moduleRangeFrom? (hne : name ≠ []) (hw : ∀ c ∈ name, isWordChar c)
    (h : moduleRangeFrom? t name origin = none) (hr : Occurs name t r) (ho : origin ≤ r.start) :
    followsModule t r = false := by
  fun_induction moduleRangeFrom? t name origin with
  | case1 origin hnone => exact absurd ho (not_occurs_of_findIdentifier? hne hnone hr)
  | case2 => cases h
  | case3 origin found hfound hfollows ih =>
    have hfirst := isFirst_of_findIdentifier? hfound
    rcases hfirst.holds.eq_or_behind hne hw hr (hfirst.least r hr ho) with rfl | hb
    · exact Bool.eq_false_iff.2 hfollows
    · exact ih h hb

/-- The name of a module is found at its first occurrence behind the keyword, and at its first
occurrence if none stands there. -/
theorem isFirst_of_moduleRange? (hne : name ≠ []) (hw : ∀ c ∈ name, isWordChar c)
    (h : moduleRange? t name = some r) :
    IsFirst (fun r => Occurs name t r ∧ followsModule t r) .zero r ∨
      (∀ r', Occurs name t r' → followsModule t r' = false) ∧ IsFirst (Occurs name t) .zero r := by
  rw [moduleRange?] at h
  cases hm : moduleRangeFrom? t name .zero with
  | some found =>
    rw [hm] at h
    cases h
    exact .inl (isFirst_of_moduleRangeFrom? hne hw hm)
  | none =>
    rw [hm] at h
    refine .inr ⟨fun r' hr' => ?_, isFirst_of_findIdentifier? h⟩
    exact not_followsModule_of_moduleRangeFrom? hne hw hm hr' r'.start.zero_le

theorem exists_moduleRange? (hne : name ≠ []) (hr : Occurs name t r) :
    ∃ range, moduleRange? t name = some range := by
  cases hf : findIdentifier? t name .zero with
  | none => exact absurd r.start.zero_le (not_occurs_of_findIdentifier? hne hf hr)
  | some first =>
    rw [moduleRange?, hf]
    cases moduleRangeFrom? t name .zero with
    | none => exact ⟨first, rfl⟩
    | some found => exact ⟨found, rfl⟩

/-! ## The items of a module -/

theorem itemRange_cases (hne : name ≠ []) (range : Range) :
    IsFirst (Occurs name t) range.stop (itemRange t name range) ∨
      itemRange t name range = range ∧ ∀ r, Occurs name t r → ¬ range.stop ≤ r.start := by
  rw [itemRange]
  cases hf : findIdentifier? t name range.stop with
  | none => exact .inr ⟨rfl, fun r hr => not_occurs_of_findIdentifier? hne hf hr⟩
  | some found => exact .inl (isFirst_of_findIdentifier? hf)

/-- An item points at its module exactly where its own name does not occur behind it. -/
theorem itemRange_eq_iff (hne : name ≠ []) {range : Range} (hrange : ¬ range.stop ≤ range.start) :
    itemRange t name range = range ↔ ∀ r, Occurs name t r → ¬ range.stop ≤ r.start := by
  rcases itemRange_cases (t := t) hne range with h | ⟨h, hnone⟩
  · constructor
    · intro he
      have hbehind := h.behind
      rw [he] at hbehind
      exact absurd hbehind hrange
    · exact fun hnone => absurd h.behind (hnone _ h.holds)
  · exact iff_of_true h hnone

end

theorem items_outlineOf (t : Text) (s : Signature) :
    (outlineOf t s).items.map (fun item => (item.name, item.kind)) =
      s.parameters.map (fun p => (p.name, .constant)) ++ s.ports.map (fun p => (p.name, .field)) := by
  simp only [outlineOf, List.map_append, List.map_map]
  rfl

theorem range_of_mem_items {t : Text} {s : Signature} (hs : s.WellFormed) {item : Symbol}
    (h : item ∈ (outlineOf t s).items) :
    item.name ≠ [] ∧ item.range = itemRange t item.name (outlineOf t s).module.range := by
  rcases List.mem_append.1 h with h | h
  · obtain ⟨p, hp, rfl⟩ := List.mem_map.1 h
    exact ⟨Text.ne_nil_of_isIdentifier (hs.parameters p hp).name, rfl⟩
  · obtain ⟨p, hp, rfl⟩ := List.mem_map.1 h
    exact ⟨Text.ne_nil_of_isIdentifier (hs.ports p hp).name, rfl⟩

/-- The name of a module that is read from a document occurs in the document. -/
theorem exists_occurs_name {t : Text} (h : (Signature.ofSource t).isAbsent = false) :
    Text.isIdentifier (Signature.ofSource t).name ∧ ∃ r, Occurs (Signature.ofSource t).name t r := by
  obtain ⟨header, hheader, hname⟩ := Signature.exists_header_of_isAbsent h
  have hid := Signature.isIdentifier_of_header? hheader
  obtain ⟨_, _, _, _, hw⟩ := Text.exists_cons_of_isIdentifier hid
  obtain ⟨n, hn⟩ := Signature.wordAt_of_header? hheader
  obtain ⟨k, line, m, hl, hword⟩ :=
    Source.exists_line_of_stripped (Text.ne_nil_of_isIdentifier hid) hw hn
  rw [hname]
  exact ⟨hid, _, occurs_rangeAt hl hword⟩

/-- The outline of a document with a module. The search for the name of the module ends, and finds
the name as a whole word; the items are the parameters and then the ports, each at the first
occurrence of its own name behind the name of the module, and where it does not occur there, at the
name of the module. -/
theorem outline?_located (t : Text) (h : (Signature.ofSource t).isAbsent = false) :
    (WellFounded fun q p => GoesOn t (Signature.ofSource t).name p q) ∧
    ∃ o, outline? t = some o ∧ o.module.name = (Signature.ofSource t).name ∧
      moduleRange? t (Signature.ofSource t).name = some o.module.range ∧
      Occurs (Signature.ofSource t).name t o.module.range ∧
      o.items.map (fun item => (item.name, item.kind)) =
        (Signature.ofSource t).parameters.map (fun p => (p.name, .constant)) ++
          (Signature.ofSource t).ports.map (fun p => (p.name, .field)) ∧
      ∀ item ∈ o.items,
        (IsFirst (Occurs item.name t) o.module.range.stop item.range ∨
          item.range = o.module.range) ∧
        (item.range = o.module.range ↔
          ∀ r, Occurs item.name t r → ¬ o.module.range.stop ≤ r.start) := by
  have hwellFormed : (Signature.ofSource t).WellFormed :=
    Signature.ofViews_wellFormed (Source.views t)
  obtain ⟨hid, r, hr⟩ := exists_occurs_name h
  obtain ⟨_, _, _, _, hw⟩ := Text.exists_cons_of_isIdentifier hid
  have hne := Text.ne_nil_of_isIdentifier hid
  obtain ⟨range, hrange⟩ := exists_moduleRange? hne hr
  have hoccurs : Occurs (Signature.ofSource t).name t range := by
    rcases isFirst_of_moduleRange? hne hw hrange with hf | ⟨-, hf⟩
    · exact hf.holds.1
    · exact hf.holds
  have hmodule : (outlineOf t (Signature.ofSource t)).module.range = range := by
    rw [outlineOf, hrange]
    rfl
  refine ⟨goesOn_wellFounded t _, outlineOf t (Signature.ofSource t), ?_, rfl, ?_⟩
  · rw [outline?, h]
    rfl
  · rw [hmodule]
    refine ⟨hrange, hoccurs, items_outlineOf t _, fun item hitem => ?_⟩
    obtain ⟨hitemName, hitemRange⟩ := range_of_mem_items hwellFormed hitem
    rw [hmodule] at hitemRange
    rw [hitemRange, itemRange_eq_iff hitemName (hoccurs.not_stop_le hne)]
    exact ⟨(itemRange_cases hitemName range).imp_right And.right, Iff.rfl⟩

/-- The name stands on a line of its own and, behind the keyword, in a comment at the end. There the
port `b` occurs and the port `a` does not. -/
def commentedModule : Text := "module\r\n m (input a, b); // module m b".toList

theorem outline?_located_commented :
    (Signature.ofSource commentedModule).isAbsent = false ∧
    (WellFounded fun q p => GoesOn commentedModule "m".toList p q) ∧
    ∃ o, outline? commentedModule = some o ∧ o.module.range = rangeAt "m".toList 1 27 ∧
      o.items.map (fun item => (item.name, item.kind)) =
        [("a".toList, .field), ("b".toList, .field)] ∧
      ∀ item ∈ o.items, item.range = o.module.range ↔
        ∀ r, Occurs item.name commentedModule r → ¬ o.module.range.stop ≤ r.start := by
  have h : (Signature.ofSource commentedModule).isAbsent = false := by decide +kernel
  have hname : (Signature.ofSource commentedModule).name = "m".toList := by decide +kernel
  have hitems : (Signature.ofSource commentedModule).parameters.map (fun p => (p.name, .constant)) ++
      (Signature.ofSource commentedModule).ports.map (fun p => (p.name, SymbolKind.field)) =
      [("a".toList, .field), ("b".toList, .field)] := by decide +kernel
  have hfound : moduleRange? commentedModule "m".toList = some (rangeAt "m".toList 1 27) := by
    have hpassed : findIdentifier? commentedModule "m".toList .zero = some (rangeAt "m".toList 1 1) := by
      decide
    have hbehind : findIdentifier? commentedModule "m".toList (rangeAt "m".toList 1 1).stop =
        some (rangeAt "m".toList 1 27) := by
      decide
    rw [moduleRange?, moduleRangeFrom?_passed hpassed (by decide),
      moduleRangeFrom?_found hbehind (by decide)]
    rfl
  obtain ⟨hends, o, ho, -, hrange, -, hnames, hlocated⟩ := outline?_located commentedModule h
  rw [hname] at hends hrange
  exact ⟨h, hends, o, ho, Option.some.inj (hrange.symm.trans hfound), hnames.trans hitems,
    fun item hitem => (hlocated item hitem).2⟩

end Editor
end Pinout
