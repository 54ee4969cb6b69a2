import Pinout.Proofs.Json.Written

/-!
# Pinout.Proofs.Json.Compact

Compact JSON read back. The strict reader takes the printed value and leaves what follows it
(`Strict.value?_compact`); it gives up where more groups are open than it allows, and only there. What
is printed is also one of the ways to write the value by hand (`Relaxed.written_compact`), so the
relaxed reader gives back any value (`Relaxed.read?_compact`).
-/

namespace Pinout
namespace Json

mutual

/-- Integers of 64 bits are the only numbers, and no key stands twice in an object. -/
def isIntegral : Json → Bool
  | null | bool _ | string _ => true
  | int i => fits64 i
  | real _ => false
  | array items => areIntegral items
  | object members => decide (members.map Prod.fst).Nodup && haveIntegral members

def areIntegral : List Json → Bool
  | [] => true
  | v :: rest => isIntegral v && areIntegral rest

def haveIntegral : List (Text × Json) → Bool
  | [] => true
  | (_, v) :: rest => isIntegral v && haveIntegral rest

end

mutual

/-- The number of groups that are open in the value at most. -/
def depth : Json → Nat
  | null | bool _ | int _ | real _ | string _ => 0
  | array items => depthItems items + 1
  | object members => depthMembers members + 1

def depthItems : List Json → Nat
  | [] => 0
  | v :: rest => max (depth v) (depthItems rest)

def depthMembers : List (Text × Json) → Nat
  | [] => 0
  | (_, v) :: rest => max (depth v) (depthMembers rest)

end

/-! ## The first character of a value -/

/-- What a value can start with. -/
def startsValue (c : Char) : Bool :=
  c.isDigit || ['-', '"', '[', '{', 'n', 't', 'f'].contains c

theorem exists_cons_compact {v : Json} (h : v.isIntegral) :
    ∃ c t, compact v = c :: t ∧ startsValue c := by
  cases v with
  | null => exact ⟨_, _, rfl, rfl⟩
  | bool b => cases b <;> exact ⟨_, _, rfl, rfl⟩
  | int i =>
    cases i with
    | ofNat n =>
      obtain ⟨c, t, ht, hd, _⟩ := Text.exists_cons_decimal n
      exact ⟨c, t, ht, by rw [startsValue, hd, Bool.true_or]⟩
    | negSucc n => exact ⟨'-', Text.decimal (n + 1), rfl, rfl⟩
  | real x => simp [isIntegral] at h
  | string t => exact ⟨'"', _, rfl, rfl⟩
  | array items => exact ⟨'[', _, by rw [compact]; rfl, rfl⟩
  | object members => exact ⟨'{', _, by rw [compact]; rfl, rfl⟩

theorem compactItems_cons_cons (v w : Json) (vs : List Json) :
    compactItems (v :: w :: vs) = compact v ++ ',' :: compactItems (w :: vs) := by
  simp [compactItems]

theorem compactMembers_cons_cons (k : Text) (v : Json) (m : Text × Json) (ms : Members) :
    compactMembers ((k, v) :: m :: ms) =
      quote k ++ ':' :: (compact v ++ ',' :: compactMembers (m :: ms)) := by
  simp [compactMembers]

theorem exists_cons_compactItems {v : Json} {vs : List Json} (h : areIntegral (v :: vs)) :
    ∃ c t, compactItems (v :: vs) = c :: t ∧ startsValue c := by
  rw [areIntegral, Bool.and_eq_true] at h
  obtain ⟨c, t, ht, hc⟩ := exists_cons_compact h.1
  cases vs with
  | nil => exact ⟨c, t, by rw [compactItems, ht], hc⟩
  | cons w vs => exact ⟨c, _, by rw [compactItems_cons_cons, ht]; rfl, hc⟩

theorem exists_quote_compactMembers (m : Text × Json) (ms : Members) :
    ∃ t, compactMembers (m :: ms) = '"' :: t := by
  obtain ⟨k, v⟩ := m
  cases ms with
  | nil => exact ⟨_, by rw [compactMembers, quote]; rfl⟩
  | cons w ms => exact ⟨_, by rw [compactMembers_cons_cons, quote]; rfl⟩

theorem startsValue_spec {c : Char} (h : startsValue c) :
    Text.isBlank c = false ∧ Strict.isBlank c = false ∧ c ≠ ']' ∧ c ≠ '}' := by
  rw [startsValue, Bool.or_eq_true] at h
  rcases h with h | h
  · have hall : ∀ c ∈ ['0', '1', '2', '3', '4', '5', '6', '7', '8', '9'],
        Text.isBlank c = false ∧ Strict.isBlank c = false ∧ c ≠ ']' ∧ c ≠ '}' :=
      Text.forall_of_all (by decide)
    exact hall c (digit_cases h)
  · have hall : ∀ c ∈ ['-', '"', '[', '{', 'n', 't', 'f'],
        Text.isBlank c = false ∧ Strict.isBlank c = false ∧ c ≠ ']' ∧ c ≠ '}' :=
      Text.forall_of_all (by decide)
    exact hall c (by simpa using h)

/-! ## Strict JSON -/

namespace Strict

theorem skipBlanks_cons {c : Char} (hc : isBlank c = false) (t : Text) :
    skipBlanks (c :: t) = c :: t := List.dropWhile_cons_of_neg (by simp [hc])

theorem value?_array {c : Char} (hb : isBlank c = false) (hc : c ≠ ']') (fuel d : Nat) (t : Text) :
    value? (fuel + 1) (d + 1) ('[' :: c :: t) =
      (items? fuel d (c :: t)).map fun (vs, t) => (.array vs, t) := by
  rw [value?, skipBlanks_cons rfl]
  simp only [skipBlanks_cons hb]
  split
  · next h => cases h
  · next h =>
    obtain ⟨rfl, _⟩ := List.cons.inj h
    exact absurd rfl hc
  · next h _ =>
    cases h
    rfl

theorem value?_object {c : Char} (hb : isBlank c = false) (hc : c ≠ '}') (fuel d : Nat) (t : Text) :
    value? (fuel + 1) (d + 1) ('{' :: c :: t) =
      (members? fuel d (c :: t)).map fun (ms, t) => (.object (ofEntries ms), t) := by
  rw [value?, skipBlanks_cons rfl]
  simp only [skipBlanks_cons hb]
  split
  · next h => cases h
  · next h =>
    obtain ⟨rfl, _⟩ := List.cons.inj h
    exact absurd rfl hc
  · next h _ =>
    cases h
    rfl

theorem value?_number {c : Char} (hc : c.isDigit ∨ c = '-') (fuel d : Nat) (t : Text) :
    value? (fuel + 1) d (c :: t) = number? (c :: t) := by
  have hm := sign_or_digit_cases hc
  simp only [List.mem_cons, List.not_mem_nil, or_false] at hm
  rcases hm with rfl | rfl | rfl | rfl | rfl | rfl | rfl | rfl | rfl | rfl | rfl <;> rfl

theorem value?_int {i : Int} (hi : fits64 i) {r : Text} (hr : endsToken r) (fuel d : Nat) :
    value? (fuel + 1) d (Text.decimalInt i ++ r) = some (.int i, r) := by
  rw [← number?_decimalInt hi hr]
  cases i with
  | ofNat n =>
    obtain ⟨c, t, ht, hd, _⟩ := Text.exists_cons_decimal n
    rw [Text.decimalInt, ht]
    exact value?_number (.inl hd) fuel d _
  | negSucc n => exact value?_number (.inr rfl) fuel d _

theorem key?_quote (k r : Text) : key? (quote k ++ ':' :: r) = some (k, r) := by
  have hq : quote k ++ ':' :: r = '"' :: (k.flatMap escape ++ '"' :: ':' :: r) := by simp [quote]
  rw [hq, key?, skipBlanks_cons rfl]
  simp only [string?_quote, Option.bind_eq_bind, Option.bind_some]
  rfl

mutual

/-- The printed value is read back, unless more groups are open in it than are allowed. -/
theorem value?_compact : ∀ (v : Json) (fuel d : Nat) (r : Text), v.isIntegral →
    2 * v.compact.length ≤ fuel + 1 → endsToken r →
    value? (fuel + 1) d (v.compact ++ r) = if v.depth ≤ d then some (v, r) else none
  | .null, fuel, d, r, _, _, _ => by
    rw [compact, depth, if_pos (Nat.zero_le d)]
    rfl
  | .bool b, fuel, d, r, _, _, _ => by
    rw [compact, depth, if_pos (Nat.zero_le d)]
    cases b <;> rfl
  | .int i, fuel, d, r, hi, _, hr => by
    rw [compact, depth, if_pos (Nat.zero_le d)]
    rw [isIntegral] at hi
    exact value?_int hi hr fuel d
  | .real x, _, _, _, hi, _, _ => by
    rw [isIntegral] at hi
    cases hi
  | .string t, fuel, d, r, _, _, _ => by
    have hq : quote t ++ r = '"' :: (t.flatMap escape ++ '"' :: r) := by simp [quote]
    rw [compact, depth, if_pos (Nat.zero_le d), hq]
    show (string? _).map _ = _
    rw [string?_quote]
    rfl
  | .array [], fuel, d, r, _, _, _ => by
    have hc : compact (.array []) ++ r = '[' :: ']' :: r := by rw [compact, compactItems]; rfl
    rw [hc, depth, depthItems]
    cases d with
    | zero => rfl
    | succ d => rw [if_pos (by omega)]; rfl
  | .array (v :: vs), fuel, d, r, hi, hf, _ => by
    have hc : compact (.array (v :: vs)) ++ r = '[' :: (compactItems (v :: vs) ++ ']' :: r) := by
      rw [compact]
      simp
    rw [isIntegral] at hi
    rw [compact, List.length_append, List.length_cons, List.length_singleton] at hf
    rw [hc, depth]
    cases d with
    | zero => rfl
    | succ d =>
      obtain ⟨c, t, ht, hs⟩ := exists_cons_compactItems hi
      obtain ⟨fuel, rfl⟩ : ∃ n, fuel = n + 1 := ⟨fuel - 1, by omega⟩
      have ih := items?_compact (v :: vs) fuel d r (by simp) hi (by omega)
      rw [ht, List.cons_append] at ih ⊢
      rw [value?_array (startsValue_spec hs).2.1 (startsValue_spec hs).2.2.1, ih]
      by_cases h : depthItems (v :: vs) ≤ d
      · rw [if_pos h, if_pos (by omega)]
        rfl
      · rw [if_neg h, if_neg (by omega)]
        rfl
  | .object [], fuel, d, r, _, _, _ => by
    have hc : compact (.object []) ++ r = '{' :: '}' :: r := by rw [compact, compactMembers]; rfl
    rw [hc, depth, depthMembers]
    cases d with
    | zero => rfl
    | succ d => rw [if_pos (by omega)]; rfl
  | .object (m :: ms), fuel, d, r, hi, hf, _ => by
    have hc : compact (.object (m :: ms)) ++ r =
        '{' :: (compactMembers (m :: ms) ++ '}' :: r) := by
      rw [compact]
      simp
    rw [isIntegral, Bool.and_eq_true, decide_eq_true_eq] at hi
    rw [compact, List.length_append, List.length_cons, List.length_singleton] at hf
    rw [hc, depth]
    cases d with
    | zero => rfl
    | succ d =>
      obtain ⟨t, ht⟩ := exists_quote_compactMembers m ms
      obtain ⟨fuel, rfl⟩ : ∃ n, fuel = n + 1 := ⟨fuel - 1, by omega⟩
      have ih := members?_compact (m :: ms) fuel d r (by simp) hi.2 (by omega)
      rw [ht, List.cons_append] at ih ⊢
      rw [value?_object rfl (by decide), ih]
      by_cases h : depthMembers (m :: ms) ≤ d
      · rw [if_pos h, if_pos (by omega)]
        show some (Json.object (ofEntries (m :: ms)), r) = _
        rw [ofEntries_eq_self hi.1]
      · rw [if_neg h, if_neg (by omega)]
        rfl

theorem items?_compact : ∀ (vs : List Json) (fuel d : Nat) (r : Text), vs ≠ [] →
    areIntegral vs → 2 * (compactItems vs).length ≤ fuel →
    items? (fuel + 1) d (compactItems vs ++ ']' :: r) =
      if depthItems vs ≤ d then some (vs, r) else none
  | [], _, _, _, h, _, _ => absurd rfl h
  | [v], fuel, d, r, _, hi, hf => by
    rw [areIntegral, Bool.and_eq_true] at hi
    rw [compactItems] at hf ⊢
    obtain ⟨c, t, ht, _⟩ := exists_cons_compact hi.1
    obtain ⟨fuel, rfl⟩ : ∃ n, fuel = n + 1 :=
      ⟨fuel - 1, by rw [ht, List.length_cons] at hf; omega⟩
    have ih := value?_compact v fuel d (']' :: r) hi.1 hf rfl
    rw [items?, ih, depthItems, depthItems, Nat.max_zero]
    by_cases h : v.depth ≤ d
    · rw [if_pos h, if_pos h]
      rfl
    · rw [if_neg h, if_neg h]
      rfl
  | v :: w :: vs, fuel, d, r, _, hi, hf => by
    rw [areIntegral, Bool.and_eq_true] at hi
    rw [compactItems_cons_cons, List.length_append, List.length_cons] at hf
    obtain ⟨c, t, ht, _⟩ := exists_cons_compact hi.1
    have hv : 1 ≤ v.compact.length := by rw [ht, List.length_cons]; omega
    obtain ⟨fuel, rfl⟩ : ∃ n, fuel = n + 1 := ⟨fuel - 1, by omega⟩
    have ih := value?_compact v fuel d (',' :: (compactItems (w :: vs) ++ ']' :: r)) hi.1
      (by omega) rfl
    have ihs := items?_compact (w :: vs) fuel d r (by simp) hi.2 (by omega)
    rw [compactItems_cons_cons, List.append_assoc, List.cons_append, items?, ih, depthItems]
    by_cases h : v.depth ≤ d
    · rw [if_pos h]
      show (items? (fuel + 1) d (compactItems (w :: vs) ++ ']' :: r)).bind _ = _
      rw [ihs]
      by_cases hs : depthItems (w :: vs) ≤ d
      · rw [if_pos hs, if_pos (by omega)]
        rfl
      · rw [if_neg hs, if_neg (by omega)]
        rfl
    · rw [if_neg h, if_neg (by omega)]
      rfl

theorem members?_compact : ∀ (ms : Members) (fuel d : Nat) (r : Text), ms ≠ [] →
    haveIntegral ms → 2 * (compactMembers ms).length ≤ fuel →
    members? (fuel + 1) d (compactMembers ms ++ '}' :: r) =
      if depthMembers ms ≤ d then some (ms, r) else none
  | [], _, _, _, h, _, _ => absurd rfl h
  | [(k, v)], fuel, d, r, _, hi, hf => by
    rw [haveIntegral, Bool.and_eq_true] at hi
    have hc : compactMembers [(k, v)] ++ '}' :: r =
        quote k ++ ':' :: (v.compact ++ '}' :: r) := by
      simp [compactMembers]
    simp only [compactMembers, List.length_append, List.length_cons] at hf
    obtain ⟨fuel, rfl⟩ : ∃ n, fuel = n + 1 := ⟨fuel - 1, by omega⟩
    have ih := value?_compact v fuel d ('}' :: r) hi.1 (by omega) rfl
    rw [hc, members?, key?_quote]
    simp only [Option.bind_eq_bind, Option.bind_some, ih, depthMembers, Nat.max_zero]
    by_cases h : v.depth ≤ d
    · rw [if_pos h, if_pos h]
      rfl
    · rw [if_neg h, if_neg h]
      rfl
  | (k, v) :: m :: ms, fuel, d, r, _, hi, hf => by
    rw [haveIntegral, Bool.and_eq_true] at hi
    simp only [compactMembers_cons_cons, List.length_append, List.length_cons] at hf
    obtain ⟨fuel, rfl⟩ : ∃ n, fuel = n + 1 := ⟨fuel - 1, by omega⟩
    have ih := value?_compact v fuel d (',' :: (compactMembers (m :: ms) ++ '}' :: r)) hi.1
      (by omega) rfl
    have ihs := members?_compact (m :: ms) fuel d r (by simp) hi.2 (by omega)
    have hc : compactMembers ((k, v) :: m :: ms) ++ '}' :: r =
        quote k ++ ':' :: (v.compact ++ ',' :: (compactMembers (m :: ms) ++ '}' :: r)) := by
      rw [compactMembers_cons_cons]
      simp
    have hd : depthMembers ((k, v) :: m :: ms) = max v.depth (depthMembers (m :: ms)) := rfl
    rw [hc, members?, key?_quote, hd]
    simp only [Option.bind_eq_bind, Option.bind_some, ih]
    by_cases h : v.depth ≤ d
    · rw [if_pos h]
      show (members? (fuel + 1) d (compactMembers (m :: ms) ++ '}' :: r)).bind _ = _
      rw [ihs]
      by_cases hs : depthMembers (m :: ms) ≤ d
      · rw [if_pos hs, if_pos (by omega)]
        rfl
      · rw [if_neg hs, if_neg (by omega)]
        rfl
    · rw [if_neg h, if_neg (by omega)]
      rfl

end

/-- The strict reader allows groups within groups up to `maxDepth`. -/
theorem read?_compact {v : Json} (h : v.isIntegral) :
    read? v.compact = if v.depth ≤ maxDepth then some v else none := by
  have hv := value?_compact v (2 * v.compact.length + 1) maxDepth [] h (by omega) rfl
  rw [List.append_nil] at hv
  rw [read?, hv]
  by_cases hd : v.depth ≤ maxDepth
  · rw [if_pos hd, if_pos hd]
    rfl
  · rw [if_neg hd, if_neg hd]
    rfl

end Strict

/-! ## Relaxed JSON -/

namespace Relaxed

theorem spelled_control {c : Char} (hc : c.toNat < 0x20) : Spelled '"' c
    ("\\u00".toList ++ [hexDigit (c.toNat / 16), hexDigit (c.toNat % 16)]) := by
  have hzero : HexDigit 0 '0' := .lower (by decide)
  have hhigh : HexDigit (c.toNat / 16) (hexDigit (c.toNat / 16)) := .lower (by omega)
  have hlow : HexDigit (c.toNat % 16) (hexDigit (c.toNat % 16)) := .lower (by omega)
  exact .codeUnit hzero hzero hhigh hlow (by omega)

/-- What the printer writes for a character is one of the ways to write it. -/
theorem spelled_escape (c : Char) : Spelled '"' c (escape c) := by
  unfold escape
  split_ifs with hq hb h₁ h₂ h₃ h₄ h₅ hc
  · subst hq; exact .letter (by decide)
  · subst hb; exact .letter (by decide)
  · subst h₁; exact .letter (by decide)
  · subst h₂; exact .letter (by decide)
  · subst h₃; exact .letter (by decide)
  · subst h₄; exact .letter (by decide)
  · subst h₅; exact .letter (by decide)
  · exact spelled_control hc
  · exact .plain hq hb

theorem quoted_quote (t : Text) : Quoted t (quote t) := by
  have h : List.Forall₂ (Spelled '"') t (t.map escape) := by
    induction t with
    | nil => exact .nil
    | cons c t ih => exact .cons (spelled_escape c) ih
  exact .quotes (by decide) h

theorem writtenMember_compact (k : Text) {v : Json} (h : Written v v.compact) :
    WrittenMember k v (quote k ++ ':' :: v.compact) := by
  have := @WrittenMember.colon k _ v _ [] [] [] [] (.quoted (quoted_quote k)) h rfl rfl rfl rfl
  simpa using this

mutual

/-- The printed value is one of the ways to write the value. -/
theorem written_compact : ∀ v : Json, v.isIntegral → Written v v.compact
  | .null, _ => by
    rw [compact]
    exact .literal (by simp [literals])
  | .bool true, _ => by
    rw [compact]
    exact .literal (by simp [literals])
  | .bool false, _ => by
    rw [compact]
    exact .literal (by simp [literals])
  | .int i, hi => by
    rw [compact]
    exact .int hi
  | .real x, hi => by
    rw [isIntegral] at hi
    cases hi
  | .string t, _ => by
    rw [compact]
    exact .quoted (quoted_quote t)
  | .array vs, hi => by
    rw [isIntegral] at hi
    rw [compact]
    exact .array (by decide) (writtenItems_compact vs hi)
  | .object ms, hi => by
    rw [isIntegral, Bool.and_eq_true, decide_eq_true_eq] at hi
    rw [compact]
    exact .object hi.1 (writtenMembers_compact ms hi.2)

theorem writtenItems_compact : ∀ vs : List Json, areIntegral vs → WrittenItems vs (compactItems vs)
  | [], _ => .nil rfl
  | [v], hi => by
    rw [areIntegral, Bool.and_eq_true] at hi
    have h := @WrittenItems.last v [] _ [] rfl (written_compact v hi.1) rfl
    rwa [List.append_nil] at h
  | v :: w :: vs, hi => by
    rw [areIntegral, Bool.and_eq_true] at hi
    have h := @WrittenItems.comma v (w :: vs) [] _ [] _ rfl (written_compact v hi.1) rfl
      (writtenItems_compact (w :: vs) hi.2)
    rwa [List.append_nil] at h

theorem writtenMembers_compact : ∀ ms : Members, haveIntegral ms →
    WrittenMembers ms (compactMembers ms)
  | [], _ => .nil rfl
  | [(k, v)], hi => by
    rw [haveIntegral, Bool.and_eq_true] at hi
    exact .last (writtenMember_compact k (written_compact v hi.1))
  | (k, v) :: m :: ms, hi => by
    rw [haveIntegral, Bool.and_eq_true] at hi
    have h := WrittenMembers.comma (writtenMember_compact k (written_compact v hi.1))
      (writtenMembers_compact (m :: ms) hi.2)
    rw [compactMembers_cons_cons]
    simpa using h

end

/-- The printed value is read back, however many groups are open in it, and blanks behind it do no
harm. -/
theorem read?_compact {v : Json} (h : v.isIntegral) {w : Text} (hw : w.allBlank) :
    read? (v.compact ++ w) = some v :=
  @read?_blanks v _ [] w (value?_written (written_compact v h)) rfl hw

end Relaxed

end Json
end Pinout
