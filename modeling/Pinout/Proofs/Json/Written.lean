import Pinout.Json.Relaxed
import Pinout.Proofs.Json.Scalar
import Pinout.Proofs.Text.Blank

/-!
# Pinout.Proofs.Json.Written

JSON as it may be written by hand, and read back. `Written v t` says that the text `t` is one of the
ways to write the value `v`: strings in either kind of quotes with any of the escapes or as bare
words, bare keys, brackets or parentheses around items, a comma behind the last item or none, either
spelling of the literals, and blanks around all tokens. The relaxed reader takes any of them for `v`,
however deep its groups are nested (`value?_written`, `read?_of_written`).
-/

namespace Pinout
namespace Json

/-! ## Objects -/

theorem insert_of_not_mem {key : Text} {ms : Members} (h : key ∉ ms.map Prod.fst) (v : Json) :
    insert key v ms = ms ++ [(key, v)] := by
  induction ms with
  | nil => rfl
  | cons m ms ih =>
    obtain ⟨k, w⟩ := m
    simp only [List.map_cons, List.mem_cons, not_or] at h
    rw [insert, if_neg (Ne.symm h.1), ih h.2]
    rfl

theorem foldl_insert {ms rest : Members} (h : ((ms ++ rest).map Prod.fst).Nodup) :
    rest.foldl (fun members (key, value) => insert key value members) ms = ms ++ rest := by
  induction rest generalizing ms with
  | nil => rw [List.foldl_nil, List.append_nil]
  | cons m rest ih =>
    obtain ⟨k, v⟩ := m
    have hk : k ∉ ms.map Prod.fst := by
      rw [List.map_append, List.nodup_append] at h
      exact fun hm => h.2.2 k hm k List.mem_cons_self rfl
    have hcat : ms ++ (k, v) :: rest = ms ++ [(k, v)] ++ rest := by simp
    rw [hcat] at h ⊢
    rw [List.foldl_cons]
    show rest.foldl _ (insert k v ms) = _
    rw [insert_of_not_mem hk, ih h]

theorem ofEntries_eq_self {ms : Members} (h : (ms.map Prod.fst).Nodup) : ofEntries ms = ms :=
  @foldl_insert [] ms h

namespace Relaxed

open Text (allBlank)

/-! ## Strings -/

/-- A hexadecimal digit for a number below 16, in either case. -/
inductive HexDigit : Nat → Char → Prop where
  | lower {n : Nat} (h : n < 16) : HexDigit n (hexDigit n)
  | upper {n : Nat} (h : n < 16) : HexDigit n (hexDigit n).toUpper

/-- The letters that stand for a character behind a backslash. -/
def escapeLetters : List (Char × Char) :=
  [('\\', '\\'), ('/', '/'), ('"', '"'), ('\'', '\''), ('b', '\x08'), ('f', '\x0c'), ('n', '\n'),
    ('r', '\r'), ('t', '\t')]

/-- The ways to write a character between two quotes: as it is, by a letter, or by its code unit. -/
inductive Spelled (quote : Char) : Char → Text → Prop where
  | plain {c : Char} (hq : c ≠ quote) (hb : c ≠ '\\') : Spelled quote c [c]
  | letter {c d : Char} (h : (d, c) ∈ escapeLetters) : Spelled quote c ['\\', d]
  | codeUnit {c : Char} {n₁ n₂ n₃ n₄ : Nat} {d₁ d₂ d₃ d₄ : Char} (h₁ : HexDigit n₁ d₁)
      (h₂ : HexDigit n₂ d₂) (h₃ : HexDigit n₃ d₃) (h₄ : HexDigit n₄ d₄)
      (hc : c.toNat = ((n₁ * 16 + n₂) * 16 + n₃) * 16 + n₄) :
      Spelled quote c ['\\', 'u', d₁, d₂, d₃, d₄]

/-- The ways to write a string, with both quotes. -/
inductive Quoted : Text → Text → Prop where
  | quotes {quote : Char} {s : Text} {codes : List Text} (hq : quote ∈ ['"', '\''])
      (h : List.Forall₂ (Spelled quote) s codes) : Quoted s (quote :: codes.flatten ++ [quote])

/-- A letter or an underscore, and letters, digits and underscores behind it. -/
def isBareWord : Text → Bool
  | [] => false
  | c :: w => isBareStart c && w.all isBareChar

/-- The bare words that are no strings, and what they stand for. -/
def literals : List (String × Json) :=
  [("true", .bool true), ("True", .bool true), ("false", .bool false), ("False", .bool false),
    ("null", .null), ("None", .null)]

/-- The ways to write a key. -/
inductive WrittenKey : Text → Text → Prop where
  | quoted {k t : Text} (h : Quoted k t) : WrittenKey k t
  | bare {k : Text} (h : isBareWord k) : WrittenKey k k
  | number (n : Nat) : WrittenKey (Text.decimal n) (Text.decimal n)

/-! ## Values -/

mutual

/-- The ways to write a value, without blanks around it. -/
inductive Written : Json → Text → Prop where
  | literal {word : String} {v : Json} (h : (word, v) ∈ literals) : Written v word.toList
  | int {i : Int} (h : fits64 i) : Written (.int i) (Text.decimalInt i)
  | quoted {s t : Text} (h : Quoted s t) : Written (.string s) t
  | bare {w : Text} (h : isBareWord w) (hn : ∀ p ∈ literals, w ≠ p.1.toList) :
      Written (.string w) w
  | array {vs : List Json} {t : Text} {left right : Char}
      (hb : (left, right) ∈ [('[', ']'), ('(', ')')]) (h : WrittenItems vs t) :
      Written (.array vs) (left :: t ++ [right])
  | object {ms : Members} {t : Text} (hk : (ms.map Prod.fst).Nodup) (h : WrittenMembers ms t) :
      Written (.object ms) ('{' :: t ++ ['}'])

/-- The ways to write items one after the other, with blanks around each. -/
inductive WrittenItems : List Json → Text → Prop where
  | nil {w : Text} (hw : w.allBlank) : WrittenItems [] w
  | last {v : Json} {b t a : Text} (hb : b.allBlank) (hv : Written v t) (ha : a.allBlank) :
      WrittenItems [v] (b ++ t ++ a)
  | comma {v : Json} {vs : List Json} {b t a u : Text} (hb : b.allBlank) (hv : Written v t)
      (ha : a.allBlank) (h : WrittenItems vs u) : WrittenItems (v :: vs) (b ++ t ++ a ++ ',' :: u)

/-- The ways to write members one after the other, with blanks around each. -/
inductive WrittenMembers : Members → Text → Prop where
  | nil {w : Text} (hw : w.allBlank) : WrittenMembers [] w
  | last {k : Text} {v : Json} {t : Text} (h : WrittenMember k v t) : WrittenMembers [(k, v)] t
  | comma {k : Text} {v : Json} {ms : Members} {t u : Text} (hm : WrittenMember k v t)
      (h : WrittenMembers ms u) : WrittenMembers ((k, v) :: ms) (t ++ ',' :: u)

/-- The ways to write a member, with blanks around its key and its value. -/
inductive WrittenMember : Text → Json → Text → Prop where
  | colon {k kt : Text} {v : Json} {vt w₁ w₂ w₃ w₄ : Text} (hk : WrittenKey k kt)
      (hv : Written v vt) (h₁ : w₁.allBlank) (h₂ : w₂.allBlank) (h₃ : w₃.allBlank)
      (h₄ : w₄.allBlank) : WrittenMember k v (w₁ ++ kt ++ w₂ ++ ':' :: (w₃ ++ vt ++ w₄))

end

/-! ## Strings read back -/

theorem ne_of_mem_quotes {quote : Char} (h : quote ∈ ['"', '\'']) : '\\' ≠ quote := by
  rintro rfl
  exact absurd h (by decide)

theorem hexValue?_hexDigit : ∀ n, n < 16 →
    hexValue? (hexDigit n) = some n ∧ hexValue? (hexDigit n).toUpper = some n := by decide

theorem hexValue?_of_hexDigit {n : Nat} {d : Char} (h : HexDigit n d) : hexValue? d = some n := by
  cases h with
  | lower h => exact (hexValue?_hexDigit n h).1
  | upper h => exact (hexValue?_hexDigit n h).2

theorem codeUnit?_of_hexDigits {n₁ n₂ n₃ n₄ : Nat} {d₁ d₂ d₃ d₄ : Char} (h₁ : HexDigit n₁ d₁)
    (h₂ : HexDigit n₂ d₂) (h₃ : HexDigit n₃ d₃) (h₄ : HexDigit n₄ d₄) (t : Text) :
    codeUnit? (d₁ :: d₂ :: d₃ :: d₄ :: t) = some (((n₁ * 16 + n₂) * 16 + n₃) * 16 + n₄, t) := by
  simp [codeUnit?, hexNumber?, hexValue?_of_hexDigit h₁, hexValue?_of_hexDigit h₂,
    hexValue?_of_hexDigit h₃, hexValue?_of_hexDigit h₄]

theorem scalar?_toNat (c : Char) : scalar? c.toNat = some c := by
  have hv : c.toNat.isValidChar := c.valid
  rw [scalar?, if_pos hv, Char.ofNat_toNat]

theorem escaped?_letter {d c : Char} (h : (d, c) ∈ escapeLetters) (t : Text) :
    escaped? (d :: t) = some (c, t) := by
  simp only [escapeLetters, List.mem_cons, Prod.mk.injEq, List.not_mem_nil, or_false] at h
  rcases h with ⟨rfl, rfl⟩ | ⟨rfl, rfl⟩ | ⟨rfl, rfl⟩ | ⟨rfl, rfl⟩ | ⟨rfl, rfl⟩ | ⟨rfl, rfl⟩ |
    ⟨rfl, rfl⟩ | ⟨rfl, rfl⟩ | ⟨rfl, rfl⟩ <;> rfl

theorem string?_escaped {quote c : Char} {t r : Text} (hq : '\\' ≠ quote)
    (h : escaped? t = some (c, r)) :
    string? quote ('\\' :: t) = (string? quote r).map fun (s, r) => (c :: s, r) := by
  rw [string?, if_neg hq, if_pos rfl]
  split
  · next hd =>
    rw [h] at hd
    cases hd
    rfl
  · next hd =>
    rw [h] at hd
    cases hd

theorem string?_spelled {quote c : Char} {code : Text} (hq : '\\' ≠ quote)
    (h : Spelled quote c code) (t : Text) :
    string? quote (code ++ t) = (string? quote t).map fun (s, r) => (c :: s, r) := by
  cases h with
  | plain hc hb => rw [List.singleton_append, string?, if_neg hc, if_neg hb]
  | letter h => exact string?_escaped hq (escaped?_letter h t)
  | codeUnit h₁ h₂ h₃ h₄ hc =>
    refine string?_escaped hq ?_
    have hu := codeUnit?_of_hexDigits h₁ h₂ h₃ h₄ t
    rw [← hc] at hu
    simp [escaped?, hu, scalar?_toNat]

theorem string?_codes {quote : Char} (hq : '\\' ≠ quote) {s : Text} {codes : List Text}
    (h : List.Forall₂ (Spelled quote) s codes) (r : Text) :
    string? quote (codes.flatten ++ quote :: r) = some (s, r) := by
  induction h with
  | nil => rw [List.flatten_nil, List.nil_append, string?, if_pos rfl]
  | cons hc _ ih =>
    rw [List.flatten_cons, List.append_assoc, string?_spelled hq hc, ih]
    rfl

theorem string?_quoted {s t : Text} (h : Quoted s t) :
    ∃ quote u, quote ∈ ['"', '\''] ∧ t = quote :: u ∧ ∀ r, string? quote (u ++ r) = some (s, r) := by
  obtain @⟨quote, _, codes, hq, h⟩ := h
  refine ⟨quote, codes.flatten ++ [quote], hq, rfl, fun r => ?_⟩
  rw [List.append_assoc, List.singleton_append]
  exact string?_codes (ne_of_mem_quotes hq) h r

/-! ## Words and numbers read back -/

theorem exists_cons_of_isBareWord {w : Text} (h : isBareWord w) :
    ∃ c u, w = c :: u ∧ isBareStart c ∧ Text.isBlank c = false := by
  cases w with
  | nil => cases h
  | cons c u =>
    rw [isBareWord, Bool.and_eq_true] at h
    refine ⟨c, u, rfl, h.1, ?_⟩
    rw [Bool.eq_false_iff]
    intro hb
    have ha := Text.isAlphanum_of_isBlank hb
    have hc := h.1
    simp only [isBareStart, Bool.or_eq_true, beq_iff_eq] at hc
    rcases hc with hc | rfl
    · simp [Char.isAlphanum, hc] at ha
    · cases hb

/-- A bare word ends where no letter, digit or underscore goes on with it. -/
theorem bare?_append {w r : Text} (h : isBareWord w) (hr : endsToken r) :
    bare? (w ++ r) = some (w, r) := by
  cases w with
  | nil => cases h
  | cons c w =>
    rw [isBareWord, Bool.and_eq_true] at h
    have hp : ∀ d, isBareChar d → d.isAlphanum ∨ d = '_' := by
      intro d hd
      rwa [isBareChar, Bool.or_eq_true, beq_iff_eq] at hd
    obtain ⟨ht, hd⟩ := takeWhile_append_token hp (List.all_eq_true.1 h.2) hr
    rw [List.cons_append, bare?, if_pos h.1, ht, hd]


theorem ofBare_literals : ∀ p ∈ literals, isBareWord p.1.toList ∧ ofBare p.1.toList = p.2 := by
  simp only [literals, List.forall_mem_cons]
  exact ⟨⟨rfl, rfl⟩, ⟨rfl, rfl⟩, ⟨rfl, rfl⟩, ⟨rfl, rfl⟩, ⟨rfl, rfl⟩, ⟨rfl, rfl⟩,
    List.forall_mem_nil _⟩

theorem ofBare_eq_string {w : Text} (h : ∀ p ∈ literals, w ≠ p.1.toList) :
    ofBare w = .string w := by
  simp only [literals, List.forall_mem_cons] at h
  rw [ofBare, if_neg (by simp only [h, or_self, not_false_eq_true]),
    if_neg (by simp only [h, or_self, not_false_eq_true]),
    if_neg (by simp only [h, or_self, not_false_eq_true])]

theorem value?_bareWord {w r : Text} (h : isBareWord w) (hr : endsToken r) (fuel : Nat) :
    value? (fuel + 1) (w ++ r) = some (ofBare w, r) := by
  have hw := bare?_append h hr
  obtain ⟨c, u, rfl, hc, hb⟩ := exists_cons_of_isBareWord h
  rw [value?, List.cons_append, Text.trimStart_cons hb]
  rw [List.cons_append] at hw
  split
  case h_6 => rw [hw]
  all_goals
    next h =>
      obtain ⟨rfl, _⟩ := List.cons.inj h
      cases hc

theorem value?_number {c : Char} (hc : c.isDigit ∨ c = '-') (fuel : Nat) (t : Text) :
    value? (fuel + 1) (c :: t) = number? (c :: t) := by
  have hm := sign_or_digit_cases hc
  simp only [List.mem_cons, List.not_mem_nil, or_false] at hm
  rcases hm with rfl | rfl | rfl | rfl | rfl | rfl | rfl | rfl | rfl | rfl | rfl <;> rfl

theorem value?_int {i : Int} (hi : fits64 i) {r : Text} (hr : endsToken r) (fuel : Nat) :
    value? (fuel + 1) (Text.decimalInt i ++ r) = some (.int i, r) := by
  rw [← number?_decimalInt hi hr]
  cases i with
  | ofNat n =>
    obtain ⟨c, t, ht, hd, _⟩ := Text.exists_cons_decimal n
    rw [Text.decimalInt, ht]
    exact value?_number (.inl hd) fuel _
  | negSucc n => exact value?_number (.inr rfl) fuel _

theorem value?_quoted {s t : Text} (h : Quoted s t) (fuel : Nat) (r : Text) :
    value? (fuel + 1) (t ++ r) = some (.string s, r) := by
  obtain ⟨quote, u, hq, rfl, hs⟩ := string?_quoted h
  simp only [List.mem_cons, List.not_mem_nil, or_false] at hq
  rcases hq with rfl | rfl
  · show (string? '"' (u ++ r)).map _ = _
    rw [hs]
    rfl
  · show (string? '\'' (u ++ r)).map _ = _
    rw [hs]
    rfl

theorem bareKey?_written {k t : Text} (h : WrittenKey k t) {r : Text} (hr : endsToken r) :
    bareKey? (t ++ r) = some (k, r) := by
  cases h with
  | quoted h =>
    obtain ⟨quote, u, hq, rfl, hs⟩ := string?_quoted h
    simp only [List.mem_cons, List.not_mem_nil, or_false] at hq
    rcases hq with rfl | rfl
    · exact hs r
    · exact hs r
  | bare h =>
    have hw := bare?_append h hr
    obtain ⟨c, u, rfl, hc, hb⟩ := exists_cons_of_isBareWord h
    rw [List.cons_append] at hw ⊢
    unfold bareKey?
    split
    · next h =>
      obtain ⟨rfl, _⟩ := List.cons.inj h
      cases hc
    · next h =>
      obtain ⟨rfl, _⟩ := List.cons.inj h
      cases hc
    · rw [hw]
      rfl
  | number n =>
    have hn := Literal.natural?_decimal n hr
    obtain ⟨c, u, ht, hd, _⟩ := Text.exists_cons_decimal n
    rw [ht, List.cons_append] at hn ⊢
    have hm := digit_cases hd
    simp only [List.mem_cons, List.not_mem_nil, or_false] at hm
    rcases hm with rfl | rfl | rfl | rfl | rfl | rfl | rfl | rfl | rfl | rfl <;> exact hn


/-! ## Values read back -/

/-- The character neither is a blank nor closes a group. -/
def opensToken (c : Char) : Bool := !Text.isBlank c && c != ']' && c != ')' && c != '}'

theorem opensToken_of_isAlphanum {c : Char} (h : c.isAlphanum) : opensToken c := by
  have hb : Text.isBlank c = false := by
    rw [Bool.eq_false_iff]
    intro hb
    rw [Text.isAlphanum_of_isBlank hb] at h
    cases h
  have hne : ∀ d : Char, d.isAlphanum = false → c ≠ d := by
    rintro d hd rfl
    rw [h] at hd
    cases hd
  simp [opensToken, hb, hne ']' rfl, hne ')' rfl, hne '}' rfl]

theorem exists_cons_decimalInt (i : Int) :
    ∃ c u, Text.decimalInt i = c :: u ∧ opensToken c := by
  cases i with
  | ofNat n =>
    obtain ⟨c, u, ht, hd, _⟩ := Text.exists_cons_decimal n
    exact ⟨c, u, ht, opensToken_of_isAlphanum (by rw [Char.isAlphanum, hd, Bool.or_true])⟩
  | negSucc n => exact ⟨'-', _, rfl, rfl⟩

theorem exists_cons_bareWord {w : Text} (h : isBareWord w) : ∃ c u, w = c :: u ∧ opensToken c := by
  obtain ⟨c, u, rfl, hc, -⟩ := exists_cons_of_isBareWord h
  refine ⟨c, u, rfl, ?_⟩
  simp only [isBareStart, Bool.or_eq_true, beq_iff_eq] at hc
  rcases hc with hc | rfl
  · exact opensToken_of_isAlphanum (by rw [Char.isAlphanum, hc, Bool.true_or])
  · rfl

theorem exists_cons_quoted {s t : Text} (h : Quoted s t) : ∃ c u, t = c :: u ∧ opensToken c := by
  obtain ⟨quote, u, hq, rfl, -⟩ := string?_quoted h
  have hall : ∀ c ∈ ['"', '\''], opensToken c := Text.forall_of_all (by decide)
  exact ⟨quote, u, rfl, hall quote hq⟩

theorem exists_cons_written {v : Json} {t : Text} (h : Written v t) :
    ∃ c u, t = c :: u ∧ opensToken c := by
  cases h with
  | literal h => exact exists_cons_bareWord (ofBare_literals _ h).1
  | int h => exact exists_cons_decimalInt _
  | quoted h => exact exists_cons_quoted h
  | bare h _ => exact exists_cons_bareWord h
  | @array _ _ left right hb _ =>
    have hall : ∀ p ∈ [('[', ']'), ('(', ')')], opensToken p.1 := by decide
    exact ⟨left, _, rfl, hall (left, right) hb⟩
  | object _ _ => exact ⟨'{', _, rfl, rfl⟩

theorem exists_cons_key {k t : Text} (h : WrittenKey k t) : ∃ c u, t = c :: u ∧ opensToken c := by
  cases h with
  | quoted h => exact exists_cons_quoted h
  | bare h => exact exists_cons_bareWord h
  | number n => exact exists_cons_decimalInt (Int.ofNat n)

/-- Blanks end a token, or else what stands behind them. -/
theorem endsToken_append {w r : Text} (hw : w.allBlank) (hr : endsToken r) : endsToken (w ++ r) := by
  cases w with
  | nil => exact hr
  | cons c w =>
    rw [Text.allBlank, List.all_cons, Bool.and_eq_true] at hw
    have h₁ : c ≠ '_' := by rintro rfl; cases hw.1
    have h₂ : c ≠ '.' := by rintro rfl; cases hw.1
    simp [endsToken, Text.isAlphanum_of_isBlank hw.1, h₁, h₂]

/-- Blanks in front of a value are passed over. -/
theorem value?_blanks {w : Text} (hw : w.allBlank) (fuel : Nat) (t : Text) :
    value? fuel (w ++ t) = value? fuel t := by
  cases fuel with
  | zero => rfl
  | succ fuel => rw [value?, value?, Text.trimStart_append hw]

/-- Blanks in front of an item are passed over, and behind it a comma or the closing bracket. -/
theorem items?_item {close : Char} (hclose : close ∈ [']', ')']) {w t : Text} (hw : w.allBlank)
    {c : Char} {u : Text} (ht : t = c :: u) (hc : opensToken c) (fuel : Nat) :
    items? close (fuel + 1) (w ++ t) = (value? fuel t).bind fun (v, t) =>
      match t.trimStart with
      | [] => none
      | d :: t =>
        if d = close then some ([v], t)
        else if d = ',' then (items? close fuel t).bind fun (vs, t) => some (v :: vs, t)
        else none := by
  simp only [opensToken, Bool.and_eq_true, Bool.not_eq_true', bne_iff_ne] at hc
  have hne : c ≠ close := by
    simp only [List.mem_cons, List.not_mem_nil, or_false] at hclose
    rcases hclose with rfl | rfl
    · exact hc.1.1.2
    · exact hc.1.2
  have hb : Text.isBlank c = false := hc.1.1.1
  have htrim : Text.trimStart (w ++ c :: u) = c :: u := by
    rw [Text.trimStart_append hw, Text.trimStart_cons hb]
  rw [ht, items?, htrim]
  exact if_neg hne

/-- What may stand behind a value or a key. -/
def separators : List Char := [',', ':', ']', ')', '}']

theorem endsToken_cons {c : Char} (hc : c ∈ separators) (r : Text) : endsToken (c :: r) := by
  have hall : ∀ c ∈ separators, endsToken [c] := Text.forall_of_all (by decide)
  exact hall c hc

theorem closing_spec : ∀ c ∈ [']', ')'], Text.isBlank c = false ∧ ',' ≠ c ∧ c ∈ separators :=
  Text.forall_of_all (by decide)

theorem key?_written {k t w : Text} (h : WrittenKey k t) (hw : w.allBlank) (r : Text) :
    key? (t ++ (w ++ ':' :: r)) = some (k, r) := by
  obtain ⟨c, u, rfl, hc⟩ := exists_cons_key h
  simp only [opensToken, Bool.and_eq_true, Bool.not_eq_true'] at hc
  have hb : Text.isBlank c = false := hc.1.1.1
  have hkey := bareKey?_written h (endsToken_append hw (endsToken_cons (c := ':') (by decide) r))
  have hcolon : Text.trimStart (w ++ ':' :: r) = ':' :: r := by
    rw [Text.trimStart_append hw, Text.trimStart_cons rfl]
  have htrim : Text.trimStart (c :: u ++ (w ++ ':' :: r)) = c :: u ++ (w ++ ':' :: r) :=
    Text.trimStart_cons hb _
  rw [key?, htrim, hkey]
  simp only [Option.bind_eq_bind, Option.bind_some, hcolon]

/-- A key and a colon are read with the blanks around them, then the value, and behind it a comma or
the closing brace. -/
theorem members?_member {k kt vt w₁ w₂ w₃ w₄ : Text} (hk : WrittenKey k kt) (h₁ : w₁.allBlank)
    (h₂ : w₂.allBlank) (h₃ : w₃.allBlank) (fuel : Nat) (r : Text) :
    members? (fuel + 1) (w₁ ++ kt ++ w₂ ++ ':' :: (w₃ ++ vt ++ w₄) ++ r) =
      (value? fuel (vt ++ (w₄ ++ r))).bind fun (v, t) =>
        match t.trimStart with
        | '}' :: t => some ([(k, v)], t)
        | ',' :: t => (members? fuel t).bind fun (ms, t) => some ((k, v) :: ms, t)
        | _ => none := by
  have hcat : w₁ ++ kt ++ w₂ ++ ':' :: (w₃ ++ vt ++ w₄) ++ r =
      w₁ ++ (kt ++ (w₂ ++ ':' :: (w₃ ++ (vt ++ (w₄ ++ r))))) := by
    simp
  have hkey := key?_written hk h₂ (w₃ ++ (vt ++ (w₄ ++ r)))
  obtain ⟨c, u, rfl, hc⟩ := exists_cons_key hk
  simp only [opensToken, Bool.and_eq_true, Bool.not_eq_true', bne_iff_ne] at hc
  have hb : Text.isBlank c = false := hc.1.1.1
  rw [hcat, members?, Text.trimStart_append h₁, List.cons_append, Text.trimStart_cons hb]
  rw [List.cons_append] at hkey
  split
  · next h =>
    obtain ⟨rfl, _⟩ := List.cons.inj h
    exact absurd rfl hc.2
  · rw [hkey, ← value?_blanks h₃ fuel (vt ++ (w₄ ++ r))]
    rfl

mutual

/-- Each way to write a value is read as the value. -/
theorem value?_written : ∀ {v : Json} {t : Text}, Written v t → ∀ (fuel : Nat) (r : Text),
    2 * t.length ≤ fuel + 1 → endsToken r → value? (fuel + 1) (t ++ r) = some (v, r)
  | _, _, .literal h, fuel, r, _, hr => by
    obtain ⟨hw, hv⟩ := ofBare_literals _ h
    rw [value?_bareWord hw hr, hv]
  | _, _, .int h, fuel, r, _, hr => value?_int h hr fuel
  | _, _, .quoted h, fuel, r, _, _ => value?_quoted h fuel r
  | _, _, .bare h hn, fuel, r, _, hr => by rw [value?_bareWord h hr, ofBare_eq_string hn]
  | _, _, @Written.array vs t left right hb h, fuel, r, hf, _ => by
    have hcat : left :: t ++ [right] ++ r = left :: (t ++ right :: r) := by simp
    rw [List.length_append, List.length_cons, List.length_singleton] at hf
    obtain ⟨fuel, rfl⟩ : ∃ n, fuel = n + 1 := ⟨fuel - 1, by omega⟩
    rw [hcat]
    simp only [List.mem_cons, Prod.mk.injEq, List.not_mem_nil, or_false] at hb
    rcases hb with ⟨rfl, rfl⟩ | ⟨rfl, rfl⟩
    · show (items? ']' (fuel + 1) _).map _ = _
      rw [items?_written h (by decide) fuel r (by omega)]
      rfl
    · show (items? ')' (fuel + 1) _).map _ = _
      rw [items?_written h (by decide) fuel r (by omega)]
      rfl
  | _, _, @Written.object ms t hk h, fuel, r, hf, _ => by
    have hcat : '{' :: t ++ ['}'] ++ r = '{' :: (t ++ '}' :: r) := by simp
    rw [List.length_append, List.length_cons, List.length_singleton] at hf
    obtain ⟨fuel, rfl⟩ : ∃ n, fuel = n + 1 := ⟨fuel - 1, by omega⟩
    rw [hcat]
    show (members? (fuel + 1) _).map _ = _
    rw [members?_written h fuel r (by omega)]
    show some (Json.object (ofEntries ms), r) = _
    rw [ofEntries_eq_self hk]

theorem items?_written : ∀ {vs : List Json} {t : Text}, WrittenItems vs t →
    ∀ {close : Char}, close ∈ [']', ')'] → ∀ (fuel : Nat) (r : Text), 2 * t.length ≤ fuel →
    items? close (fuel + 1) (t ++ close :: r) = some (vs, r)
  | _, _, .nil hw, close, hclose, fuel, r, _ => by
    have hb := (closing_spec close hclose).1
    rw [items?, Text.trimStart_append hw, Text.trimStart_cons hb]
    exact if_pos rfl
  | _, _, @WrittenItems.last v b t a hb hv ha, close, hclose, fuel, r, hf => by
    have hcat : b ++ t ++ a ++ close :: r = b ++ (t ++ (a ++ close :: r)) := by simp
    obtain ⟨c, u, ht, hc⟩ := exists_cons_written hv
    obtain ⟨hclosing, _, hsep⟩ := closing_spec close hclose
    have hlen : 1 ≤ t.length := by rw [ht, List.length_cons]; omega
    rw [List.length_append, List.length_append] at hf
    obtain ⟨fuel, rfl⟩ : ∃ n, fuel = n + 1 := ⟨fuel - 1, by omega⟩
    have ih := value?_written hv fuel (a ++ close :: r) (by omega)
      (endsToken_append ha (endsToken_cons hsep r))
    rw [hcat, items?_item hclose hb (by rw [ht]; rfl) hc, ih]
    dsimp only [Option.bind_some]
    rw [Text.trimStart_append ha, Text.trimStart_cons hclosing]
    exact if_pos rfl
  | _, _, @WrittenItems.comma v vs b t a u hb hv ha h, close, hclose, fuel, r, hf => by
    have hcat : b ++ t ++ a ++ ',' :: u ++ close :: r =
        b ++ (t ++ (a ++ ',' :: (u ++ close :: r))) := by
      simp
    obtain ⟨c, w, ht, hc⟩ := exists_cons_written hv
    obtain ⟨_, hcomma, _⟩ := closing_spec close hclose
    have hlen : 1 ≤ t.length := by rw [ht, List.length_cons]; omega
    simp only [List.length_append, List.length_cons] at hf
    obtain ⟨fuel, rfl⟩ : ∃ n, fuel = n + 1 := ⟨fuel - 1, by omega⟩
    have ih := value?_written hv fuel (a ++ ',' :: (u ++ close :: r)) (by omega)
      (endsToken_append ha (endsToken_cons (by decide) _))
    rw [hcat, items?_item hclose hb (by rw [ht]; rfl) hc, ih]
    dsimp only [Option.bind_some]
    rw [Text.trimStart_append ha, Text.trimStart_cons rfl]
    dsimp only
    rw [if_neg hcomma, if_pos rfl, items?_written h hclose fuel r (by omega)]
    rfl

theorem members?_written : ∀ {ms : Members} {t : Text}, WrittenMembers ms t → ∀ (fuel : Nat)
    (r : Text), 2 * t.length ≤ fuel → members? (fuel + 1) (t ++ '}' :: r) = some (ms, r)
  | _, _, .nil hw, fuel, r, _ => by
    rw [members?, Text.trimStart_append hw, Text.trimStart_cons rfl]
    rfl
  | _, _, .last (@WrittenMember.colon _ _ _ t _ _ _ a hk hv h₁ h₂ h₃ h₄), fuel, r, hf => by
    simp only [List.length_append, List.length_cons] at hf
    obtain ⟨fuel, rfl⟩ : ∃ n, fuel = n + 1 := ⟨fuel - 1, by omega⟩
    have ih := value?_written hv fuel (a ++ '}' :: r) (by omega)
      (endsToken_append h₄ (endsToken_cons (by decide) r))
    rw [members?_member hk h₁ h₂ h₃, ih]
    dsimp only [Option.bind_some]
    rw [Text.trimStart_append h₄, Text.trimStart_cons rfl]
    rfl
  | _, _, @WrittenMembers.comma _ _ _ _ u (@WrittenMember.colon _ _ _ t _ _ _ a hk hv h₁ h₂ h₃ h₄) h,
    fuel, r, hf => by
    simp only [List.length_append, List.length_cons] at hf
    obtain ⟨fuel, rfl⟩ : ∃ n, fuel = n + 1 := ⟨fuel - 1, by omega⟩
    have ih := value?_written hv fuel (a ++ ',' :: (u ++ '}' :: r)) (by omega)
      (endsToken_append h₄ (endsToken_cons (by decide) _))
    rw [List.append_assoc, List.cons_append, members?_member hk h₁ h₂ h₃, ih]
    dsimp only [Option.bind_some]
    rw [Text.trimStart_append h₄, Text.trimStart_cons rfl]
    show (members? (fuel + 1) (u ++ '}' :: r)).bind _ = _
    rw [members?_written h fuel r (by omega)]
    rfl

end

/-- A text is read as a value if what stands in it between blanks is. -/
theorem read?_blanks {v : Json} {t w w' : Text}
    (h : ∀ fuel r, 2 * t.length ≤ fuel + 1 → endsToken r → value? (fuel + 1) (t ++ r) = some (v, r))
    (hw : w.allBlank) (hw' : w'.allBlank) : read? (w ++ t ++ w') = some v := by
  have hr : endsToken w' := by
    have := endsToken_append hw' (r := []) rfl
    rwa [List.append_nil] at this
  have hv := h (2 * (w ++ t ++ w').length + 1) w' (by simp only [List.length_append]; omega) hr
  rw [read?, List.append_assoc, value?_blanks hw, ← List.append_assoc, hv]
  simp [hw']

/-- Any of the ways to write a value, with any blanks around it, is read as the value. -/
theorem read?_of_written {v : Json} {t w w' : Text} (h : Written v t) (hw : w.allBlank)
    (hw' : w'.allBlank) : read? (w ++ t ++ w') = some v :=
  read?_blanks (value?_written h) hw hw'

/-- A number as a key, an escaped quote and a code unit, a bare word with a comma behind it in
parentheses, and a key that would be a literal as a value. -/
theorem read?_of_written_object :
    let v : Json := .object [("7".toList, .array [.string "a'B".toList, .string "clk".toList]),
      ("None".toList, .int (-5))]
    let t := "\x7b7: ('a\\'\\u0042', clk,), None :-5\x7d".toList
    Written v t ∧ Text.allBlank ['\n'] ∧ Text.allBlank [' '] ∧
      read? (['\n'] ++ t ++ [' ']) = some v := by
  intro v t
  have hquoted : Quoted "a'B".toList "'a\\'\\u0042'".toList := by
    have hplain : Spelled '\'' 'a' ['a'] := .plain (by decide) (by decide)
    have hletter : Spelled '\'' '\'' ['\\', '\''] := .letter (by decide)
    have hunit : Spelled '\'' 'B' ['\\', 'u', '0', '0', '4', '2'] :=
      @Spelled.codeUnit '\'' 'B' 0 0 4 2 _ _ _ _ (.lower (by decide)) (.lower (by decide))
        (.lower (by decide)) (.lower (by decide)) rfl
    exact .quotes (by decide) (.cons hplain (.cons hletter (.cons hunit .nil)))
  have hclk : Written (.string "clk".toList) "clk".toList := .bare rfl (by simp [literals])
  have hitems : WrittenItems [.string "a'B".toList, .string "clk".toList]
      "'a\\'\\u0042', clk,".toList :=
    @WrittenItems.comma _ _ [] _ [] _ rfl (.quoted hquoted) rfl
      (@WrittenItems.comma _ _ [' '] _ [] [] rfl hclk rfl (.nil rfl))
  have hseven : WrittenKey "7".toList "7".toList := by
    have h := WrittenKey.number 7
    rwa [Text.decimal, if_pos (by decide)] at h
  have hfive : Written (.int (-5)) "-5".toList := by
    have h := @Written.int (-5) (by decide)
    rwa [show Text.decimalInt (-5) = '-' :: Text.decimal 5 from rfl, Text.decimal,
      if_pos (by decide)] at h
  have harray : WrittenMember "7".toList (.array [.string "a'B".toList, .string "clk".toList])
      "7: ('a\\'\\u0042', clk,)".toList :=
    @WrittenMember.colon _ _ _ _ [] [] [' '] [] hseven
      (@Written.array _ _ '(' ')' (by decide) hitems) rfl rfl rfl rfl
  have hint : WrittenMember "None".toList (.int (-5)) " None :-5".toList :=
    @WrittenMember.colon _ _ _ _ [' '] [' '] [] [] (.bare rfl) hfive rfl rfl rfl rfl
  have ht : Written v t := .object (by decide) (.comma harray (.last hint))
  exact ⟨ht, rfl, rfl, read?_of_written ht rfl rfl⟩

end Relaxed
end Json
end Pinout
