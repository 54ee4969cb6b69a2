import Pinout.Proofs.Json.Steps
import Pinout.Proofs.Json.Written

/-!
# Pinout.Proofs.Json.Extension

What the strict reader accepts, read by the relaxed one. A text that is strict JSON is read as the
same value, unless one of its strings has a character that is written as a pair of code units: the
relaxed reader takes a code unit for a character by itself, so it refuses the whole text
(`read?_of_strict`).

The readers are compared part by part. An `Outcome` is what the relaxed reader can make of a part that
the strict one has read, and the lemmas follow the strict reader: escapes, strings, keys, and then
values, items and members by induction on its fuel.
-/

namespace Pinout
namespace Json

/-! ## Pairs of code units -/

theorem not_mem_of_isBareWord {w : Text} (h : Relaxed.isBareWord w) : '\\' ∉ w := by
  cases w with
  | nil => exact List.not_mem_nil
  | cons c w =>
    rw [Relaxed.isBareWord, Bool.and_eq_true, List.all_eq_true] at h
    rw [List.mem_cons, not_or]
    refine ⟨?_, fun hm => absurd (h.2 _ hm) (by decide)⟩
    rintro rfl
    exact absurd h.1 (by decide)

/-- The text starts with the first code unit of a pair. -/
def startsPair (t : Text) : Bool := (codeUnit? t).any fun p => decide (0xD800 ≤ p.1 ∧ p.1 < 0xDC00)

/-- Some character of the text is written as a pair of code units. -/
def hasPair : Text → Bool
  | '\\' :: 'u' :: t => startsPair t || hasPair t
  | '\\' :: _ :: t => hasPair t
  | _ :: t => hasPair t
  | [] => false

theorem hasPair_cons {c : Char} (hc : c ≠ '\\') (t : Text) : hasPair (c :: t) = hasPair t := by
  rw [hasPair]
  · simp [hc]
  · simp [hc]

theorem hasPair_escape {c : Char} (hc : c ≠ 'u') (t : Text) : hasPair ('\\' :: c :: t) = hasPair t := by
  rw [hasPair]
  simp [hc]

/-- Where no character is escaped, there is no pair. -/
theorem hasPair_append {u : Text} (hu : '\\' ∉ u) (t : Text) : hasPair (u ++ t) = hasPair t := by
  induction u with
  | nil => rfl
  | cons c u ih =>
    rw [List.mem_cons, not_or] at hu
    rw [List.cons_append, hasPair_cons (Ne.symm hu.1), ih hu.2]

/-- What the relaxed reader makes of a text in front of `r` that the strict one reads as `x`: the same,
or nothing where there is a pair. -/
inductive Outcome {α : Type} (x : α) (t r : Text) : Option (α × Text) → Prop where
  | same (h : hasPair t = hasPair r) : Outcome x t r (some (x, r))
  | refused (h : hasPair t) : Outcome x t r none

/-! ## Strings -/

theorem codeUnit?_spec {t r : Text} {n : Nat} (h : codeUnit? t = some (n, r)) :
    ∃ u, t = u ++ r ∧ '\\' ∉ u := by
  unfold codeUnit? at h
  split at h
  · next a b c d t =>
    obtain ⟨m, hm, he⟩ := Option.map_eq_some_iff.1 h
    cases he
    exact ⟨[a, b, c, d], rfl, fun hmem => absurd (hexValue?_of_hexNumber? hm _ hmem) (by decide)⟩
  · cases h

theorem scalar?_eq_none {n : Nat} (h : 0xD800 ≤ n ∧ n < 0xDC00) : scalar? n = none := by
  have hn : ¬ n.isValidChar := by
    rw [Nat.isValidChar]
    omega
  rw [scalar?, if_neg hn]

theorem outcome_escaped {t r : Text} {c : Char} (h : Strict.escaped? t = some (c, r)) :
    Outcome c ('\\' :: t) r (Relaxed.escaped? t) := by
  unfold Strict.escaped? at h
  split at h
  case h_9 t =>
    simp only [Option.bind_eq_bind, Option.bind_eq_some_iff, Prod.exists] at h
    obtain ⟨n, u, hu, h⟩ := h
    have hpair : hasPair ('\\' :: 'u' :: t) = (startsPair t || hasPair t) := by rw [hasPair]
    rw [startsPair, hu, Option.any_some] at hpair
    dsimp only at hpair
    split at h
    · next hn =>
      have hnone : Relaxed.escaped? ('u' :: t) = none := by
        simp [Relaxed.escaped?, hu, scalar?_eq_none hn]
      rw [hnone]
      exact .refused (by rw [hpair, decide_eq_true hn, Bool.true_or])
    · next hn =>
      simp only [Option.bind_eq_some_iff] at h
      obtain ⟨d, hd, he⟩ := h
      cases he
      have hsome : Relaxed.escaped? ('u' :: t) = some (c, r) := by
        simp [Relaxed.escaped?, hu, hd]
      obtain ⟨w, rfl, hw⟩ := codeUnit?_spec hu
      rw [hsome]
      exact .same (by rw [hpair, decide_eq_false hn, Bool.false_or, hasPair_append hw])
  case h_10 => cases h
  all_goals
    cases h
    exact .same (hasPair_escape (by decide) _)

theorem Relaxed.string?_refused {quote : Char} {t : Text} (hq : '\\' ≠ quote)
    (h : Relaxed.escaped? t = none) : Relaxed.string? quote ('\\' :: t) = none := by
  rw [Relaxed.string?, if_neg hq, if_pos rfl]
  split
  · next hd =>
    rw [h] at hd
    cases hd
  · rfl

namespace Outcome

variable {α β : Type} {x : α} {t u r : Text} {read : Option (α × Text)}

theorem map (h : Outcome x t r read) (f : α → β) :
    Outcome (f x) t r (read.map fun (x, r) => (f x, r)) := by
  cases h with
  | same h => exact .same h
  | refused h => exact .refused h

/-- Nothing changes by what stands in front without a pair. -/
theorem before (h : Outcome x u r read) (hu : hasPair t = hasPair u) : Outcome x t r read := by
  cases h with
  | same h => exact .same (hu.trans h)
  | refused h => exact .refused (hu.trans h)

/-- The outcome for a first part, and that for the rest where the first part is read the same. -/
theorem bind {y : β} {f : α × Text → Option (β × Text)} (h : Outcome x t u read)
    (hf : hasPair t = hasPair u → Outcome y t r (f (x, u))) : Outcome y t r (read.bind f) := by
  cases h with
  | same h => exact hf h
  | refused h => exact .refused h

end Outcome

theorem outcome_string {t r s : Text} (h : Strict.string? t = some (s, r)) :
    Outcome s t r (Relaxed.string? '"' t) := by
  fun_induction Strict.string? t generalizing s r with
  | case1 => cases h
  | case2 t =>
    cases h
    rw [Relaxed.string?, if_pos rfl]
    exact .same (hasPair_cons (by decide) _)
  | case3 t d u hd hq ih =>
    obtain ⟨⟨s, r⟩, hs, he⟩ := Option.map_eq_some_iff.1 h
    cases he
    have hescaped := outcome_escaped hd
    generalize hread : Relaxed.escaped? t = read at hescaped
    cases hescaped with
    | same hu =>
      rw [Relaxed.string?_escaped (by decide) hread]
      exact ((ih hs).map _).before hu
    | refused hu =>
      rw [Relaxed.string?_refused (by decide) hread]
      exact .refused hu
  | case4 => cases h
  | case5 => cases h
  | case6 c t hq hb hc ih =>
    obtain ⟨⟨s, r⟩, hs, he⟩ := Option.map_eq_some_iff.1 h
    cases he
    rw [Relaxed.string?, if_neg hq, if_neg hb]
    exact ((ih hs).map _).before (hasPair_cons hb t)

/-! ## Blanks and tokens -/

namespace Strict

theorem hasPair_skipBlanks (t : Text) : hasPair (skipBlanks t) = hasPair t := by
  obtain ⟨w, -, hw, ht⟩ := exists_blanks t
  rw [ht, hasPair_append hw, ← ht]

theorem trimStart_of_skipBlanks {t u : Text} {c : Char} (h : skipBlanks t = c :: u)
    (hc : Text.isBlank c = false) : Text.trimStart t = c :: u := by
  obtain ⟨w, hw, -, ht⟩ := exists_blanks t
  rw [ht, Text.trimStart_append hw, h, Text.trimStart_cons hc]

/-- A token ends where the strict reader finds a separator behind blanks. -/
theorem endsToken_of_skipBlanks {t u : Text} {c : Char} (h : skipBlanks t = c :: u)
    (hc : c ∈ Relaxed.separators) : endsToken t := by
  obtain ⟨w, hw, -, ht⟩ := exists_blanks t
  rw [ht, h]
  exact Relaxed.endsToken_append hw (Relaxed.endsToken_cons hc u)

theorem Reads.opens {fuel d : Nat} {t r : Text} {v : Json} (h : Reads fuel d t v r) :
    ∃ c u, t = c :: u ∧ Relaxed.opensToken c := by
  cases h with
  | @literal _ word _ _ h =>
    simp only [List.mem_cons, Prod.mk.injEq, List.not_mem_nil, or_false] at h
    rcases h with ⟨rfl, -⟩ | ⟨rfl, -⟩ | ⟨rfl, -⟩ <;> exact ⟨_, _, rfl, by decide⟩
  | string h => exact ⟨'"', _, rfl, by decide⟩
  | emptyArray h | array h => exact ⟨'[', _, rfl, by decide⟩
  | emptyObject h | object h => exact ⟨'{', _, rfl, by decide⟩
  | number h =>
    obtain ⟨c, u, rfl, hc, -⟩ := number?_spec h
    refine ⟨c, u ++ r, rfl, ?_⟩
    have hall : ∀ c ∈ ['-', '0', '1', '2', '3', '4', '5', '6', '7', '8', '9'],
        Relaxed.opensToken c := Text.forall_of_all (by decide)
    exact hall c (sign_or_digit_cases hc)

theorem exists_cons_of_value? {fuel d : Nat} {t r : Text} {v : Json}
    (h : value? fuel d t = some (v, r)) :
    ∃ c u, skipBlanks t = c :: u ∧ Relaxed.opensToken c := by
  cases fuel with
  | zero =>
    rw [value?] at h
    cases h
  | succ fuel => exact (value?_eq_some_iff.1 h).opens

end Strict

/-! ## Values -/

namespace Relaxed

theorem items?_skipBlanks (close : Char) (fuel : Nat) (t : Text) :
    items? close fuel (Strict.skipBlanks t) = items? close fuel t := by
  obtain ⟨w, hw, -, ht⟩ := Strict.exists_blanks t
  cases fuel with
  | zero => rfl
  | succ fuel => rw [ht, items?, items?, Text.trimStart_append hw, ← ht]

theorem members?_skipBlanks (fuel : Nat) (t : Text) :
    members? fuel (Strict.skipBlanks t) = members? fuel t := by
  obtain ⟨w, hw, -, ht⟩ := Strict.exists_blanks t
  cases fuel with
  | zero => rfl
  | succ fuel => rw [ht, members?, members?, Text.trimStart_append hw, ← ht]

theorem value?_skipBlanks (fuel : Nat) (t : Text) :
    value? fuel (Strict.skipBlanks t) = value? fuel t := by
  obtain ⟨w, hw, -, ht⟩ := Strict.exists_blanks t
  rw [ht, value?_blanks hw, ← ht]

/-- An item behind blanks of strict JSON, and behind it a comma or the closing bracket. -/
theorem items?_skipped {close : Char} (hclose : close ∈ [']', ')']) {t u : Text} {c : Char}
    (ht : Strict.skipBlanks t = c :: u) (hc : opensToken c) (fuel : Nat) :
    items? close (fuel + 1) t = (value? fuel t).bind fun (v, t) =>
      match t.trimStart with
      | [] => none
      | d :: t =>
        if d = close then some ([v], t)
        else if d = ',' then (items? close fuel t).bind fun (vs, t) => some (v :: vs, t)
        else none := by
  have hitem := items?_item hclose (w := []) rfl ht hc fuel
  rwa [List.nil_append, items?_skipBlanks, value?_skipBlanks] at hitem

end Relaxed

/-- A member behind blanks of strict JSON, and behind it a comma or the closing brace. -/
theorem Relaxed.members?_skipped {t u : Text} (ht : Strict.skipBlanks t = '"' :: u) (fuel : Nat) :
    members? (fuel + 1) t = (key? (Strict.skipBlanks t)).bind fun (key, t) =>
      (value? fuel t).bind fun (v, t) =>
        match t.trimStart with
        | '}' :: t => some ([(key, v)], t)
        | ',' :: t => (members? fuel t).bind fun (ms, t) => some ((key, v) :: ms, t)
        | _ => none := by
  rw [members?, Strict.trimStart_of_skipBlanks ht rfl, ht]
  rfl

/-- What the strict reader reads as `x` in front of `r` is not empty, and the relaxed reader has an
outcome for it if it has fuel for its length. -/
structure Extended {α : Type} (x : α) (t r : Text) (slack : Nat) (read : Nat → Option (α × Text)) :
    Prop where
  shorter : r.length < t.length
  outcome : ∀ n, 2 * t.length ≤ n + 2 * r.length + slack → Outcome x t r (read (n + 1))

/-- What the relaxed reader reads the same, without a backslash in it. -/
theorem extended_same {α : Type} {x : α} {u : Text} (hne : u ≠ []) (hu : '\\' ∉ u) (r : Text)
    (slack : Nat) {read : Nat → Option (α × Text)} (hread : ∀ n, read (n + 1) = some (x, r)) :
    Extended x (u ++ r) r slack read := by
  have hlength := List.length_pos_iff.2 hne
  refine ⟨by rw [List.length_append]; omega, fun n _ => ?_⟩
  rw [hread]
  exact .same (hasPair_append hu r)

/-- The relaxed reader extends the strict one on values, for so much fuel of the strict one. -/
def ExtendsValue (fuel : Nat) : Prop :=
  ∀ d t r v, Strict.value? fuel d t = some (v, r) → endsToken r →
    Extended v t r 1 fun n => Relaxed.value? n t

def ExtendsItems (fuel : Nat) : Prop :=
  ∀ d t r vs, Strict.items? fuel d t = some (vs, r) →
    Extended vs t r 0 fun n => Relaxed.items? ']' n t

def ExtendsMembers (fuel : Nat) : Prop :=
  ∀ d t r ms, Strict.members? fuel d t = some (ms, r) →
    Extended ms t r 0 fun n => Relaxed.members? n t

/-- A group is read by its items, between a bracket and what is behind the blanks. -/
theorem extended_group {α β : Type} {x : α} {t r : Text} {left : Char} (hleft : left ≠ '\\')
    {read : Nat → Option (α × Text)} {read' : Nat → Option (β × Text)} (f : α → β)
    (h : Extended x (Strict.skipBlanks t) r 0 read)
    (hread : ∀ n, read' (n + 1) = (read n).map fun (x, r) => (f x, r)) :
    Extended (f x) (left :: t) r 1 read' := by
  have hlength := Strict.length_skipBlanks t
  have hshorter := h.shorter
  refine ⟨by simp only [List.length_cons]; omega, fun n hn => ?_⟩
  rw [List.length_cons] at hn
  obtain ⟨n, rfl⟩ : ∃ m, n = m + 1 := ⟨n - 1, by omega⟩
  rw [hread]
  refine ((h.outcome n (by omega)).map f).before ?_
  rw [hasPair_cons hleft, Strict.hasPair_skipBlanks]

theorem extendsValue_succ {fuel : Nat} (hi : ExtendsItems fuel) (hm : ExtendsMembers fuel) :
    ExtendsValue (fuel + 1) := by
  intro d t r v h hr
  have hreads := Strict.value?_eq_some_iff.1 h
  have hlength := Strict.length_skipBlanks t
  suffices hs : Extended v (Strict.skipBlanks t) r 1 fun n =>
      Relaxed.value? n (Strict.skipBlanks t) by
    obtain ⟨hshorter, houtcome⟩ := hs
    simp only [Relaxed.value?_skipBlanks] at houtcome
    refine ⟨by omega, fun n hn => ?_⟩
    exact (houtcome n (by omega)).before (Strict.hasPair_skipBlanks t).symm
  generalize Strict.skipBlanks t = t at hreads ⊢
  cases hreads with
  | @literal _ word _ _ hw =>
    have hmem : (word, v) ∈ Relaxed.literals := by
      simp only [List.mem_cons, Prod.mk.injEq, List.not_mem_nil, or_false] at hw
      rcases hw with ⟨rfl, rfl⟩ | ⟨rfl, rfl⟩ | ⟨rfl, rfl⟩ <;> simp [Relaxed.literals]
    obtain ⟨hword, hbare⟩ := Relaxed.ofBare_literals _ hmem
    obtain ⟨c, w, hc, -⟩ := Relaxed.exists_cons_of_isBareWord hword
    refine extended_same (by rw [hc]; simp) (not_mem_of_isBareWord hword) r 1 fun n => ?_
    rw [Relaxed.value?_bareWord hword hr, hbare]
  | @string _ u s _ hs =>
    have hlen := Strict.length_of_string? hs
    refine ⟨by simp only [List.length_cons]; omega, fun n _ => ?_⟩
    exact ((outcome_string hs).map Json.string).before (hasPair_cons (by decide) u)
  | @emptyArray d u _ hu =>
    refine extended_group (by decide) Json.array (x := []) ?_ fun n => rfl
    rw [hu]
    refine extended_same (List.cons_ne_nil ']' []) (by decide) r 0 fun n => ?_
    rw [Relaxed.items?, Strict.trimStart_of_skipBlanks hu rfl]
    exact if_pos rfl
  | @array d u _ vs hs =>
    have := hi d _ r vs hs
    simp only [Relaxed.items?_skipBlanks] at this
    exact extended_group (by decide) Json.array this fun n => rfl
  | @emptyObject d u _ hu =>
    refine extended_group (by decide) (fun ms => Json.object (ofEntries ms)) (x := []) ?_ fun n => rfl
    rw [hu]
    refine extended_same (List.cons_ne_nil '}' []) (by decide) r 0 fun n => ?_
    rw [Relaxed.members?, Strict.trimStart_of_skipBlanks hu rfl]
    rfl
  | @object d u _ ms hs =>
    have := hm d _ r ms hs
    simp only [Relaxed.members?_skipBlanks] at this
    exact extended_group (by decide) (fun ms => Json.object (ofEntries ms)) this fun n => rfl
  | number hv =>
    obtain ⟨c, u, rfl, hc, hu⟩ := number?_spec hv
    refine extended_same (List.cons_ne_nil c u) hu r 1 fun n => ?_
    rw [List.cons_append, Relaxed.value?_number hc]
    exact hv

theorem hasPair_of_skipBlanks {t u : Text} {c : Char} (h : Strict.skipBlanks t = c :: u)
    (hc : c ≠ '\\') : hasPair t = hasPair u := by
  rw [← Strict.hasPair_skipBlanks, h, hasPair_cons hc]

theorem length_of_skipBlanks {t u : Text} {c : Char} (h : Strict.skipBlanks t = c :: u) :
    u.length < t.length := by
  have hlength := Strict.length_skipBlanks t
  rw [h, List.length_cons] at hlength
  omega

theorem extendsItems_succ {fuel : Nat} (hv : ExtendsValue fuel) (hi : ExtendsItems fuel) :
    ExtendsItems (fuel + 1) := by
  intro d t r vs h
  obtain ⟨v, u, hvalue, hrest⟩ := Strict.items?_eq_some_iff.1 h
  obtain ⟨c, w, ht, hc⟩ := Strict.exists_cons_of_value? hvalue
  have hend : endsToken u ∧ r.length < u.length := by
    rcases hrest with ⟨t₁, vs₁, hu, hs, -⟩ | ⟨hu, -⟩
    · have := (hi d t₁ r vs₁ hs).shorter
      have := length_of_skipBlanks hu
      exact ⟨Strict.endsToken_of_skipBlanks hu (by decide), by omega⟩
    · exact ⟨Strict.endsToken_of_skipBlanks hu (by decide), length_of_skipBlanks hu⟩
  obtain ⟨hshorter, houtcome⟩ := hv d t u v hvalue hend.1
  refine ⟨by omega, fun n hn => ?_⟩
  obtain ⟨n, rfl⟩ : ∃ m, n = m + 1 := ⟨n - 1, by omega⟩
  rw [Relaxed.items?_skipped (by decide) ht hc]
  refine (houtcome n (by omega)).bind fun hpair => ?_
  dsimp only
  rcases hrest with ⟨t₁, vs₁, hu, hs, rfl⟩ | ⟨hu, rfl⟩
  · have hlength := length_of_skipBlanks hu
    have hpair₁ := hpair.trans (hasPair_of_skipBlanks hu (by decide))
    have hout := (((hi d t₁ r vs₁ hs).outcome n (by omega)).map (v :: ·)).before hpair₁
    rw [Option.map_eq_bind] at hout
    rw [Strict.trimStart_of_skipBlanks hu rfl]
    exact hout
  · rw [Strict.trimStart_of_skipBlanks hu rfl]
    exact .same (hpair.trans (hasPair_of_skipBlanks hu (by decide)))

/-- A key is read with its colon. -/
theorem Relaxed.key?_quoted (u : Text) : key? ('"' :: u) = (string? '"' u).bind fun (key, t) =>
    match t.trimStart with
    | ':' :: t => some (key, t)
    | _ => none := by
  rw [key?, Text.trimStart_cons rfl]
  rfl

theorem outcome_key {t r k : Text} (h : Strict.key? t = some (k, r)) :
    r.length < t.length ∧ (∃ u, Strict.skipBlanks t = '"' :: u) ∧
      Outcome k t r (Relaxed.key? (Strict.skipBlanks t)) := by
  obtain ⟨u, u₁, ht, hs, hu⟩ := Strict.key?_eq_some_iff.1 h
  have hlength := length_of_skipBlanks ht
  have hlength₁ := Strict.length_of_string? hs
  have hlength₂ := length_of_skipBlanks hu
  refine ⟨by omega, ⟨u, ht⟩, ?_⟩
  have htu := hasPair_of_skipBlanks ht (by decide)
  rw [ht, Relaxed.key?_quoted]
  refine ((outcome_string hs).before htu).bind fun hpair => ?_
  dsimp only
  rw [Strict.trimStart_of_skipBlanks hu rfl]
  exact .same (hpair.trans (hasPair_of_skipBlanks hu (by decide)))

theorem extendsMembers_succ {fuel : Nat} (hv : ExtendsValue fuel) (hm : ExtendsMembers fuel) :
    ExtendsMembers (fuel + 1) := by
  intro d t r ms h
  obtain ⟨k, v, t₁, u, hk, hvalue, hrest⟩ := Strict.members?_eq_some_iff.1 h
  obtain ⟨hshorter₀, ⟨w, ht⟩, houtcome₀⟩ := outcome_key hk
  have hend : endsToken u ∧ r.length < u.length := by
    rcases hrest with ⟨t₂, ms₁, hu, hs, -⟩ | ⟨hu, -⟩
    · have := (hm d t₂ r ms₁ hs).shorter
      have := length_of_skipBlanks hu
      exact ⟨Strict.endsToken_of_skipBlanks hu (by decide), by omega⟩
    · exact ⟨Strict.endsToken_of_skipBlanks hu (by decide), length_of_skipBlanks hu⟩
  obtain ⟨hshorter, houtcome⟩ := hv d t₁ u v hvalue hend.1
  refine ⟨by omega, fun n hn => ?_⟩
  obtain ⟨n, rfl⟩ : ∃ m, n = m + 1 := ⟨n - 1, by omega⟩
  rw [Relaxed.members?_skipped ht]
  refine houtcome₀.bind fun hkey => ?_
  refine ((houtcome n (by omega)).before hkey).bind fun hpair => ?_
  dsimp only
  rcases hrest with ⟨t₂, ms₁, hu, hs, rfl⟩ | ⟨hu, rfl⟩
  · have hlength := length_of_skipBlanks hu
    have hpair₁ := hpair.trans (hasPair_of_skipBlanks hu (by decide))
    have hout := (((hm d t₂ r ms₁ hs).outcome n (by omega)).map ((k, v) :: ·)).before hpair₁
    rw [Option.map_eq_bind] at hout
    rw [Strict.trimStart_of_skipBlanks hu rfl]
    exact hout
  · rw [Strict.trimStart_of_skipBlanks hu rfl]
    exact .same (hpair.trans (hasPair_of_skipBlanks hu (by decide)))

/-- The relaxed reader extends the strict one, whatever fuel that one needs. -/
theorem extends_all (fuel : Nat) :
    ExtendsValue fuel ∧ ExtendsItems fuel ∧ ExtendsMembers fuel := by
  induction fuel with
  | zero =>
    refine ⟨fun d t r v h => ?_, fun d t r vs h => ?_, fun d t r ms h => ?_⟩
    · rw [Strict.value?] at h
      cases h
    · rw [Strict.items?] at h
      cases h
    · rw [Strict.members?] at h
      cases h
  | succ fuel ih =>
    obtain ⟨hv, hi, hm⟩ := ih
    exact ⟨extendsValue_succ hi hm, extendsItems_succ hv hi, extendsMembers_succ hv hm⟩

namespace Relaxed

/-- What is strict JSON is read as the same value, but for texts in which a character is written as a
pair of code units: none of these can be read. -/
theorem read?_of_strict {t : Text} {v : Json} (h : Strict.read? t = some v) :
    read? t = if hasPair t then none else some v := by
  simp only [Strict.read?, Option.bind_eq_bind, Option.bind_eq_some_iff, Prod.exists] at h
  obtain ⟨v₁, r, hv, h⟩ := h
  split at h
  · next hr =>
    cases h
    obtain ⟨w, hw, hb, hrw⟩ := Strict.exists_blanks r
    rw [hr, List.append_nil] at hrw
    subst hrw
    have hend : endsToken r := by
      have := endsToken_append hw (r := []) rfl
      rwa [List.append_nil] at this
    have hpair : hasPair r = false := by
      have := hasPair_append hb []
      rwa [List.append_nil] at this
    have hout := ((extends_all _).1 _ t r v hv hend).outcome (2 * t.length + 1) (by omega)
    rw [read?]
    generalize value? (2 * t.length + 2) t = found at hout ⊢
    cases hout with
    | same ht => simp [ht, hpair, hw]
    | refused ht => simp [ht]
  · cases h

/-- Blanks, empty groups, a repeated key and an escape. -/
theorem read?_of_strict_object :
    Strict.read? " \x7b\"a\": [], \"b\": \"\\n\", \"a\": \x7b\x7d\x7d".toList
      = some (.object [("a".toList, .object []), ("b".toList, .string ['\n'])]) ∧
    read? " \x7b\"a\": [], \"b\": \"\\n\", \"a\": \x7b\x7d\x7d".toList
      = some (.object [("a".toList, .object []), ("b".toList, .string ['\n'])]) := by
  have hstrict : Strict.read? " \x7b\"a\": [], \"b\": \"\\n\", \"a\": \x7b\x7d\x7d".toList
      = some (.object [("a".toList, .object []), ("b".toList, .string ['\n'])]) := by cbv
  have hpair : hasPair " \x7b\"a\": [], \"b\": \"\\n\", \"a\": \x7b\x7d\x7d".toList = false := by
    decide
  have hread := read?_of_strict hstrict
  rw [hpair] at hread
  exact ⟨hstrict, hread⟩

/-- A pair of code units in a string is strict JSON, and the relaxed reader refuses it. -/
theorem read?_pair : Strict.read? "\"\\ud83d\\ude00\"".toList = some (.string ['😀']) ∧
    read? "\"\\ud83d\\ude00\"".toList = none := by
  have hescaped : Strict.escaped? "ud83d\\ude00\"".toList = some ('😀', ['"']) := by decide
  have hstring : Strict.string? "\\ud83d\\ude00\"".toList = some (['😀'], []) := by
    have hend : Strict.string? ['"'] = some ([], []) := by rw [Strict.string?, if_pos rfl]
    have h := Strict.string?_escaped hescaped
    rwa [hend] at h
  constructor
  · have hvalue (fuel d : Nat) : Strict.value? (fuel + 1) d "\"\\ud83d\\ude00\"".toList
        = some (.string ['😀'], []) := Strict.value?_eq_some_iff.2 (.string hstring)
    rw [Strict.read?, hvalue]
    rfl
  · cbv

end Relaxed

end Json
end Pinout
