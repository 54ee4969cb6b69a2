import Pinout.Proofs.Signature.Declaration
import Pinout.Signature.Header

/-!
# Pinout.Proofs.Signature.Header

The parts of a header found where they stand. The parameter list ends at the parenthesis that the
port list follows; a text is `Sealed` when no parenthesis in it is followed by a direction, whatever
stands behind it, so that no port list seems to start in it (`splitParameterList_hash`). The header
itself stands behind the first keyword that a name follows (`header?_of_some`), and lines behind the
semicolon leave it as it is (`header?_append_newline`).
-/

namespace Pinout
namespace Signature

theorem isIdentifier_keyword (d : Direction) : Text.isIdentifier d.keyword := by
  cases d <;> rfl

theorem startsWithDirection_append {w r : Text} (hw : w.allBlank) (d : Direction)
    (hr : Text.endsWord r) : startsWithDirection (w ++ (d.keyword ++ r)) := by
  have hd := isIdentifier_keyword d
  rw [startsWithDirection, Text.trimStart_append hw,
    Text.trimStart_eq_self (Text.head?_identifier hd r), Text.splitIdentifier_append hd hr]
  cases d <;> rfl

theorem exists_of_startsWithDirection {t : Text} (h : startsWithDirection t) :
    ∃ w d r, t = w ++ (Direction.keyword d ++ r) ∧ w.allBlank ∧ Text.endsWord r := by
  rw [startsWithDirection] at h
  generalize hs : Text.splitIdentifier (Text.trimStart t) = cut at h
  obtain ⟨word, r⟩ := cut
  obtain ⟨w, hw, hcat⟩ := Text.exists_trimStart t
  obtain ⟨ht, he⟩ := Text.splitIdentifier_spec hs
  obtain ⟨d, hd⟩ := Option.isSome_iff_exists.1 h
  have hk : d.keyword = word := by simpa using List.find?_some hd
  subst hk
  refine ⟨w, d, r, ?_, hw, he ?_⟩
  · rw [← ht, ← hcat]
  · cases d <;> decide

/-- No parenthesis of the text is followed by a direction. -/
def Sealed (t : Text) : Prop := ∀ x y, t = x ++ '(' :: y → ∀ r, startsWithDirection (y ++ r) = false

theorem sealed_of_not_mem {t : Text} (h : '(' ∉ t) : Sealed t := by
  rintro x y rfl
  exact absurd (List.mem_append_right x List.mem_cons_self) h

theorem sealed_append {a b : Text} (ha : Sealed a) (hb : Sealed b) : Sealed (a ++ b) := by
  intro x y he r
  rcases List.append_eq_append_iff.1 he with ⟨u, rfl, hu⟩ | ⟨u, rfl, hu⟩
  · exact hb u y hu r
  · cases u with
    | nil => exact hb [] y hu.symm r
    | cons c u =>
      obtain ⟨hc, hy⟩ := List.cons.inj hu
      subst hc
      rw [hy, List.append_eq, List.append_assoc]
      exact ha x u rfl (b ++ r)

/-- A fragment closes its parentheses, so a direction behind one would be a word of it. -/
theorem sealed_of_fragment {outside : Char → Bool} {t : Text} (h : Fragment outside t) :
    Sealed t := by
  rintro x y rfl r
  rw [Bool.eq_false_iff]
  intro hs
  obtain ⟨w, d, v, he, hw, hv⟩ := exists_of_startsWithDirection hs
  obtain ⟨e, hey, hclose⟩ := exists_closing_of_opening rfl h.nested
  have hclear : ∀ c ∈ w ++ d.keyword, Text.isBlank c ∨ Text.isWordChar c := by
    intro c hc
    rcases List.mem_append.1 hc with hc | hc
    · exact clear_of_allBlank hw c hc
    · exact clear_of_isIdentifier (isIdentifier_keyword d) c hc
  have hcontra : e ∉ w ++ d.keyword := by
    intro hm
    rw [(not_bracket (hclear e hm)).2] at hclose
    cases hclose
  rw [← List.append_assoc] at he
  rcases List.append_eq_append_iff.1 he with ⟨u, hu, _⟩ | ⟨u, rfl, rfl⟩
  · exact hcontra (hu ▸ List.mem_append_left u hey)
  · have hu : u ≠ [] := by
      rintro rfl
      rw [List.append_nil] at hey
      exact hcontra hey
    have hcat : x ++ '(' :: (w ++ d.keyword ++ u) = (x ++ '(' :: w) ++ (d.keyword ++ u) := by simp
    refine h.words d (x ++ '(' :: w).length ⟨?_, ?_, ?_⟩
    · rw [hcat, List.drop_left]
      exact List.prefix_append _ _
    · rw [hcat, List.take_left, List.reverse_append, List.reverse_cons, List.append_assoc]
      cases hr : w.reverse with
      | nil => rfl
      | cons c s =>
        have hb : Text.allBlank (c :: s) := by
          rw [← hr, Text.allBlank_reverse]
          exact hw
        exact Text.endsWord_append (Text.endsWord_of_allBlank hb) (List.cons_ne_nil c s) _
    · rw [hcat, ← List.drop_drop, List.drop_left, List.drop_left]
      obtain ⟨c, s, rfl⟩ := List.exists_cons_of_ne_nil hu
      exact hv

/-! ## The parameter list -/

theorem splitClosing?_append {ends : Text → Bool} {a r : Text}
    (ha : ∀ x y, a = x ++ ')' :: y → ends (y ++ ')' :: r) = false) (hr : ends r) :
    splitClosing? ends (a ++ ')' :: r) = some (a, r) := by
  induction a with
  | nil => exact if_pos ⟨rfl, hr⟩
  | cons c a ih =>
    have hn : ¬ (c = ')' ∧ ends (a ++ ')' :: r)) := by
      rintro ⟨rfl, he⟩
      rw [ha [] a rfl] at he
      cases he
    rw [List.cons_append, splitClosing?, if_neg hn, ih fun x y he => ha (c :: x) y (by rw [he]; rfl)]
    rfl

/-- Inside a sealed text no port list starts. -/
theorem startsWithPorts_sealed {list x y : Text} (hs : Sealed list) (he : list = x ++ ')' :: y)
    (r : Text) : startsWithPorts (y ++ ')' :: r) = false := by
  rw [Bool.eq_false_iff]
  intro h
  unfold startsWithPorts at h
  split at h
  · next t ht =>
    rw [Text.trimStart, List.dropWhile_append] at ht
    split at ht
    · cases ht
    · next hy =>
      cases hd : y.dropWhile Text.isBlank with
      | nil => exact hy (by rw [hd]; rfl)
      | cons c z =>
        rw [hd] at ht
        obtain ⟨rfl, rfl⟩ := List.cons.inj ht
        have hcat : list = x ++ ')' :: y.takeWhile Text.isBlank ++ '(' :: z := by
          rw [he, List.append_assoc, List.cons_append, ← hd, List.takeWhile_append_dropWhile]
        rw [List.append_eq, hs _ z hcat] at h
        cases h
  · cases h

theorem splitParameterList_hash {g g' list rest : Text} (hg : g.allBlank) (hg' : g'.allBlank)
    (hs : Sealed list) (hr : startsWithPorts rest) :
    splitParameterList (g ++ '#' :: (g' ++ '(' :: (list ++ ')' :: rest))) = (some list, rest) := by
  have hopen : ∀ t, Text.trimStart (g' ++ '(' :: t) = '(' :: t := fun t => by
    rw [Text.trimStart_append hg']
    exact Text.trimStart_cons rfl t
  have hhash : ∀ t, Text.trimStart (g ++ '#' :: t) = '#' :: t := fun t => by
    rw [Text.trimStart_append hg]
    exact Text.trimStart_cons rfl t
  have hc := splitClosing?_append (fun x y he => startsWithPorts_sealed hs he rest) hr
  rw [splitParameterList, hhash]
  simp only [hopen, hc]

theorem splitParameterList_paren {g : Text} (hg : g.allBlank) (t : Text) :
    splitParameterList (g ++ '(' :: t) = (none, g ++ '(' :: t) := by
  have hopen : Text.trimStart (g ++ '(' :: t) = '(' :: t := by
    rw [Text.trimStart_append hg]
    exact Text.trimStart_cons rfl t
  rw [splitParameterList, hopen]
  rfl

/-! ## The port list -/

theorem afterPortsOpen?_append {g : Text} (hg : g.allBlank) {t : Text}
    (ht : startsWithDirection t) : afterPortsOpen? (g ++ '(' :: t) = some t := by
  induction g with
  | nil => exact if_pos ⟨rfl, ht⟩
  | cons c g ih =>
    rw [Text.allBlank, List.all_cons, Bool.and_eq_true] at hg
    have hn : ¬ (c = '(' ∧ startsWithDirection (g ++ '(' :: t)) := by
      rintro ⟨rfl, _⟩
      cases hg.1
    rw [List.cons_append, afterPortsOpen?, if_neg hn, ih hg.2]

theorem dropLast?_append {c : Char} (hc : Text.isBlank c = false) {w : Text} (hw : w.allBlank)
    (t : Text) : dropLast? c (t ++ c :: w) = some t := by
  have ht : Text.trimEnd (t ++ c :: w) = t ++ [c] := by
    rw [List.append_cons, Text.trimEnd_append hw, Text.trimEnd_concat hc]
  rw [dropLast?, ht, List.reverse_append, List.reverse_singleton, List.singleton_append]
  simp

theorem portList?_append {g g' list : Text} (hg : g.allBlank) (hg' : g'.allBlank)
    (hl : ∀ t, startsWithDirection (list ++ ')' :: t)) :
    portList? (g ++ '(' :: (list ++ ')' :: (g' ++ [';']))) = some list := by
  have hcat : list ++ ')' :: (g' ++ [';']) = list ++ ')' :: g' ++ [';'] := by simp
  rw [portList?, afterPortsOpen?_append hg (hl _), hcat]
  simp only [Option.bind_eq_bind, Option.bind_some]
  rw [dropLast?_append (w := []) rfl rfl, Option.bind_some, dropLast?_append rfl hg']

/-! ## The search for the header -/

/-- The name at the head of a text and what stands behind it. -/
def nameOf (t : Text) : Text × Text := Text.splitIdentifier (Text.trimStart t)

/-- The header that starts with a name, up to the semicolon. -/
def headerOf? (name behind : Text) : Option Header :=
  (splitUnquoted? (·.head? == some ';') false behind).map fun (body, _) => ⟨name, body ++ [';']⟩

theorem header?_of_none {t : Text} (h : Text.afterWord? moduleKeyword t = none) :
    header? t = none := by
  cases t with
  | nil => rw [header?]
  | cons c t =>
    rw [header?]
    split
    · rfl
    · next h' =>
      rw [h] at h'
      cases h'

/-- Behind the keyword stands the name, or the search goes on. -/
theorem header?_of_some {t rest : Text} (h : Text.afterWord? moduleKeyword t = some rest) :
    header? t = if (nameOf rest).1 = [] then header? rest
      else headerOf? (nameOf rest).1 (nameOf rest).2 := by
  cases t with
  | nil =>
    rw [Text.afterWord?_nil] at h
    cases h
  | cons c t =>
    rw [header?]
    split
    · next h' =>
      rw [h] at h'
      cases h'
    · next h' =>
      rw [h] at h'
      cases h'
      split
      · next hs => rw [nameOf, hs, if_pos rfl]
      · next hs =>
        rw [nameOf, hs, if_neg (by simpa using ‹_›)]
        rfl

/-- The search for the header goes on behind each keyword. -/
theorem header_induction {P : Text → Prop}
    (absent : ∀ t, Text.afterWord? moduleKeyword t = none → P t)
    (behind : ∀ t rest, Text.afterWord? moduleKeyword t = some rest → P rest → P t) (t : Text) :
    P t := by
  induction hl : t.length using Nat.strongRecOn generalizing t with
  | ind n ih =>
    cases h : Text.afterWord? moduleKeyword t with
    | none => exact absent t h
    | some rest =>
      have ht : t ≠ [] := by
        rintro rfl
        rw [Text.afterWord?_nil] at h
        cases h
      exact behind t rest h (ih _ (hl ▸ length_of_afterWord? (by decide) h ht) rest rfl)

theorem header?_newline (t : Text) : header? ('\n' :: t) = header? t := by
  have ha : Text.afterWord? moduleKeyword ('\n' :: t) = Text.afterWord? moduleKeyword t :=
    Text.afterWord?_cons (by decide) (by decide) t
  cases h : Text.afterWord? moduleKeyword t with
  | none => rw [header?_of_none h, header?_of_none (ha.trans h)]
  | some rest => rw [header?_of_some h, header?_of_some (ha.trans h)]

theorem nameOf_append_newline {t : Text} (ht : t.allBlank = false) (u : Text) :
    nameOf (t ++ '\n' :: u) = ((nameOf t).1, (nameOf t).2 ++ '\n' :: u) := by
  have hd : Text.trimStart t ≠ [] := fun h => by
    rw [Text.allBlank, List.all_eq_true.2 (List.dropWhile_eq_nil_iff.1 h)] at ht
    cases ht
  have hcut : Text.trimStart (t ++ '\n' :: u) = Text.trimStart t ++ '\n' :: u := by
    obtain ⟨c, r, hr⟩ := List.exists_cons_of_ne_nil hd
    rw [Text.trimStart] at hr
    rw [Text.trimStart, Text.trimStart, List.dropWhile_append, hr]
    rfl
  rw [nameOf, hcut, Text.splitIdentifier_append_cons (by decide) hd, nameOf]

theorem headerOf?_append {name behind : Text} {h : Header} (hh : headerOf? name behind = some h)
    (u : Text) : headerOf? name (behind ++ u) = some h := by
  have hq : ∀ t : Text, (('"' :: t).head? == some ';') = false := fun _ => rfl
  rw [headerOf?, splitUnquoted?_eq hq, Option.map_eq_some_iff] at hh
  obtain ⟨⟨body, rest⟩, hc, rfl⟩ := hh
  rw [headerOf?, splitUnquoted?_eq hq, cutUnquoted?_append (fun _ _ => rfl) hc]
  rfl

/-- A header found in the lines of a text is found before any other lines. -/
theorem header?_append_newline {t : Text} {h : Header} (hh : header? (t ++ ['\n']) = some h)
    (u : Text) : header? (t ++ '\n' :: u) = some h := by
  have hword : Text.isIdentifier moduleKeyword := by decide
  have hafter (x y : Text) := Text.afterWord?_append_cons hword (c := '\n') (by decide) x y
  induction t using header_induction with
  | absent t ht =>
    have hnone := hafter t []
    rw [ht, Text.afterWord?_nil] at hnone
    rw [header?_of_none hnone] at hh
    cases hh
  | behind t rest ht ih =>
    have hsome (v : Text) :
        Text.afterWord? moduleKeyword (t ++ '\n' :: v) = some (rest ++ '\n' :: v) := by
      rw [hafter, ht]
      rfl
    rw [header?_of_some (hsome [])] at hh
    rw [header?_of_some (hsome u)]
    cases hb : rest.allBlank with
    | true =>
      -- nothing but blanks is left in `t`, so the header would be found in them
      have hbn : (rest ++ ['\n']).allBlank := by
        rw [Text.allBlank, List.all_append, Bool.and_eq_true]
        exact ⟨hb, rfl⟩
      have hname : (nameOf (rest ++ ['\n'])).1 = [] := by
        rw [nameOf, Text.trimStart_of_allBlank hbn]
        rfl
      rw [if_pos hname, header?_of_none (Text.afterWord?_of_allBlank hword hbn)] at hh
      cases hh
    | false =>
      rw [nameOf_append_newline hb] at hh ⊢
      split at hh
      · next hn => rw [if_pos hn, ih hh]
      · next hn => rw [if_neg hn, List.append_cons, headerOf?_append hh]

theorem header?_append {w v name b : Text} (hw : w.allBlank) (hv : v.allBlank) (hne : v ≠ [])
    (hn : Text.isIdentifier name) (hb : Text.endsWord (b ++ [';'])) (hc : ';' ∉ b ∧ '"' ∉ b)
    (r : Text) :
    header? (w ++ moduleKeyword ++ (v ++ (name ++ (b ++ ';' :: r)))) = some ⟨name, b ++ [';']⟩ := by
  have hafter := @Text.afterWord?_append moduleKeyword w (v ++ (name ++ (b ++ ';' :: r)))
    (by decide) hw
    (Text.endsWord_append (Text.endsWord_of_allBlank hv) hne _)
  have htrim : Text.trimStart (v ++ (name ++ (b ++ ';' :: r))) = name ++ (b ++ ';' :: r) := by
    rw [Text.trimStart_append hv, Text.trimStart_eq_self (Text.head?_identifier hn _)]
  have hb' : Text.endsWord (b ++ ';' :: r) := by
    rw [List.append_cons]
    exact Text.endsWord_append hb (by simp) r
  have hsplit := Text.splitIdentifier_append hn hb'
  have hcut := splitUnquoted?_semicolon hc.2 hc.1 r
  have hname : nameOf (v ++ (name ++ (b ++ ';' :: r))) = (name, b ++ ';' :: r) := by
    rw [nameOf, htrim, hsplit]
  rw [header?_of_some hafter, hname, if_neg (Text.ne_nil_of_isIdentifier hn), headerOf?, hcut]
  rfl

end Signature
end Pinout
