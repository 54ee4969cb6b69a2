import Pinout.Proofs.Signature.WellFormed
import Pinout.Proofs.Snippet.Aligned

/-!
# Pinout.Proofs.Snippet.Values

The values of parameters in generated code. An instantiation always has an expression between the
parentheses of a parameter: its default, or its name where it has none. A unit under test has the
default between the equals sign and the semicolon, and blanks where there is none
(`values_of_source`), so that the declaration of a parameter without a default lacks its initializer
(`initializer_missing`).
-/

namespace Pinout

/-! ## Signatures on lines -/

theorem Text.Collapsed.not_mem_newline {t : Text} (h : t.Collapsed) : '\n' ∉ t :=
  fun hn => absurd (h.spaces _ hn rfl) (by decide)

theorem Text.not_mem_newline_of_isIdentifier {t : Text} (h : t.isIdentifier) : '\n' ∉ t := by
  obtain ⟨_, _, _, _, hall⟩ := Text.exists_cons_of_isIdentifier h
  exact fun hn => absurd (hall _ hn) (by decide)

theorem ValueWellFormed.not_mem_newline {value : Option Text} (h : ValueWellFormed value) :
    '\n' ∉ value.getD [] := by
  cases value with
  | none => exact List.not_mem_nil
  | some v => exact (h v rfl).2.not_mem_newline

theorem Signature.WellFormed.oneLine {s : Signature} (h : s.WellFormed) : s.OneLine := by
  intro t ht
  rw [Signature.texts, List.mem_cons, List.mem_append] at ht
  rcases ht with rfl | ht | ht
  · by_cases hname : s.name = []
    · rw [hname]
      exact List.not_mem_nil
    · exact Text.not_mem_newline_of_isIdentifier (h.name hname)
  · obtain ⟨p, hp, ht⟩ := List.mem_flatMap.1 ht
    have hw := h.parameters p hp
    simp only [Parameter.fieldTexts, List.mem_cons, List.not_mem_nil, or_false] at ht
    rcases ht with rfl | rfl | rfl | rfl
    · exact Text.not_mem_newline_of_isIdentifier hw.name
    · exact hw.type.not_mem_newline
    · exact hw.value.not_mem_newline
    · exact hw.description.2
  · obtain ⟨p, hp, ht⟩ := List.mem_flatMap.1 ht
    have hw := h.ports p hp
    simp only [Port.fieldTexts, List.mem_cons, List.not_mem_nil, or_false] at ht
    rcases ht with rfl | rfl | rfl | rfl
    · exact Text.not_mem_newline_of_isIdentifier hw.name
    · exact hw.type.not_mem_newline
    · exact hw.value.not_mem_newline
    · exact hw.description.2

namespace Snippet

open Text (spaces splitNewlines)

/-- What stands between two columns of a line, without the blanks around it. -/
def between (first last : Nat) (line : Text) : Text := Text.trim ((line.take last).drop (first + 1))

/-- The lines start with those of the parameters in turn: `lead`, the name of the parameter, and
between two marks at the same columns in all lines its expression. -/
def Expresses (lead : Text) (first last : Char) (expression : Parameter → Text) (ps : List Parameter)
    (lines : List Text) : Prop :=
  ∃ m n : Nat, ∀ (i : Nat) (p : Parameter), ps[i]? = some p →
    ∃ text, lines[i]? = some text ∧ lead ++ p.name <+: text ∧
      text[m]? = some first ∧ text[n]? = some last ∧ between m n text = expression p

variable {s : Signature}

theorem trim_append_spaces {t : Text} (h : t.Trimmed) (n : Nat) : Text.trim (t ++ spaces n) = t := by
  rw [Text.trim_append_right (Text.allBlank_spaces n), Text.trim_eq_self h.head h.last]

theorem trimmed_of_isIdentifier {t : Text} (h : t.isIdentifier) : t.Trimmed := by
  have hhead := Text.head?_identifier h []
  have hlast := Text.getLast?_identifier h []
  rw [List.append_nil] at hhead
  exact ⟨hhead, hlast⟩

theorem trimmed_value {p : Parameter} (h : p.WellFormed) : (p.value.getD []).Trimmed := by
  cases hv : p.value with
  | none => exact ⟨rfl, rfl⟩
  | some v => exact (h.value v hv).2.toTrimmed

theorem trimmed_parameterValue {p : Parameter} (h : p.WellFormed) : (parameterValue p).Trimmed := by
  cases hv : p.value with
  | none =>
    rw [parameterValue, hv]
    exact trimmed_of_isIdentifier h.name
  | some v =>
    rw [parameterValue, hv]
    exact (h.value v hv).2.toTrimmed

/-! ## Lines of parameters -/

theorem expresses_of_connections {comment : Parameter → Text} {last : Text} {lines : List Text}
    {opening closing : Nat} (h : s.WellFormed)
    (hc : Connections Parameter.name parameterValue comment last s.parameters lines opening closing)
    (more : List Text) :
    Expresses "        .".toList '(' ')' parameterValue s.parameters (lines ++ more) := by
  refine ⟨opening, closing, fun i p hp => ?_⟩
  obtain ⟨line, hline, hconnects⟩ := hc.line i p hp
  obtain ⟨hopen, hclose, ⟨j, hbetween⟩, -⟩ := hconnects.columns
  refine ⟨line, ?_, ?_, hopen, hclose, ?_⟩
  · rw [List.getElem?_append_left (List.getElem?_eq_some_iff.1 hline).1, hline]
  · obtain ⟨i, j, rfl, -⟩ := hconnects
    simp only [List.append_assoc]
    exact (List.prefix_append_right_inj _).2 (List.prefix_append _ _)
  · rw [between, hbetween,
      trim_append_spaces (trimmed_parameterValue (h.parameters p (List.mem_of_getElem? hp)))]

theorem expresses_of_declares {lines : List Text} {equals semicolon : Nat} (h : s.WellFormed)
    (hd : List.Forall₂ (DeclaresParameter equals semicolon) s.parameters lines) (more : List Text) :
    Expresses "    parameter ".toList '=' ';' (fun p => p.value.getD []) s.parameters
      (lines ++ more) := by
  refine ⟨equals, semicolon, fun i p hp => ?_⟩
  obtain ⟨hlength, hget⟩ := List.forall₂_iff_get.1 hd
  obtain ⟨hi, rfl⟩ := List.getElem?_eq_some_iff.1 hp
  have hi' : i < lines.length := hlength ▸ hi
  obtain ⟨j, k, hline, he, hs⟩ := hget i hi hi'
  have hv := trimmed_value (h.parameters _ (List.getElem_mem hi))
  have hfront : "    parameter ".toList.length = 14 := by decide
  obtain ⟨hequals, hsemicolon, hbetween, -⟩ := @columns_of_marks _ _
    (' ' :: (s.parameters.get ⟨i, hi⟩).value.getD [] ++ spaces k) _ '=' ';' equals semicolon hline
    (by simp only [List.length_append, hfront, length_spaces, he])
    (by simp only [List.length_cons, List.length_append, length_spaces]; omega)
  refine ⟨lines[i], ?_, ?_, hequals, hsemicolon, ?_⟩
  · rw [List.getElem?_append_left hi', List.getElem?_eq_getElem hi']
  · rw [show lines[i] = _ from hline]
    simp only [List.append_assoc]
    exact (List.prefix_append_right_inj _).2 (List.prefix_append _ _)
  · have hblank : Text.allBlank [' '] := rfl
    have htrim := Text.trim_append hblank ((s.parameters.get ⟨i, hi⟩).value.getD [] ++ spaces k)
    rw [between, show lines[i] = lines.get ⟨i, hi'⟩ from rfl, hbetween]
    exact htrim.trans (trim_append_spaces hv k)

theorem expresses_nil (lead : Text) (first last : Char) (expression : Parameter → Text)
    (lines : List Text) : Expresses lead first last expression [] lines :=
  ⟨0, 0, fun _ _ hp => by cases hp⟩

/-- The lines behind the first one connect the parameters, whatever stands in front of the name of the
instance. -/
theorem expresses_instantiation (h : s.WellFormed) (hports : s.ports ≠ []) (instancePrefix : Text) :
    Expresses "        .".toList '(' ')' parameterValue s.parameters
      ((splitNewlines (instantiation instancePrefix s)).drop 1) := by
  have hname : s.name ≠ [] := fun hn => hports (h.absent hn).2
  obtain ⟨lines, hlines, o, c, hc⟩ := connections_parameters h.oneLine
  by_cases hs : s.parameters = []
  · rw [hs]
    exact expresses_nil ..
  · have hline : '\n' ∉ "    ".toList ++ s.name ++ " # (".toList := by
      simp only [List.mem_append, not_or]
      exact ⟨⟨by decide, h.oneLine s.name List.mem_cons_self⟩, by decide⟩
    have hgroup : " # (\n".toList = " # (".toList ++ ['\n'] := by decide
    have htext : ∃ u, instantiation instancePrefix s = "    ".toList ++ s.name ++ " # (".toList ++
        '\n' :: (parameterConnections s.parameters ++ u) := by
      unfold instantiation
      rw [if_neg (not_or.2 ⟨hname, hports⟩), if_neg hs, hgroup]
      simp only [List.append_assoc, List.cons_append, List.nil_append]
      exact ⟨_, rfl⟩
    obtain ⟨u, hu⟩ := htext
    rw [hu, splitNewlines_line hline, List.drop_one, List.tail_cons, hlines]
    exact expresses_of_connections h hc _

theorem expresses_unitUnderTest (h : s.WellFormed) :
    Expresses "    parameter ".toList '=' ';' (fun p => p.value.getD []) s.parameters
      ((splitNewlines (unitUnderTest s)).drop 1) := by
  obtain ⟨parameters, ports, parameterWires, portWires, hlines, ⟨e, c, hd⟩, -⟩ :=
    harnessAligned h.oneLine
  by_cases hs : s.parameters = []
  · rw [hs]
    exact expresses_nil ..
  · rw [hlines, harnessLines, if_neg hs]
    simp only [List.append_assoc, List.cons_append, List.drop_one, List.tail_cons]
    exact expresses_of_declares h hd _

/-- In the instantiation of any source with ports each parameter has an expression, its default or
else its name. In the unit under test it has its default, and nothing exactly when there is none. -/
theorem values_of_source (source : Text) (h : (Signature.ofSource source).ports ≠ [])
    (instancePrefix : Text) :
    let s := Signature.ofSource source
    Expresses "        .".toList '(' ')' (fun p => p.value.getD p.name) s.parameters
        ((splitNewlines (instantiation instancePrefix s)).drop 1) ∧
      Expresses "    parameter ".toList '=' ';' (fun p => p.value.getD []) s.parameters
        ((splitNewlines (unitUnderTest s)).drop 1) ∧
      ∀ p ∈ s.parameters, p.value.getD p.name ≠ [] ∧ (p.value.getD [] = [] ↔ p.value = none) := by
  intro s
  have hwellFormed : s.WellFormed := Signature.ofViews_wellFormed (Source.views source)
  refine ⟨expresses_instantiation hwellFormed h instancePrefix, expresses_unitUnderTest hwellFormed,
    fun p hp => ?_⟩
  have hp := hwellFormed.parameters p hp
  cases hv : p.value with
  | none => exact ⟨Text.ne_nil_of_isIdentifier hp.name, fun _ => rfl, fun _ => rfl⟩
  | some v =>
    have hne := (hp.value v hv).1
    exact ⟨hne, fun he => absurd he hne, fun he => by cases he⟩

theorem values_of_source_mixed :
    let s := Signature.ofSource "module m #(parameter N, parameter integer W = 1 + 2) (input a);".toList
    s.ports ≠ [] ∧ s.parameters.map (·.value) = [none, some "1 + 2".toList] ∧
      Expresses "        .".toList '(' ')' (fun p => p.value.getD p.name) s.parameters
        ((splitNewlines (instantiation "u_".toList s)).drop 1) ∧
      Expresses "    parameter ".toList '=' ';' (fun p => p.value.getD []) s.parameters
        ((splitNewlines (unitUnderTest s)).drop 1) := by
  intro s
  have hports : s.ports ≠ [] := by decide +kernel
  have hvalues : s.parameters.map (·.value) = [none, some "1 + 2".toList] := by decide +kernel
  obtain ⟨hinstance, hharness, -⟩ := values_of_source _ hports "u_".toList
  exact ⟨hports, hvalues, hinstance, hharness⟩

/-- A parameter without a default is declared with nothing between the equals sign and the
semicolon. -/
theorem initializer_missing :
    let s := Signature.ofSource "module m #(parameter N, parameter W = 8) (input a);".toList
    s.ports ≠ [] ∧ ∃ text, (splitNewlines (unitUnderTest s))[1]? = some text ∧
      "    parameter N".toList <+: text ∧ text[16]? = some '=' ∧ text[19]? = some ';' ∧
        between 16 19 text = [] := by
  intro s
  have hline : (splitNewlines (unitUnderTest s))[1]? = some "    parameter N =  ;  // ".toList := by
    decide +kernel
  exact ⟨by decide +kernel, _, hline, by decide⟩

end Snippet
end Pinout
