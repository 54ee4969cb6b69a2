import Mathlib.Data.List.Forall2
import Pinout.Proofs.Snippet.Column
import Pinout.Snippet.Harness
import Pinout.Snippet.Instance

/-!
# Pinout.Proofs.Snippet.Aligned

The lines of an instantiation and of a unit under test (`connections_aligned`). All lines are given:
each parameter and each port has one line in its group, in the order of declaration, and in the lines
of a group the same marks stand at the same columns, as no column cuts its text.
-/

namespace Pinout

def Parameter.fieldTexts (p : Parameter) : List Text :=
  [p.name, p.type, p.value.getD [], p.description]

def Port.fieldTexts (p : Port) : List Text := [p.name, p.type, p.value.getD [], p.description]

def Signature.texts (s : Signature) : List Text :=
  s.name :: (s.parameters.flatMap Parameter.fieldTexts ++ s.ports.flatMap Port.fieldTexts)

/-- Each text of the signature is on one line. -/
def Signature.OneLine (s : Signature) : Prop := ∀ t ∈ s.texts, '\n' ∉ t

theorem Signature.OneLine.parameter {s : Signature} (h : s.OneLine) {p : Parameter}
    (hp : p ∈ s.parameters) :
    '\n' ∉ p.name ∧ '\n' ∉ p.type ∧ '\n' ∉ p.value.getD [] ∧ '\n' ∉ p.description := by
  have ht : ∀ t ∈ p.fieldTexts, '\n' ∉ t := fun t ht =>
    h t (List.mem_cons_of_mem _ (List.mem_append_left _ (List.mem_flatMap.2 ⟨p, hp, ht⟩)))
  simpa only [Parameter.fieldTexts, List.forall_mem_cons, List.not_mem_nil, false_imp_iff,
    implies_true, and_true] using ht

theorem Signature.OneLine.port {s : Signature} (h : s.OneLine) {p : Port} (hp : p ∈ s.ports) :
    '\n' ∉ p.name ∧ '\n' ∉ p.type ∧ '\n' ∉ p.value.getD [] ∧ '\n' ∉ p.description := by
  have ht : ∀ t ∈ p.fieldTexts, '\n' ∉ t := fun t ht =>
    h t (List.mem_cons_of_mem _ (List.mem_append_right _ (List.mem_flatMap.2 ⟨p, hp, ht⟩)))
  simpa only [Port.fieldTexts, List.forall_mem_cons, List.not_mem_nil, false_imp_iff,
    implies_true, and_true] using ht

namespace Snippet

open Text (spaces padRight padLeft splitNewlines)

/-- In all lines a comment starts at the column. -/
def CommentsAt (column : Nat) (lines : List Text) : Prop :=
  ∀ line ∈ lines, "//".toList <+: line.drop column

def parameterComment (p : Parameter) : Text := "  // ".toList ++ p.description

def portComment (p : Port) : Text :=
  "  // ".toList ++ p.direction.keyword ++ ", ".toList ++ p.type ++ ", ".toList ++ p.description

/-- The lines from the name of a module to where its ports are connected, with `label` in front of the
parenthesis, around those that connect parameters. -/
def openingLines (s : Signature) (label : Text) (parameters : List Text) : List Text :=
  if s.parameters = [] then ["    ".toList ++ s.name ++ label ++ " (".toList]
  else
    ("    ".toList ++ s.name ++ " # (".toList) ::
      (parameters ++ ["    )".toList ++ label ++ " (".toList])

/-- The lines of an instantiation around those that connect parameters and ports. -/
def instanceLines (instancePrefix : Text) (s : Signature) (parameters ports : List Text) :
    List Text :=
  openingLines s (' ' :: instancePrefix ++ s.name) parameters ++ ports ++ ["    );".toList, []]

/-- The lines connect all parameters and all ports, and the marks of either group stand in columns. -/
def InstanceAligned (instancePrefix : Text) (s : Signature) (lines : List Text) : Prop :=
  ∃ parameters ports, lines = instanceLines instancePrefix s parameters ports ∧
    (∃ opening closing, Connections Parameter.name parameterValue parameterComment [' ']
      s.parameters parameters opening closing ∧ CommentsAt (closing + 4) parameters) ∧
    ∃ opening closing, Connections Port.name Port.name portComment [' '] s.ports ports
      opening closing ∧ CommentsAt (closing + 4) ports

/-- The line declares a parameter, with the equals sign and the semicolon at these columns. -/
def DeclaresParameter (equals semicolon : Nat) (p : Parameter) (line : Text) : Prop :=
  ∃ i j, line = "    parameter ".toList ++ p.name ++ spaces i ++ '=' :: (' ' :: p.value.getD [] ++
      spaces j ++ ';' :: ("  // ".toList ++ p.description)) ∧
    equals = 14 + p.name.length + i ∧ semicolon = equals + 2 + (p.value.getD []).length + j

/-- The line declares a port, with its name and the semicolon at these columns. -/
def DeclaresPort (name semicolon : Nat) (p : Port) (line : Text) : Prop :=
  ∃ i j, line = "    ".toList ++ signalKind p.direction ++ ' ' :: spaces i ++ declaredRange p ++
      ' ' :: (p.name ++ spaces j ++ ';' :: ("  // ".toList ++ p.description)) ∧
    name = 6 + (signalKind p.direction).length + i + (declaredRange p).length ∧
    semicolon = name + p.name.length + j

/-- The lines of a unit under test around those that declare and connect parameters and ports. -/
def harnessLines (s : Signature) (parameters ports parameterWires portWires : List Text) :
    List Text :=
  (if s.parameters = [] then [] else "    // parameters".toList :: parameters) ++
    "    // ports".toList :: ports ++
    "    // module".toList :: openingLines s " uut".toList parameterWires ++ portWires ++
    ["    );".toList]

/-- The lines declare and connect all parameters and all ports, and the marks of each group stand in
columns. -/
def HarnessAligned (s : Signature) (lines : List Text) : Prop :=
  ∃ parameters ports parameterWires portWires,
    lines = harnessLines s parameters ports parameterWires portWires ∧
    (∃ equals semicolon,
      List.Forall₂ (DeclaresParameter equals semicolon) s.parameters parameters) ∧
    (∃ name semicolon, List.Forall₂ (DeclaresPort name semicolon) s.ports ports) ∧
    (∃ opening closing, Connections Parameter.name Parameter.name (fun _ => []) [] s.parameters
      parameterWires opening closing) ∧
    ∃ opening closing, Connections Port.name Port.name (fun _ => []) [] s.ports portWires
      opening closing

/-- Collapsed text is on one line. -/
theorem not_mem_declaredRange (p : Port) : '\n' ∉ declaredRange p := by
  intro hn
  rw [declaredRange] at hn
  split at hn
  · next range _ =>
    split at hn
    · exact absurd ((Text.collapsed_collapse range).spaces _ hn rfl) (by decide)
    · cases hn
  · cases hn

/-! ## Connections -/

theorem separated_map {α β : Type} (last : Text) (line : β → Text → Text) (f : α → β)
    (items : List α) :
    separated last line (items.map f) = separated last (fun item => line (f item)) items := by
  fun_induction withSeparators last items with
  | case1 => rfl
  | case2 item => rfl
  | case3 item next items ih => exact congrArg (line (f item) [','] ++ ·) ih

/-- Names connected to signals of the same names. -/
theorem connections_wiring {α : Type} {name : α → Text} {items : List α}
    (h : ∀ item ∈ items, '\n' ∉ name item) :
    ∃ lines, (∀ u, splitNewlines (wiring (items.map name) ++ u) = lines ++ splitNewlines u) ∧
      ∃ opening closing, Connections name name (fun _ => []) [] items lines opening closing := by
  have hwidth : ∀ item ∈ items, (name item).length ≤ nameWidth (items.map name) ∧
      (name item).length ≤ nameWidth (items.map name) := fun item hi =>
    ⟨le_nameWidth (List.mem_map_of_mem hi), le_nameWidth (List.mem_map_of_mem hi)⟩
  have hitems : ∀ item ∈ items, '\n' ∉ name item ∧ '\n' ∉ name item ∧
      ∀ t ∈ ([] : List Text), '\n' ∉ t := fun item hi =>
    ⟨h item hi, h item hi, List.forall_mem_nil _⟩
  obtain ⟨lines, hlines, hc⟩ := connections_separated hwidth List.not_mem_nil hitems
  refine ⟨lines, fun u => ?_, _, _, hc⟩
  rw [← hlines, wiring, separated_map]

variable {s : Signature}

theorem connections_parameters (h : s.OneLine) :
    ∃ lines, (∀ u, splitNewlines (parameterConnections s.parameters ++ u) =
        lines ++ splitNewlines u) ∧
      ∃ opening closing, Connections Parameter.name parameterValue parameterComment [' ']
        s.parameters lines opening closing := by
  have hwidth : ∀ p ∈ s.parameters, p.name.length ≤ nameWidth (s.parameters.map (·.name)) ∧
      (parameterValue p).length ≤ tabStop (Text.longest (s.parameters.map parameterValue)) + 3 := by
    intro p hp
    have hvalue := length_le_longest (List.mem_map_of_mem (f := parameterValue) hp)
    refine ⟨le_nameWidth (List.mem_map_of_mem hp), ?_⟩
    rw [tabStop]
    omega
  have hitems : ∀ p ∈ s.parameters, '\n' ∉ p.name ∧ '\n' ∉ parameterValue p ∧
      ∀ t ∈ ["  // ".toList, p.description], '\n' ∉ t := by
    intro p hp
    obtain ⟨hname, -, hvalue, hdescription⟩ := h.parameter hp
    refine ⟨hname, ?_, List.forall_mem_cons.2 ⟨by decide, List.forall_mem_singleton.2 hdescription⟩⟩
    cases hv : p.value with
    | none => simpa [parameterValue, hv] using hname
    | some v => simpa [parameterValue, hv] using hvalue
  have hlast : '\n' ∉ [' '] := by decide
  obtain ⟨lines, hlines, hc⟩ := connections_separated hwidth hlast hitems
  have hcomment : (fun p : Parameter => ["  // ".toList, p.description].flatten) =
      parameterComment := funext fun p => by
    unfold parameterComment
    simp only [List.flatten_cons, List.flatten_nil, List.append_nil]
  rw [hcomment] at hc
  exact ⟨lines, hlines, _, _, hc⟩

theorem connections_ports (h : s.OneLine) :
    ∃ lines, (∀ u, splitNewlines (portConnections s.ports ++ u) = lines ++ splitNewlines u) ∧
      ∃ opening closing, Connections Port.name Port.name portComment [' '] s.ports lines
        opening closing := by
  have hwidth : ∀ p ∈ s.ports, p.name.length ≤ nameWidth (s.ports.map (·.name)) ∧
      p.name.length ≤ nameWidth (s.ports.map (·.name)) := fun p hp =>
    ⟨le_nameWidth (List.mem_map_of_mem hp), le_nameWidth (List.mem_map_of_mem hp)⟩
  have hitems : ∀ p ∈ s.ports, '\n' ∉ p.name ∧ '\n' ∉ p.name ∧
      ∀ t ∈ ["  // ".toList, p.direction.keyword, ", ".toList, p.type, ", ".toList, p.description],
        '\n' ∉ t := by
    intro p hp
    obtain ⟨hname, htype, -, hdescription⟩ := h.port hp
    have hkeyword : '\n' ∉ p.direction.keyword := by cases p.direction <;> decide
    have hcomma : '\n' ∉ ", ".toList := by decide
    simp only [List.forall_mem_cons, List.not_mem_nil, false_imp_iff, implies_true, and_true]
    exact ⟨hname, hname, by decide, hkeyword, hcomma, htype, hcomma, hdescription⟩
  have hlast : '\n' ∉ [' '] := by decide
  obtain ⟨lines, hlines, hc⟩ := connections_separated hwidth hlast hitems
  have hcomment : (fun p : Port => ["  // ".toList, p.direction.keyword, ", ".toList, p.type,
      ", ".toList, p.description].flatten) = portComment := funext fun p => by
    unfold portComment
    simp only [List.flatten_cons, List.flatten_nil, List.append_nil, List.append_assoc]
  rw [hcomment] at hc
  exact ⟨lines, hlines, _, _, hc⟩

/-- Where each connection takes one character behind it, the comments start at one column. -/
theorem commentsAt_of_connections {α : Type} {name value comment : α → Text} {items : List α}
    {lines : List Text} {opening closing : Nat}
    (h : Connections name value comment [' '] items lines opening closing)
    (hc : ∀ item, "  //".toList <+: comment item) : CommentsAt (closing + 4) lines := by
  intro line hline
  obtain ⟨i, hi⟩ := List.mem_iff_getElem?.1 hline
  have hlt : i < items.length := h.length ▸ (List.getElem?_eq_some_iff.1 hi).1
  obtain ⟨line', hi', hconnects⟩ := h.line i _ (List.getElem?_eq_getElem hlt)
  obtain rfl : line = line' := Option.some.inj (hi.symm.trans hi')
  obtain ⟨t, ht⟩ := hc items[i]
  rw [← List.drop_drop, hconnects.columns.2.2.2, ← ht]
  split
  · exact List.prefix_append _ _
  · exact List.prefix_append _ _

/-! ## Declarations -/

theorem declares_parameters (h : s.OneLine) :
    ∃ lines, (∀ u, splitNewlines (parameterDeclarations s.parameters ++ u) =
        lines ++ splitNewlines u) ∧
      ∃ equals semicolon, List.Forall₂ (DeclaresParameter equals semicolon) s.parameters lines := by
  let width := tabStop (Text.longest (s.parameters.map (·.name)) + 2) + 2
  let valueWidth := Text.longest (s.parameters.map fun p => p.value.getD [])
  let parts (p : Parameter) : List Text :=
    ["    parameter ".toList, padRight width p.name, "= ".toList,
      padRight valueWidth (p.value.getD []), ";  // ".toList, p.description]
  have hparts : ∀ p ∈ s.parameters, ∀ part ∈ parts p, '\n' ∉ part := by
    intro p hp
    obtain ⟨hname, -, hvalue, hdescription⟩ := h.parameter hp
    simp only [parts, List.forall_mem_cons, List.not_mem_nil, false_imp_iff, implies_true, and_true]
    exact ⟨by decide, not_mem_padRight (by decide) hname _, by decide,
      not_mem_padRight (by decide) hvalue _, by decide, hdescription⟩
  refine ⟨s.parameters.map fun p => (parts p).flatten, fun u => ?_, 14 + width,
    16 + width + valueWidth, ?_⟩
  · exact splitNewlines_flatMap hparts u
  · rw [List.forall₂_map_right_iff, List.forall₂_same]
    intro p hp
    have hname : p.name.length ≤ width := by
      have hlongest : p.name.length ≤ Text.longest (s.parameters.map (·.name)) :=
        length_le_longest (List.mem_map_of_mem hp)
      simp only [width, tabStop]
      omega
    have hvalue : (p.value.getD []).length ≤ valueWidth :=
      length_le_longest (List.mem_map_of_mem (f := fun p : Parameter => p.value.getD []) hp)
    refine ⟨width - p.name.length, valueWidth - (p.value.getD []).length, ?_, by omega, by omega⟩
    simp only [parts, padRight_eq, List.flatten_cons, List.flatten_nil, List.append_nil,
      List.append_assoc]
    rfl

theorem declares_ports (h : s.OneLine) :
    ∃ lines, (∀ u, splitNewlines (portDeclarations s.ports ++ u) = lines ++ splitNewlines u) ∧
      ∃ name semicolon, List.Forall₂ (DeclaresPort name semicolon) s.ports lines := by
  let rangeWidth := tabStop (Text.longest (s.ports.map declaredRange) + 1) + 2
  let width := Text.longest (s.ports.map (·.name))
  let parts (p : Port) : List Text :=
    ["    ".toList, signalKind p.direction, [' '], padLeft rangeWidth (declaredRange p), [' '],
      padRight width p.name, ";  // ".toList, p.description]
  have hparts : ∀ p ∈ s.ports, ∀ part ∈ parts p, '\n' ∉ part := by
    intro p hp
    obtain ⟨hname, -, -, hdescription⟩ := h.port hp
    have hkind : '\n' ∉ signalKind p.direction := by cases p.direction <;> decide
    have hblank : '\n' ∉ [' '] := by decide
    simp only [parts, List.forall_mem_cons, List.not_mem_nil, false_imp_iff, implies_true, and_true]
    exact ⟨by decide, hkind, hblank, not_mem_padLeft (by decide) (not_mem_declaredRange p) _, hblank,
      not_mem_padRight (by decide) hname _, by decide, hdescription⟩
  refine ⟨s.ports.map fun p => (parts p).flatten, fun u => ?_, 10 + rangeWidth,
    10 + rangeWidth + width, ?_⟩
  · exact splitNewlines_flatMap hparts u
  · rw [List.forall₂_map_right_iff, List.forall₂_same]
    intro p hp
    have hrange : (declaredRange p).length ≤ rangeWidth := by
      have hlongest := length_le_longest (List.mem_map_of_mem (f := declaredRange) hp)
      simp only [rangeWidth, tabStop]
      omega
    have hname : p.name.length ≤ width := length_le_longest (List.mem_map_of_mem hp)
    have hkind : (signalKind p.direction).length = 4 := by cases p.direction <;> decide
    refine ⟨rangeWidth - (declaredRange p).length, width - p.name.length, ?_, by omega, by omega⟩
    simp only [parts, padRight_eq, padLeft, List.flatten_cons, List.flatten_nil, List.append_nil,
      List.append_assoc]
    rfl

/-! ## All lines -/

theorem splitNewlines_opening (hn : '\n' ∉ s.name) {label group : Text} (hl : '\n' ∉ label)
    {lines : List Text} (hg : ∀ u, splitNewlines (group ++ u) = lines ++ splitNewlines u) (u : Text) :
    splitNewlines ("    ".toList ++ s.name ++ (if s.parameters = [] then [] else
        " # (\n".toList ++ group ++ "    )".toList) ++ (label ++ " (\n".toList ++ u)) =
      openingLines s label lines ++ splitNewlines u := by
  have hopen : " (\n".toList = " (".toList ++ ['\n'] := by decide
  rw [openingLines, hopen]
  split
  · have hline : '\n' ∉ "    ".toList ++ s.name ++ label ++ " (".toList := by
      simp only [List.mem_append, not_or]
      exact ⟨⟨⟨by decide, hn⟩, hl⟩, by decide⟩
    have hcut := splitNewlines_line hline u
    simpa only [List.append_assoc, List.cons_append, List.nil_append] using hcut
  · have hfirst : '\n' ∉ "    ".toList ++ s.name ++ " # (".toList := by
      simp only [List.mem_append, not_or]
      exact ⟨⟨by decide, hn⟩, by decide⟩
    have hlast : '\n' ∉ "    )".toList ++ label ++ " (".toList := by
      simp only [List.mem_append, not_or]
      exact ⟨⟨by decide, hl⟩, by decide⟩
    have hgroup : " # (\n".toList = " # (".toList ++ ['\n'] := by decide
    have hcut := splitNewlines_line hfirst
      (group ++ ("    )".toList ++ label ++ " (".toList ++ '\n' :: u))
    rw [hg, splitNewlines_line hlast] at hcut
    rw [hgroup]
    simpa only [List.append_assoc, List.cons_append, List.nil_append] using hcut

theorem prefix_comment (t : Text) : "  //".toList <+: "  // ".toList ++ t := by
  have hcat : "  // ".toList = "  //".toList ++ [' '] := by decide
  rw [hcat, List.append_assoc]
  exact List.prefix_append _ _

theorem instanceAligned (h : s.OneLine) (hname : s.name ≠ []) (hports : s.ports ≠ [])
    {instancePrefix : Text} (hp : '\n' ∉ instancePrefix) :
    InstanceAligned instancePrefix s (splitNewlines (instantiation instancePrefix s)) := by
  obtain ⟨parameters, hparameters, o, c, hc⟩ := connections_parameters h
  obtain ⟨ports, hportLines, o', c', hc'⟩ := connections_ports h
  refine ⟨parameters, ports, ?_, ⟨o, c, hc, commentsAt_of_connections hc fun p => ?_⟩,
    o', c', hc', commentsAt_of_connections hc' fun p => ?_⟩
  · have hn : '\n' ∉ s.name := h s.name List.mem_cons_self
    have hlabel : '\n' ∉ ' ' :: instancePrefix ++ s.name := by
      simp only [List.cons_append, List.mem_cons, List.mem_append, not_or]
      exact ⟨by decide, hp, hn⟩
    have hend : splitNewlines (portConnections s.ports ++ "    );\n".toList) =
        ports ++ ["    );".toList, []] := by
      rw [hportLines]
      exact congrArg (ports ++ ·) (by decide)
    have hopening := splitNewlines_opening hn hlabel hparameters
      (portConnections s.ports ++ "    );\n".toList)
    rw [hend] at hopening
    unfold instantiation instanceLines
    rw [if_neg (not_or.2 ⟨hname, hports⟩)]
    simpa only [List.append_assoc, List.cons_append, List.nil_append] using hopening
  · unfold parameterComment
    exact prefix_comment _
  · unfold portComment
    simp only [List.append_assoc]
    exact prefix_comment _

theorem harnessAligned (h : s.OneLine) : HarnessAligned s (splitNewlines (unitUnderTest s)) := by
  obtain ⟨parameters, hparameters, hdeclared⟩ := declares_parameters h
  obtain ⟨ports, hports, hdeclared'⟩ := declares_ports h
  obtain ⟨parameterWires, hparameterWires, hconnected⟩ :=
    connections_wiring fun p hp => (h.parameter (p := p) hp).1
  obtain ⟨portWires, hportWires, hconnected'⟩ :=
    connections_wiring fun p hp => (h.port (p := p) hp).1
  refine ⟨parameters, ports, parameterWires, portWires, ?_, hdeclared, hdeclared', hconnected,
    hconnected'⟩
  have hend : splitNewlines (wiring (s.ports.map Port.name) ++ "    );".toList) =
      portWires ++ ["    );".toList] := by
    rw [hportWires]
    exact congrArg (portWires ++ ·) (by decide)
  have hlabel : '\n' ∉ " uut".toList := by decide
  have hopening := splitNewlines_opening (h s.name List.mem_cons_self) hlabel hparameterWires
    (wiring (s.ports.map Port.name) ++ "    );".toList)
  have hheading {heading : Text} (hn : '\n' ∉ heading) (u : Text) :
      splitNewlines (heading ++ ['\n'] ++ u) = heading :: splitNewlines u := by
    rw [List.append_assoc]
    exact splitNewlines_line hn u
  have hfront (u : Text) : splitNewlines ((if s.parameters = [] then []
        else "    // parameters\n".toList ++ parameterDeclarations s.parameters) ++ u) =
      (if s.parameters = [] then [] else "    // parameters".toList :: parameters) ++
        splitNewlines u := by
    split
    · rfl
    · have hcat : "    // parameters\n".toList = "    // parameters".toList ++ ['\n'] := by decide
      rw [hcat, List.append_assoc, hheading (by decide), hparameters]
      rfl
  have hcat : "    // ports\n".toList = "    // ports".toList ++ ['\n'] := by decide
  have hcat' : "    // module\n".toList = "    // module".toList ++ ['\n'] := by decide
  have huut : " uut (\n".toList = " uut".toList ++ " (\n".toList := by decide
  have htext : unitUnderTest s = (if s.parameters = [] then []
        else "    // parameters\n".toList ++ parameterDeclarations s.parameters) ++
      ("    // ports".toList ++ ['\n'] ++ (portDeclarations s.ports ++
        ("    // module".toList ++ ['\n'] ++ ("    ".toList ++ s.name ++ (if s.parameters = [] then []
          else " # (\n".toList ++ wiring (s.parameters.map Parameter.name) ++ "    )".toList) ++
            (" uut".toList ++ " (\n".toList ++
              (wiring (s.ports.map Port.name) ++ "    );".toList)))))) := by
    unfold unitUnderTest
    rw [hcat, hcat', huut]
    simp only [List.append_assoc]
  rw [htext, hfront, hheading (by decide), hports, hheading (by decide), hopening, hend, harnessLines]
  simp only [List.append_assoc, List.cons_append]

/-- The instantiation and the unit under test connect and declare all parameters and ports, each on a
line of its own and in columns. -/
theorem connections_aligned (h : s.OneLine) (hname : s.name ≠ []) (hports : s.ports ≠ [])
    {instancePrefix : Text} (hp : '\n' ∉ instancePrefix) :
    InstanceAligned instancePrefix s (splitNewlines (instantiation instancePrefix s)) ∧
      HarnessAligned s (splitNewlines (unitUnderTest s)) :=
  ⟨instanceAligned h hname hports hp, harnessAligned h⟩

/-- Parentheses in a value, a parameter without a value, and ports with and without a range. -/
theorem connections_aligned_calls :
    let s : Signature := ⟨['m'], [⟨"DEPTH".toList, "integer".toList, some "f(1, (2))".toList, []⟩,
        ⟨['N'], [], none, "count".toList⟩],
      [⟨"clk".toList, .input, "(wire)".toList, none, "clock".toList⟩,
        ⟨['q'], .output, "reg [7 : 0]".toList, none, []⟩]⟩
    s.OneLine ∧ s.name ≠ [] ∧ s.ports ≠ [] ∧ '\n' ∉ "u_".toList ∧
      InstanceAligned "u_".toList s (splitNewlines (instantiation "u_".toList s)) ∧
      HarnessAligned s (splitNewlines (unitUnderTest s)) := by
  intro s
  have h : s.OneLine := by
    unfold Signature.OneLine
    decide
  have hname : s.name ≠ [] := by decide
  have hports : s.ports ≠ [] := by decide
  have hp : '\n' ∉ "u_".toList := by decide
  exact ⟨h, hname, hports, hp, connections_aligned h hname hports hp⟩

end Snippet
end Pinout
