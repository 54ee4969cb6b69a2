import Pinout.Json.Printer
import Pinout.Json.Relaxed
import Pinout.Note.Indent
import Pinout.Yaml.Value

/-!
# Pinout.Note.Wave

Wave diagrams in documentation lines: an opening tag, the payload and the closing tag of the same
name. The payload is an object, in JSON or in relaxed JSON, or in YAML where the tag says so.
-/

namespace Pinout
namespace Note
namespace Wave

inductive Format where
  | json
  | yaml
  deriving DecidableEq, Repr

/-- Why a payload was dropped. -/
inductive Fault where
  | notObject (payload : Json)
  | notJson
  | notYaml

/-- The value that a text is in a format. JSON that is not strict may still be relaxed. -/
def value (t : Text) : Format → Except Fault Json
  | .json =>
    match Json.Strict.read? t.trim <|> Json.Relaxed.read? t with
    | some v => .ok v
    | none => .error .notJson
  | .yaml =>
    match Yaml.read? t with
    | some v => .ok v
    | none => .error .notYaml

/-- The object that a payload describes. -/
def payload (format : Format) (t : Text) : Except Fault Json :=
  match value t format with
  | .ok v => if v.isObject then .ok v else .error (.notObject v)
  | .error fault => .error fault

/-- The tags of wave blocks. -/
def tags : List (Text × Format) :=
  [("wavedrom".toList, .json), ("wave_yaml".toList, .yaml), ("wave_yml".toList, .yaml),
    ("wave".toList, .json)]

/-- An opening tag in a line, and the text of the line behind it. -/
structure Opening where
  tag : Text
  format : Format
  indent : Nat
  rest : Text
  deriving DecidableEq, Repr

def closing (o : Opening) : Text := "</".toList ++ o.tag ++ ['>']

/-- Where the opening of `tag` is in a line, if anywhere. -/
def openingOf? (line : Text) (tag : Text × Format) : Option (Nat × Opening) :=
  (Text.splitAround? ('<' :: tag.1 ++ ['>']) line).map fun (before, rest) =>
    (before.length, ⟨tag.1, tag.2, indentOf line, rest⟩)

/-- The first of several openings. -/
def firstOf : List (Nat × Opening) → Option (Nat × Opening)
  | [] => none
  | o :: os =>
    match firstOf os with
    | some p => if p.1 < o.1 then some p else some o
    | none => some o

/-- The first opening tag in a line. -/
def opening? (line : Text) : Option Opening :=
  (firstOf (tags.filterMap (openingOf? line))).map (·.2)

/-- The first line with an opening tag, with the lines before and behind it. -/
def firstOpening? : List Text → Option (List Text × Opening × List Text)
  | [] => none
  | line :: lines =>
    match opening? line with
    | some o => some ([], o, lines)
    | none => (firstOpening? lines).map fun (before, o, rest) => (line :: before, o, rest)

/-- The payload lines up to the closing tag, and the lines behind it. -/
def untilClosing? (o : Opening) : List Text → Option (List Text × List Text)
  | [] => none
  | line :: lines =>
    match Text.splitAround? (closing o) line with
    | some (before, _) => some ([stripIndent o.indent before], lines)
    | none =>
      (untilClosing? o lines).map fun (body, rest) => (stripIndent o.indent line :: body, rest)

/-- The payload of a block opened by `o`, the number of lines read for it and the lines behind it.
The block may close in the line in which it opens. -/
def body? (o : Opening) (lines : List Text) : Option (Text × List Text) :=
  match Text.splitAround? (closing o) o.rest with
  | some (before, _) => some (before, lines)
  | none =>
    (untilClosing? o lines).map fun (body, rest) =>
      (Text.joinWith ['\n'] (if o.rest.allBlank then body else o.rest :: body), rest)

theorem length_of_firstOpening? {lines before rest : List Text} {o : Opening}
    (h : firstOpening? lines = some (before, o, rest)) :
    lines.length = before.length + rest.length + 1 := by
  induction lines generalizing before with
  | nil => cases h
  | cons line lines ih =>
    unfold firstOpening? at h
    split at h
    · cases h
      simp
    · obtain ⟨⟨b, p, r⟩, hb, he⟩ := Option.map_eq_some_iff.1 h
      cases he
      simp only [List.length_cons, ih hb]
      omega

theorem length_of_untilClosing? {o : Opening} {lines body rest : List Text}
    (h : untilClosing? o lines = some (body, rest)) : rest.length ≤ lines.length := by
  induction lines generalizing body with
  | nil => cases h
  | cons line lines ih =>
    unfold untilClosing? at h
    split at h
    · cases h
      simp
    · obtain ⟨⟨b, r⟩, hb, he⟩ := Option.map_eq_some_iff.1 h
      cases he
      exact Nat.le_succ_of_le (ih hb)

theorem length_of_body? {o : Opening} {lines rest : List Text} {t : Text}
    (h : body? o lines = some (t, rest)) : rest.length ≤ lines.length := by
  unfold body? at h
  split at h
  · cases h
    exact Nat.le_refl _
  · obtain ⟨⟨b, r⟩, hb, he⟩ := Option.map_eq_some_iff.1 h
    cases he
    exact length_of_untilClosing? hb

end Wave
end Note
end Pinout
