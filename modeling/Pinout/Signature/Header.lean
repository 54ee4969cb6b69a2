import Pinout.Signature.Basic
import Pinout.Signature.Scan

/-!
# Pinout.Signature.Header

The header of a module in text without comments: the name behind the first `module` that one
follows, the text of the parameter list `#( … )` and the text of the port list, which is the group
that starts with a direction.
-/

namespace Pinout
namespace Signature

/-- The name, and all behind it up to the semicolon, which it includes. -/
structure Header where
  name : Text
  body : Text
  deriving DecidableEq, Repr

theorem length_of_afterWord? {word t rest : Text} (hw : word ≠ [])
    (h : Text.afterWord? word t = some rest) (ht : t ≠ []) : rest.length < t.length := by
  obtain ⟨n, _, he⟩ := Option.map_eq_some_iff.1 h
  cases he
  have := List.length_pos_iff.2 hw
  have := List.length_pos_iff.2 ht
  rw [List.length_drop]
  omega

def moduleKeyword : Text := "module".toList

def header? (t : Text) : Option Header :=
  match t with
  | [] => none
  | c :: t =>
    match _h : Text.afterWord? moduleKeyword (c :: t) with
    | none => none
    | some rest =>
      match Text.splitIdentifier (Text.trimStart rest) with
      | ([], _) => header? rest
      | (name, behind) =>
        (splitUnquoted? (·.head? == some ';') false behind).map fun (body, _) =>
          ⟨name, body ++ [';']⟩
termination_by t.length
decreasing_by exact length_of_afterWord? (by decide) _h (by simp)

/-- A direction keyword stands behind any blanks at the head of a text. -/
def startsWithDirection (t : Text) : Bool :=
  (Direction.ofKeyword? (Text.splitIdentifier (Text.trimStart t)).1).isSome

/-- The text behind the first parenthesis that a direction follows. -/
def afterPortsOpen? : Text → Option Text
  | [] => none
  | c :: t => if c = '(' ∧ startsWithDirection t then some t else afterPortsOpen? t

/-- The port list stands behind any blanks at the head of a text. -/
def startsWithPorts (t : Text) : Bool :=
  match Text.trimStart t with
  | '(' :: t => startsWithDirection t
  | _ => false

/-- The text before the first closing parenthesis that satisfies `ends` with the text behind it. -/
def splitClosing? (ends : Text → Bool) : Text → Option (Text × Text)
  | [] => none
  | c :: t =>
    if c = ')' ∧ ends t then some ([], t)
    else (splitClosing? ends t).map fun (before, rest) => (c :: before, rest)

/-- The parameter list, if there is one, and the text behind it. It ends at the first parenthesis
that the port list follows, so that calls in default values stay inside; without a port list it ends
at the first parenthesis. -/
def splitParameterList (body : Text) : Option Text × Text :=
  match Text.trimStart body with
  | '#' :: t =>
    match Text.trimStart t with
    | '(' :: t =>
      match splitClosing? startsWithPorts t with
      | some (list, rest) => (some list, rest)
      | none =>
        match splitClosing? (fun _ => true) t with
        | some (list, rest) => (some list, rest)
        | none => (some t, [])
    | _ => (none, body)
  | _ => (none, body)

/-- The text without the character at its end, and without the blanks around it. -/
def dropLast? (c : Char) (t : Text) : Option Text :=
  match (Text.trimEnd t).reverse with
  | d :: r => if d = c then some r.reverse else none
  | [] => none

/-- The port list: from the parenthesis a direction follows to the last one before the semicolon. -/
def portList? (t : Text) : Option Text := do
  dropLast? ')' (← dropLast? ';' (← afterPortsOpen? t))

end Signature
end Pinout
