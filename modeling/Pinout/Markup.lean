import Pinout.Text.Basic

/-!
# Pinout.Markup

Markup as a list of items: tags, text, the blanks between tags, and passages that stand in it as
they are. `render` writes a markup; `element` closes each tag that it opens.

Text and the values of attributes are written with entities for the five characters that could be
read as markup, so a text never becomes a tag: `not_mem_escape` says that the characters around
which tags and attributes are built do not occur in escaped text.
-/

namespace Pinout

abbrev Attributes := List (String × Text)

namespace Markup

inductive Item where
  | opening (name : String) (attributes : Attributes)
  | closing (name : String)
  | text (t : Text)
  | layout (t : Text)
  | verbatim (t : Text)
  deriving DecidableEq, Repr

end Markup

abbrev Markup := List Markup.Item

namespace Markup

def entity (c : Char) : Text :=
  if c = '&' then "&amp;".toList
  else if c = '<' then "&lt;".toList
  else if c = '>' then "&gt;".toList
  else if c = '"' then "&quot;".toList
  else if c = '\'' then "&#39;".toList
  else [c]

/-- The text with entities in place of the characters that mean something in markup. -/
def escape (t : Text) : Text := t.flatMap entity

def renderAttribute (a : String × Text) : Text :=
  ' ' :: a.1.toList ++ '=' :: '"' :: escape a.2 ++ ['"']

def Item.render : Item → Text
  | opening name attributes => '<' :: name.toList ++ attributes.flatMap renderAttribute ++ ['>']
  | closing name => '<' :: '/' :: name.toList ++ ['>']
  | text t => escape t
  | layout t => t
  | verbatim t => t

def render (m : Markup) : Text := m.flatMap Item.render

def element (name : String) (attributes : Attributes) (body : Markup) : Markup :=
  .opening name attributes :: body ++ [.closing name]

def tabs (n : Nat) : Item := .layout (List.replicate n '\t')

def lineEnd : Item := .layout ['\n']

/-- A markup on a line of its own, behind `depth` tabs. -/
def line (depth : Nat) (m : Markup) : Markup := tabs depth :: m ++ [lineEnd]

/-- An element whose body is lines, with its tags on lines of their own. -/
def block (depth : Nat) (name : String) (attributes : Attributes) (body : Markup) : Markup :=
  line depth [.opening name attributes] ++ body ++ line depth [.closing name]

/-- Puts a backslash before the slash of each `</`, so that a script does not end early. -/
def guardScript : Text → Text
  | [] => []
  | [c] => [c]
  | c :: d :: t =>
    if c = '<' ∧ d = '/' then '<' :: '\\' :: '/' :: guardScript t else c :: guardScript (d :: t)

@[simp] theorem escape_append (s t : Text) : escape (s ++ t) = escape s ++ escape t := by
  simp [escape]

@[simp] theorem render_append (m n : Markup) : render (m ++ n) = render m ++ render n := by
  simp [render]

theorem not_mem_escape (t : Text) : '<' ∉ escape t ∧ '>' ∉ escape t ∧ '"' ∉ escape t := by
  have h (c : Char) : '<' ∉ entity c ∧ '>' ∉ entity c ∧ '"' ∉ entity c := by
    unfold entity
    repeat' split
    all_goals simp_all [eq_comm]
  simp only [escape, List.mem_flatMap, not_exists, not_and]
  exact ⟨fun c _ => (h c).1, fun c _ => (h c).2.1, fun c _ => (h c).2.2⟩

end Markup
end Pinout
