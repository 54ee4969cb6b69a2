import Pinout.Template.Value

/-!
# Pinout.Template.Node

Templates as trees: expressions, and nodes that write or bind something.
-/

namespace Pinout
namespace Template

inductive Operator where
  | plus
  | minus
  | times
  | over
  | join
  | equal
  | differ
  deriving DecidableEq, Repr

/-- Arguments of filters, tests and calls come with a name if they are passed by name. -/
inductive Expr where
  | literal (v : Value)
  | reference (name : Text)
  | list (items : List Expr)
  | member (e : Expr) (name : Text)
  | item (e key : Expr)
  | call (e : Expr) (arguments : List (Option Text × Expr))
  | filter (name : Text) (e : Expr) (arguments : List (Option Text × Expr))
  | test (name : Text) (e : Expr) (arguments : List (Option Text × Expr))
  | negate (e : Expr)
  | not (e : Expr)
  | binary (op : Operator) (a b : Expr)
  | both (a b : Expr)
  | either (a b : Expr)
  | choose (test yes no : Expr)
  deriving Repr

inductive Node where
  | text (t : Text)
  | output (e : Expr)
  | set (name : Text) (e : Expr)
  | capture (name : Text) (body : List Node)
  | choose (test : Expr) (yes no : List Node)
  | loop (name : Text) (items : Expr) (keep : Option Expr) (body otherwise : List Node)
  deriving Repr

end Template

/-- A template that is well formed. -/
structure Template where
  nodes : List Template.Node

end Pinout
