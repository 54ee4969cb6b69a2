import Pinout.Template.Grammar
import Pinout.Text.Case

/-!
# Pinout.Template.Render

The text that a template gives in a context. Variables live in frames: the context, and a frame for
each loop that is running, which keeps what its body sets from one round to the next.
-/

namespace Pinout
namespace Template

/-- Why a template that is well formed cannot be rendered. -/
inductive Fault where
  | undefinedValue
  | wrongOperands
  | outOfRange
  | notIterable
  | noLength
  | unknownFilter (name : Text)
  | unknownTest (name : Text)
  | unknownFunction
  | wrongArguments
  deriving DecidableEq, Repr

abbrev Result (α : Type) := Except Fault α

abbrev Frame := List (Text × Value)

/-- Frames from the innermost to the context. -/
abbrev Scope := List Frame

namespace Scope

def value (name : Text) : Scope → Value
  | [] => .undefined
  | frame :: scope => (Value.lookup? name frame).getD (value name scope)

end Scope

namespace Value

/-! ## Operators -/

def minInteger : Int := -(Nat.pow 2 127 : Int)

def maxInteger : Int := (Nat.pow 2 127 : Int) - 1

def inRange (i : Int) : Bool := minInteger ≤ i && i ≤ maxInteger

def checked (i : Int) : Result Value := if inRange i then .ok (int i) else .error .outOfRange

/-- Arithmetic on integers, unless one of the operands is no integer. -/
def arithmetic (onInts : Int → Int → Int)
    (onReals : Binary64.Extended → Binary64.Extended → Binary64.Extended) (a b : Value) :
    Result Value :=
  match a, b, a.toReal?, b.toReal? with
  | real _, _, some x, some y => .ok (real (onReals x y))
  | _, real _, some x, some y => .ok (real (onReals x y))
  | _, _, _, _ =>
    match a.toInt?, b.toInt? with
    | some i, some j =>
      if inRange i && inRange j then checked (onInts i j) else .error .wrongOperands
    | _, _ => .error .wrongOperands

/-- A count of repetitions. -/
def count (v : Value) : Result Nat :=
  match v.toInt? with
  | some i => if 0 ≤ i then .ok i.toNat else .error .wrongOperands
  | Option.none => .error .wrongOperands

def repeated {α : Type} (items : List α) (n : Nat) : List α := (List.replicate n items).flatten

def add : Value → Value → Result Value
  | string s, string t => .ok (string (s ++ t))
  | list as, list bs => .ok (list (as ++ bs))
  | a, b => arithmetic (· + ·) .add a b

def mul : Value → Value → Result Value
  | string t, n => (count n).map fun n => string (repeated t n)
  | n, string t => (count n).map fun n => string (repeated t n)
  | list vs, n => (count n).map fun n => list (repeated vs n)
  | n, list vs => (count n).map fun n => list (repeated vs n)
  | a, b => arithmetic (· * ·) .mul a b

/-- Division leaves the integers. -/
def div (a b : Value) : Result Value :=
  match a.toReal?, b.toReal? with
  | some x, some y => .ok (real (x.div y))
  | _, _ => .error .wrongOperands

def negate : Value → Result Value
  | int i => checked (-i)
  | real x => .ok (real x.neg)
  | _ => .error .wrongOperands

def operate : Operator → Value → Value → Result Value
  | .plus, a, b => add a b
  | .minus, a, b => arithmetic (· - ·) (fun x y => x.add y.neg) a b
  | .times, a, b => mul a b
  | .over, a, b => div a b
  | .join, a, b => .ok (string (a.toText ++ b.toText))
  | .equal, a, b => .ok (bool (a.same b))
  | .differ, a, b => .ok (bool !(a.same b))

/-- The entry or item of a value; only what is undefined has none that is undefined. -/
def part (v key : Value) : Result Value :=
  match v with
  | undefined => .error .undefinedValue
  | v => .ok ((item? key v).getD undefined)

def items (v : Value) : Result (List Value) :=
  match v.items? with
  | some vs => .ok vs
  | Option.none => .error .notIterable

/-! ## Filters and tests -/

/-- The names and positions that a path joined by points runs through. -/
def pathParts (t : Text) : List Value :=
  (Text.splitNewlines (t.map fun c => if c = '.' then '\n' else c)).map fun part =>
    if part ≠ [] ∧ part.all Char.isDigit then int (Text.ofDecimal part) else string part

def follow (path : List Value) (v : Value) : Result Value := path.foldlM part v

/-- The texts of the items; the separator follows once there is some text. -/
def join (separator : Text) (vs : List Value) : Text :=
  vs.foldl (fun t v => (if t = [] then [] else t ++ separator) ++ v.toText) []

/-- The value of a filter with the arguments passed by position and by name. -/
def filter (name : Text) (v : Value) (positional : List Value) (named : List (Text × Value)) :
    Result Value :=
  match String.ofList name, positional, named with
  | "upper", [], [] => .ok (string v.toText.upper)
  | "lower", [], [] => .ok (string v.toText.lower)
  | "length", [], [] =>
    match v.length? with
    | some n => .ok (int n)
    | Option.none => .error .noLength
  | "join", separators, [] =>
    if 1 < separators.length then .error .wrongArguments
    else do
      let separator := match separators with
        | [] => []
        | s :: _ => s.toText
      return string (join separator (← v.items))
  | "map", [], [(parameter, path)] =>
    if parameter ≠ "attribute".toList then .error .wrongArguments
    else do
      let path := match path with
        | string t => pathParts t
        | key => [key]
      return list (← (← v.items).mapM (follow path))
  | known, _, _ =>
    if known ∈ ["upper", "lower", "length", "join", "map"] then .error .wrongArguments
    else .error (.unknownFilter name)

def test (name : Text) (v : Value) (arguments : Nat) : Result Bool :=
  match String.ofList name, arguments, v with
  | "defined", 0, undefined => .ok false
  | "defined", 0, _ => .ok true
  | "undefined", 0, undefined => .ok true
  | "undefined", 0, _ => .ok false
  | "none", 0, none => .ok true
  | "none", 0, _ => .ok false
  | known, _, _ =>
    if known ∈ ["defined", "undefined", "none"] then .error .wrongArguments
    else .error (.unknownTest name)

end Value

/-! ## Expressions -/

namespace Expr

mutual

def eval (scope : Scope) : Expr → Result Value
  | literal v => .ok v
  | reference name => .ok (scope.value name)
  | list items => do return .list (← evalItems scope items)
  | member e name => do (← eval scope e).part (.string name)
  | item e key => do
    let v ← eval scope e
    v.part (← eval scope key)
  | call e arguments => do
    let _ ← eval scope e
    let _ ← evalArguments scope arguments
    .error .unknownFunction
  | filter name e arguments => do
    let v ← eval scope e
    let (positional, named) ← evalArguments scope arguments
    v.filter name positional named
  | test name e arguments => do
    let v ← eval scope e
    let (positional, named) ← evalArguments scope arguments
    return .bool (← v.test name (positional.length + named.length))
  | negate e => do (← eval scope e).negate
  | not e => do return .bool !(← eval scope e).isTrue
  | binary op a b => do
    let v ← eval scope a
    v.operate op (← eval scope b)
  | both a b => do
    let v ← eval scope a
    if v.isTrue then eval scope b else return v
  | either a b => do
    let v ← eval scope a
    if v.isTrue then return v else eval scope b
  | choose condition yes no => do
    let v ← eval scope condition
    if v.isTrue then eval scope yes else eval scope no

def evalItems (scope : Scope) : List Expr → Result (List Value)
  | [] => .ok []
  | e :: es => do
    let v ← eval scope e
    return v :: (← evalItems scope es)

/-- Arguments passed by position, and those passed by name. -/
def evalArguments (scope : Scope) :
    List (Option Text × Expr) → Result (List Value × List (Text × Value))
  | [] => .ok ([], [])
  | (name, e) :: rest => do
    let v ← eval scope e
    let (positional, named) ← evalArguments scope rest
    match name with
    | some name => return (positional, (name, v) :: named)
    | none => return (v :: positional, named)

end

end Expr

/-! ## Nodes -/

namespace Node

/-- What a loop body knows about its round, counted from zero, of `n` rounds. -/
def loopValue (i n : Nat) : Value :=
  .map [("first".toList, .bool (i == 0)), ("index".toList, .int (i + 1)), ("index0".toList, .int i),
    ("last".toList, .bool (i + 1 == n)), ("length".toList, .int n),
    ("revindex".toList, .int (n - i : Nat)), ("revindex0".toList, .int (n - i - 1 : Nat))]

/-- The items that a loop keeps. -/
def keepItems (scope : Scope) (name : Text) (keep : Option Expr) (vs : List Value) :
    Result (List Value) :=
  match keep with
  | none => .ok vs
  | some e => vs.filterM fun v => do return (← e.eval ([(name, v)] :: scope)).isTrue

mutual

/-- The text of a node, and the innermost frame behind it. -/
def run (frame : Frame) (outer : Scope) : Node → Result (Frame × Text)
  | text t => .ok (frame, t)
  | output e => do return (frame, (← e.eval (frame :: outer)).toText)
  | set name e => do return ((name, ← e.eval (frame :: outer)) :: frame, [])
  | capture name body => do
    let (frame, t) ← runAll frame outer body
    return ((name, .string t) :: frame, [])
  | choose condition yes no => do
    let v ← condition.eval (frame :: outer)
    if v.isTrue then runAll frame outer yes else runAll frame outer no
  | loop name items keep body otherwise => do
    let vs ← (← items.eval (frame :: outer)).items
    let vs ← keepItems (frame :: outer) name keep vs
    if vs = [] then runAll frame outer otherwise
    else do
      let round (state : Frame × Text) (item : Value × Nat) : Result (Frame × Text) := do
        let bound := (name, item.1) :: ("loop".toList, loopValue item.2 vs.length) :: state.1
        let (inside, t) ← runAll bound (frame :: outer) body
        return (inside, state.2 ++ t)
      let (_, t) ← vs.zipIdx.foldlM round ([], [])
      return (frame, t)

def runAll (frame : Frame) (outer : Scope) : List Node → Result (Frame × Text)
  | [] => .ok (frame, [])
  | n :: ns => do
    let (frame, s) ← run frame outer n
    let (frame, t) ← runAll frame outer ns
    return (frame, s ++ t)

end

end Node

/-- The text of a template in a context. -/
def render (template : Template) (context : Frame) : Result Text :=
  (Node.runAll [] [context] template.nodes).map (·.2)

end Template
end Pinout
