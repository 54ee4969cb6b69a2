import Pinout.Template.Node
import Pinout.Template.Token

/-!
# Pinout.Template.Expression

The expressions that a list of tokens spells. From loose to tight bind: `a if b else c`, `or`,
`and`, `not`, `==` and `!=`, `+` and `-`, `~`, `*` and `/`, the minus sign; member access, items and
calls; filters and tests.
-/

namespace Pinout
namespace Template

/-- Reads something off the head of a list of tokens. -/
abbrev Reader (α : Type) := List Token → Option (α × List Token)

abbrev Arguments := List (Option Text × Expr)

def isMark (t : String) (token : Token) : Bool := token == .mark t.toList

def isName (t : String) (token : Token) : Bool := token == .name t.toList

/-- The tokens behind a mark. -/
def dropMark? (t : String) : List Token → Option (List Token)
  | token :: ts => if isMark t token then some ts else none
  | [] => none

def dropName? (t : String) : List Token → Option (List Token)
  | token :: ts => if isName t token then some ts else none
  | [] => none

namespace Expr

/-- Expressions separated by commas up to a closing mark; a comma may stand behind the last one. -/
def items (inner : Reader Expr) (close : String) : Nat → Reader (List Expr)
  | 0, _ => none
  | limit + 1, ts =>
    match dropMark? close ts with
    | some ts => some ([], ts)
    | none => do
      let (e, ts) ← inner ts
      match dropMark? "," ts with
      | some ts => (items inner close limit ts).map fun (es, ts) => (e :: es, ts)
      | none => (dropMark? close ts).map fun ts => ([e], ts)

/-- An expression or a list behind an opening parenthesis. -/
def parenthesized (inner : Reader Expr) (ts : List Token) : Option (Expr × List Token) :=
  match dropMark? ")" ts with
  | some ts => some (list [], ts)
  | none => do
    let (e, ts) ← inner ts
    match dropMark? "," ts with
    | some ts => (items inner ")" (ts.length + 1) ts).map fun (es, ts) => (list (e :: es), ts)
    | none => (dropMark? ")" ts).map fun ts => (e, ts)

def ofName (t : Text) : Expr :=
  match String.ofList t with
  | "true" | "True" => literal (.bool true)
  | "false" | "False" => literal (.bool false)
  | "none" | "None" => literal .none
  | _ => reference t

def primary (inner : Reader Expr) : Reader Expr
  | .name t :: ts => some (ofName t, ts)
  | .string t :: ts => some (literal (.string t), ts)
  | .int n :: ts => some (literal (.int n), ts)
  | .real x :: ts => some (literal (.real x), ts)
  | token :: ts =>
    if isMark "(" token then parenthesized inner ts
    else if isMark "[" token then
      (items inner "]" (ts.length + 1) ts).map fun (es, ts) => (list es, ts)
    else none
  | [] => none

/-- A minus sign takes the name, literal or group behind it. -/
def signed (inner : Reader Expr) : Reader Expr
  | [] => none
  | token :: ts =>
    if isMark "-" token then (signed inner ts).map fun (e, ts) => (negate e, ts)
    else primary inner (token :: ts)

/-- The argument at the head of a list: by name, or by position unless one by name came before. -/
def argument (inner : Reader Expr) (named : Bool) (ts : List Token) :
    Option ((Option Text × Expr) × List Token) :=
  match ts with
  | .name t :: .mark ['='] :: ts => (inner ts).map fun (e, ts) => ((some t, e), ts)
  | ts => if named then none else (inner ts).map fun (e, ts) => ((none, e), ts)

/-- Arguments up to a closing parenthesis. -/
def arguments (inner : Reader Expr) : Nat → Bool → Reader Arguments
  | 0, _, _ => none
  | limit + 1, named, ts =>
    match dropMark? ")" ts with
    | some ts => some ([], ts)
    | none => do
      let (a, ts) ← argument inner named ts
      match dropMark? "," ts with
      | some ts =>
        (arguments inner limit (named || a.1.isSome) ts).map fun (as, ts) => (a :: as, ts)
      | none => (dropMark? ")" ts).map fun ts => ([a], ts)

/-- Arguments in parentheses, or none at all. -/
def someArguments (inner : Reader Expr) (ts : List Token) : Option (Arguments × List Token) :=
  match dropMark? "(" ts with
  | some ts => arguments inner (ts.length + 1) false ts
  | none => some ([], ts)

/-- Member accesses, items and calls behind an expression. -/
def accesses (inner : Reader Expr) : Nat → Expr → Reader Expr
  | 0, _, _ => none
  | limit + 1, e, ts =>
    match ts with
    | .mark ['.'] :: .name t :: ts => accesses inner limit (member e t) ts
    | .mark ['.'] :: _ => none
    | .mark ['['] :: ts => do
      let (key, ts) ← inner ts
      let ts ← dropMark? "]" ts
      accesses inner limit (item e key) ts
    | .mark ['('] :: ts => do
      let (as, ts) ← arguments inner (ts.length + 1) false ts
      accesses inner limit (call e as) ts
    | ts => some (e, ts)

/-- Whether a token can start an argument of a test that stands without parentheses. -/
def startsArgument : Token → Bool
  | .name t => !(["and", "or", "else", "is"].map String.toList).contains t
  | .mark t => t == ['-'] || t == ['['] || t == ['{']
  | _ => true

def testArguments (inner : Reader Expr) (ts : List Token) : Option (Arguments × List Token) :=
  if ts.head?.any startsArgument then do
    let (e, ts) ← signed inner ts
    let (e, ts) ← accesses inner (ts.length + 1) e ts
    return ([(none, e)], ts)
  else someArguments inner ts

/-- Filters and tests behind an expression. -/
def filters (inner : Reader Expr) : Nat → Expr → Reader Expr
  | 0, _, _ => none
  | limit + 1, e, ts =>
    match ts with
    | .mark ['|'] :: .name t :: ts => do
      let (as, ts) ← someArguments inner ts
      filters inner limit (filter t e as) ts
    | .mark ['|'] :: _ => none
    | .name ['i', 's'] :: .name ['n', 'o', 't'] :: .name t :: ts => do
      let (as, ts) ← testArguments inner ts
      filters inner limit (not (test t e as)) ts
    | .name ['i', 's'] :: .name t :: ts => do
      let (as, ts) ← testArguments inner ts
      filters inner limit (test t e as) ts
    | .name ['i', 's'] :: _ => none
    | ts => some (e, ts)

def operand (inner : Reader Expr) (ts : List Token) : Option (Expr × List Token) := do
  let (e, ts) ← signed inner ts
  let (e, ts) ← accesses inner (ts.length + 1) e ts
  filters inner (ts.length + 1) e ts

/-- Further operands behind the operators that `combine?` knows, from left to right. -/
def chain (next : Reader Expr) (combine? : Token → Option (Expr → Expr → Expr)) :
    Nat → Expr → Reader Expr
  | 0, _, _ => none
  | _ + 1, e, [] => some (e, [])
  | limit + 1, e, token :: ts =>
    match combine? token with
    | some combine => do
      let (f, ts) ← next ts
      chain next combine? limit (combine e f) ts
    | none => some (e, token :: ts)

def chained (next : Reader Expr) (combine? : Token → Option (Expr → Expr → Expr))
    (ts : List Token) : Option (Expr × List Token) := do
  let (e, ts) ← next ts
  chain next combine? (ts.length + 1) e ts

def combineProduct? (token : Token) : Option (Expr → Expr → Expr) :=
  if isMark "*" token then some (binary .times)
  else if isMark "/" token then some (binary .over)
  else none

def combineText? (token : Token) : Option (Expr → Expr → Expr) :=
  if isMark "~" token then some (binary .join) else none

def combineSum? (token : Token) : Option (Expr → Expr → Expr) :=
  if isMark "+" token then some (binary .plus)
  else if isMark "-" token then some (binary .minus)
  else none

def combineEqual? (token : Token) : Option (Expr → Expr → Expr) :=
  if isMark "==" token then some (binary .equal)
  else if isMark "!=" token then some (binary .differ)
  else none

def combineBoth? (token : Token) : Option (Expr → Expr → Expr) :=
  if isName "and" token then some both else none

def combineEither? (token : Token) : Option (Expr → Expr → Expr) :=
  if isName "or" token then some either else none

def comparison (inner : Reader Expr) : Reader Expr :=
  chained (chained (chained (chained (operand inner) combineProduct?) combineText?) combineSum?)
    combineEqual?

def negation (inner : Reader Expr) : Reader Expr
  | [] => none
  | token :: ts =>
    if isName "not" token then (negation inner ts).map fun (e, ts) => (not e, ts)
    else comparison inner (token :: ts)

/-- An expression that is no choice at its outermost. -/
def disjunction (inner : Reader Expr) : Reader Expr :=
  chained (chained (negation inner) combineBoth?) combineEither?

/-- Choices behind an expression; without `else` the other case is undefined. -/
def choices (inner : Reader Expr) : Nat → Expr → Reader Expr
  | 0, _, _ => none
  | limit + 1, yes, ts =>
    match dropName? "if" ts with
    | none => some (yes, ts)
    | some ts => do
      let (condition, ts) ← disjunction inner ts
      match dropName? "else" ts with
      | none => choices inner limit (choose condition yes (literal .undefined)) ts
      | some ts => do
        let (no, ts) ← inner ts
        choices inner limit (choose condition yes no) ts

/-- An expression in which at most `limit` groups and choices are open. -/
def readTo : Nat → Reader Expr
  | 0, _ => none
  | limit + 1, ts => do
    let (e, ts) ← disjunction (readTo limit) ts
    choices (readTo limit) (ts.length + 1) e ts

/-- The expression at the head of a list of tokens. -/
def read (ts : List Token) : Option (Expr × List Token) := readTo (ts.length + 1) ts

/-- The expression at the head, as far as it is no choice. -/
def readSimple (ts : List Token) : Option (Expr × List Token) :=
  disjunction (readTo (ts.length + 1)) ts

/-- The expression that a whole list of tokens spells. -/
def ofTokens? (ts : List Token) : Option Expr := do
  let (e, rest) ← read ts
  if rest = [] then some e else none

end Expr
end Template
end Pinout
