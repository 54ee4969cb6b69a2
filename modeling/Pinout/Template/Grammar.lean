import Pinout.Template.Expression

/-!
# Pinout.Template.Grammar

The nodes that the parts of a template spell. A statement tag that opens a block needs the tag that
closes it.
-/

namespace Pinout
namespace Template
namespace Node

/-- Names that no statement may bind. -/
def reserved : List Text :=
  ["true", "True", "false", "False", "none", "None", "loop", "self"].map String.toList

/-- The tags that end a block or start its next section. -/
def isSectionEnd : Token → Bool
  | .name t => (["else", "elif", "endif", "endfor", "endset"].map String.toList).contains t
  | _ => false

def isTag (name : String) (ts : List Token) : Bool := ts == [.name name.toList]

/-- The parts behind a tag that consists of `name` alone. -/
def dropTag? (name : String) : List Part → Option (List Part)
  | .tag ts :: parts => if isTag name ts then some parts else none
  | _ => none

/-- What a loop tag binds, runs through and keeps. -/
structure LoopHead where
  name : Text
  items : Expr
  keep : Option Expr

def loopHead? : List Token → Option LoopHead
  | .name name :: .name ['i', 'n'] :: ts => do
    if reserved.contains name then none
    let (items, ts) ← Expr.readSimple ts
    match dropName? "if" ts with
    | some ts => return ⟨name, items, some (← Expr.ofTokens? ts)⟩
    | none => if ts = [] then some ⟨name, items, none⟩ else none
  | _ => none

abbrev PartReader := List Part → Option (List Node × List Part)

/-- The rest of a conditional behind its first section. -/
def alternative? (body : PartReader) : Nat → PartReader
  | 0, _ => none
  | limit + 1, parts =>
    match parts with
    | .tag (.name ['e', 'l', 'i', 'f'] :: ts) :: parts => do
      let test ← Expr.ofTokens? ts
      let (yes, parts) ← body parts
      let (no, parts) ← alternative? body limit parts
      return ([choose test yes no], parts)
    | parts =>
      match dropTag? "endif" parts with
      | some parts => some ([], parts)
      | none => do
        let (no, parts) ← body (← dropTag? "else" parts)
        return (no, ← dropTag? "endif" parts)

/-- The section of a loop that runs when there is nothing to run through. -/
def otherwise? (body : PartReader) (parts : List Part) : Option (List Node × List Part) :=
  match dropTag? "endfor" parts with
  | some parts => some ([], parts)
  | none => do
    let (otherwise, parts) ← body (← dropTag? "else" parts)
    return (otherwise, ← dropTag? "endfor" parts)

/-- The node that starts with a statement tag. -/
def statement? (body : PartReader) (ts : List Token) (parts : List Part) :
    Option (Node × List Part) :=
  match ts with
  | .name ['i', 'f'] :: ts => do
    let test ← Expr.ofTokens? ts
    let (yes, parts) ← body parts
    let (no, parts) ← alternative? body (parts.length + 1) parts
    return (choose test yes no, parts)
  | .name ['f', 'o', 'r'] :: ts => do
    let head ← loopHead? ts
    let (inside, parts) ← body parts
    let (otherwise, parts) ← otherwise? body parts
    return (loop head.name head.items head.keep inside otherwise, parts)
  | [.name ['s', 'e', 't'], .name name] => do
    if reserved.contains name then none
    let (inside, parts) ← body parts
    return (capture name inside, ← dropTag? "endset" parts)
  | .name ['s', 'e', 't'] :: .name name :: .mark ['='] :: ts => do
    if reserved.contains name then none
    return (set name (← Expr.ofTokens? ts), parts)
  | _ => none

/-- The nodes up to a tag that ends a section, or up to the end. At most `limit` parts are read. -/
def section? : Nat → PartReader
  | 0, _ => none
  | _ + 1, [] => some ([], [])
  | limit + 1, .text t :: parts => (section? limit parts).map fun (ns, rest) => (text t :: ns, rest)
  | limit + 1, .output ts :: parts => do
    let e ← Expr.ofTokens? ts
    (section? limit parts).map fun (ns, rest) => (output e :: ns, rest)
  | limit + 1, .tag ts :: parts =>
    if ts.head?.any isSectionEnd then some ([], .tag ts :: parts)
    else do
      let (n, parts) ← statement? (section? limit) ts parts
      (section? limit parts).map fun (ns, rest) => (n :: ns, rest)

end Node

/-- The template that a text spells; `none` if it is not well formed. -/
def ofText? (t : Text) : Option Template := do
  let parts ← Part.ofText? t
  let (nodes, rest) ← Node.section? (parts.length + 1) parts
  if rest = [] then some ⟨nodes⟩ else none

end Template
end Pinout
