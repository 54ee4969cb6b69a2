import Pinout.Yaml.Token

/-!
# Pinout.Yaml.Event

The one document of a YAML text as events: scalars, aliases, and the start and end of collections,
in the order in which they stand. An event carries the anchor and the tag of its node.

A node may be missing where a key, a value or an entry is announced; it is an empty plain scalar
then.
-/

namespace Pinout
namespace Yaml

structure Properties where
  anchor : Option Text := none
  tag : Option Text := none
  deriving DecidableEq, Repr

inductive Event where
  | alias (name : Text)
  | scalar (properties : Properties) (plain : Bool) (text : Text)
  | sequence (properties : Properties)
  | sequenceEnd
  | mapping (properties : Properties)
  | mappingEnd
  deriving DecidableEq, Repr

namespace Event

/-- The prefixes that tag handles stand for. -/
abbrev Handles := List (Text × Text)

def defaultHandles : Handles :=
  [("!".toList, "!".toList), ("!!".toList, "tag:yaml.org,2002:".toList)]

/-- The tag that a handle and a suffix stand for. -/
def resolve? (handles : Handles) (handle suffix : Text) : Option Text :=
  if handle = [] then some suffix
  else (handles.lookup handle).map (· ++ suffix)

/-- The anchor and the tag of a node, in either order. -/
def properties? (handles : Handles) : List Token → Option (Properties × List Token)
  | .anchor a :: .tag h s :: ts | .tag h s :: .anchor a :: ts =>
    (resolve? handles h s).map fun tag => (⟨some a, some tag⟩, ts)
  | .anchor a :: ts => some (⟨some a, none⟩, ts)
  | .tag h s :: ts => (resolve? handles h s).map fun tag => (⟨none, some tag⟩, ts)
  | ts => some ({}, ts)

def missing : Event := .scalar {} true []

/-- A scalar: the tag `!` alone is as good as none. -/
def ofScalar (p : Properties) (plain : Bool) (text : Text) : Event :=
  if p.tag = some "!".toList then .scalar { p with tag := none } plain text
  else .scalar p plain text

def startsKey (ts : List Token) : Bool :=
  ts.head?.any fun t => t == .key || t == .value || t == .blockEnd

mutual

/-- The events of a node. `block` says that it may be a block collection, and `indentless` that it
may be a sequence no further right than the mapping around it. -/
def node? (handles : Handles) (block indentless : Bool) : Nat → List Token →
    Option (List Event × List Token)
  | 0, _ => none
  | _ + 1, .alias name :: ts => some ([.alias name], ts)
  | fuel + 1, ts => do
    let (p, ts) ← properties? handles ts
    match ts with
    | .entry :: _ =>
      if indentless then
        let (es, ts) ← indentlessEntries? handles fuel ts
        some (.sequence p :: es, ts)
      else if p = {} then none else some ([.scalar p true []], ts)
    | .scalar plain text :: ts => some ([ofScalar p plain text], ts)
    | .flowSequence :: ts =>
      let (es, ts) ← flowItems? handles true fuel ts
      some (.sequence p :: es, ts)
    | .flowMapping :: ts =>
      let (es, ts) ← flowMembers? handles true fuel ts
      some (.mapping p :: es, ts)
    | .blockSequence :: ts' =>
      if block then
        let (es, ts) ← blockEntries? handles fuel ts'
        some (.sequence p :: es, ts)
      else if p = {} then none else some ([.scalar p true []], ts)
    | .blockMapping :: ts' =>
      if block then
        let (es, ts) ← blockMembers? handles fuel ts'
        some (.mapping p :: es, ts)
      else if p = {} then none else some ([.scalar p true []], ts)
    | ts => if p = {} then none else some ([.scalar p true []], ts)

/-- The entries of a sequence that stands no further right than its key. -/
def indentlessEntries? (handles : Handles) : Nat → List Token → Option (List Event × List Token)
  | 0, _ => none
  | fuel + 1, .entry :: ts => do
    let (es, ts) ←
      if ts.head?.any (· == .entry) || startsKey ts then some ([missing], ts)
      else node? handles true false fuel ts
    let (rest, ts) ← indentlessEntries? handles fuel ts
    some (es ++ rest, ts)
  | _ + 1, ts => some ([.sequenceEnd], ts)

def blockEntries? (handles : Handles) : Nat → List Token → Option (List Event × List Token)
  | 0, _ => none
  | fuel + 1, .entry :: ts => do
    let (es, ts) ←
      if ts.head?.any (fun t => t == .entry || t == .blockEnd) then some ([missing], ts)
      else node? handles true false fuel ts
    let (rest, ts) ← blockEntries? handles fuel ts
    some (es ++ rest, ts)
  | _ + 1, .blockEnd :: ts => some ([.sequenceEnd], ts)
  | _ + 1, _ => none

def blockMembers? (handles : Handles) : Nat → List Token → Option (List Event × List Token)
  | 0, _ => none
  | fuel + 1, .key :: ts => do
    let (key, ts) ←
      if startsKey ts then some ([missing], ts) else node? handles true true fuel ts
    let (value, ts) ←
      match ts with
      | .value :: ts =>
        if startsKey ts then some ([missing], ts) else node? handles true true fuel ts
      | ts => some ([missing], ts)
    let (rest, ts) ← blockMembers? handles fuel ts
    some (key ++ value ++ rest, ts)
  | _ + 1, .blockEnd :: ts => some ([.mappingEnd], ts)
  | _ + 1, _ => none

/-- The items of a flow sequence; `first` says that no comma is due. An item with a key is a mapping
of one member. -/
def flowItems? (handles : Handles) (first : Bool) : Nat → List Token →
    Option (List Event × List Token)
  | 0, _ => none
  | _ + 1, .flowSequenceEnd :: ts => some ([.sequenceEnd], ts)
  | fuel + 1, ts => do
    let ts ← if first then some ts else match ts with
      | .comma :: ts => some ts
      | _ => none
    match ts with
    | .flowSequenceEnd :: ts => some ([.sequenceEnd], ts)
    | .key :: ts =>
      let (key, ts) ←
        match ts with
        | .value :: ts | .comma :: ts | .flowSequenceEnd :: ts => some ([missing], ts)
        | ts => node? handles false false fuel ts
      let (value, ts) ← flowValue? handles .flowSequenceEnd fuel ts
      let (rest, ts) ← flowItems? handles false fuel ts
      some (.mapping {} :: key ++ value ++ .mappingEnd :: rest, ts)
    | ts =>
      let (es, ts) ← node? handles false false fuel ts
      let (rest, ts) ← flowItems? handles false fuel ts
      some (es ++ rest, ts)

/-- The value behind a key inside a flow collection closed by `close`. -/
def flowValue? (handles : Handles) (close : Token) : Nat → List Token →
    Option (List Event × List Token)
  | 0, _ => none
  | fuel + 1, .value :: ts =>
    if ts.head?.any (fun t => t == .comma || t == close) then some ([missing], ts)
    else node? handles false false fuel ts
  | _ + 1, ts => some ([missing], ts)

def flowMembers? (handles : Handles) (first : Bool) : Nat → List Token →
    Option (List Event × List Token)
  | 0, _ => none
  | _ + 1, .flowMappingEnd :: ts => some ([.mappingEnd], ts)
  | fuel + 1, ts => do
    let ts ← if first then some ts else match ts with
      | .comma :: ts => some ts
      | _ => none
    match ts with
    | .flowMappingEnd :: ts => some ([.mappingEnd], ts)
    | .key :: ts =>
      let (key, ts) ←
        if ts.head?.any (fun t => t == .value || t == .comma || t == .flowMappingEnd) then
          some ([missing], ts)
        else node? handles false false fuel ts
      let (value, ts) ← flowValue? handles .flowMappingEnd fuel ts
      let (rest, ts) ← flowMembers? handles false fuel ts
      some (key ++ value ++ rest, ts)
    | ts =>
      let (es, ts) ← node? handles false false fuel ts
      let (rest, ts) ← flowMembers? handles false fuel ts
      some (es ++ missing :: rest, ts)

end

/-- The directives before a document. The version is 1.1 or 1.2 and stands once, as does each
handle. -/
def directives? (versioned : Bool) (handles : Handles) : List Token →
    Option (Handles × List Token)
  | .version major minor :: ts =>
    if versioned ∨ Text.ofDecimal major ≠ 1 ∨
        (Text.ofDecimal minor ≠ 1 ∧ Text.ofDecimal minor ≠ 2) then none
    else directives? true handles ts
  | .tagPrefix handle uri :: ts =>
    if (handles.lookup handle).isSome then none
    else directives? versioned ((handle, uri) :: handles) ts
  | ts => some (handles, ts)

def isContentEnd (ts : List Token) : Bool :=
  match ts with
  | [] | .version _ _ :: _ | .tagPrefix _ _ :: _ | .documentStart :: _ | .documentEnd :: _ => true
  | _ => false

/-- The events of the only document. An empty text is an empty document, and directives need a line
that starts the document. -/
def ofTokens? (ts : List Token) : Option (List Event) :=
  if ts = [] then some [missing]
  else do
    let (handles, content) ← directives? false [] ts
    let handles := handles ++ defaultHandles
    let fuel := 3 * ts.length + 3
    let (es, rest) ←
      match content with
      | .documentStart :: content =>
        if isContentEnd content then some ([missing], content)
        else node? handles true false fuel content
      | content =>
        if content.length < ts.length then none else node? handles true false fuel content
    if rest.all (· == .documentEnd) then some es else none

end Event
end Yaml
end Pinout
