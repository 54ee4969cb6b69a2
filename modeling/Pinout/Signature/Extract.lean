import Pinout.Signature.Declaration
import Pinout.Source.View

/-!
# Pinout.Signature.Extract

The signature of the first module of a source. The description of a parameter or port is the
comment at the end of the first line on which its keyword and behind that its name stand.
-/

namespace Pinout
namespace Signature

/-- The code and the comment of a line that ends in a comment. -/
def splitComment? (line : Text) : Option (Text × Text) :=
  (splitUnquoted? (fun t => (Text.dropLead? "//".toList t).isSome) false line).map
    fun (code, comment) => (code, comment.drop 2)

/-- The text behind the keyword that ends first. -/
def afterFirstKeyword? (keywords : List Text) (code : Text) : Option Text :=
  let ends := keywords.filterMap fun k => (Text.findWord? k code).map (· + k.length)
  ends.min?.map code.drop

/-- The comment of a line on which one of the keywords and behind it the name stand. -/
def describedBy? (keywords : List Text) (name line : Text) : Option Text := do
  let (code, comment) ← splitComment? line
  let rest ← afterFirstKeyword? keywords code
  if (Text.findWord? name rest).isSome then some (Text.trim comment) else none

def description? (described : Text) (keywords : List Text) (name : Text) : Option Text :=
  (Text.lines described).findSome? (describedBy? keywords name)

def describeParameter (described : Text) (p : Parameter) : Parameter :=
  { p with description := (description? described parameterKeywords p.name).getD p.description }

def describePort (described : Text) (p : Port) : Port :=
  { p with description := (description? described [p.direction.keyword] p.name).getD p.description }

/-- The signature that the views of a source hold. -/
def ofViews (v : Source.Views) : Signature :=
  match header? v.stripped with
  | none => absent
  | some header =>
    let (parameterList, rest) := splitParameterList header.body
    let parameters := (parameterList.map parametersOf).getD []
    let ports := ((portList? rest).map portsOf).getD []
    ⟨header.name, parameters.map (describeParameter v.described),
      ports.map (describePort v.described)⟩

/-- The signature of the first module of a source. -/
def ofSource (source : Text) : Signature := ofViews (Source.views source)

end Signature
end Pinout
