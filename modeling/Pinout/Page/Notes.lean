import Pinout.Json.Printer
import Pinout.Note.Segment
import Pinout.Page.Table

/-!
# Pinout.Page.Notes

The documentation comments of a module as a part of a page. The payload of a wave diagram goes into
a script element, from which the drawing script reads it.
-/

namespace Pinout
namespace Page

/-- Left padding in units of the font size: half a unit for each column but the first. -/
def padding (indent : Nat) : Nat := (indent - 1) / 2

def paddingStyle (indent : Nat) : Attributes :=
  if padding indent = 0 then []
  else [("style", "padding-left:".toList ++ Text.decimal (padding indent) ++ "rem".toList)]

/-- The space below a wave diagram, and the padding on its left. -/
def waveStyle (indent : Nat) : Attributes :=
  [("style", "padding: 0 0 50px".toList ++
    if padding indent = 0 then [] else ' ' :: Text.decimal (padding indent) ++ "rem".toList)]

/-- A wave payload as it stands in a script element. -/
def wavePayload (v : Json) : Text := Markup.guardScript v.compact

def segment (s : Note.Segment) : Markup :=
  match s.content with
  | .wave v =>
    Markup.block 0 "div" (waveStyle s.indent)
      (Markup.block 1 "script" [("type", "WaveDrom".toList)]
        (Markup.line 2 [.verbatim (wavePayload v)]))
  | .table t => Markup.block 0 "div" (paddingStyle s.indent) (noteTable t)
  | .header t =>
    Markup.line 0 (Markup.element "h3" (paddingStyle s.indent) [.text (Note.title t)])
  | .item t =>
    Markup.line 0 (Markup.element "li" (paddingStyle s.indent) [.text (Note.itemBody t)])
  | .plain t => Markup.line 0 (Markup.element "p" (paddingStyle s.indent) [.text t])

/-- The notes of a page, in the order of their segments. -/
def notes (d : Note.Document) : Markup := d.segments.flatMap segment

/-- The scripts that draw wave diagrams, only where there are any. -/
def waveScripts (sources : List Text) (d : Note.Document) : Markup :=
  if d.hasWave then
    sources.flatMap (fun src => Markup.line 0 (Markup.element "script" [("src", src)] [])) ++
      Markup.line 0 (Markup.element "script" [] [.verbatim "WaveDrom.ProcessAll();".toList])
  else []

end Page
end Pinout
