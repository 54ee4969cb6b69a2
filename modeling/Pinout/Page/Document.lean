import Pinout.Diagram.Drawing
import Pinout.Page.Notes
import Pinout.Template.Interface

/-!
# Pinout.Page.Document

Documentation pages. A template gets the parts of the page as markup, and the lists from which they
were made.
-/

namespace Pinout
namespace Page

open Template (Node binding)

/-- A section that is left out unless the variable `condition` is true. -/
def optional (condition : String) (before : List String) (content : String) : List Node :=
  [.choose (.reference condition.toList)
      [Node.ofLines ("" :: before), Node.ofVariable content, Node.ofLines [""]] [],
    Node.ofLines [""]]

/-- The template that is used when none is given. -/
def defaultPage : Template :=
  ⟨[Node.ofLines
      ["<!DOCTYPE html>",
        "<html lang=\"en\">",
        "<head>",
        "  <meta charset=\"UTF-8\">",
        "  <meta name=\"viewport\" content=\"width=device-width, initial-scale=1.0\">"],
    Node.ofString "  <title>", Node.ofVariable "module_name",
    Node.ofLines
      ["</title>",
        "  <style>",
        "    body \x7b font-family: -apple-system, 'Segoe UI', Roboto, sans-serif; margin: 2rem; line-height: 1.6; \x7d",
        "    table \x7b border-collapse: collapse; margin: 0.5rem 0 1rem; \x7d",
        "    th, td \x7b border: 1px solid #999; padding: 0.2rem 0.6rem; \x7d",
        "    th \x7b background-color: #eee; \x7d",
        "    .diagram svg \x7b max-width: 100%; \x7d",
        "  </style>",
        "</head>",
        "<body>"],
    Node.ofString "  <h1>", Node.ofVariable "module_name",
    Node.ofLines ["</h1>", "  <h2>Block Diagram</h2>", "  <div class=\"diagram\">"],
    Node.ofVariable "module_diagram", Node.ofLines ["", "  </div>"]] ++
    optional "hasParameters" ["  <h2>Parameters</h2>"] "parameters_html" ++
    optional "hasPorts" ["  <h2>Ports</h2>"] "ports_html" ++
    [Node.ofLines ["  <h2>Notes</h2>"], Node.ofVariable "notes_html", Node.ofLines [""]] ++
    optional "hasWavedrom" [] "wavedrom_html" ++
    [Node.ofLines ["</body>", "</html>"]]⟩

def markupValue (m : Markup) : Template.Value := .string m.render

/-- The variables of a page, where `sources` are the scripts that draw wave diagrams. -/
def context (sources : List Text) (s : Signature) (d : Note.Document) : Template.Frame :=
  [binding "module_name" (.string (Markup.escape s.name)),
    binding "module_diagram" (markupValue (Diagram.ofSignature s)),
    binding "parameters_html" (markupValue (parameterTable s.parameters)),
    binding "ports_html" (markupValue (portTable s.ports)),
    binding "notes_html" (markupValue (notes d)),
    binding "hasWavedrom" (.bool d.hasWave),
    binding "wavedrom_scripts" (.list (sources.map .string)),
    binding "wavedrom_html" (markupValue (waveScripts sources d))] ++
    Template.interface s

/-- The documentation page of a module. -/
def page (template : Template) (sources : List Text) (s : Signature) (d : Note.Document) :
    Template.Result Text :=
  template.render (context sources s d)

end Page
end Pinout
