import Pinout.Command.Arguments
import Pinout.Config.Basic
import Pinout.Extraction.Basic
import Pinout.File.Job
import Pinout.Page.Document
import Pinout.Snippet.Instance
import Pinout.Snippet.Testbench

/-!
# Pinout.Command.Generate

The generators with the files that they need: the settings, the templates, and the sources.
-/

namespace Pinout

open File (Job Path)

/-- Why a job fails. What the readers of settings and templates have to say about the mistake is left
out. -/
inductive Fault where
  | file (path : Path) (f : File.Fault)
  | config (path : Path)
  | template
  deriving DecidableEq, Repr

def Fault.message : Fault → Text
  | file path f => "I/O error on ".toList ++ path ++ ": ".toList ++ f.message
  | config path => "Invalid configuration in ".toList ++ path
  | template => "Template error".toList

/-- A job that may fail. -/
abbrev Attempt (α : Type) := ExceptT Fault Job α

namespace Attempt

def ofResult {α : Type} (path : Path) : Except File.Fault α → Except Fault α
  | .ok a => .ok a
  | .error f => .error (.file path f)

def read (path : Path) : Attempt Text := Job.read path fun answer => .done (ofResult path answer)

def isFile (path : Path) : Attempt Bool := Job.isFile path fun answer => .done (.ok answer)

def write (path : Path) (t : Text) : Attempt Unit :=
  Job.write path t fun answer => .done (ofResult path answer)

def fail {α : Type} (f : Fault) : Attempt α := Job.done (.error f)

/-- The value, or a failure where there is none. -/
def get {α : Type} (f : Fault) : Option α → Attempt α
  | some a => Job.done (.ok a)
  | none => fail f

/-- The text of a template, unless it cannot be rendered. -/
def rendered : Template.Result Text → Attempt Text
  | .ok t => Job.done (.ok t)
  | .error _ => fail .template

end Attempt

namespace Config

def fileName : Text := "hdldoc.toml".toList

/-- The settings in a file. -/
def load (path : Path) : Attempt Config := do
  Attempt.get (.config path) (Config.read? (← Attempt.read path))

/-- The settings in the file of a directory that is meant for them, if there is one. -/
def discover (directory : Path) : Attempt Config := do
  let path := Path.join directory fileName
  if ← Attempt.isFile path then load path else return defaults

/-- The settings in the file that is named, or those of the working directory. -/
def resolve : Option Path → Attempt Config
  | some path => load path
  | none => discover ['.']

end Config

namespace Template

/-- The template in a file. -/
def load (path : Path) : Attempt Template := do
  Attempt.get .template (ofText? (← Attempt.read path))

/-- The template in the file that is named, or `builtIn`. -/
def resolve (builtIn : Template) : Option Path → Attempt Template
  | some path => load path
  | none => return builtIn

end Template

namespace Command

/-- The text that an action gives, with settings and perhaps a template of its own. -/
def textOf (action : Action) (template : Option Path) (c : Config) (e : Extraction) :
    Attempt Text :=
  match action with
  | .instantiation => return Snippet.instantiation c.instancePrefix e.signature
  | .testbench => do
    let t ← Template.resolve Snippet.defaultTestbench (template <|> c.testbenchTemplate)
    Attempt.rendered (Snippet.testbench t e.signature)
  | .dump => return e.toJson.pretty
  | .preview | .exportPage => do
    let t ← Template.resolve Page.defaultPage (template <|> c.pageTemplate)
    if e.signature.isAbsent then return []
    else Attempt.rendered (Page.page t c.waveScripts e.signature e.document)

/-- A text and the warnings met on the way. -/
structure Product where
  text : Text
  warnings : List Text

def nothingToGenerate (file : Path) : Text := "nothing to generate for ".toList ++ file

/-- What an action makes of a source file. -/
def generate (action : Action) (file : Path) (template : Option Path) (c : Config) :
    Attempt Product := do
  let e := Extraction.ofSource (← Attempt.read file)
  let t ← textOf action template c e
  let warnings := e.warnings.map (·.message)
  return ⟨t, if t = [] then warnings ++ [nothingToGenerate file] else warnings⟩

end Command
end Pinout
