import Pinout.Config.Toml

/-!
# Pinout.Config.Basic

Settings and how they are read. A setting that is not given has its default; a name that is not the
name of a setting is an error, and so is a value of the wrong kind.
-/

namespace Pinout

structure Config where
  testbenchTemplate : Option Text
  pageTemplate : Option Text
  instancePrefix : Text
  waveScripts : List Text
  deriving DecidableEq, Repr

namespace Config

def defaults : Config where
  testbenchTemplate := none
  pageTemplate := none
  instancePrefix := "u_".toList
  waveScripts :=
    ["https://cdnjs.cloudflare.com/ajax/libs/wavedrom/3.1.0/skins/default.js".toList,
      "https://cdnjs.cloudflare.com/ajax/libs/wavedrom/3.1.0/wavedrom.min.js".toList]

/-- The settings with one of them given. -/
def set? (c : Config) (entry : Text × Toml.Value) : Option Config :=
  match String.ofList entry.1, entry.2 with
  | "testbench_template", .string t => some { c with testbenchTemplate := some t }
  | "html_template", .string t => some { c with pageTemplate := some t }
  | "instance_prefix", .string t => some { c with instancePrefix := t }
  | "wavedrom_scripts", .strings ts => some { c with waveScripts := ts }
  | _, _ => none

/-- The settings that a text gives. -/
def read? (t : Text) : Option Config := do (← Toml.read? t).foldlM set? defaults

end Config
end Pinout
