import Pinout.Snippet.Harness
import Pinout.Template.Interface

/-!
# Pinout.Snippet.Testbench

Testbenches. A template gets the name of the module, the unit under test, and the lists of
parameters and ports.
-/

namespace Pinout
namespace Snippet

open Template (Node binding)

/-- The template that is used when none is given. -/
def defaultTestbench : Template :=
  ⟨[Node.ofLines ["`timescale 1ns / 1ps", ""],
    Node.ofString "module tb_", Node.ofVariable "module_name", Node.ofLines [";", ""],
    Node.ofVariable "uut", Node.ofLines ["", "", "    initial begin"],
    Node.ofString "        $dumpfile(\"tb_", Node.ofVariable "module_name",
    Node.ofLines [".vcd\");"],
    Node.ofString "        $dumpvars(0, tb_", Node.ofVariable "module_name",
    Node.ofLines [");", "    end", "", "endmodule"]]⟩

def testbenchContext (s : Signature) : Template.Frame :=
  binding "module_name" (.string s.name) :: binding "uut" (.string (unitUnderTest s)) ::
    Template.interface s

/-- The testbench of a module. It is empty without a module or without ports. -/
def testbench (template : Template) (s : Signature) : Template.Result Text :=
  if s.name = [] ∨ s.ports = [] then .ok [] else template.render (testbenchContext s)

end Snippet
end Pinout
