import Mathlib.Data.List.Basic
import Pinout.Diagram.Drawing
import Pinout.Snippet.Instance
import Pinout.Snippet.Testbench

/-!
# Pinout.Proofs.Snippet.Empty

The signatures for which nothing is generated. A diagram asks for ports only, and a snippet asks for
a module as well. The default testbench consists of texts and of variables; such a template always
gives a text (`runAll_of_plain`), so the default testbench fails for no signature and is empty for
the same ones as the instantiation (`exists_testbench`).
-/

namespace Pinout

namespace Template
namespace Node

/-- What a node writes that is a text or writes a variable. -/
def written? (scope : Scope) : Node → Option Text
  | text t => some t
  | output (.reference name) => some (scope.value name).toText
  | _ => none

theorem run_of_written? {frame : Frame} {outer : Scope} {n : Node} {t : Text}
    (h : n.written? (frame :: outer) = some t) : n.run frame outer = .ok (frame, t) := by
  unfold written? at h
  split at h
  · cases h
    rw [run]
  · cases h
    rw [run, Expr.eval]
    rfl
  · cases h

/-- Nodes of these kinds leave the variables as they are, so each writes what it would alone. -/
theorem runAll_of_plain {frame : Frame} {outer : Scope} {ns : List Node} {ts : List Text}
    (h : ns.mapM (written? (frame :: outer)) = some ts) :
    runAll frame outer ns = .ok (frame, ts.flatten) := by
  induction ns generalizing ts with
  | nil =>
    cases h
    rw [runAll]
    rfl
  | cons n ns ih =>
    rw [List.mapM_cons] at h
    simp only [Option.bind_eq_bind, Option.bind_eq_some_iff, Option.pure_def] at h
    obtain ⟨t, ht, us, hus, he⟩ := h
    cases he
    rw [runAll, run_of_written? ht]
    simp only [bind, Except.bind, ih hus]
    rfl

end Node
end Template

namespace Snippet

open Template (Node)

theorem instantiation_eq_nil_iff {instancePrefix : Text} {s : Signature} :
    instantiation instancePrefix s = [] ↔ s.name = [] ∨ s.ports = [] := by
  unfold instantiation
  split
  · next h => exact ⟨fun _ => h, fun _ => rfl⟩
  · next h =>
    refine ⟨fun he => ?_, fun hn => absurd hn h⟩
    have hend : "    );\n".toList = [] := (List.append_eq_nil_iff.1 he).2
    exact absurd hend (by decide)

/-- The default testbench writes a text whatever its variables hold, and starts with a directive. -/
theorem written_defaultTestbench (scope : Template.Scope) :
    ∃ t ts, defaultTestbench.nodes.mapM (Node.written? scope) = some (t :: ts) ∧ t ≠ [] :=
  ⟨_, _, rfl, List.cons_ne_nil _ _⟩

theorem exists_testbench (s : Signature) :
    ∃ t, testbench defaultTestbench s = .ok t ∧ (t = [] ↔ s.name = [] ∨ s.ports = []) := by
  unfold testbench
  split
  · next h => exact ⟨[], rfl, fun _ => h, fun _ => rfl⟩
  · next h =>
    obtain ⟨t, ts, hts, hne⟩ := written_defaultTestbench [[], testbenchContext s]
    refine ⟨(t :: ts).flatten, ?_, fun he => ?_, fun hn => absurd hn h⟩
    · rw [Template.render, Node.runAll_of_plain hts]
      rfl
    · rw [List.flatten_cons, List.append_eq_nil_iff] at he
      exact absurd he.1 hne

end Snippet

theorem Markup.render_block_ne_nil (depth : Nat) (name : String) (attributes : Attributes)
    (body : Markup) : (block depth name attributes body).render ≠ [] := by
  intro h
  have hm : Item.opening name attributes ∈ block depth name attributes body := by
    simp [block, line]
  exact absurd (List.flatMap_eq_nil_iff.1 h _ hm) (List.cons_ne_nil _ _)

namespace Diagram

theorem render_ofSignature_eq_nil_iff {s : Signature} :
    (ofSignature s).render = [] ↔ s.ports = [] := by
  unfold ofSignature layout?
  split
  · next l hl =>
    have hports : s.ports ≠ [] := by
      intro h
      rw [if_pos h] at hl
      cases hl
    exact ⟨fun he => absurd he (Markup.render_block_ne_nil _ _ _ _), fun h => absurd h hports⟩
  · next hl =>
    refine ⟨fun _ => ?_, fun _ => rfl⟩
    by_contra h
    rw [if_neg h] at hl
    cases hl

end Diagram
end Pinout
