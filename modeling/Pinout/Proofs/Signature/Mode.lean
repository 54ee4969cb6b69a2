import Pinout.Proofs.Signature.Scan
import Pinout.Proofs.Source.Stripped

/-!
# Pinout.Proofs.Signature.Mode

A scanner that keeps count of literals and the reading of a source agree on literals: inside one the
scanner is not in code (`run_literal`), and behind one it is, unless no quote closes it
(`run_splitLiteral`).
-/

namespace Pinout
namespace Signature

open Source (splitLiteral endsLiteral)

/-- Where a scanner stands behind a text. -/
def Mode.run (mode : Mode) (t : Text) : Mode := t.foldl Mode.after mode

theorem Mode.run_cons (mode : Mode) (c : Char) (t : Text) :
    mode.run (c :: t) = (mode.after c).run t := rfl

theorem Mode.run_append (mode : Mode) (a b : Text) : mode.run (a ++ b) = (mode.run a).run b :=
  List.foldl_append

theorem Mode.run_code {t : Text} (h : '"' ∉ t) : Mode.run .code t = .code := by
  induction t with
  | nil => rfl
  | cons c t ih =>
    simp only [List.mem_cons, not_or] at h
    have hc : Mode.after .code c = .code := if_neg (Ne.symm h.1)
    rw [Mode.run_cons, hc, ih h.2]

/-- Inside a literal, before its last character, a scanner is not in code. -/
theorem run_literal {t a v : Text} {x : Char} (h : (splitLiteral t).1 = a ++ x :: v) :
    Mode.run .literal a ≠ .code := by
  fun_induction splitLiteral t generalizing a with
  | case1 | case3 | case6 => simp at h
  | case2 | case4 | case5 =>
    cases a with
    | nil => exact Mode.noConfusion
    | cons c a => simp at h
  | case7 d t literal rest hs hq hn ih =>
    rw [hs] at ih
    cases a with
    | nil => exact Mode.noConfusion
    | cons c a =>
      cases a with
      | nil =>
        cases (List.cons.inj h).1
        exact Mode.noConfusion
      | cons e a =>
        simp only [List.cons_append, List.cons.injEq] at h
        obtain ⟨rfl, -, htail⟩ := h
        show Mode.run .literal a ≠ .code
        exact ih htail
  | case8 c d t hq hn hb literal rest hs ih =>
    rw [hs] at ih
    cases a with
    | nil => exact Mode.noConfusion
    | cons e a =>
      obtain ⟨rfl, htail⟩ := List.cons.inj h
      rw [Mode.run_cons, Mode.after_literal hq hb]
      exact ih htail

/-- Behind a literal a scanner is in code, unless no quote closes it. -/
theorem run_splitLiteral (t : Text) :
    endsLiteral (splitLiteral t).2 ∨ Mode.run .literal (splitLiteral t).1 = .code := by
  fun_induction splitLiteral t with
  | case1 => exact .inl rfl
  | case2 => exact .inr rfl
  | case3 c hq hc =>
    left
    rcases hc with rfl | rfl <;> rfl
  | case4 => exact .inl rfl
  | case5 => exact .inr rfl
  | case6 => exact .inl rfl
  | case7 d t literal rest hs hq hn ih =>
    rw [hs] at ih
    exact ih
  | case8 c d t hq hn hb literal rest hs ih =>
    rw [hs] at ih
    rwa [Mode.run_cons, Mode.after_literal hq hb]

/-! ## Cuts -/

section

variable {stops : Text → Bool} {mode : Mode}

/-- A cut is made in code. -/
theorem run_of_cutUnquoted? {t before rest : Text}
    (h : cutUnquoted? stops mode t = some (before, rest)) : mode.run before = .code := by
  induction t generalizing mode before with
  | nil => cases h
  | cons c t ih =>
    rw [cutUnquoted?] at h
    split at h
    · next hs =>
      cases h
      exact hs.1
    · obtain ⟨⟨b, r⟩, hb, he⟩ := Option.map_eq_some_iff.1 h
      cases he
      rw [Mode.run_cons, ih hb]

/-- What is cut behind a text is cut without it. -/
theorem cutUnquoted?_behind {a b before rest : Text}
    (h : cutUnquoted? stops mode (a ++ b) = some (a ++ before, rest)) :
    cutUnquoted? stops (mode.run a) b = some (before, rest) := by
  induction a generalizing mode with
  | nil => exact h
  | cons c a ih =>
    rw [List.cons_append, cutUnquoted?] at h
    split at h
    · cases h
    · obtain ⟨⟨b', r⟩, hb, he⟩ := Option.map_eq_some_iff.1 h
      cases he
      exact ih hb

end

end Signature
end Pinout
