import Mathlib.Control.Monad.Basic
import Pinout.Command.Run
import Pinout.Proofs.Command.Generate

/-!
# Pinout.Proofs.Command.Run

A run changes one file or none. `runIn_execute` says what a run does on a file system, in terms of
what it prepares from the files that it reads (`Request.prepared`); nothing is written before that
is complete. So a run that fails leaves the file system as it is and prints nothing, and a run that
succeeds either prints its text or replaces the one file that the text goes to
(`run_allOrNothing`).
-/

namespace Pinout
namespace Command

open File (Job Path System Disk)

variable {fs : System} {s : fs.State}

namespace Request

/-- The settings that a request finds, and what it makes of its source with them, or the reason for
which there is nothing to print or write. -/
def prepared (fs : System) (s : fs.State) (temporary : Path) (r : Request) :
    Except Failure (Config × Product) :=
  match Config.resolved fs s r.config with
  | .error f => .error (.settings f)
  | .ok c =>
    match generated (fs.read s) r.action (r.source temporary) r.template c with
    | .error f => .error (.source (r.source temporary) f)
    | .ok product => .ok (c, product)

/-- The file that the text of a request goes to, if it is not printed. -/
def path? (temporary : Path) (r : Request) : Option Path := (r.target temporary).path? temporary

/-- A request fails where nothing can be made, or where the file that it goes to cannot be written. -/
def Fails (fs : System) (s : fs.State) (temporary : Path) (r : Request) : Prop :=
  match r.prepared fs s temporary with
  | .error _ => True
  | .ok (_, product) =>
    ∃ path f, r.path? temporary = some path ∧ fs.write s path product.text = .error f

/-! ## Places for the text -/

/-- Only one place for the text is asked for. -/
theorem output_of_toTemp {arguments : List Text} {r : Request} (h : ofArguments arguments = .ok r)
    (ht : r.toTemp) : r.output = none := by
  obtain ⟨p, -, hp⟩ : ∃ p, Progress.start.read arguments = .ok p ∧ ofProgress p = .ok r := by
    rw [ofArguments] at h
    cases hr : Progress.start.read arguments with
    | error stop => rw [hr] at h; cases h
    | ok p => exact ⟨p, rfl, by rw [hr] at h; exact h⟩
  unfold ofProgress at hp
  dsimp only at hp
  split at hp
  · cases hp
  · split at hp
    · cases hp
    · next hboth =>
      split at hp
      · cases hp
        dsimp only at ht ⊢
        have hgiven : p.isGiven .output = false := by
          rw [ht, Bool.true_and] at hboth
          simpa using hboth
        rw [Progress.isGiven, List.any_eq_false] at hgiven
        rw [Option.map_eq_none_iff, List.find?_eq_none]
        exact hgiven
      · cases hp

/-- The path of a scratch file is what is printed for it. -/
theorem output_report {arguments : List Text} {r : Request} (h : ofArguments arguments = .ok r)
    (temporary : Path) (c : Config) (product : Product) (path : Path) :
    Report.output (r.target temporary) ⟨c, product, some path⟩ =
      if r.toTemp then path ++ ['\n'] else [] := by
  have htarget : r.target temporary = .scratch ↔ r.toTemp := by
    constructor
    · intro hs
      unfold target at hs
      split at hs
      · cases hs
      · split at hs
        · next ht => exact ht
        · split at hs <;> cases hs
    · intro ht
      rw [target, output_of_toTemp h ht]
      exact if_pos ht
  simp only [Report.output, htarget]

end Request

/-! ## Runs -/

/-- The last part of a run, which is the only one that writes. -/
theorem runIn_deliver (temporary : Path) (r : Request) (c : Config) (product : Product) :
    (match (r.target temporary).path? temporary with
      | none => return ⟨c, product, none⟩
      | some path => do
        (Attempt.write path product.text).adapt .output
        return ⟨c, product, some path⟩ : ExceptT Failure Job Report).run.runIn fs s =
      match r.path? temporary with
      | none => (.ok ⟨c, product, none⟩, s)
      | some path =>
        match fs.write s path product.text with
        | .ok after => (.ok ⟨c, product, some path⟩, after)
        | .error f => (.error (.output (.file path f)), s) := by
  rw [Request.path?]
  cases (r.target temporary).path? temporary with
  | none => rfl
  | some path =>
    have hwrite := Job.runIn_write fs s path product.text fun answer =>
      .done (Attempt.ofResult path answer)
    dsimp only
    cases hw : fs.write s path product.text with
    | ok after =>
      rw [hw] at hwrite
      exact Attempt.runIn_bind_of_ok _ (Attempt.runIn_adapt _ hwrite)
    | error f =>
      rw [hw] at hwrite
      exact Attempt.runIn_bind_of_error _ (Attempt.runIn_adapt _ hwrite)

/-- What a run makes, and the state behind it. -/
theorem runIn_execute (temporary : Path) (r : Request) :
    (execute temporary r).run.runIn fs s =
      match r.prepared fs s temporary with
      | .error f => (.error f, s)
      | .ok (c, product) =>
        match r.path? temporary with
        | none => (.ok ⟨c, product, none⟩, s)
        | some path =>
          match fs.write s path product.text with
          | .ok after => (.ok ⟨c, product, some path⟩, after)
          | .error f => (.error (.output (.file path f)), s) := by
  have hconfig : ((Config.resolve r.config).adapt Failure.settings).run.runIn fs s =
      ((Config.resolved fs s r.config).mapError .settings, s) :=
    Attempt.runIn_adapt _ (Config.runIn_resolve _)
  rw [execute]
  cases hc : Config.resolved fs s r.config with
  | error f =>
    have hprepared : r.prepared fs s temporary = .error (.settings f) := by
      rw [Request.prepared, hc]
    rw [hc] at hconfig
    rw [hprepared]
    exact Attempt.runIn_bind_of_error _ hconfig
  | ok c =>
    rw [hc] at hconfig
    rw [Attempt.runIn_bind_of_ok _ hconfig]
    have hproduct : ((generate r.action (r.source temporary) r.template c).adapt
        (Failure.source (r.source temporary))).run.runIn fs s =
          ((generated (fs.read s) r.action (r.source temporary) r.template c).mapError
            (.source (r.source temporary)), s) :=
      Attempt.runIn_adapt _ (runIn_generate _ _ _ _)
    cases hp : generated (fs.read s) r.action (r.source temporary) r.template c with
    | error f =>
      have hprepared : r.prepared fs s temporary = .error (.source (r.source temporary) f) := by
        simp only [Request.prepared, hc, hp]
      rw [hp] at hproduct
      rw [hprepared]
      exact Attempt.runIn_bind_of_error _ hproduct
    | ok product =>
      have hprepared : r.prepared fs s temporary = .ok (c, product) := by
        simp only [Request.prepared, hc, hp]
      rw [hp] at hproduct
      rw [hprepared, Attempt.runIn_bind_of_ok _ hproduct]
      exact runIn_deliver temporary r c product

/-- A run that asks for something ends in one of two ways. Where the request fails, the exit code is
one, nothing is printed, and the files stay as they are. Otherwise the exit code is zero, and either
the text is what is printed and the files stay, or the text replaces the one file it goes to, and
nothing is printed but the path of a scratch file. -/
theorem run_allOrNothing (fs : System) (s : fs.State) (temporary : Path) {arguments : List Text}
    {r : Request} (h : Request.ofArguments arguments = .ok r) :
    let result := (run temporary arguments).runIn fs s
    (r.Fails fs s temporary → result.1.exit = 1 ∧ result.1.output = [] ∧ result.2 = s) ∧
      (¬r.Fails fs s temporary → result.1.exit = 0 ∧ ∃ c product,
        r.prepared fs s temporary = .ok (c, product) ∧
          match r.path? temporary with
          | none => result.1.output = product.text ∧ result.2 = s
          | some path => result.1.output = (if r.toTemp then path ++ ['\n'] else []) ∧
              ∃ key, fs.Replaced s result.2 path product.text key) := by
  rw [run, h]
  dsimp only [perform]
  rw [Job.runIn_bind, runIn_execute]
  unfold Request.Fails
  cases hprepared : r.prepared fs s temporary with
  | error f => exact ⟨fun _ => ⟨rfl, rfl, rfl⟩, fun hn => absurd trivial hn⟩
  | ok made =>
    obtain ⟨c, product⟩ := made
    cases hpath : r.path? temporary with
    | none =>
      refine ⟨fun ⟨path, f, hp, _⟩ => (by cases hp), fun _ => ⟨rfl, c, product, rfl, rfl, rfl⟩⟩
    | some path =>
      cases hw : fs.write s path product.text with
      | error f =>
        dsimp only
        rw [hw]
        exact ⟨fun _ => ⟨rfl, rfl, rfl⟩, fun hn => absurd ⟨path, f, rfl, hw⟩ hn⟩
      | ok after =>
        dsimp only
        rw [hw]
        refine ⟨fun ⟨path', f, hp, hf⟩ => ?_, fun _ => ⟨rfl, c, product, rfl, ?_, ?_⟩⟩
        · cases hp
          rw [hw] at hf
          cases hf
        · exact Request.output_report h temporary c product path
        · exact fs.replaced_of_write hw

/-! ## One run -/

deriving instance DecidableEq for Product

/-- A directory that holds one source. -/
def exampleDisk : Disk where
  entries := [
    (["top.v".toList, "work".toList], .text "module top (input clk);\nendmodule\n".toList),
    (["work".toList], .directory)]
  workingDirectory := ["work".toList]

/-- An instantiation that is to go to a new file. -/
def exampleArguments : List Text := ["-i".toList, "top.v".toList, "-o".toList, "top.vi".toList]

def exampleText : Text :=
  "    top u_top (\n        .clk    (clk    )   // input, (wire), \n    );\n".toList

theorem run_allOrNothing_newFile :
    let result := (run "/tmp".toList exampleArguments).runIn Disk.system exampleDisk
    result.1.exit = 0 ∧ result.1.output = [] ∧
      ∃ key, Disk.system.Replaced exampleDisk result.2 "top.vi".toList exampleText key := by
  have hr : Request.ofArguments exampleArguments =
      .ok ⟨.instantiation, some "top.v".toList, none, some "top.vi".toList, false, none, false⟩ := by
    decide +kernel
  generalize hrequest : (⟨.instantiation, some "top.v".toList, none, some "top.vi".toList, false,
    none, false⟩ : Request) = r at hr
  have hprepared : r.prepared Disk.system exampleDisk "/tmp".toList =
      .ok (Config.defaults, ⟨exampleText, []⟩) := by
    rw [← hrequest]
    decide +kernel
  have hpath : r.path? "/tmp".toList = some "top.vi".toList := by
    rw [← hrequest]
    decide +kernel
  have hwrite : (exampleDisk.write "top.vi".toList exampleText).isOk := by decide +kernel
  have hsucceeds : ¬r.Fails Disk.system exampleDisk "/tmp".toList := by
    unfold Request.Fails
    rw [hprepared]
    rintro ⟨path, f, hp, hf⟩
    obtain rfl : "top.vi".toList = path := Option.some.inj (hpath.symm.trans hp)
    have hf : exampleDisk.write "top.vi".toList exampleText = .error f := hf
    rw [hf] at hwrite
    cases hwrite
  obtain ⟨-, hgood⟩ := run_allOrNothing Disk.system exampleDisk "/tmp".toList hr
  obtain ⟨hexit, c, product, hp, hrest⟩ := hgood hsucceeds
  obtain rfl : ⟨exampleText, []⟩ = product :=
    congrArg Prod.snd (Except.ok.inj (hprepared.symm.trans hp))
  have htemp : ¬r.toTemp := by
    rw [← hrequest]
    exact Bool.false_ne_true
  rw [hpath] at hrest
  dsimp only at hrest
  rw [if_neg htemp] at hrest
  exact ⟨hexit, hrest⟩

end Command
end Pinout
