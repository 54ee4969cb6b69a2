import Pinout.Command.Generate
import Pinout.Proofs.File.System

/-!
# Pinout.Proofs.Command.Generate

What the generators give on a file system, as functions of what is read from it. One lemma for each
job says what it gives and that it leaves the file system as it is: `Config.runIn_resolve` for
settings, `Template.runIn_resolve` for templates, `runIn_textOf` for texts and `runIn_generate` for
what an action makes of a source.
-/

namespace Pinout

open File (Job Path System)

variable {fs : System} {s : fs.State}

namespace Attempt

theorem runIn_bind_of_ok {ε α β : Type} {x : ExceptT ε Job α} (f : α → ExceptT ε Job β) {a : α}
    {after : fs.State} (h : x.run.runIn fs s = (.ok a, after)) :
    (x >>= f).run.runIn fs s = (f a).run.runIn fs after := by
  rw [ExceptT.run_bind, Job.runIn_bind, h]

theorem runIn_bind_of_error {ε α β : Type} {x : ExceptT ε Job α} (f : α → ExceptT ε Job β) {e : ε}
    {after : fs.State} (h : x.run.runIn fs s = (.error e, after)) :
    (x >>= f).run.runIn fs s = (.error e, after) := by
  rw [ExceptT.run_bind, Job.runIn_bind, h]
  rfl

/-- Two parts that leave the file system as it is give together what the second makes of the first,
unless that failed. -/
theorem runIn_bind {ε α β : Type} {x : ExceptT ε Job α} {f : α → ExceptT ε Job β}
    {result : Except ε α} {next : α → Except ε β} (hx : x.run.runIn fs s = (result, s))
    (hf : ∀ a, (f a).run.runIn fs s = (next a, s)) :
    (x >>= f).run.runIn fs s = (result >>= next, s) := by
  cases result with
  | ok a => exact (runIn_bind_of_ok f hx).trans (hf a)
  | error e => exact runIn_bind_of_error f hx

theorem runIn_adapt {ε ε' α : Type} {x : ExceptT ε Job α} (f : ε → ε') {result : Except ε α}
    {after : fs.State} (h : x.run.runIn fs s = (result, after)) :
    (x.adapt f).run.runIn fs s = (result.mapError f, after) := by
  have hmap : (x.adapt f).run = x.run >>= fun a => pure (a.mapError f) := rfl
  rw [hmap, Job.runIn_bind, h]
  rfl

theorem runIn_read (path : Path) :
    (Attempt.read path).run.runIn fs s = (ofResult path (fs.read s path), s) := rfl

/-- The value, or a failure where there is none. -/
def demand {α : Type} (f : Fault) : Option α → Except Fault α
  | some a => .ok a
  | none => .error f

theorem runIn_get {α : Type} (f : Fault) (a : Option α) :
    (get f a).run.runIn fs s = (demand f a, s) := by
  cases a <;> rfl

end Attempt

/-! ## Settings -/

namespace Config

/-- The settings in a file of which reading gives `answer`. -/
def ofAnswer (path : Path) (answer : Except File.Fault Text) : Except Fault Config := do
  Attempt.demand (.config path) (read? (← Attempt.ofResult path answer))

/-- The settings in the file of a directory that is meant for them, or the defaults. -/
def discovered (fs : System) (s : fs.State) (directory : Path) : Except Fault Config :=
  let path := Path.join directory fileName
  if fs.isFile s path then ofAnswer path (fs.read s path) else .ok defaults

/-- The settings in the file that is named, or those of the working directory. -/
def resolved (fs : System) (s : fs.State) : Option Path → Except Fault Config
  | some path => ofAnswer path (fs.read s path)
  | none => discovered fs s ['.']

theorem runIn_load (path : Path) :
    (load path).run.runIn fs s = (ofAnswer path (fs.read s path), s) :=
  Attempt.runIn_bind (Attempt.runIn_read path) fun _ => Attempt.runIn_get _ _

theorem runIn_discover (directory : Path) :
    (discover directory).run.runIn fs s = (discovered fs s directory, s) := by
  let path := Path.join directory fileName
  have hfile : (Attempt.isFile path).run.runIn fs s = (.ok (fs.isFile s path), s) := rfl
  have hnext (there : Bool) : (if there then load path else return defaults :
      Attempt Config).run.runIn fs s =
        (if there then ofAnswer path (fs.read s path) else .ok defaults, s) := by
    cases there with
    | true => exact runIn_load path
    | false => rfl
  exact Attempt.runIn_bind hfile hnext

theorem runIn_resolve (path : Option Path) :
    (resolve path).run.runIn fs s = (resolved fs s path, s) := by
  cases path with
  | some path => exact runIn_load path
  | none => exact runIn_discover _

end Config

/-! ## Templates -/

namespace Template

/-- The template in a file of which reading gives `answer`. -/
def ofAnswer (path : Path) (answer : Except File.Fault Text) : Except Pinout.Fault Template := do
  Attempt.demand .template (ofText? (← Attempt.ofResult path answer))

/-- The template in the file that is named, or `builtIn`, where `read` says what the files hold. -/
def resolved (builtIn : Template) (read : Path → Except File.Fault Text) :
    Option Path → Except Pinout.Fault Template
  | some path => ofAnswer path (read path)
  | none => .ok builtIn

theorem runIn_resolve (builtIn : Template) (path : Option Path) :
    (resolve builtIn path).run.runIn fs s = (resolved builtIn (fs.read s) path, s) := by
  cases path with
  | none => rfl
  | some path => exact Attempt.runIn_bind (Attempt.runIn_read path) fun _ => Attempt.runIn_get _ _

end Template

namespace Command

/-! ## Texts -/

/-- The template of an action for which none is named. -/
def Action.builtIn : Action → Template
  | .testbench => Snippet.defaultTestbench
  | _ => Page.defaultPage

/-- The path of the template that is named for an action, on its own or in the settings. -/
def Action.templatePath? (template : Option Path) (c : Config) : Action → Option Path
  | .testbench => template <|> c.testbenchTemplate
  | .preview | .exportPage => template <|> c.pageTemplate
  | .instantiation | .dump => none

/-- The template of an action, where `read` says what the files hold. -/
def Action.resolved (read : Path → Except File.Fault Text) (template : Option Path) (c : Config)
    (action : Action) : Except Fault Template :=
  Template.resolved action.builtIn read (action.templatePath? template c)

/-- The text of a rendered template. -/
def rendered : Template.Result Text → Except Fault Text
  | .ok t => .ok t
  | .error _ => .error .template

/-- The text that an action gives with a template. -/
def textWith (c : Config) (e : Extraction) (action : Action) (t : Template) : Except Fault Text :=
  match action with
  | .instantiation => .ok (Snippet.instantiation c.instancePrefix e.signature)
  | .testbench => rendered (Snippet.testbench t e.signature)
  | .dump => .ok e.toJson.pretty
  | .preview | .exportPage =>
    if e.signature.isAbsent then .ok []
    else rendered (Page.page t c.waveScripts e.signature e.document)

theorem runIn_rendered (result : Template.Result Text) :
    (Attempt.rendered result).run.runIn fs s = (rendered result, s) := by
  cases result <;> rfl

theorem runIn_page (c : Config) (e : Extraction) (t : Template) :
    (if e.signature.isAbsent then return []
      else Attempt.rendered (Page.page t c.waveScripts e.signature e.document) :
      Attempt Text).run.runIn fs s = (textWith c e .preview t, s) := by
  dsimp only [textWith]
  split
  · rfl
  · exact runIn_rendered _

theorem runIn_textOf (action : Action) (template : Option Path) (c : Config) (e : Extraction) :
    (textOf action template c e).run.runIn fs s =
      (action.resolved (fs.read s) template c >>= textWith c e action, s) := by
  cases action with
  | instantiation => rfl
  | dump => rfl
  | testbench => exact Attempt.runIn_bind (Template.runIn_resolve _ _) fun _ => runIn_rendered _
  | preview => exact Attempt.runIn_bind (Template.runIn_resolve _ _) (runIn_page c e)
  | exportPage => exact Attempt.runIn_bind (Template.runIn_resolve _ _) (runIn_page c e)

/-! ## Products -/

/-- A text that was made of a source file, with the warnings. -/
def productOf (file : Path) (e : Extraction) (t : Text) : Product :=
  let warnings := e.warnings.map (·.message)
  ⟨t, if t = [] then warnings ++ [nothingToGenerate file] else warnings⟩

/-- What an action makes of a source file, where `read` says what the files hold. -/
def generated (read : Path → Except File.Fault Text) (action : Action) (file : Path)
    (template : Option Path) (c : Config) : Except Fault Product := do
  let e := Extraction.ofSource (← Attempt.ofResult file (read file))
  return productOf file e (← action.resolved read template c >>= textWith c e action)

theorem runIn_generate (action : Action) (file : Path) (template : Option Path) (c : Config) :
    (generate action file template c).run.runIn fs s =
      (generated (fs.read s) action file template c, s) := by
  refine Attempt.runIn_bind (Attempt.runIn_read file) fun source => ?_
  exact Attempt.runIn_bind (runIn_textOf action template c _) fun _ => rfl

end Command
end Pinout
