import Pinout.Proofs.Command.Generate
import Pinout.Server.Session

/-!
# Pinout.Proofs.Server.Command

What the server answers to a command, as a function of what it needs for the answer: the text that
the command is about, the settings, and the template of its action. `Session.runIn_execute` says
that this is what the job of the server gives on any file system, and that it leaves the file system
as it is.
-/

namespace Pinout
namespace Server

open File (Job Path System)
open Command (Action)

variable {fs : System} {st : fs.State}

/-- The action behind a command. -/
def action? (command : Text) : Option Action :=
  if command = instantiationCommand then some .instantiation
  else if command = testbenchCommand then some .testbench
  else if command = documentationCommand then some .preview
  else none

/-- What an action gives for an extraction: nothing for the page of a missing module, whatever
became of the template. -/
def actionText (c : Config) (e : Extraction) (action : Action) (template : Except Fault Template) :
    Except Fault Text :=
  if action = .preview ∧ e.signature.isAbsent then .ok []
  else template >>= Command.textWith c e action

/-- The text that a command gives, or the failure in its place. -/
def commandResult (command : Text) (c : Config) (e : Extraction)
    (template : Action → Except Fault Template) : Except Failure Text :=
  match action? command with
  | none => .error (.invalidParams ("unknown command: ".toList ++ command))
  | some action => (actionText c e action (template action)).mapError fun f => .internal f.message

theorem mapError_bind {ε ε' α β : Type} (g : ε → ε') (x : Except ε α) (f : α → Except ε β) :
    (x >>= f).mapError g = x.mapError g >>= fun a => (f a).mapError g := by
  cases x <;> rfl

/-- A text that is rendered from a template, with faults as failures of the server. -/
theorem runIn_internal_template (builtIn : Template) (path : Option Path)
    (render : Template → Template.Result Text) :
    (do let t ← internal (Template.resolve builtIn path)
        internal (Attempt.rendered (render t)) : ExceptT Failure Job Text).run.runIn fs st =
      ((Template.resolved builtIn (fs.read st) path >>= fun t => Command.rendered (render t)).mapError
        fun f => .internal f.message, st) := by
  rw [mapError_bind]
  exact Attempt.runIn_bind (Attempt.runIn_adapt _ (Template.runIn_resolve builtIn path)) fun t =>
    Attempt.runIn_adapt _ (Command.runIn_rendered (render t))

/-- The server has steps of its own for each command, and they give what the action gives. -/
theorem runIn_commandText (command : Text) (c : Config) (e : Extraction) :
    (commandText command c e).run.runIn fs st =
      (commandResult command c e (Action.resolved (fs.read st) none c), st) := by
  unfold commandText commandResult action?
  by_cases hinstantiation : command = instantiationCommand
  · rw [if_pos hinstantiation, if_pos hinstantiation]
    rfl
  rw [if_neg hinstantiation, if_neg hinstantiation]
  by_cases htestbench : command = testbenchCommand
  · rw [if_pos htestbench, if_pos htestbench]
    exact runIn_internal_template _ _ _
  rw [if_neg htestbench, if_neg htestbench]
  by_cases hdocumentation : command = documentationCommand
  · rw [if_pos hdocumentation, if_pos hdocumentation]
    dsimp only
    rw [actionText]
    by_cases habsent : e.signature.isAbsent
    · rw [if_pos habsent, if_pos ⟨rfl, habsent⟩]
      rfl
    · have hpage : Command.textWith c e .preview = fun t =>
          Command.rendered (Page.page t c.waveScripts e.signature e.document) :=
        funext fun _ => if_neg habsent
      rw [if_neg habsent, if_neg fun h => habsent h.2, hpage]
      exact runIn_internal_template _ _ _
  · rw [if_neg hdocumentation, if_neg hdocumentation]
    rfl

/-- The text of the file at an address, where `read` says what the files hold. -/
def fileText (read : Path → Except File.Fault Text) (uri : Uri) : Except Failure Text :=
  match uri.toPath? with
  | none => .error (.invalidParams ("not a file URI: ".toList ++ uri.toText))
  | some path => (Attempt.ofResult path (read path)).mapError fun f => .internal f.message

/-- The text that a command is about: that of the open document, or else that of the file. -/
def sourceText (current : Option Text) (file : Except Failure Text) : Except Failure Text :=
  match current with
  | some t => .ok t
  | none => file

/-- The result of a command, and what is sent along with it. -/
def commandEffect (command : Text) (uri : Uri) (c : Config) (source : Except Failure Text)
    (template : Action → Except Fault Template) : Params Json × List Notification :=
  match source >>= fun t => commandResult command c (Extraction.ofSource t) template with
  | .error f => (.error f, [])
  | .ok t =>
    let note := command ++ " for ".toList ++ uri.toText ++ ": ".toList ++
      Text.decimal (Text.byteLength t) ++ " bytes".toList
    (.ok (.string t), [.information note])

theorem fst_commandEffect (command : Text) (uri : Uri) (c : Config) (source : Except Failure Text)
    (template : Action → Except Fault Template) :
    (commandEffect command uri c source template).1 =
      (source >>= fun t => commandResult command c (Extraction.ofSource t) template).map .string := by
  unfold commandEffect
  cases source >>= fun t => commandResult command c (Extraction.ofSource t) template <;> rfl

namespace Session

theorem runIn_extract (s : Session) (uri : Uri) : (s.extract uri).runIn fs st =
    ((sourceText (s.find? uri) (fileText (fs.read st) uri)).map Extraction.ofSource, st) := by
  unfold extract sourceText fileText
  cases s.find? uri with
  | some t => cases uri.toPath? <;> rfl
  | none =>
    cases uri.toPath? with
    | none => rfl
    | some path =>
      dsimp only
      rw [Job.runIn_bind, Attempt.runIn_read]
      cases fs.read st path <;> rfl

/-- The command that a request asks for, and the document that it is about. -/
def target (params : Json) : Params (Text × Uri) := do
  let (command, arguments) ← commandParams params
  return (command, ← commandDocument arguments)

theorem runIn_execute_of_error {s : Session} {params : Json} {f : Failure}
    (h : target params = .error f) : (s.execute params).runIn fs st = ((.error f, []), st) := by
  unfold execute
  dsimp only
  rw [← target, h]
  rfl

theorem runIn_execute {s : Session} {params : Json} {command : Text} {uri : Uri}
    (h : target params = .ok (command, uri)) : (s.execute params).runIn fs st =
      (commandEffect command uri s.config (sourceText (s.find? uri) (fileText (fs.read st) uri))
        (Action.resolved (fs.read st) none s.config), st) := by
  unfold execute
  dsimp only
  rw [← target, h]
  dsimp only
  rw [Job.runIn_bind, runIn_extract, commandEffect]
  cases sourceText (s.find? uri) (fileText (fs.read st) uri) with
  | error f => rfl
  | ok t =>
    have hok : (Except.ok t : Except Failure Text) >>= (fun t => commandResult command s.config
      (Extraction.ofSource t) (Action.resolved (fs.read st) none s.config)) =
        commandResult command s.config (Extraction.ofSource t)
          (Action.resolved (fs.read st) none s.config) := rfl
    rw [hok]
    dsimp only [Except.map]
    rw [Job.runIn_bind, runIn_commandText]
    cases commandResult command s.config (Extraction.ofSource t)
      (Action.resolved (fs.read st) none s.config) with
    | error f => rfl
    | ok t => rfl

end Session
end Server
end Pinout
