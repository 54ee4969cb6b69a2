import Mathlib.Control.Monad.Basic
import Pinout.Proofs.Server.Command

/-!
# Pinout.Proofs.Server.SameText

The program and the server give the same text for a source. They come to it in different order: the
program finds a template first, and the server first asks whether there is a module. So for a source
without a module and a page template that cannot be had, the program fails where the server answers
with an empty text (`documentation_absent`); everywhere else they succeed with the same text or fail
for the same reason (`generate_agrees`).
-/

namespace Pinout
namespace Server

open File (Job Path System Disk)
open Command (Action Product)

/-- The actions of the program and the commands of the server that ask for the same text. -/
inductive Counterpart : Action → Text → Prop where
  | instantiation : Counterpart .instantiation instantiationCommand
  | testbench : Counterpart .testbench testbenchCommand
  | preview : Counterpart .preview documentationCommand
  | exportPage : Counterpart .exportPage documentationCommand

/-- The program and the server give the same text, or both fail for the same reason. -/
def Agree : Except Fault Product → Params Json → Prop
  | .ok product, .ok answer => answer = .string product.text
  | .error f, .error g => g = .internal f.message
  | _, _ => False

/-- What the server answers where the program succeeds. -/
theorem answer_of_agree {made : Except Fault Product} {answer : Params Json} (h : Agree made answer)
    {product : Product} (hmade : made = .ok product) : answer = .ok (.string product.text) := by
  subst hmade
  cases answer with
  | ok answer => exact congrArg Except.ok h
  | error f => exact h.elim

/-- A page is asked for, there is no module, and the template of the page cannot be had. -/
def Overlooks (e : Extraction) (action : Action) (template : Except Fault Template) : Prop :=
  (action = .preview ∨ action = .exportPage) ∧ e.signature.isAbsent ∧ ∃ f, template = .error f

variable {fs : System} {st : fs.State}

/-! ## The same action -/

/-- The documentation command gives a page wherever it does not overlook the template of one. -/
theorem commandResult_documentation {c : Config} {e : Extraction}
    {template : Action → Except Fault Template}
    (hsees : ¬(e.signature.isAbsent ∧ ∃ f, template .preview = .error f)) :
    commandResult documentationCommand c e template =
      (template .preview >>= Command.textWith c e .preview).mapError fun f =>
        .internal f.message := by
  have haction : action? documentationCommand = some .preview := by decide
  rw [commandResult, haction]
  dsimp only
  rw [actionText]
  split
  · next habsent =>
    cases ht : template .preview with
    | error f => exact absurd ⟨habsent.2, f, ht⟩ hsees
    | ok t =>
      have htext : Command.textWith c e .preview t = .ok [] := if_pos habsent.2
      exact congrArg (·.mapError fun f => Failure.internal f.message) htext.symm
  · rfl

/-- A command gives what its counterpart gives, unless it overlooks the template of a page. -/
theorem commandResult_eq {action : Action} {command : Text} (h : Counterpart action command)
    {c : Config} {e : Extraction} {template : Action → Except Fault Template}
    (hpage : template .exportPage = template .preview)
    (hsees : ¬Overlooks e action (template action)) :
    commandResult command c e template =
      (template action >>= Command.textWith c e action).mapError fun f => .internal f.message := by
  cases h with
  | instantiation => rfl
  | testbench => rfl
  | preview => exact commandResult_documentation fun h => hsees ⟨.inl rfl, h⟩
  | exportPage =>
    rw [hpage] at hsees ⊢
    exact commandResult_documentation fun h => hsees ⟨.inr rfl, h⟩

/-- Where a page overlooks its template, the server answers with an empty text. -/
theorem commandResult_of_overlooks {action : Action} {command : Text}
    (h : Counterpart action command) {c : Config} {e : Extraction}
    {template : Action → Except Fault Template} (hoverlooks : Overlooks e action (template action)) :
    commandResult command c e template = .ok [] := by
  obtain ⟨haction, habsent, -⟩ := hoverlooks
  have hdocumentation : commandResult documentationCommand c e template = .ok [] := by
    have haction : action? documentationCommand = some .preview := by decide
    rw [commandResult, haction]
    dsimp only
    rw [actionText, if_pos ⟨rfl, habsent⟩]
    rfl
  cases h with
  | instantiation => obtain h | h := haction <;> cases h
  | testbench => obtain h | h := haction <;> cases h
  | preview => exact hdocumentation
  | exportPage => exact hdocumentation

/-- A template in a file that cannot be read. -/
theorem resolved_of_unreadable {action : Action} {c : Config} {path : Path}
    {read : Path → Except File.Fault Text} {f : File.Fault}
    (hpath : action.templatePath? none c = some path) (hread : read path = .error f) :
    action.resolved read none c = .error (.file path f) := by
  rw [Action.resolved, hpath]
  change Template.ofAnswer path (read path) = _
  rw [hread]
  rfl

/-! ## The program and the server -/

theorem generated_of_read {action : Action} {file : Path} {t : Text} {c : Config}
    {read : Path → Except File.Fault Text} (h : read file = .ok t) :
    Command.generated read action file none c =
      (action.resolved read none c >>= Command.textWith c (Extraction.ofSource t) action).map
        (Command.productOf file (Extraction.ofSource t)) := by
  rw [Command.generated, h]
  change (action.resolved read none c >>= Command.textWith c (Extraction.ofSource t) action) >>=
    (fun made => .ok (Command.productOf file (Extraction.ofSource t) made)) = _
  cases action.resolved read none c >>= Command.textWith c (Extraction.ofSource t) action <;> rfl

/-- The answer to a command about an open document. -/
theorem answer_of_open {s : Session} {params : Json} {command : Text} {uri : Uri} {t : Text}
    (hparams : Session.target params = .ok (command, uri)) (hopen : s.find? uri = some t) :
    ((s.execute params).runIn fs st).1.1 =
      (commandResult command s.config (Extraction.ofSource t)
        (Action.resolved (fs.read st) none s.config)).map .string := by
  rw [Session.runIn_execute hparams, hopen]
  exact fst_commandEffect command uri s.config (.ok t) _

/-- What the program makes of a file and what the server answers about an open document with the
same text: the same text or the same failure, unless a page overlooks its template. There the
program fails, and the server gives an empty text. -/
theorem generate_agrees (fs : System) (st : fs.State) (s : Session) {action : Action}
    {command : Text} (h : Counterpart action command) {file : Path} {t : Text}
    (hfile : fs.read st file = .ok t) {params : Json} {uri : Uri}
    (hparams : Session.target params = .ok (command, uri)) (hopen : s.find? uri = some t) :
    let made := ((Command.generate action file none s.config).run.runIn fs st).1
    let answer := ((s.execute params).runIn fs st).1.1
    let template := action.resolved (fs.read st) none s.config
    (¬Overlooks (Extraction.ofSource t) action template → Agree made answer) ∧
      (Overlooks (Extraction.ofSource t) action template →
        (∃ f, template = .error f ∧ made = .error f) ∧ answer = .ok (.string [])) := by
  have hpage : Action.resolved (fs.read st) none s.config .exportPage =
      Action.resolved (fs.read st) none s.config .preview := rfl
  dsimp only
  rw [Command.runIn_generate, generated_of_read hfile, answer_of_open hparams hopen]
  constructor
  · intro hsees
    rw [commandResult_eq h hpage hsees]
    cases action.resolved (fs.read st) none s.config >>=
      Command.textWith s.config (Extraction.ofSource t) action with
    | ok t => rfl
    | error f => rfl
  · intro hoverlooks
    rw [commandResult_of_overlooks h hoverlooks]
    obtain ⟨-, -, f, hf⟩ := hoverlooks
    rw [hf]
    exact ⟨⟨f, rfl, rfl⟩, rfl⟩

/-! ## A page from a template of its own -/

def exampleUri : Uri :=
  ⟨"file".toList, [], none, none, .segments ["work".toList, "top.v".toList], none, none⟩

/-- The documentation of the source at that address is asked for. -/
def exampleParams : Json :=
  .record [("command", .string documentationCommand),
    ("arguments", .array [.string "file:///work/top.v".toList])]

def pageSource : Text := "module m (input a);\n".toList

/-- A directory with a source and a template for its page. -/
def pageDisk : Disk.system.State :=
  Disk.mk [(["top.v".toList, "work".toList], .text pageSource),
    (["page.html".toList, "work".toList], .text "<b>\x7b\x7b module_name \x7d\x7d</b>".toList),
    (["work".toList], .directory)] ["work".toList]

/-- A session in which that source is open, with that template. -/
def pageSession : Session :=
  ⟨.running, [("file:///work/top.v".toList, pageSource)],
    { Config.defaults with pageTemplate := some "page.html".toList }⟩

theorem generate_agrees_page :
    Disk.system.read pageDisk "top.v".toList = .ok pageSource ∧
      Session.target exampleParams = .ok (documentationCommand, exampleUri) ∧
      pageSession.find? exampleUri = some pageSource ∧
      ((Command.generate .preview "top.v".toList none pageSession.config).run.runIn
        Disk.system pageDisk).1 = .ok ⟨"<b>m</b>".toList, []⟩ ∧
      ((pageSession.execute exampleParams).runIn Disk.system pageDisk).1.1 =
        .ok (.string "<b>m</b>".toList) := by
  have hfile : Disk.system.read pageDisk "top.v".toList = .ok pageSource := by rfl
  have hparams : Session.target exampleParams = .ok (documentationCommand, exampleUri) := by rfl
  have hopen : pageSession.find? exampleUri = some pageSource := by
    rw [Session.find?]
    decide +kernel
  have hmodule : ¬(Extraction.ofSource pageSource).signature.isAbsent := by decide +kernel
  have hsees : ¬Overlooks (Extraction.ofSource pageSource) .preview
      (Action.resolved (Disk.system.read pageDisk) none pageSession.config .preview) :=
    fun h => hmodule h.2.1
  have htext : (Action.resolved (Disk.system.read pageDisk) none pageSession.config .preview >>=
      Command.textWith pageSession.config (Extraction.ofSource pageSource) .preview) =
        .ok "<b>m</b>".toList := by
    decide +kernel
  have hwarnings : (Extraction.ofSource pageSource).warnings.map (·.message) = [] := by
    decide +kernel
  have hmade : ((Command.generate .preview "top.v".toList none pageSession.config).run.runIn
      Disk.system pageDisk).1 = .ok ⟨"<b>m</b>".toList, []⟩ := by
    rw [Command.runIn_generate, generated_of_read hfile, htext]
    exact congrArg (fun ws => Except.ok (Product.mk _ ws)) hwarnings
  obtain ⟨hagree, -⟩ := generate_agrees Disk.system pageDisk pageSession .preview hfile hparams hopen
  refine ⟨hfile, hparams, hopen, hmade, ?_⟩
  rw [hmade] at hagree
  -- the answer is found by agreement, not by a run of the server
  generalize ((pageSession.execute exampleParams).runIn Disk.system pageDisk).1.1 = answer at hagree ⊢
  exact answer_of_agree (hagree hsees) rfl

/-! ## A source without a module -/

/-- A directory with a source that holds no module. -/
def exampleDisk : Disk.system.State :=
  Disk.mk [(["top.v".toList, "work".toList], .text "// nothing\n".toList),
    (["work".toList], .directory)] ["work".toList]

/-- A session in which that source is open. -/
def exampleSession (c : Config) : Session :=
  ⟨.running, [("file:///work/top.v".toList, "// nothing\n".toList)], c⟩

/-- With a template that is not there the program fails, and the server answers. -/
theorem documentation_absent :
    let c : Config := { Config.defaults with pageTemplate := some "page.html".toList }
    ((Command.generate .preview "top.v".toList none c).run.runIn Disk.system exampleDisk).1 =
        .error (.file "page.html".toList .notFound) ∧
      (((exampleSession c).execute exampleParams).runIn Disk.system exampleDisk).1.1 =
        .ok (.string []) := by
  intro c
  have hparams : Session.target exampleParams = .ok (documentationCommand, exampleUri) := by rfl
  have hopen : (exampleSession c).find? exampleUri = some "// nothing\n".toList := by
    rw [Session.find?]
    decide +kernel
  have hfile : Disk.system.read exampleDisk "top.v".toList = .ok "// nothing\n".toList := by rfl
  have htemplate : Action.resolved (Disk.system.read exampleDisk) none c .preview =
      .error (.file "page.html".toList .notFound) :=
    resolved_of_unreadable rfl (by decide +kernel)
  have habsent : (Extraction.ofSource "// nothing\n".toList).signature.isAbsent := by decide +kernel
  rw [Command.runIn_generate, generated_of_read hfile, answer_of_open hparams hopen, htemplate]
  have hoverlooks : Overlooks (Extraction.ofSource "// nothing\n".toList) .preview
      (Action.resolved (Disk.system.read exampleDisk) none (exampleSession c).config .preview) :=
    ⟨.inl rfl, habsent, _, htemplate⟩
  rw [commandResult_of_overlooks .preview hoverlooks]
  exact ⟨rfl, rfl⟩

end Server
end Pinout
