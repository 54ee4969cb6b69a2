import Pinout.Proofs.Server.Event

/-!
# Pinout.Proofs.Server.History

Whole sessions. Messages are handled one after another, and the files may change in between. What
the server knows of a document is the text that the latest event gave it (`currentText?`), and its
answers depend on the past through that text alone (`answer_of_current`): not on other documents, nor
on what was asked before.
-/

namespace Pinout
namespace Server

open File (Job Path System Disk)
open Command (Action)
open Session (Method methodOf)

variable {fs : System} {st : fs.State}

/-- The text of a document: what the latest event made of it that made something of it. -/
def currentText? (uri : Uri) (past : List Event) : Option Text :=
  (past.reverse.findSome? (Event.text? uri)).join

/-- Events that say nothing about a document have no influence on its text. -/
theorem currentText?_filter (uri : Uri) (past : List Event) :
    currentText? uri (past.filter fun e => (e.text? uri).isSome) = currentText? uri past := by
  rw [currentText?, ← List.filter_reverse, currentText?]
  congr 1
  induction past.reverse with
  | nil => rfl
  | cons e rest ih =>
    rw [List.filter_cons]
    cases h : e.text? uri with
    | none => simpa [h] using ih
    | some t => simp [h]

/-- The settings that are found in a directory, or the defaults. -/
def foundConfig (fs : System) (st : fs.State) : Option Path → Config
  | none => Config.defaults
  | some directory => (Config.discovered fs st directory).toOption.getD Config.defaults

/-- A message that begins a session, with the directory whose settings count. -/
structure Greeting (m : Message) (directory : Option Path) : Prop where
  method : methodOf m.method = .handshake
  id : m.id.isSome
  params : ∃ params, m.params = some params ∧
    (do let _ ← Params.field "capabilities" params; Session.workspace? params) = .ok directory

/-- A message that lets the session go on. -/
def Message.Stays (m : Message) : Prop :=
  methodOf m.method ≠ .shutdown ∧ methodOf m.method ≠ .exit

namespace Session

/-- The session behind a message. -/
def next (fs : System) (s : Session) (x : fs.State × Message) : Session :=
  ((s.step x.2).runIn fs x.1).1.1

/-- The answers to messages that are handled one after another, each with the files as they are at
its time. -/
def answers (fs : System) (s : Session) : List (fs.State × Message) → List Answer
  | [] => []
  | x :: later => ((s.step x.2).runIn fs x.1).1.2 :: (s.next fs x).answers fs later

/-! ## Files stay as they are -/

theorem configure_readOnly (directory : Option Path) : (configure directory).ReadOnly := by
  cases directory with
  | none => exact Job.ReadOnly.pure _
  | some directory =>
    refine Job.ReadOnly.bind (fun fs st => ?_) fun found => ?_
    · rw [Config.runIn_discover]
    · cases found <;> exact Job.ReadOnly.pure _

theorem execute_readOnly (s : Session) (params : Json) : (s.execute params).ReadOnly := by
  intro fs st
  cases h : target params with
  | ok asked => rw [runIn_execute h]
  | error f => rw [runIn_execute_of_error h]

theorem handle_readOnly (s : Session) (method : Method) (params : Json) :
    (s.handle method params).ReadOnly := by
  cases method with
  | handshake =>
    rw [handle]
    dsimp only
    split
    · exact Job.ReadOnly.pure _
    · exact (configure_readOnly _).bind fun _ => Job.ReadOnly.pure _
  | executeCommand => exact (s.execute_readOnly params).bind fun _ => Job.ReadOnly.pure _
  | _ => exact Job.ReadOnly.pure _

theorem accept_readOnly (s : Session) (m : Message) (method : Method) :
    (s.accept m method).ReadOnly := by
  rw [accept]
  split
  · exact Job.ReadOnly.pure _
  · split
    · exact Job.ReadOnly.pure _
    · split
      · exact Job.ReadOnly.pure _
      · exact (s.handle_readOnly method _).bind fun _ => Job.ReadOnly.pure _

/-- The server changes no file. -/
theorem step_readOnly (s : Session) (m : Message) : (s.step m).ReadOnly := by
  rw [step]
  split
  · exact Job.ReadOnly.pure _
  · cases methodOf m.method with
    | unknown | exit => exact Job.ReadOnly.pure _
    | shutdown =>
      dsimp only
      split <;> exact Job.ReadOnly.pure _
    | _ =>
      dsimp only
      split
      · exact s.accept_readOnly m _
      · exact Job.ReadOnly.pure _

/-- Where nothing else changes the files, a session answers so. -/
theorem runIn_run (s : Session) (ms : List Message) :
    (s.run ms).runIn fs st = (s.answers fs (ms.map (st, ·)), st) := by
  induction ms generalizing s with
  | nil => rfl
  | cons m rest ih =>
    rw [run, (s.step_readOnly m).runIn_bind, Job.runIn_bind, ih]
    rfl

/-! ## Runs -/

/-- A session that goes on from another one, with the texts that events made. -/
structure Follows (s₀ : Session) (past : List Event) (s : Session) : Prop where
  running : s.phase = .running
  config : s.config = s₀.config
  text : ∀ uri, s.find? uri = (past.reverse.findSome? (Event.text? uri)).getD (s₀.find? uri)

/-- One message adds its event to the past. -/
theorem follows_next {s : Session} (hrunning : s.phase = .running) {x : fs.State × Message}
    (hstays : x.2.Stays) : s.Follows x.2.event?.toList (s.next fs x) := by
  cases h : x.2.event? with
  | some e =>
    rw [next, runIn_step hrunning h]
    refine ⟨(s.phase_after e).trans hrunning, s.config_after e, fun uri => ?_⟩
    rw [find?_after]
    cases he : e.text? uri <;> simp [he]
  | none =>
    obtain ⟨answer, hstep⟩ : ∃ answer, (s.step x.2).runIn fs x.1 = ((s, answer), x.1) :=
      runIn_step_of_silent hrunning h hstays
    rw [next, hstep]
    exact ⟨hrunning, rfl, fun _ => rfl⟩

theorem Follows.trans {s₀ s₁ s₂ : Session} {past later : List Event} (h₁ : s₀.Follows past s₁)
    (h₂ : s₁.Follows later s₂) : s₀.Follows (past ++ later) s₂ := by
  refine ⟨h₂.running, h₂.config.trans h₁.config, fun uri => ?_⟩
  rw [h₂.text, h₁.text, List.reverse_append, List.findSome?_append]
  cases later.reverse.findSome? (Event.text? uri) <;> rfl

/-- All messages add their events, in their order. -/
theorem follows_foldl {s : Session} (hrunning : s.phase = .running) {past : List (fs.State × Message)}
    (hstays : ∀ x ∈ past, x.2.Stays) :
    s.Follows (past.filterMap (·.2.event?)) (past.foldl (next fs) s) := by
  induction past generalizing s with
  | nil => exact ⟨hrunning, rfl, fun _ => rfl⟩
  | cons x rest ih =>
    have hx := follows_next hrunning (hstays x List.mem_cons_self)
    have hrest := ih hx.running fun y hy => hstays y (List.mem_cons_of_mem x hy)
    have hall := hx.trans hrest
    rw [List.filterMap_cons]
    cases h : x.2.event? with
    | some e => rwa [h] at hall
    | none => rwa [h] at hall

theorem answers_append (s : Session) (past later : List (fs.State × Message)) :
    s.answers fs (past ++ later) = s.answers fs past ++ (past.foldl (next fs) s).answers fs later := by
  induction past generalizing s with
  | nil => rfl
  | cons x rest ih => exact congrArg _ (ih (s.next fs x))

theorem length_answers (s : Session) (past : List (fs.State × Message)) :
    (s.answers fs past).length = past.length := by
  induction past generalizing s with
  | nil => rfl
  | cons x rest ih => exact congrArg (· + 1) (ih (s.next fs x))

theorem runIn_configure (directory : Option Path) : ∃ sent,
    (configure directory).runIn fs st = ((foundConfig fs st directory, sent), st) := by
  cases directory with
  | none => exact ⟨[], rfl⟩
  | some directory =>
    rw [configure, Job.runIn_bind, Config.runIn_discover, foundConfig]
    cases Config.discovered fs st directory with
    | ok c => exact ⟨[], rfl⟩
    | error f => exact ⟨[.warning f.message], rfl⟩

/-- A greeting begins the session, with the settings that are found then. -/
theorem next_of_greeting {x : fs.State × Message} {directory : Option Path}
    (h : Greeting x.2 directory) :
    start.next fs x = ⟨.running, [], foundConfig fs x.1 directory⟩ := by
  obtain ⟨params, hparams, hdirectory⟩ := h.params
  obtain ⟨sent, hsent⟩ : ∃ sent,
      (configure directory).runIn fs x.1 = ((foundConfig fs x.1 directory, sent), x.1) :=
    runIn_configure directory
  have hfresh : start.phase = .fresh := rfl
  have hid : ¬(Method.handshake.isRequest ∧ x.2.id.isNone) := by
    rw [Option.isNone_eq_false_iff.mpr h.id]
    nofun
  have hrequest : ¬(!Method.handshake.isRequest ∧ x.2.id.isSome) := by nofun
  rw [next, step, if_neg (by decide), h.method]
  dsimp only
  rw [if_pos hfresh, accept, if_neg hid, if_neg hrequest, hparams]
  dsimp only
  rw [Job.runIn_bind, handle, hdirectory]
  dsimp only
  rw [Job.runIn_bind, hsent]
  rfl

/-- What a session answers to an event, wherever in the session it comes: with the text that the
document has then, the settings that were found when the session began, the file at the address of
the document and the templates that the settings name, as they are then. -/
theorem answer_of_current (fs : System) {hello : fs.State × Message} {directory : Option Path}
    (hgreeting : Greeting hello.2 directory) {past : List (fs.State × Message)}
    (hstays : ∀ x ∈ past, x.2.Stays) {st : fs.State} {m : Message} {e : Event}
    (he : m.event? = some e) (later : List (fs.State × Message)) :
    (start.answers fs (hello :: past ++ (st, m) :: later))[past.length + 1]? =
      some (e.answer m (fs.read st) (foundConfig fs hello.1 directory)
        (currentText? e.uri (past.filterMap (·.2.event?)))) := by
  have hnext := next_of_greeting hgreeting
  have hrunning : (start.next fs hello).phase = .running := by rw [hnext]
  have hfollows := follows_foldl hrunning hstays
  rw [answers_append, List.getElem?_append_right (by rw [length_answers]; exact Nat.le_refl _),
    length_answers, List.length_cons, Nat.sub_self, List.foldl_cons]
  generalize past.foldl (next fs) (start.next fs hello) = s at hfollows ⊢
  have hconfig : s.config = foundConfig fs hello.1 directory := by rw [hfollows.config, hnext]
  have htext : s.find? e.uri = currentText? e.uri (past.filterMap (·.2.event?)) := by
    rw [hfollows.text, hnext, currentText?]
    cases (past.filterMap (·.2.event?)).reverse.findSome? (Event.text? e.uri) <;> rfl
  have hstep : (s.step m).runIn fs st = ((s.after e, e.answer m (fs.read st)
      (foundConfig fs hello.1 directory) (currentText? e.uri (past.filterMap (·.2.event?)))), st) := by
    rw [runIn_step hfollows.running he, hconfig, htext]
  exact congrArg (fun result => some result.1.2) hstep

/-! ## One session -/

/-- A directory whose settings name a template of the testbench. -/
def exampleFiles (template : Text) : Disk.system.State :=
  Disk.mk [
    (["hdldoc.toml".toList, "work".toList], .text "testbench_template = \"tb.tpl\"\n".toList),
    (["tb.tpl".toList, "work".toList], .text template), (["work".toList], .directory)]
    ["work".toList]

def exampleText : Text := "module top (input clk);\nendmodule\n".toList

def exampleUri : Uri :=
  ⟨"file".toList, [], none, none, .segments ["work".toList, "top.v".toList], none, none⟩

def exampleAddress : String × Json := ("uri", .string "file:///work/top.v".toList)

/-- The session begins in that directory. -/
def exampleGreeting : Message :=
  ⟨"initialize".toList, some (.int 1), some (.record [("capabilities", .record []),
    ("rootUri", .string "file:///work".toList)])⟩

/-- A module is opened. -/
def exampleOpening : Message :=
  ⟨"textDocument/didOpen".toList, none, some (.record [("textDocument", .record [
    exampleAddress, ("languageId", .literal "verilog"), ("version", .int 1),
    ("text", .string exampleText)])])⟩

/-- The pointer rests on the port of the module. -/
def examplePointing : Message :=
  ⟨"textDocument/hover".toList, some (.int 2), some (.record [
    ("textDocument", .record [exampleAddress]),
    ("position", .record [("line", .int 0), ("character", .int 18)])])⟩

/-- The testbench of the module is asked for. -/
def exampleAsking : Message :=
  ⟨"workspace/executeCommand".toList, some (.int 2), some (.record [
    ("command", .string testbenchCommand),
    ("arguments", .array [.string "file:///work/top.v".toList])])⟩

theorem answer_of_current_hover :
    (start.answers Disk.system [(exampleFiles [], exampleGreeting), (exampleFiles [], exampleOpening),
      (exampleFiles [], examplePointing)])[2]? =
      some (.reply (some ⟨.int 2, .ok (hoverJson "```verilog\ninput (wire) clk\n```".toList)⟩) []) := by
  have hgreeting : Greeting (exampleFiles [], exampleGreeting).2 (some "/work".toList) :=
    ⟨by decide +kernel, rfl, _, rfl, by rfl⟩
  have hstays : ∀ x ∈ [(exampleFiles [], exampleOpening)], x.2.Stays := by
    intro x hx
    rw [List.mem_singleton.mp hx]
    exact ⟨by decide +kernel, by decide +kernel⟩
  have hevent : examplePointing.event? = some (.hover exampleUri ⟨0, 18⟩) := by decide +kernel
  have hcurrent : currentText? exampleUri
      ([(exampleFiles [], exampleOpening)].filterMap (·.2.event?)) = some exampleText := by
    decide +kernel
  have hhover : Editor.hover? exampleText ⟨0, 18⟩ =
      some "```verilog\ninput (wire) clk\n```".toList := by
    decide +kernel
  refine (answer_of_current Disk.system hgreeting hstays hevent []).trans ?_
  rw [Event.uri, hcurrent]
  change some (Answer.reply (some ⟨.int 2, .ok (((Editor.hover? exampleText ⟨0, 18⟩).map
    hoverJson).getD .null)⟩) []) = _
  rw [hhover]
  rfl

/-- The text that is answered to a request. -/
def text? : Answer → Option Text
  | .reply (some ⟨_, .ok (.string t)⟩) _ => some t
  | _ => none

/-- What the server answers to a command is not settled by the text, the command and the settings:
the template is read when the command is handled. -/
theorem command_reads_template : ¬∃ answer : Text → Text → Config → Answer, ∀ template,
    (start.answers Disk.system ([exampleGreeting, exampleOpening, exampleAsking].map
      (exampleFiles template, ·)))[2]? = some (answer exampleText testbenchCommand
        (foundConfig Disk.system (exampleFiles template) (some "/work".toList))) := by
  rintro ⟨answer, h⟩
  have hconfig : foundConfig Disk.system (exampleFiles "A".toList) (some "/work".toList) =
      foundConfig Disk.system (exampleFiles "B".toList) (some "/work".toList) := by
    decide +kernel
  have hfirst := h "A".toList
  rw [hconfig, ← h "B".toList] at hfirst
  have htext : (start.answers Disk.system ([exampleGreeting, exampleOpening, exampleAsking].map
      (exampleFiles "A".toList, ·)))[2]?.bind text? = some "A".toList := by
    decide +kernel
  have hother : (start.answers Disk.system ([exampleGreeting, exampleOpening, exampleAsking].map
      (exampleFiles "B".toList, ·)))[2]?.bind text? = some "B".toList := by
    decide +kernel
  rw [hfirst, hother] at htext
  exact absurd htext (by decide +kernel)

end Session
end Server
end Pinout
