import Pinout.Proofs.Server.Command

/-!
# Pinout.Proofs.Server.Event

What messages say about documents. A message of one of six methods, with parameters that can be
read, is an event: a document is opened, changed or closed, or something is asked about it. An event
says what becomes of the texts that are kept (`Event.text?`) and what the server answers
(`Event.effect`), which depends on no text but the one at the address of the event.

`Session.runIn_step` says that a running session handles an event so, and
`Session.runIn_step_of_silent` that no other message but the last ones changes a session.
-/

namespace Pinout
namespace Server

open File (Job Path System)
open Command (Action)
open Session (Method methodOf)

variable {fs : System} {st : fs.State}

inductive Event where
  | opened (uri : Uri) (version : Int) (t : Text)
  | changed (uri : Uri) (version : Int) (texts : List Text)
  | closed (uri : Uri)
  | hover (uri : Uri) (position : Editor.Position)
  | outline (uri : Uri)
  | execute (command : Text) (uri : Uri)
  deriving DecidableEq

/-! ## Reading events -/

namespace Event

/-- The document that an event is about. -/
def uri : Event → Uri
  | opened uri _ _ => uri
  | changed uri _ _ => uri
  | closed uri => uri
  | hover uri _ => uri
  | outline uri => uri
  | execute _ uri => uri

def readOpened (params : Json) : Params Event := do
  let document ← Params.field "textDocument" params
  let uri ← Params.uri (← Params.field "uri" document)
  let _ ← Params.text (← Params.field "languageId" document)
  let version ← Params.integer (← Params.field "version" document)
  let t ← Params.text (← Params.field "text" document)
  return .opened uri version t

def readChanged (params : Json) : Params Event := do
  let document ← Params.field "textDocument" params
  let uri ← Params.uri (← Params.field "uri" document)
  let version ← Params.integer (← Params.field "version" document)
  let texts ← (← Params.list (← Params.field "contentChanges" params)).mapM fun c => do
    Params.text (← Params.field "text" c)
  return .changed uri version texts

def readHover (params : Json) : Params Event := do
  let uri ← Params.document params
  return .hover uri (← Params.position (← Params.field "position" params))

/-- The event that a method and its parameters stand for. -/
def read? (params : Json) : Method → Option (Params Event)
  | .didOpen => some (readOpened params)
  | .didChange => some (readChanged params)
  | .didClose => some (do return .closed (← Params.document params))
  | .hover => some (readHover params)
  | .documentSymbol => some (do return .outline (← Params.document params))
  | .executeCommand => some (do
    let (command, uri) ← Session.target params
    return .execute command uri)
  | _ => none

end Event

/-- The event that a message stands for. Requests have identifiers, and notifications have none. -/
def Message.event? (m : Message) : Option Event := do
  let params ← m.params
  let event ← Event.read? params (methodOf m.method)
  if m.id.isSome = (methodOf m.method).isRequest then event.toOption else none

/-! ## What events do -/

namespace Event

/-- What an event makes of the text at an address, if anything. -/
def text? (uri : Uri) : Event → Option (Option Text)
  | opened u _ t => if u.toText = uri.toText then some (some t) else none
  | changed u _ texts => if u.toText = uri.toText then texts.getLast?.map some else none
  | closed u => if u.toText = uri.toText then some none else none
  | hover _ _ => none
  | outline _ => none
  | execute _ _ => none

/-- What the server answers to an event and sends along with it. This depends on the settings, the
text that is kept for the address of the event, the text of the file there, and the templates. -/
def effect (c : Config) (current : Option Text) (file : Except Failure Text)
    (template : Action → Except Fault Template) : Event → Params Json × List Notification
  | opened uri version t => (.ok .null, [.diagnostics uri (Editor.diagnostics t) (some version)])
  | changed uri version texts =>
    (.ok .null, texts.getLast?.toList.map fun t =>
      .diagnostics uri (Editor.diagnostics t) (some version))
  | closed uri => (.ok .null, [.diagnostics uri [] none])
  | hover _ position =>
    (.ok ((current.bind fun t => (Editor.hover? t position).map hoverJson).getD .null), [])
  | outline _ =>
    (.ok (match current with
      | none => .null
      | some t => .array ((Editor.outline? t).map outlineJson).toList), [])
  | execute command uri => commandEffect command uri c (sourceText current file) template

/-- The answer of the server to a message that stands for an event, where `read` says what the files
hold. -/
def answer (m : Message) (read : Path → Except File.Fault Text) (c : Config)
    (current : Option Text) (e : Event) : Answer :=
  let (outcome, sent) := e.effect c current (fileText read e.uri) (Action.resolved read none c)
  .reply (Session.respond m outcome) sent

end Event

namespace Session

/-- The session behind an event. -/
def after (s : Session) : Event → Session
  | .opened uri _ t => s.put uri t
  | .changed uri _ texts =>
    match texts.getLast? with
    | some t => s.put uri t
    | none => s
  | .closed uri => s.close uri
  | .hover _ _ => s
  | .outline _ => s
  | .execute _ _ => s

/-- What an event does, or the failure to read it. -/
def take (read : Path → Except File.Fault Text) (s : Session) : Params Event → Effect
  | .ok e => (s.after e, e.effect s.config (s.find? e.uri) (fileText read e.uri)
      (Action.resolved read none s.config))
  | .error f => (s, .error f, [])

/-! ## Texts -/

theorem find?_close (s : Session) (u uri : Uri) :
    (s.close u).find? uri = if u.toText = uri.toText then none else s.find? uri := by
  rw [find?, find?, close, List.find?_filter]
  split
  · next h =>
    rw [Option.map_eq_none_iff, List.find?_eq_none]
    intro document _
    simp [h]
  · next h =>
    congr 2
    funext document
    by_cases hd : document.1 = uri.toText
    · simp [hd, Ne.symm h]
    · simp [hd]

theorem find?_put (s : Session) (u uri : Uri) (t : Text) :
    (s.put u t).find? uri = if u.toText = uri.toText then some t else s.find? uri := by
  have hclose := find?_close s u uri
  rw [find?] at hclose ⊢
  rw [put, List.find?_cons]
  by_cases h : u.toText = uri.toText
  · simp [h]
  · rw [if_neg h] at hclose ⊢
    rw [beq_false_of_ne h]
    exact hclose

/-- An event changes the text at an address as it says, and leaves all other texts. -/
theorem find?_after (s : Session) (e : Event) (uri : Uri) :
    (s.after e).find? uri = (e.text? uri).getD (s.find? uri) := by
  cases e with
  | opened u version t =>
    rw [after, find?_put, Event.text?]
    split <;> rfl
  | changed u version texts =>
    rw [after, Event.text?]
    cases texts.getLast? with
    | some t =>
      dsimp only
      rw [find?_put]
      split <;> rfl
    | none => simp
  | closed u =>
    rw [after, find?_close, Event.text?]
    split <;> rfl
  | hover u position => rfl
  | outline u => rfl
  | execute command u => rfl

@[simp] theorem phase_after (s : Session) (e : Event) : (s.after e).phase = s.phase := by
  cases e with
  | changed u version texts =>
    rw [after]
    cases texts.getLast? <;> rfl
  | _ => rfl

@[simp] theorem config_after (s : Session) (e : Event) : (s.after e).config = s.config := by
  cases e with
  | changed u version texts =>
    rw [after]
    cases texts.getLast? <;> rfl
  | _ => rfl

/-! ## Reading parameters and handling them -/

variable {read : Path → Except File.Fault Text} {s : Session}

theorem ofNotice_bind {α : Type} {x : Params α} {f : α → Params (Session × List Notification)}
    {g : α → Params Event} (h : ∀ a, ofNotice s (f a) = s.take read (g a)) :
    ofNotice s (x >>= f) = s.take read (x >>= g) := by
  cases x with
  | ok a => exact h a
  | error f => rfl

theorem opened_eq (params : Json) :
    ofNotice s (s.opened params) = s.take read (Event.readOpened params) := by
  refine ofNotice_bind fun document => ofNotice_bind fun address => ofNotice_bind fun uri => ?_
  refine ofNotice_bind fun language => ofNotice_bind fun _ => ofNotice_bind fun number => ?_
  refine ofNotice_bind fun version => ofNotice_bind fun content => ofNotice_bind fun t => ?_
  rfl

theorem changed_eq (params : Json) :
    ofNotice s (s.changed params) = s.take read (Event.readChanged params) := by
  refine ofNotice_bind fun document => ofNotice_bind fun address => ofNotice_bind fun uri => ?_
  refine ofNotice_bind fun number => ofNotice_bind fun version => ofNotice_bind fun changes => ?_
  refine ofNotice_bind fun changes => ofNotice_bind fun texts => ?_
  change _ = (s.after (.changed uri version texts), _)
  rw [after]
  dsimp only [Event.effect]
  cases texts.getLast? <;> rfl

theorem closed_eq (params : Json) : ofNotice s (s.closed params) =
    s.take read (do return .closed (← Params.document params)) :=
  ofNotice_bind fun _ => rfl

/-- A question leaves the session. -/
theorem ask_bind {α : Type} {x : Params α} {f : α → Params Json} {g : α → Params Event}
    (h : ∀ a, (s, f a, []) = s.take read (g a)) : (s, x >>= f, []) = s.take read (x >>= g) := by
  cases x with
  | ok a => exact h a
  | error f => rfl

theorem hover_eq (params : Json) :
    (s, s.hover params, []) = s.take read (Event.readHover params) := by
  refine ask_bind fun uri => ask_bind fun place => ask_bind fun position => ?_
  rfl

theorem outline_eq (params : Json) : (s, s.outline params, []) =
    s.take read (do return .outline (← Params.document params)) := by
  refine ask_bind fun uri => ?_
  change _ = (s, (Event.outline uri).effect s.config (s.find? uri) (fileText read uri)
    (Action.resolved read none s.config))
  dsimp only [Event.effect]
  cases s.find? uri <;> rfl

theorem runIn_execute_eq (params : Json) :
    (do let (result, sent) ← s.execute params; return (s, result, sent) : Job Effect).runIn fs st =
      (s.take (fs.read st) (do
        let (command, uri) ← target params
        return .execute command uri), st) := by
  rw [Job.runIn_bind]
  cases h : target params with
  | ok asked =>
    obtain ⟨command, uri⟩ := asked
    rw [runIn_execute h]
    rfl
  | error f =>
    rw [runIn_execute_of_error h]
    rfl

/-- Messages about documents are handled as the events that they stand for. -/
theorem runIn_handle {method : Method} {params : Json} {event : Params Event}
    (h : Event.read? params method = some event) :
    (s.handle method params).runIn fs st = (s.take (fs.read st) event, st) := by
  cases method with
  | didOpen =>
    cases h
    exact congrArg (·, st) (opened_eq params)
  | didChange =>
    cases h
    exact congrArg (·, st) (changed_eq params)
  | didClose =>
    cases h
    exact congrArg (·, st) (closed_eq params)
  | hover =>
    cases h
    exact congrArg (·, st) (hover_eq params)
  | documentSymbol =>
    cases h
    exact congrArg (·, st) (outline_eq params)
  | executeCommand =>
    cases h
    exact runIn_execute_eq params
  | _ => cases h

/-! ## Steps -/

/-- A running session accepts any message that may stand for an event. -/
theorem step_eq {m : Message} (hrunning : s.phase = .running) {event : Params Event} {params : Json}
    (h : Event.read? params (methodOf m.method) = some event) :
    s.step m = s.accept m (methodOf m.method) := by
  have hexited : s.phase ≠ .exited := by rw [hrunning]; decide
  rw [step, if_neg hexited]
  cases hm : methodOf m.method with
  | handshake => rw [hm] at h; cases h
  | shutdown => rw [hm] at h; cases h
  | exit => rw [hm] at h; cases h
  | unknown => rw [hm] at h; cases h
  | _ => exact if_pos hrunning

/-- A running session handles an event. -/
theorem runIn_step {m : Message} (hrunning : s.phase = .running) {e : Event}
    (h : m.event? = some e) : (s.step m).runIn fs st =
      ((s.after e, e.answer m (fs.read st) s.config (s.find? e.uri)), st) := by
  obtain ⟨params, hparams, event, hevent, h⟩ : ∃ params, m.params = some params ∧ ∃ event,
      Event.read? params (methodOf m.method) = some event ∧
        (if m.id.isSome = (methodOf m.method).isRequest then event.toOption else none) = some e := by
    simpa only [Message.event?, Option.bind_eq_bind, Option.bind_eq_some_iff] using h
  split at h
  · next hid =>
    obtain rfl : event = .ok e := by
      cases event with
      | ok e' => rw [Option.some.inj h]
      | error f => cases h
    have hrequest : ¬((methodOf m.method).isRequest ∧ m.id.isNone) := by
      rw [← hid]
      cases m.id <;> simp
    have hnotice : ¬(!(methodOf m.method).isRequest ∧ m.id.isSome) := by
      rw [← hid]
      cases m.id <;> simp
    rw [step_eq hrunning hevent, accept, if_neg hrequest, if_neg hnotice, hparams]
    dsimp only
    rw [Job.runIn_bind, runIn_handle hevent]
    rfl
  · cases h

/-- Parameters that stand for no event do nothing to a session that has begun. -/
theorem runIn_handle_of_silent {method : Method} {params : Json} (hbegun : method ≠ .handshake)
    (h : (Event.read? params method).bind Except.toOption = none) :
    ∃ outcome, (s.handle method params).runIn fs st = ((s, outcome), st) := by
  cases hread : Event.read? params method with
  | some event =>
    cases event with
    | ok e =>
      rw [hread] at h
      cases h
    | error f => exact ⟨_, runIn_handle hread⟩
  | none =>
    cases method with
    | handshake => exact absurd rfl hbegun
    | ready | shutdown | exit | otherRequest | otherNotification | unknown => exact ⟨_, rfl⟩
    | didOpen | didChange | didClose | hover | documentSymbol | executeCommand => cases hread

theorem runIn_accept_of_silent {m : Message} (hbegun : methodOf m.method ≠ .handshake)
    (h : m.event? = none) :
    ∃ answer, (s.accept m (methodOf m.method)).runIn fs st = ((s, answer), st) := by
  rw [accept]
  split
  · exact ⟨_, rfl⟩
  · next hrequest =>
    split
    · exact ⟨_, rfl⟩
    · next hnotice =>
      cases hparams : m.params with
      | none => exact ⟨_, rfl⟩
      | some params =>
        have hid : m.id.isSome = (methodOf m.method).isRequest := by
          revert hrequest hnotice
          cases (methodOf m.method).isRequest <;> cases m.id <;> simp
        have hsilent : (Event.read? params (methodOf m.method)).bind Except.toOption = none := by
          rw [Message.event?, hparams] at h
          simpa only [hid, if_true, Option.bind_eq_bind, Option.bind_some] using h
        obtain ⟨outcome, houtcome⟩ : ∃ outcome,
            (s.handle (methodOf m.method) params).runIn fs st = ((s, outcome), st) :=
          runIn_handle_of_silent hbegun hsilent
        dsimp only
        rw [Job.runIn_bind, houtcome]
        exact ⟨_, rfl⟩

/-- A running session is left as it is by a message that stands for no event, unless it is asked to
end. -/
theorem runIn_step_of_silent {m : Message} (hrunning : s.phase = .running) (h : m.event? = none)
    (hstays : methodOf m.method ≠ .shutdown ∧ methodOf m.method ≠ .exit) :
    ∃ answer, (s.step m).runIn fs st = ((s, answer), st) := by
  have hexited : s.phase ≠ .exited := by rw [hrunning]; decide
  have hfresh : s.phase ≠ .fresh := by rw [hrunning]; decide
  rw [step, if_neg hexited]
  cases hm : methodOf m.method with
  | shutdown => exact absurd hm hstays.1
  | exit => exact absurd hm hstays.2
  | unknown => exact ⟨_, rfl⟩
  | handshake =>
    dsimp only
    rw [if_neg hfresh]
    exact ⟨_, rfl⟩
  | _ =>
    dsimp only
    rw [if_pos hrunning, ← hm]
    exact runIn_accept_of_silent (by rw [hm]; nofun) h

end Session
end Server
end Pinout
