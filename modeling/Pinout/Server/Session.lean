import Pinout.Command.Generate
import Pinout.Server.Message

/-!
# Pinout.Server.Session

A session with an editor. The server keeps the phase of the session, the text of every open
document, and the settings that it found when the session began; `Session.step` handles one
message.

Documents are kept under their addresses in normal form. A change brings the whole text.
-/

namespace Pinout
namespace Server

open File (Job Path)

inductive Phase where
  | fresh
  | running
  | stopped
  | exited
  deriving DecidableEq, Repr

/-- Why a phase has no place for a message. -/
def Phase.refusal : Phase → Failure
  | .fresh => .notInitialized
  | _ => .invalidRequest

structure Session where
  phase : Phase
  documents : List (Text × Text)
  config : Config

/-- What the server sends for a message: nothing at all once it has exited. -/
inductive Answer where
  | exited
  | reply (response : Option Response) (sent : List Notification)

/-! ## Notifications -/

namespace Notification

/-- A line for the log of the editor, as a warning or as information. -/
def log (kind : Int) (message : Text) : Notification :=
  ⟨"window/logMessage", .record [("type", .int kind), ("message", .string message)]⟩

def warning (message : Text) : Notification := log 2 message

def information (message : Text) : Notification := log 3 message

def diagnostics (uri : Uri) (ds : List Editor.Diagnostic) (version : Option Int) : Notification :=
  ⟨"textDocument/publishDiagnostics",
    .record ([("uri", .string uri.toText), ("diagnostics", .array (ds.map diagnosticJson))] ++
      match version with
      | some v => [("version", .int v)]
      | none => [])⟩

end Notification

/-! ## Commands -/

def instantiationCommand : Text := "hdldoc.instantiation".toList

def testbenchCommand : Text := "hdldoc.testbench".toList

def documentationCommand : Text := "hdldoc.documentation".toList

def commands : List Text := [instantiationCommand, testbenchCommand, documentationCommand]

/-- A fault on the way to a text is the server's own. -/
def internal {α : Type} (a : Attempt α) : ExceptT Failure Job α :=
  a.adapt fun f => .internal f.message

/-- The text that a command gives for a source; without a module there is no page, whatever the
template is. -/
def commandText (command : Text) (c : Config) (e : Extraction) : ExceptT Failure Job Text :=
  if command = instantiationCommand then
    return Snippet.instantiation c.instancePrefix e.signature
  else if command = testbenchCommand then do
    let t ← internal (Template.resolve Snippet.defaultTestbench c.testbenchTemplate)
    internal (Attempt.rendered (Snippet.testbench t e.signature))
  else if command = documentationCommand then
    if e.signature.isAbsent then return []
    else do
      let t ← internal (Template.resolve Page.defaultPage c.pageTemplate)
      internal (Attempt.rendered (Page.page t c.waveScripts e.signature e.document))
  else throw (.invalidParams ("unknown command: ".toList ++ command))

namespace Session

def start : Session := ⟨.fresh, [], Config.defaults⟩

def find? (uri : Uri) (s : Session) : Option Text :=
  (s.documents.find? (·.1 == uri.toText)).map (·.2)

def close (uri : Uri) (s : Session) : Session :=
  { s with documents := s.documents.filter (·.1 != uri.toText) }

def put (uri : Uri) (t : Text) (s : Session) : Session :=
  { s with documents := (uri.toText, t) :: (s.close uri).documents }

/-! ## Requests -/

/-- The address of a folder, which has a name as well. -/
def folder (j : Json) : Params Uri := do
  let uri ← Params.uri (← Params.field "uri" j)
  let _ ← Params.text (← Params.field "name" j)
  return uri

/-- The directory whose settings count: the first folder, or else the root. -/
def workspace? (params : Json) : Params (Option Path) := do
  let root ← (Params.optional "rootUri" params).mapM Params.uri
  let folders ← match Params.optional "workspaceFolders" params with
    | some folders => (← Params.list folders).mapM folder
    | none => pure []
  return (folders.head? <|> root) >>= Uri.toPath?

def capabilities : Json :=
  .record [
    ("capabilities", .record [
      ("textDocumentSync", .int 1), ("hoverProvider", .bool true),
      ("documentSymbolProvider", .bool true),
      ("executeCommandProvider", .record [("commands", .ofTexts commands)])]),
    ("serverInfo", .record [
      ("name", .literal "hdldoc-language-server"), ("version", .literal "0.1.0")])]

/-- Looks for settings in a directory; settings that cannot be read are left out with a warning. -/
def configure (directory : Option Path) : Job (Config × List Notification) := do
  match directory with
  | none => return (Config.defaults, [])
  | some directory =>
    match ← (Config.discover directory).run with
    | .ok c => return (c, [])
    | .error f => return (Config.defaults, [.warning f.message])

def hover (s : Session) (params : Json) : Params Json := do
  let uri ← Params.document params
  let position ← Params.position (← Params.field "position" params)
  return ((s.find? uri).bind fun t => (Editor.hover? t position).map hoverJson).getD .null

def outline (s : Session) (params : Json) : Params Json := do
  let uri ← Params.document params
  match s.find? uri with
  | none => return .null
  | some t => return .array ((Editor.outline? t).map outlineJson).toList

/-- What is extracted from an open document, or else from the file at its address. -/
def extract (s : Session) (uri : Uri) : Job (Except Failure Extraction) := do
  match s.find? uri, uri.toPath? with
  | some t, _ => return .ok (Extraction.ofSource t)
  | none, none => return .error (.invalidParams ("not a file URI: ".toList ++ uri.toText))
  | none, some path =>
    match ← (Attempt.read path).run with
    | .ok t => return .ok (Extraction.ofSource t)
    | .error f => return .error (.internal f.message)

/-- The command of a request and its arguments. -/
def commandParams (params : Json) : Params (Text × List Json) := do
  let command ← Params.text (← Params.field "command" params)
  let arguments ← match params.field? "arguments".toList with
    | some vs => Params.list vs
    | none => pure []
  return (command, arguments)

/-- The document that a command is about. -/
def commandDocument : List Json → Params Uri
  | .string t :: _ =>
    match Uri.read t with
    | .ok uri => .ok uri
    | .error _ => Params.fail "expected a document URI argument".toList
  | _ => Params.fail "expected a document URI argument".toList

def execute (s : Session) (params : Json) : Job (Params Json × List Notification) := do
  let target : Params (Text × Uri) := do
    let (command, arguments) ← commandParams params
    return (command, ← commandDocument arguments)
  match target with
  | .error f => return (.error f, [])
  | .ok (command, uri) =>
    match ← s.extract uri with
    | .error f => return (.error f, [])
    | .ok e =>
      match ← (commandText command s.config e).run with
      | .error f => return (.error f, [])
      | .ok t =>
        let note := command ++ " for ".toList ++ uri.toText ++ ": ".toList ++
          Text.decimal (Text.byteLength t) ++ " bytes".toList
        return (.ok (.string t), [.information note])

/-! ## Notifications from the editor -/

/-- A document has a new text. -/
def update (s : Session) (uri : Uri) (t : Text) (version : Int) : Session × List Notification :=
  (s.put uri t, [.diagnostics uri (Editor.diagnostics t) (some version)])

def opened (s : Session) (params : Json) : Params (Session × List Notification) := do
  let document ← Params.field "textDocument" params
  let uri ← Params.uri (← Params.field "uri" document)
  let _ ← Params.text (← Params.field "languageId" document)
  let version ← Params.integer (← Params.field "version" document)
  let t ← Params.text (← Params.field "text" document)
  return s.update uri t version

/-- The last change counts; without changes nothing happens. -/
def changed (s : Session) (params : Json) : Params (Session × List Notification) := do
  let document ← Params.field "textDocument" params
  let uri ← Params.uri (← Params.field "uri" document)
  let version ← Params.integer (← Params.field "version" document)
  let changes ← (← Params.list (← Params.field "contentChanges" params)).mapM fun c => do
    Params.text (← Params.field "text" c)
  match changes.getLast? with
  | some t => return s.update uri t version
  | none => return (s, [])

def closed (s : Session) (params : Json) : Params (Session × List Notification) := do
  let uri ← Params.document params
  return (s.close uri, [.diagnostics uri [] none])

/-! ## Messages -/

/-- Requests of the protocol that the server knows by name only. -/
def otherRequests : List Text :=
  ["textDocument/willSaveWaitUntil", "textDocument/declaration", "textDocument/definition",
    "textDocument/typeDefinition", "textDocument/implementation", "textDocument/references",
    "textDocument/prepareCallHierarchy", "callHierarchy/incomingCalls",
    "callHierarchy/outgoingCalls", "textDocument/prepareTypeHierarchy",
    "typeHierarchy/supertypes", "typeHierarchy/subtypes", "textDocument/documentHighlight",
    "textDocument/documentLink", "documentLink/resolve", "textDocument/codeLens",
    "codeLens/resolve", "textDocument/foldingRange", "textDocument/selectionRange",
    "textDocument/semanticTokens/full", "textDocument/semanticTokens/full/delta",
    "textDocument/semanticTokens/range", "textDocument/inlineValue", "textDocument/inlayHint",
    "inlayHint/resolve", "textDocument/moniker", "textDocument/completion",
    "completionItem/resolve", "textDocument/diagnostic", "workspace/diagnostic",
    "textDocument/signatureHelp", "textDocument/codeAction", "codeAction/resolve",
    "textDocument/documentColor", "textDocument/colorPresentation", "textDocument/formatting",
    "textDocument/rangeFormatting", "textDocument/onTypeFormatting", "textDocument/rename",
    "textDocument/prepareRename", "textDocument/linkedEditingRange", "workspace/symbol",
    "workspaceSymbol/resolve", "workspace/willCreateFiles", "workspace/willRenameFiles",
    "workspace/willDeleteFiles"].map String.toList

/-- Notifications of the protocol that the server knows and passes over. -/
def otherNotifications : List Text :=
  ["textDocument/willSave", "textDocument/didSave", "workspace/didChangeConfiguration",
    "workspace/didChangeWorkspaceFolders", "workspace/didCreateFiles",
    "workspace/didRenameFiles", "workspace/didDeleteFiles", "workspace/didChangeWatchedFiles",
    "$/cancelRequest"].map String.toList

/-- What a method is for. -/
inductive Method where
  | handshake
  | ready
  | shutdown
  | exit
  | didOpen
  | didChange
  | didClose
  | hover
  | documentSymbol
  | executeCommand
  | otherRequest
  | otherNotification
  | unknown
  deriving DecidableEq, Repr

def methodOf (name : Text) : Method :=
  match String.ofList name with
  | "initialize" => .handshake
  | "initialized" => .ready
  | "shutdown" => .shutdown
  | "exit" => .exit
  | "textDocument/didOpen" => .didOpen
  | "textDocument/didChange" => .didChange
  | "textDocument/didClose" => .didClose
  | "textDocument/hover" => .hover
  | "textDocument/documentSymbol" => .documentSymbol
  | "workspace/executeCommand" => .executeCommand
  | _ =>
    if otherRequests.contains name then .otherRequest
    else if otherNotifications.contains name then .otherNotification
    else .unknown

def Method.isRequest : Method → Bool
  | .handshake | .shutdown | .hover | .documentSymbol | .executeCommand | .otherRequest => true
  | _ => false

/-- What a message does: to the session, and what is sent. -/
abbrev Effect := Session × Params Json × List Notification

def ofNotice (s : Session) : Params (Session × List Notification) → Effect
  | .ok (s, sent) => (s, .ok .null, sent)
  | .error f => (s, .error f, [])

/-- Handles a message with parameters. -/
def handle (s : Session) (method : Method) (params : Json) : Job Effect := do
  match method with
  | .handshake =>
    let root : Params (Option Path) := do
      let _ ← Params.field "capabilities" params
      workspace? params
    match root with
    | .error f => return (s, .error f, [])
    | .ok directory =>
      let (c, sent) ← configure directory
      return ({ s with phase := .running, config := c }, .ok capabilities, sent)
  | .ready =>
    return (s, .ok .null, [.information "hdldoc language server initialized".toList])
  | .didOpen => return ofNotice s (s.opened params)
  | .didChange => return ofNotice s (s.changed params)
  | .didClose => return ofNotice s (s.closed params)
  | .hover => return (s, s.hover params, [])
  | .documentSymbol => return (s, s.outline params, [])
  | .executeCommand =>
    let (result, sent) ← s.execute params
    return (s, result, sent)
  | .otherNotification => return (s, .ok .null, [])
  | .otherRequest | .unknown | .shutdown | .exit => return (s, .error .methodNotFound, [])

/-- The response to a message, if it wants one. -/
def respond (m : Message) (outcome : Params Json) : Option Response :=
  m.id.map fun id => ⟨id, outcome⟩

def refuse (s : Session) (m : Message) (f : Failure) : Session × Answer :=
  (s, .reply (respond m (.error f)) [])

/-- A message in the phase for it. A request without an identifier is passed over, and so is a
notification whose parameters cannot be read. -/
def accept (s : Session) (m : Message) (method : Method) : Job (Session × Answer) := do
  if method.isRequest ∧ m.id.isNone then return (s, .reply none [])
  else if !method.isRequest ∧ m.id.isSome then return s.refuse m .invalidRequest
  else
    match m.params with
    | none => return s.refuse m (.invalidParams "Missing params field".toList)
    | some params =>
      let (s, outcome, sent) ← s.handle method params
      return (s, .reply (respond m outcome) sent)

def stop (s : Session) (m : Message) : Session × Answer :=
  let s := { s with phase := .stopped }
  match m.params with
  | none => (s, .reply (respond m (.ok .null)) [])
  | some params =>
    s.refuse m (.invalidParams ("Unexpected params: ".toList ++ params.compact))

/-- Handles one message. -/
def step (s : Session) (m : Message) : Job (Session × Answer) :=
  if s.phase = .exited then return (s, .exited)
  else
    match methodOf m.method with
    | .unknown => return s.refuse m (.unknownMethod m.method)
    | .exit => return ({ s with phase := .exited }, .reply none [])
    | .handshake =>
      if s.phase = .fresh then s.accept m .handshake else return s.refuse m .invalidRequest
    | .shutdown =>
      if s.phase = .running then return s.stop m else return s.refuse m s.phase.refusal
    | method => if s.phase = .running then s.accept m method else return s.refuse m s.phase.refusal

/-- Handles messages one after another. -/
def run (s : Session) : List Message → Job (List Answer)
  | [] => return []
  | m :: ms => do
    let (s, answer) ← s.step m
    return answer :: (← s.run ms)

end Session
end Server
end Pinout
