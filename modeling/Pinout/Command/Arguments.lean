import Pinout.Text.Basic

/-!
# Pinout.Command.Arguments

The arguments of the command line. Switches may be joined behind one hyphen, and a value may stand
in the argument of its option or in the next one.

An option that takes a value waits for it: what is wrong with the value, or with its absence, shows
when the next argument is understood. An argument that is not understood is told of first.
-/

namespace Pinout
namespace Command

/-- What is to be made of the source. -/
inductive Action where
  | instantiation
  | testbench
  | preview
  | exportPage
  | dump
  deriving DecidableEq, Repr

inductive Switch where
  | action (a : Action)
  | toTemp
  | verbose
  | help
  | version
  deriving DecidableEq, Repr

/-- What takes a value: three options, and the file without an option. -/
inductive Slot where
  | template
  | output
  | config
  | file
  deriving DecidableEq, Repr

inductive UsageFault where
  | unknownArgument
  | missingValue
  | unwantedValue
  | conflict
  | noAction
  deriving DecidableEq, Repr

/-- Why the arguments ask for no run: the help and the version are shown instead. -/
inductive Stop where
  | help
  | version
  | fault (f : UsageFault)
  deriving DecidableEq, Repr

inductive Key where
  | switch (s : Switch)
  | slot (s : Slot)
  deriving DecidableEq, Repr

/-- The letters of options. -/
def shortKey? (c : Char) : Option Key :=
  if c = 'i' then some (.switch (.action .instantiation))
  else if c = 't' then some (.switch (.action .testbench))
  else if c = 'p' then some (.switch (.action .preview))
  else if c = 'e' then some (.switch (.action .exportPage))
  else if c = 'd' then some (.switch (.action .dump))
  else if c = 'T' then some (.slot .template)
  else if c = 'o' then some (.slot .output)
  else if c = 'v' then some (.switch .verbose)
  else if c = 'h' then some (.switch .help)
  else if c = 'V' then some (.switch .version)
  else none

/-- The names of options. -/
def longKey? (name : Text) : Option Key :=
  match String.ofList name with
  | "instantiation" => some (.switch (.action .instantiation))
  | "testbench" => some (.switch (.action .testbench))
  | "preview" => some (.switch (.action .preview))
  | "export" => some (.switch (.action .exportPage))
  | "dump" => some (.switch (.action .dump))
  | "template" => some (.slot .template)
  | "output" => some (.slot .output)
  | "to-temp" => some (.switch .toTemp)
  | "config" => some (.slot .config)
  | "verbose" => some (.switch .verbose)
  | "help" => some (.switch .help)
  | "version" => some (.switch .version)
  | _ => none

/-- What was given so far, the latest first, and the slot that waits for a value or has one that
nobody looked at yet. -/
structure Progress where
  switches : List Switch
  values : List (Slot × Text)
  pending : Option (Slot × Option Text)

abbrev Step := Except Stop Progress

namespace Progress

def start : Progress := ⟨[], [], none⟩

def fail {α : Type} (f : UsageFault) : Except Stop α := .error (.fault f)

def isGiven (p : Progress) (slot : Slot) : Bool := p.values.any (·.1 == slot)

/-- Gives a slot its value, which must not be empty. -/
def fill (p : Progress) (slot : Slot) (value : Text) : Step :=
  if p.isGiven slot then fail .conflict
  else if value = [] then fail .missingValue
  else .ok { p with values := (slot, value) :: p.values }

/-- Settles the slot that is waiting. -/
def settle (p : Progress) : Step :=
  match p.pending with
  | none => .ok p
  | some (_, none) => fail .missingValue
  | some (slot, some value) => { p with pending := none }.fill slot value

def turnOn (p : Progress) (s : Switch) : Step := do
  let p ← p.settle
  match s with
  | .help => .error .help
  | .version => .error .version
  | s => if s ∈ p.switches then fail .conflict else .ok { p with switches := s :: p.switches }

/-- A slot with a value in the same argument. -/
def attach (p : Progress) (slot : Slot) (value : Text) : Step := do (← p.settle).fill slot value

/-- A slot whose value is the next argument. -/
def expect (p : Progress) (slot : Slot) : Step := do
  return { ← p.settle with pending := some (slot, none) }

/-- Whether the last argument was an option that waits for a value. -/
def isWaiting (p : Progress) : Bool :=
  match p.pending with
  | some (_, none) => true
  | _ => false

/-- An argument that is a value for the slot that waits, or else the file. -/
def plain (p : Progress) (value : Text) : Step :=
  match p.pending with
  | some (slot, none) => .ok { p with pending := some (slot, some value) }
  | some (.file, some _) => fail .unknownArgument
  | _ =>
    if p.isGiven .file then fail .unknownArgument
    else do return { ← p.settle with pending := some (.file, some value) }

def dropEquals : Text → Text
  | '=' :: t => t
  | t => t

/-- The letters of one argument; behind the letter of a slot stands its value. -/
def letters (p : Progress) : Text → Step
  | [] => .ok p
  | c :: t =>
    match shortKey? c with
    | some (.switch s) => do (← p.turnOn s).letters t
    | some (.slot slot) => if t = [] then p.expect slot else p.attach slot (dropEquals t)
    | none => fail .unknownArgument

/-- An option with its name, and with the value behind a sign of equality if there is one. -/
def named (p : Progress) (name : Text) (value : Option Text) : Step :=
  match longKey? name, value with
  | some (.switch s), none => p.turnOn s
  | some (.switch _), some _ => fail .unwantedValue
  | some (.slot slot), some value => p.attach slot value
  | some (.slot slot), none => p.expect slot
  | none, _ => fail .unknownArgument

def option (p : Progress) (t : Text) : Step :=
  match Text.splitAround? ['='] t with
  | some (name, value) => p.named name (some value)
  | none => p.named t none

/-- The arguments behind `--`: no option is among them, and no slot gets its value there. -/
def remaining (p : Progress) : List Text → Step
  | [] => p.settle
  | value :: rest =>
    if p.isWaiting then fail (if p.isGiven .file then .unknownArgument else .missingValue)
    else do (← p.plain value).remaining rest

def read (p : Progress) : List Text → Step
  | [] => p.settle
  | ['-', '-'] :: rest => p.remaining rest
  | ('-' :: '-' :: t) :: rest => do (← p.option t).read rest
  | ('-' :: c :: t) :: rest => do (← p.letters (c :: t)).read rest
  | value :: rest => do (← p.plain value).read rest

end Progress

/-- Where the text goes. -/
inductive Target where
  | standardOutput
  | file (path : Text)
  | scratch
  deriving DecidableEq, Repr

/-- What the arguments ask for. -/
structure Request where
  action : Action
  file : Option Text
  template : Option Text
  output : Option Text
  toTemp : Bool
  config : Option Text
  verbose : Bool
  deriving DecidableEq, Repr

namespace Request

def actions (switches : List Switch) : List Action :=
  switches.filterMap fun
    | .action a => some a
    | _ => none

/-- Exactly one action is asked for, and not two places for the text. -/
def ofProgress (p : Progress) : Except Stop Request :=
  let value (slot : Slot) : Option Text := (p.values.find? (·.1 == slot)).map (·.2)
  let toTemp := p.switches.contains .toTemp
  match actions p.switches with
  | _ :: _ :: _ => Progress.fail .conflict
  | chosen =>
    if toTemp && p.isGiven .output then Progress.fail .conflict
    else
      match chosen with
      | a :: _ =>
        .ok ⟨a, value .file, value .template, value .output, toTemp, value .config,
          p.switches.contains .verbose⟩
      | [] => Progress.fail .noAction

def ofArguments (arguments : List Text) : Except Stop Request := do
  ofProgress (← Progress.start.read arguments)

end Request
end Command
end Pinout
