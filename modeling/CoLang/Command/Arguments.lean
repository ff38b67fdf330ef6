import CoLang.Command.Basic
/-!
# Reading the command line

The arguments are read from left to right. The value of an option or the file of a task is only
looked at when the next option, the next task word or the end comes, so of two mistakes the one that
is looked at first is reported.
-/

namespace CoLang.Arguments

/-- Why a command line is no command, or that help is wanted. -/
inductive Refusal where
  | help
  | nothingGiven
  | missingTask
  | unknownTask
  | missingFile
  | unknownArgument
  | missingValue
  | badNumber
  | repeated
  | unwantedValue
deriving DecidableEq, Repr, Inhabited

/-- A refusal as it is reported. -/
def Refusal.label : Refusal → String
  | .help => "DisplayHelp"
  | .nothingGiven => "DisplayHelpOnMissingArgumentOrSubcommand"
  | .missingTask => "MissingSubcommand"
  | .unknownTask => "InvalidSubcommand"
  | .missingFile => "MissingRequiredArgument"
  | .unknownArgument => "UnknownArgument"
  | .missingValue => "InvalidValue"
  | .badNumber => "ValueValidation"
  | .repeated => "ArgumentConflict"
  | .unwantedValue => "TooManyValues"

/-- What a value can be given for. -/
inductive Slot where
  | config
  | trace
  | maxCallDepth
  | file
deriving DecidableEq, Repr, Inhabited

/-- The task words. -/
inductive Word where
  | run
  | check
deriving DecidableEq, Repr, Inhabited

/-- The task of a word. -/
def Word.ofText? : String → Option Word
  | "run" => some .run
  | "check" => some .check
  | _ => none

/-- What has been read. -/
structure State where
  config : Option String
  trace : Option String
  maxCallDepth : Option Nat
  file : Option String
  /-- What was named last, with its value if that has come, and not looked at yet. -/
  pending : Option (Slot × Option String)
  /-- Whether only values follow. -/
  onlyValues : Bool
deriving Inhabited

/-- Nothing read yet. -/
def State.start : State := ⟨none, none, none, none, none, false⟩

namespace State

/-- Sets a text that must not be empty and not have been set before. -/
def setText (old : Option String) (value : String) : Except Refusal (Option String) :=
  if old.isSome then .error .repeated
  else if value = "" then .error .missingValue
  else .ok (some value)

/-- Gives a value to a slot. -/
def set (s : State) (slot : Slot) (value : String) : Except Refusal State :=
  match slot with
  | .config => do return { s with config := ← setText s.config value }
  | .trace => do return { s with trace := ← setText s.trace value }
  | .file => do return { s with file := ← setText s.file value }
  | .maxCallDepth =>
    if s.maxCallDepth.isSome then .error .repeated
    else
      match Config.Item.count? value with
      | some n => .ok { s with maxCallDepth := some n }
      | none => .error .badNumber

/-- Looks at what is pending. -/
def settle (s : State) : Except Refusal State :=
  match s.pending with
  | none => .ok s
  | some (_, none) => .error .missingValue
  | some (slot, some value) => { s with pending := none }.set slot value

end State

/-- The option of a name, for a task or in front of one. -/
def optionOf? (word : Option Word) (name : String) : Option Slot :=
  match name with
  | "config" => some .config
  | "trace" => if word = some .run then some .trace else none
  | "max-call-depth" => if word = some .run then some .maxCallDepth else none
  | _ => none

/-- Splits an argument at its first equals sign. -/
def splitEquals (cs : List Char) : String × Option String :=
  let name := cs.takeWhile (· != '=')
  match cs.drop name.length with
  | [] => (String.ofList name, none)
  | _ :: value => (String.ofList name, some (String.ofList value))

/-- An argument that begins with two hyphens. -/
def longOption (word : Option Word) (s : State) (cs : List Char) : Except Refusal State :=
  let (name, value) := splitEquals cs
  if name = "help" then
    match value with
    | some _ => .error .unwantedValue
    | none => do
      let _ ← s.settle
      .error .help
  else
    match optionOf? word name with
    | none => .error .unknownArgument
    | some slot => do
      let s ← s.settle
      match value with
      | some value => s.set slot value
      | none => return { s with pending := some (slot, none) }

/-- An argument that begins with one hyphen. Only help has such a name. -/
def shortOption (s : State) (cs : List Char) : Except Refusal State :=
  if cs.head? = some 'h' then do
    let _ ← s.settle
    .error .help
  else .error .unknownArgument

/-- What an argument looks like. -/
inductive Shape where
  | end_
  | long (name : List Char)
  | short (name : List Char)
  | value

/-- The shape of an argument. A single hyphen is a value. -/
def shapeOf (arg : String) : Shape :=
  match arg.toList with
  | ['-', '-'] => .end_
  | '-' :: '-' :: name => .long name
  | ['-'] => .value
  | '-' :: name => .short name
  | _ => .value

/-- A value where a file is expected. There is only one. -/
def positional (s : State) (value : String) : Except Refusal State :=
  match s.file, s.pending with
  | none, some (.file, _) => .error .unknownArgument
  | some _, _ => .error .unknownArgument
  | none, _ => do
    let s ← s.settle
    return { s with pending := some (.file, some value) }

/-- Reads the arguments of a task. -/
def readTask (word : Word) : State → List String → Except Refusal State
  | s, [] => s.settle
  | s, arg :: rest => do
    let s ←
      if s.onlyValues then positional s arg
      else
        match shapeOf arg with
        | .end_ => .ok { s with onlyValues := true }
        | .long name => longOption (some word) s name
        | .short name => shortOption s name
        | .value =>
          match s.pending with
          | some (slot, none) => .ok { s with pending := some (slot, some arg) }
          | _ => positional s arg
    readTask word s rest

/-- The task that was read. -/
def taskOf (word : Word) (s : State) : Except Refusal Task :=
  match s.file with
  | none => .error .missingFile
  | some file =>
    match word with
    | .run => .ok (.run file s.trace s.maxCallDepth)
    | .check => .ok (.check file)

/-- What the words behind `help` ask for. -/
def helpFor : List String → Refusal
  | [] => .help
  | [word] => if (Word.ofText? word).isSome || word = "help" then .help else .unknownTask
  | _ => .unknownTask

/-- Reads a command line. The configuration may be named in front of the task and behind it, and the
name behind it counts. -/
def read : State → List String → Except Refusal Invocation
  | s, [] => do
    let s ← s.settle
    .error (if s.config.isSome then .missingTask else .nothingGiven)
  | s, arg :: rest =>
    if s.onlyValues then
      .error (if (Word.ofText? arg).isSome || arg = "help" then .unknownArgument else .unknownTask)
    else
      match shapeOf arg with
      | .end_ => read { s with onlyValues := true } rest
      | .long name => do read (← longOption none s name) rest
      | .short name => do read (← shortOption s name) rest
      | .value =>
        match s.pending with
        | some (slot, none) => read { s with pending := some (slot, some arg) } rest
        | _ =>
          match Word.ofText? arg with
          | some word => do
            let inner ← readTask word .start rest
            let task ← taskOf word inner
            let s ← s.settle
            return { config := inner.config.or s.config, task }
          | none => .error (if arg = "help" then helpFor rest else .unknownTask)

/-- The command that the arguments are. -/
def parse (args : List String) : Except Refusal Invocation :=
  read .start args

end CoLang.Arguments
