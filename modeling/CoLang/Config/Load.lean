import CoLang.Config.Place
import CoLang.Config.Toml
import CoLang.Path
import CoLang.World
/-!
# Loading the configuration

Four sources are laid over one another: the defaults, a file, the environment and the caller's own
wishes. What comes out must be readable and within limits.
-/

namespace CoLang

/-- The configuration of a run. -/
structure Config where
  settings : Settings
  /-- How much is logged. -/
  level : String
deriving DecidableEq, Repr, Inhabited

namespace Config

/-- The largest depth of calls that may be asked for. -/
def maxCallDepthLimit : Nat := 100000

/-- Why a configuration is refused. -/
inductive LoadError where
  /-- A source cannot be found or read, with what is said of it. -/
  | unreadable (cause : String)
  | depthTooSmall
  | depthTooLarge
deriving DecidableEq, Repr, Inhabited

/-- What a refusal says, and behind it what caused it. -/
def LoadError.messages : LoadError → List String
  | .unreadable cause => ["failed to load configuration: " ++ cause, cause]
  | .depthTooSmall => ["invalid configuration: runtime.max_call_depth must be at least 1"]
  | .depthTooLarge =>
    [s!"invalid configuration: runtime.max_call_depth must be at most {maxCallDepthLimit}"]

/-! ## Sources -/

/-- The defaults. -/
def defaults : Item :=
  .table [
    ("runtime", .table [("max_call_depth", .int 256), ("trace_process", .bool true)]),
    ("logging", .table [("level", .str "warn")])]

/-- The name in front of the names of all variables that count. -/
def variableMark : String := "green_"

/-- The entry that an environment variable stands for. Names are taken in lower case, and two
underscores stand for a dot. -/
def variablePlace? (name : String) : Option (List Step) :=
  let cs := name.toList.map Char.toLower
  let mark := variableMark.toList
  if cs.take mark.length = mark then
    some (Step.ofText (".".intercalate ((String.ofList (cs.drop mark.length)).splitOn "__")))
  else none

/-- The value of an environment variable: a truth value, a whole number, a float or a text,
whichever fits first. -/
def variableItem (value : String) : Item :=
  match Item.lower value with
  | "true" => .bool true
  | "false" => .bool false
  | _ =>
    match Item.word? value with
    | some n => .int n
    | none =>
      match Decimal.readFloat value with
      | some x => .float x
      | none => .str value

/-- The extension of configuration files. -/
def fileExtension : String := "toml"

/-- The text of a configuration file, given how files are read. A file of exactly that name must be
a TOML file. If there is none, the name is tried with the extension added. -/
def findFile (read : String → Option String) (path : String) : Option String :=
  match read path with
  | some text => if Path.extension? path = some fileExtension then some text else none
  | none => (Path.withExtension? path fileExtension).bind read

/-- The file that is read when none is named. -/
def defaultFile : String := "green"

/-- What a caller asks for. -/
structure Request where
  /-- The file to read, which must exist. -/
  path : Option String
  maxCallDepth : Option Nat
  traceProcess : Option Bool
  level : Option String
  /-- Whether environment variables are left alone. -/
  skipVariables : Bool
deriving Inhabited

/-- A request that leaves everything to the other sources. -/
def Request.none : Request := ⟨.none, .none, .none, .none, false⟩

/-- A text without a byte order mark in front. -/
def withoutMark (text : String) : String :=
  String.ofList (Toml.skipMark text.toList)

/-- The tables of the file. -/
def fileItem (read : String → Option String) (path : Option String) : Option Item :=
  match path with
  | some path => do Toml.parse? (withoutMark (← findFile read path))
  | none =>
    match findFile read defaultFile with
    | some text => Toml.parse? (withoutMark text)
    | none => some (.table [])

/-- Stores the entries of a file. The names at its top address places. -/
def storeFile (base file : Item) : Item :=
  file.entries.foldl (fun base e => e.2.store (Step.ofText e.1) base) base

/-- Stores environment variables. -/
def storeVariables (base : Item) (vars : Assoc String) : Item :=
  vars.foldl (fun base v =>
    match variablePlace? v.1 with
    | some place => (variableItem v.2).store place base
    | none => base) base

/-- Stores the caller's wishes. A depth is taken as a signed word. -/
def storeRequest (base : Item) (r : Request) : Item :=
  let wishes : Assoc Item :=
    (r.maxCallDepth.map fun n => ("runtime.max_call_depth", .int (Int64.ofNat n))).toList
      ++ (r.traceProcess.map fun b => ("runtime.trace_process", .bool b)).toList
      ++ (r.level.map fun s => ("logging.level", .str s)).toList
  wishes.foldl (fun base w => w.2.store (Step.ofText w.1) base) base

/-! ## Reading the result -/

/-- The entries of a section, which may also be given as a list in the order of its names. -/
def sectionEntries? (names : List String) : Item → Option (Assoc Item)
  | .table entries => some entries
  | .list items => some (names.zip items)
  | _ => none

/-- An entry of a section, or its default. -/
def entry {α : Type} (entries : Assoc Item) (name : String) (missing : α)
    (read : Item → Option α) : Option α :=
  match entries.get? name with
  | some item => read item
  | none => some missing

/-- The section of a name. A missing one is empty. -/
def sectionOf (root : Item) (name : String) (names : List String) :
    Option (Assoc Item) :=
  match root.entries.get? name with
  | some item => sectionEntries? names item
  | none => some []

/-- Reads a configuration off a tree. -/
def ofItem? (root : Item) : Option Config := do
  let runtime ← sectionOf root "runtime" ["max_call_depth", "trace_process"]
  let logging ← sectionOf root "logging" ["level"]
  let maxCallDepth ← entry runtime "max_call_depth" 256 Item.toCount?
  let traceProcess ← entry runtime "trace_process" true Item.toBool?
  let level ← entry logging "level" "warn" Item.toText?
  return { settings := { maxCallDepth, traceProcess }, level }

/-- Refuses a depth out of limits. -/
def validate (c : Config) : Except LoadError Config :=
  if c.settings.maxCallDepth = 0 then .error .depthTooSmall
  else if maxCallDepthLimit < c.settings.maxCallDepth then .error .depthTooLarge
  else .ok c

/-- Loads the configuration, given how files are read, what is said of sources that cannot be read,
and the environment variables. -/
def load (read : String → Option String) (cause : String) (vars : Assoc String) (r : Request) :
    Except LoadError Config :=
  match fileItem read r.path with
  | none => .error (.unreadable cause)
  | some file =>
    let vars := if r.skipVariables then [] else vars
    match ofItem? (storeRequest (storeVariables (storeFile defaults file) vars) r) with
    | none => .error (.unreadable cause)
    | some c => validate c

end Config

end CoLang
