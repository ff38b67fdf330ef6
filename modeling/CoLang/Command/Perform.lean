import CoLang.Command.Basic
import CoLang.Interpreter
import CoLang.Json.Reader
import CoLang.Wire.Report
import CoLang.Wire.Syntax
/-!
# Doing what the command line asks

A task reads its program from a host and may write a trace back. The host is all that lies outside:
it holds the files, gives out identities, and knows how doubles are written and what is said of
files and texts that are no good. The trace is written also when the run failed, since it shows how
far the run came.
-/

namespace CoLang

/-- What a task finds around it. -/
structure Host (m : Type → Type) where
  /-- Reads a file, or says why it cannot be read. -/
  read : String → m (Except String String)
  /-- Writes a file, or says why it cannot be written. -/
  write : String → String → m (Except String Unit)
  numerals : Json.Numerals
  /-- What is said of a text that is no program. -/
  complaint : String → String
  /-- The identities of the instances that a run creates, in order. -/
  identities : Nat → Identity

/-- Why a task failed. Where the reason lies outside, what is said of it is the cause. -/
inductive Failure where
  | unreadableFile (file cause : String)
  | undecodable (file cause : String)
  | unwritableTrace (file cause : String)
  | fault (f : Fault)
  | config (e : Config.LoadError)
deriving DecidableEq, Repr, Inhabited

namespace Failure

/-- What the command line says of a failure before it names the causes. -/
def headline : Failure → String
  | .unreadableFile file _ => s!"error: Failed to read {file}"
  | .undecodable file _ => s!"error: Failed to decode program {file}"
  | .unwritableTrace file _ => s!"error: Failed to write trace to {file}"
  | .fault f => f.report.rendered
  | .config _ => "error: Failed to load configuration"

/-- The causes of a failure, the nearest one first. A fault is its own reason. -/
def causes : Failure → List String
  | .unreadableFile _ cause | .undecodable _ cause | .unwritableTrace _ cause => [cause]
  | .fault _ => []
  | .config e => e.messages

/-- A failure as the command line shows it. -/
def rendered (f : Failure) : String :=
  ": ".intercalate (f.headline :: f.causes)

end Failure

/-- What a task printed, and why it failed if it did. -/
structure Performed where
  lines : List String
  failure : Option Failure
deriving Inhabited

/-- The program of a text. -/
def Program.ofText? (num : Json.Numerals) (text : String) : Option Program := do
  let j ← Json.parse? num text
  Program.decode .text j

namespace Task

/-- What checking a program says of it. -/
def summary (file : String) (p : Program) : String :=
  s!"{file}: {p.functions.length} function(s), {p.coroutines.length} coroutine(s), " ++
    s!"{p.main.length} statement(s) in main"

/-- Reads a program and builds an interpreter for it. -/
def prepare {m : Type → Type} [Monad m] (host : Host m) (settings : Settings) (file : String) :
    m (Except Failure (Program × Interpreter)) := do
  match ← host.read file with
  | .error cause => return .error (.unreadableFile file cause)
  | .ok text =>
    match Program.ofText? host.numerals text with
    | none => return .error (.undecodable file (host.complaint text))
    | some p =>
      match Interpreter.build p settings none host.identities with
      | .error f => return .error (.fault f)
      | .ok interp => return .ok (p, interp)

/-- Runs a program and writes its trace. -/
def runAndTrace {m : Type → Type} [Monad m] (host : Host m) (fuel : Nat) (interp : Interpreter)
    (trace : Option String) : m (Option Performed) := do
  let (ending, interp) := interp.runMain fuel
  let lines := interp.world.lines.toList
  match ending with
  | .outOfFuel => return none
  | .value () => write interp ⟨lines, none⟩
  | .fault f => write interp ⟨lines, some (.fault f)⟩
where
  /-- Writes the trace of a run that has ended. A trace that cannot be written is reported in place
  of what went wrong in the run. -/
  write (interp : Interpreter) (done : Performed) : m (Option Performed) := do
    match trace with
    | none => return some done
    | some path =>
      match ← host.write path (Event.traceText host.numerals interp.world.events) with
      | .ok () => return some done
      | .error cause => return some { done with failure := some (.unwritableTrace path cause) }

/-- Does a task. There is no answer without enough fuel for the run. -/
def perform {m : Type → Type} [Monad m] (host : Host m) (settings : Settings) (fuel : Nat) :
    Task → m (Option Performed)
  | .run file trace _ => do
    match ← prepare host settings file with
    | .error e => return some ⟨[], some e⟩
    | .ok (_, interp) => runAndTrace host fuel interp trace
  | .check file => do
    match ← prepare host settings file with
    | .error e => return some ⟨[], some e⟩
    | .ok (p, _) => return some ⟨[summary file p], none⟩

end Task

end CoLang
