import CoLang.Config.Load
/-!
# Commands

What the command line can be asked to do. A program is run, or only checked.
-/

namespace CoLang

/-- What to do with a program file. -/
inductive Task where
  /-- Runs the main body, writes the trace to a file if one is named, and may bound the depth of
  calls. -/
  | run (file : String) (trace : Option String) (maxCallDepth : Option Nat)
  /-- Reads the program and counts its declarations. -/
  | check (file : String)
deriving DecidableEq, Repr, Inhabited

/-- A command line. -/
structure Invocation where
  /-- The configuration file. -/
  config : Option String
  task : Task
deriving DecidableEq, Repr, Inhabited

/-- The configuration that a command line asks for. -/
def Invocation.request (i : Invocation) : Config.Request :=
  { Config.Request.none with
    path := i.config
    maxCallDepth := match i.task with
      | .run _ _ depth => depth
      | .check _ => none }

end CoLang
