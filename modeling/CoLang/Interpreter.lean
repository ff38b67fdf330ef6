import CoLang.Calls
/-!
# The interpreter

An interpreter holds a program and the world it runs in. The host runs the main body and creates,
resumes and restores instances, in any order. Each operation gives the interpreter as it is
afterwards, also when it fails.
-/

namespace CoLang

/-- A program with the world it runs in. -/
structure Interpreter where
  context : Context
  main : Block
  world : World
deriving Inhabited

namespace Interpreter

/-- An interpreter for a program whose declarations do not clash. -/
def build (p : Program) (settings : Settings) (capacity : Option Nat)
    (identities : Nat → Identity) : Except Fault Interpreter := do
  let decls ← Declarations.build p.functions p.coroutines
  return { context := { decls, settings, capacity, identities }, main := p.main, world := .initial }

/-- The services for the bodies of the program. -/
def services (i : Interpreter) (fuel : Nat) : Services :=
  CoLang.services i.context fuel

/-- Runs the main body, in an environment of its own. -/
def runMain (i : Interpreter) (fuel : Nat) : Ending Unit × Interpreter :=
  let r := (Machine.start i.main .empty .main).run i.context (i.services fuel) fuel i.world
  let ending := match r.verdict with
    | .fault f => .fault f
    | .outOfFuel => .outOfFuel
    | .done | .more => .value ()
  (ending, { i with world := r.world })

/-- Creates an instance of a coroutine. -/
def create (i : Interpreter) (name coroutine : String) : Except Fault Unit × Interpreter :=
  let (answer, world) := i.world.create i.context name coroutine
  (answer, { i with world })

/-- Resumes an instance. -/
def resume (i : Interpreter) (fuel : Nat) (name : String) : Ending Progress × Interpreter :=
  let r := World.resume i.context (i.services fuel) fuel name i.world
  (r.ending, { i with world := r.world })

/-- Puts back an instance that was kept elsewhere. -/
def restore (i : Interpreter) (name : String) (inst : Instance) :
    Except Fault Unit × Interpreter :=
  let (answer, world) := i.world.restore i.context name inst
  (answer, { i with world })

/-- The stage of life of an instance. -/
def life? (i : Interpreter) (name : String) : Option Life :=
  i.world.table.life? name

/-- An instance that is not being resumed. -/
def instance? (i : Interpreter) (name : String) : Option Instance :=
  i.world.table.get? name

end Interpreter

end CoLang
