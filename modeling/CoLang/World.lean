import CoLang.Declarations
import CoLang.Instance
import CoLang.Trace
/-!
# Shared state and effects

All bodies of one program share a world: the table of instances, the lines printed so far, the
process trace, the depth of calls and the number of instances created. Evaluation reads a fixed
context and changes the world. It ends with a value or a fault, unless it runs out of the fuel that
bounds it, and the world is known however it ends.

What changes the world gives it back together with the answer, also when the change is refused.
-/

namespace CoLang

/-- The limits that a program runs under. -/
structure Settings where
  /-- The number of calls that may be under way at once. -/
  maxCallDepth : Nat
  /-- Whether the process trace is kept. -/
  traceProcess : Bool
deriving DecidableEq, Repr, Inhabited

/-- The settings of a program that asks for nothing else. -/
def Settings.default : Settings := ⟨256, true⟩

/-- What stays the same while a program runs. -/
structure Context where
  decls : Declarations
  settings : Settings
  /-- The number of lines that the output takes before it is closed, if it is ever closed. -/
  capacity : Option Nat
  /-- The identities of the instances that are created, one after another. -/
  identities : Nat → Identity
deriving Inhabited

/-- Whether the output takes another line after the number printed. -/
def Context.takesLine (cx : Context) (printed : Nat) : Bool :=
  match cx.capacity with
  | none => true
  | some n => printed < n

/-- What the bodies of a program share. -/
structure World where
  table : Table
  lines : Array String
  events : Array Event
  /-- The number of calls under way. -/
  depth : Nat
  /-- The number of instances created so far. -/
  created : Nat
deriving Inhabited

/-- The world before anything has happened. -/
def World.initial : World := ⟨.empty, #[], #[], 0, 0⟩

/-! ## Computations -/

/-- How a computation ended. -/
inductive Ending (α : Type) where
  | value (a : α)
  | fault (f : Fault)
  | outOfFuel
deriving Inhabited

/-- How a computation ended, and the world it left. -/
structure Outcome (α : Type) where
  ending : Ending α
  world : World
deriving Inhabited

/-- A computation that reads and changes the world. -/
def Eval (α : Type) : Type := World → Outcome α

/-- A pure answer as an ending. -/
def Ending.ofExcept {α : Type} : Except Fault α → Ending α
  | .ok a => .value a
  | .error f => .fault f

namespace Eval

variable {α β : Type}

/-- The computation that only gives a value. -/
@[inline] def pure (a : α) : Eval α :=
  fun w => ⟨.value a, w⟩

/-- One computation after another. The second runs only if the first gave a value. -/
@[inline] def bind (x : Eval α) (f : α → Eval β) : Eval β :=
  fun w =>
    let r := x w
    match r.ending with
    | .value a => f a r.world
    | .fault e => ⟨.fault e, r.world⟩
    | .outOfFuel => ⟨.outOfFuel, r.world⟩

instance : Monad Eval where
  pure := Eval.pure
  bind := Eval.bind

/-- The computation that fails. -/
@[inline] def throw (f : Fault) : Eval α :=
  fun w => ⟨.fault f, w⟩

/-- A pure answer as a computation. -/
@[inline] def ofExcept (x : Except Fault α) : Eval α :=
  fun w => ⟨.ofExcept x, w⟩

/-- The computation that has no fuel left. -/
def exhausted : Eval α :=
  fun w => ⟨.outOfFuel, w⟩

/-- Replaces the world. -/
@[inline] def update (f : World → World) : Eval Unit :=
  fun w => ⟨.value (), f w⟩

/-- Makes a change of the world that may be refused. -/
@[inline] def change (f : World → Except Fault Unit × World) : Eval Unit :=
  fun w =>
    let (answer, w) := f w
    ⟨.ofExcept answer, w⟩

@[simp] theorem pure_apply (a : α) (w : World) : (Pure.pure a : Eval α) w = ⟨.value a, w⟩ := rfl

theorem bind_apply (x : Eval α) (f : α → Eval β) (w : World) :
    (x >>= f) w =
      match (x w).ending with
      | .value a => f a (x w).world
      | .fault e => ⟨.fault e, (x w).world⟩
      | .outOfFuel => ⟨.outOfFuel, (x w).world⟩ := rfl

end Eval

/-! ## What changes the world -/

namespace World

/-- Adds an event, if the trace is kept and the declaration is a process step. -/
def record (cx : Context) (w : World) (action : Action) (name : String) (doc : Option Doc)
    (instanceName : Option String) : World :=
  match doc.bind Doc.processNote? with
  | some note =>
    if cx.settings.traceProcess then
      { w with events := w.events.push ⟨w.events.size, action, name, note, instanceName⟩ }
    else w
  | none => w

/-- Adds a new instance of a coroutine to the table. -/
def create (cx : Context) (name coroutine : String) (w : World) : Except Fault Unit × World :=
  match cx.decls.coroutine? coroutine with
  | none => (.error (.undefinedCoroutine coroutine), w)
  | some c =>
    match w.table.insert name (.create (cx.identities w.created) c) with
    | (.error e, table) => (.error e, { w with table })
    | (.ok (), table) =>
      (.ok (),
        { w with table, created := w.created + 1 }.record cx .create c.name c.doc (some name))

/-- Adds an instance that was kept elsewhere. It must be of a declared coroutine and not have been
taken in the middle of a resume. -/
def restore (cx : Context) (name : String) (i : Instance) (w : World) :
    Except Fault Unit × World :=
  if (cx.decls.coroutine? i.coroutine).isNone then (.error (.undefinedCoroutine i.coroutine), w)
  else if i.life = .running then (.error (.capturedRunning name), w)
  else
    let (answer, table) := w.table.insert name i
    (answer, { w with table })

/-- The reason given when a line is refused. -/
def closedReason : String := "stdout closed"

/-- Prints a line, unless the output is closed. -/
def print (cx : Context) (line : String) (w : World) : Except Fault Unit × World :=
  if cx.takesLine w.lines.size then (.ok (), { w with lines := w.lines.push line })
  else (.error (.printFailed closedReason), w)

end World

/-- The values on one line, with blanks between them. -/
def lineOf (args : List Val) : String :=
  " ".intercalate (args.map Val.text)

end CoLang
