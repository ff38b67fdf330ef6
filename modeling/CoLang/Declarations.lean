import CoLang.Fault
/-!
# Declarations

The functions and coroutines of a program share one space of names with the built-in `print`. The
table of declarations is only built when no name is taken twice and no function repeats a parameter.
-/

namespace CoLang

/-- The functions that need no declaration. -/
inductive Builtin where
  | print
deriving DecidableEq, Repr, Inhabited

/-- The built-in function of a name. -/
def Builtin.ofName? (name : String) : Option Builtin :=
  if name = "print" then some .print else none

/-- What a call by name can reach. -/
inductive Callee where
  | builtin (b : Builtin)
  | function (f : Function)
deriving Inhabited

/-- The declarations of a program. -/
structure Declarations where
  functions : List Function
  coroutines : List Coroutine
deriving Inhabited

namespace Declarations

/-- No declarations at all. -/
def empty : Declarations := ⟨[], []⟩

/-- The function of a name. -/
def function? (d : Declarations) (name : String) : Option Function :=
  d.functions.find? fun f => f.name == name

/-- The coroutine of a name. -/
def coroutine? (d : Declarations) (name : String) : Option Coroutine :=
  d.coroutines.find? fun c => c.name == name

/-- Refuses a name that is built in or already declared. -/
def checkFree (d : Declarations) (name : String) : Except Fault Unit :=
  if (Builtin.ofName? name).isSome then .error (.redeclaredBuiltin name)
  else if (d.function? name).isSome || (d.coroutine? name).isSome then .error (.declaredTwice name)
  else .ok ()

/-- The first parameter that repeats the name of an earlier one. -/
def repeatedParam? : List Param → List String → Option Param
  | [], _ => none
  | p :: rest, seen => if p.name ∈ seen then some p else repeatedParam? rest (p.name :: seen)

/-- Adds a function. -/
def addFunction (d : Declarations) (f : Function) : Except Fault Declarations := do
  d.checkFree f.name
  match repeatedParam? f.params [] with
  | some p => .error (.repeatedParameter p.name f.name)
  | none => .ok { d with functions := d.functions ++ [f] }

/-- Adds a coroutine. -/
def addCoroutine (d : Declarations) (c : Coroutine) : Except Fault Declarations := do
  d.checkFree c.name
  return { d with coroutines := d.coroutines ++ [c] }

/-- The table of the given declarations, functions first, or the first clash among them. -/
def build (functions : List Function) (coroutines : List Coroutine) :
    Except Fault Declarations := do
  let d ← functions.foldlM addFunction empty
  coroutines.foldlM addCoroutine d

/-- What a call by name reaches. Coroutines cannot be called. -/
def callee (d : Declarations) (name : String) : Except Fault Callee :=
  match Builtin.ofName? name with
  | some b => .ok (.builtin b)
  | none =>
    match d.function? name with
    | some f => .ok (.function f)
    | none =>
      if (d.coroutine? name).isSome then .error (.calledCoroutine name)
      else .error (.undefinedFunction name)

end Declarations

end CoLang
