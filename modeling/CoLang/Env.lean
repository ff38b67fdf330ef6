import CoLang.Assoc
import CoLang.Fault
/-!
# Environments

An environment is a stack of scopes, each a table of typed variables. A variable holds nothing until
it is first given a value, and then always a value of its type. What changes an environment gives it
back together with the answer, also when the change is refused.
-/

namespace CoLang

/-- A typed variable, empty until it is first given a value. -/
structure Binding where
  ty : Ty
  value : Option Val
deriving Inhabited

/-- The variables of one scope, by name. No two of them share a name. -/
@[ext] structure Scope where
  bindings : Assoc Binding
  nodup : bindings.names.Nodup

namespace Scope

/-- A scope with nothing in it. -/
def empty : Scope := ⟨[], List.nodup_nil⟩

instance : Inhabited Scope := ⟨empty⟩

/-- The variable of a name. -/
def get? (s : Scope) (name : String) : Option Binding :=
  s.bindings.get? name

/-- The scope with a variable under a name, in place of the one that was there. -/
def set (s : Scope) (name : String) (b : Binding) : Scope :=
  ⟨s.bindings.set name b, Assoc.nodup_names_set s.nodup name b⟩

end Scope

/-- The scopes that are open, the innermost first. -/
structure Env where
  scopes : List Scope
deriving Inhabited

namespace Env

/-- The environment a body starts in: one scope, with nothing in it. -/
def empty : Env := ⟨[.empty]⟩

/-- The number of open scopes. -/
def depth (env : Env) : Nat := env.scopes.length

/-- Opens a scope. -/
def push (env : Env) : Env := ⟨.empty :: env.scopes⟩

/-- Closes the innermost scope, if any is open. -/
def pop (env : Env) : Env := ⟨env.scopes.tail⟩

/-- Closes scopes until at most `depth` are open. -/
def truncate (env : Env) (depth : Nat) : Env :=
  ⟨env.scopes.drop (env.depth - depth)⟩

/-- Refuses a value that is not of the variable's type. -/
def checkType (name : String) (ty : Ty) (v : Val) : Except Fault Unit :=
  if v.ty = ty then .ok () else .error (.storeMismatch name ty v.ty)

/-- Adds a variable to the innermost scope. It may hide one of an outer scope, but no two variables
of one scope share a name. The type is checked before the name. -/
def define (env : Env) (name : String) (ty : Ty) (value : Option Val) : Except Fault Unit × Env :=
  match value.elim (.ok ()) (checkType name ty) with
  | .error e => (.error e, env)
  | .ok () =>
    match env.scopes with
    | [] => (.error (.noScope name), env)
    | scope :: outer =>
      match scope.get? name with
      | some _ => (.error (.alreadyDefined name), env)
      | none => (.ok (), ⟨scope.set name ⟨ty, value⟩ :: outer⟩)

/-- The innermost variable of a name. -/
def binding? (env : Env) (name : String) : Option Binding :=
  env.scopes.findSome? fun scope => scope.get? name

/-- The value of a variable. -/
def lookup (env : Env) (name : String) : Except Fault Val :=
  match env.binding? name with
  | none => .error (.undefinedVariable name)
  | some ⟨_, none⟩ => .error (.uninitialized name)
  | some ⟨_, some v⟩ => .ok v

/-- Gives a value to the innermost variable of a name. -/
def store (name : String) (v : Val) : List Scope → List Scope
  | [] => []
  | scope :: outer =>
    match scope.get? name with
    | some b => scope.set name { b with value := some v } :: outer
    | none => scope :: store name v outer

/-- Assigns to the innermost variable of a name, if the value is of its type. -/
def assign (env : Env) (name : String) (v : Val) : Except Fault Unit × Env :=
  match env.binding? name with
  | none => (.error (.assignUndefined name), env)
  | some b =>
    match checkType name b.ty v with
    | .error e => (.error e, env)
    | .ok () => (.ok (), ⟨store name v env.scopes⟩)

end Env

end CoLang
