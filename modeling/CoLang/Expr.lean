import CoLang.Operators
import CoLang.World
/-!
# Expressions

The value of an expression in an environment. Operands and arguments are evaluated from left to
right, and a name that is called is looked up before its arguments. How a function is called is a
parameter: `Services` stands for the parts of the program that an expression or statement may call
on.
-/

namespace CoLang

/-- What a body may ask of the rest of the program. -/
structure Services where
  /-- Calls a function with its arguments. -/
  call : Function → List Val → Eval (Option Val)
  /-- Resumes the instance of a name. -/
  resume : String → Eval Progress

/-- Calls what a name was found to stand for. Printing produces no value. -/
def Callee.invoke (cx : Context) (sv : Services) (callee : Callee) (args : List Val) :
    Eval (Option Val) :=
  match callee with
  | .builtin .print => do
    Eval.change (World.print cx (lineOf args))
    return none
  | .function f => sv.call f args

namespace Expr

mutual

/-- The value of an expression. The right operand is left alone where the left one decides. A call
must produce a value. -/
def eval (cx : Context) (sv : Services) (env : Env) : Expr → Eval Val
  | .lit v => pure v
  | .var name => .ofExcept (env.lookup name)
  | .unary op operand => do
    let v ← eval cx sv env operand
    .ofExcept (op.apply v)
  | .binary op left right => do
    let l ← eval cx sv env left
    match ← .ofExcept (op.decided? l) with
    | some v => return v
    | none =>
      let r ← eval cx sv env right
      .ofExcept (op.apply l r)
  | .call name args => do
    let callee ← .ofExcept (cx.decls.callee name)
    let vs ← evalArgs cx sv env args
    match ← callee.invoke cx sv vs with
    | some v => return v
    | none => .throw (.noValue name)

/-- The values of arguments. -/
def evalArgs (cx : Context) (sv : Services) (env : Env) : List Expr → Eval (List Val)
  | [] => pure []
  | e :: rest => do
    let v ← eval cx sv env e
    let vs ← evalArgs cx sv env rest
    return v :: vs

end

/-- Evaluates an expression as a statement. Here a call need not produce a value. -/
def perform (cx : Context) (sv : Services) (env : Env) : Expr → Eval Unit
  | .call name args => do
    let callee ← .ofExcept (cx.decls.callee name)
    let vs ← evalArgs cx sv env args
    let _ ← callee.invoke cx sv vs
    return ()
  | e => do
    let _ ← eval cx sv env e
    return ()

/-- The truth of the condition of a construct, which is named in the message when the value is no
truth value. -/
def evalCondition (cx : Context) (sv : Services) (env : Env) (construct : String) (e : Expr) :
    Eval Bool := do
  match ← eval cx sv env e with
  | .bool b => return b
  | v => .throw (.conditionNotBool construct v.ty)

/-- The value of an optional expression. -/
def eval? (cx : Context) (sv : Services) (env : Env) : Option Expr → Eval (Option Val)
  | none => pure none
  | some e => do
    let v ← eval cx sv env e
    return some v

end Expr

end CoLang
