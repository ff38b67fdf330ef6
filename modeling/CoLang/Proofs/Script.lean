import CoLang.Proofs.Steps
/-!
# Steps spelled out

Between two steps of a body a lot may happen: in the midst of an expression a function may be
called, whose body steps on its own, resumes an instance, and so on. To speak of the moments in
between, a step is spelled out as a *script*: a tree that says what the step does to the world by
itself, what it asks of the rest of the program, and how it goes on with each answer.

Once its requests are answered by services, the script of a step does what the step does
(`Machine.eval_script`).
-/

namespace CoLang

/-- What a body asks of the rest of the program. -/
inductive Request where
  | call (f : Function) (args : List Val)
  | resume (name : String)

/-- What a body does to the world by itself. -/
inductive Effect where
  | print (line : String)
  | declare (name : String) (doc : Option Doc)
  | create (name coroutine : String)

/-- What an effect does to the world, unless it is refused. -/
def Effect.apply (cx : Context) : Effect → World → Except Fault Unit × World
  | .print line => World.print cx line
  | .declare name doc => fun w => (.ok (), w.record cx .declare name doc none)
  | .create name coroutine => World.create cx name coroutine

theorem Effect.atomic_apply (cx : Context) (e : Effect) : Atomic (e.apply cx) := by
  cases e with
  | print line => exact World.atomic_print
  | declare name doc =>
    intro w w' f h
    cases h
  | create name coroutine => exact World.atomic_create

/-- The answer of services to a request. A resume answers with no value. -/
def Services.answer (sv : Services) : Request → Eval (Option Val)
  | .call f args => sv.call f args
  | .resume name => do
    let _ ← sv.resume name
    return none

/-- A computation spelled out. -/
inductive Script (α : Type) where
  | ends (x : Except Fault α)
  | does (e : Effect) (next : Script α)
  | asks (q : Request) (next : Option Val → Script α)

namespace Script

variable {α β : Type}

/-- One script after another. The second begins only if the first ended with a value. -/
def bind : Script α → (α → Script β) → Script β
  | .ends (.ok a), f => f a
  | .ends (.error e), _ => .ends (.error e)
  | .does e next, f => .does e (next.bind f)
  | .asks q next, f => .asks q fun v => (next v).bind f

instance : Monad Script where
  pure a := .ends (.ok a)
  bind := Script.bind

/-- The computation that a script spells out. -/
def eval (cx : Context) (sv : Services) : Script α → Eval α
  | .ends x => .ofExcept x
  | .does e next => do
    Eval.change (e.apply cx)
    next.eval cx sv
  | .asks q next => do
    let v ← sv.answer q
    (next v).eval cx sv

variable (cx : Context) (sv : Services)

@[simp] theorem eval_pure (a : α) : (Pure.pure a : Script α).eval cx sv = Pure.pure a := rfl

@[simp] theorem eval_ends (x : Except Fault α) : (Script.ends x).eval cx sv = .ofExcept x := rfl

@[simp] theorem eval_does (e : Effect) (next : Script α) :
    (Script.does e next).eval cx sv = Eval.change (e.apply cx) >>= fun _ => next.eval cx sv := rfl

@[simp] theorem eval_asks (q : Request) (next : Option Val → Script α) :
    (Script.asks q next).eval cx sv = sv.answer q >>= fun v => (next v).eval cx sv := rfl

@[simp] theorem eval_bind (s : Script α) (f : α → Script β) :
    (s >>= f).eval cx sv = s.eval cx sv >>= fun a => (f a).eval cx sv := by
  show (s.bind f).eval cx sv = _
  induction s with
  | ends x => cases x <;> rfl
  | does e next ih => simp only [bind, eval_does, ih, Eval.bind_assoc]
  | asks q next ih => simp only [bind, eval_asks, ih, Eval.bind_assoc]

end Script

/-! ## Expressions -/

/-- Calling what a name was found to stand for. -/
def Callee.script (args : List Val) : Callee → Script (Option Val)
  | .builtin .print => .does (.print (lineOf args)) (pure none)
  | .function f => .asks (.call f args) pure

namespace Expr

mutual

def script (cx : Context) (env : Env) : Expr → Script Val
  | .lit v => pure v
  | .var name => .ends (env.lookup name)
  | .unary op operand => do
    let v ← script cx env operand
    .ends (op.apply v)
  | .binary op left right => do
    let l ← script cx env left
    match ← Script.ends (op.decided? l) with
    | some v => return v
    | none =>
      let r ← script cx env right
      .ends (op.apply l r)
  | .call name args => do
    let callee ← Script.ends (cx.decls.callee name)
    let vs ← scriptArgs cx env args
    match ← callee.script vs with
    | some v => return v
    | none => .ends (.error (.noValue name))

def scriptArgs (cx : Context) (env : Env) : List Expr → Script (List Val)
  | [] => pure []
  | e :: rest => do
    let v ← script cx env e
    let vs ← scriptArgs cx env rest
    return v :: vs

end

/-- An expression as a statement. -/
def scriptPerform (cx : Context) (env : Env) : Expr → Script Unit
  | .call name args => do
    let callee ← Script.ends (cx.decls.callee name)
    let vs ← scriptArgs cx env args
    let _ ← callee.script vs
    return ()
  | e => do
    let _ ← script cx env e
    return ()

/-- The condition of a construct. -/
def scriptCondition (cx : Context) (env : Env) (construct : String) (e : Expr) : Script Bool := do
  match ← script cx env e with
  | .bool b => return b
  | v => .ends (.error (.conditionNotBool construct v.ty))

/-- An optional expression. -/
def script? (cx : Context) (env : Env) : Option Expr → Script (Option Val)
  | none => pure none
  | some e => do
    let v ← script cx env e
    return some v

end Expr

theorem Callee.eval_script (cx : Context) (sv : Services) (args : List Val) (c : Callee) :
    (c.script args).eval cx sv = c.invoke cx sv args := by
  cases c with
  | builtin b =>
    cases b
    rfl
  | function f => exact Eval.bind_pure _

namespace Expr

variable {cx : Context} {sv : Services} {env : Env}

mutual

theorem eval_script : ∀ e : Expr, (e.script cx env).eval cx sv = e.eval cx sv env
  | .lit v => by simp only [script, Expr.eval, Script.eval_pure]
  | .var name => by simp only [script, Expr.eval, Script.eval_ends]
  | .unary op operand => by
    simp only [script, Expr.eval, Script.eval_bind, Script.eval_ends, eval_script operand]
  | .binary op left right => by
    simp only [script, Expr.eval, Script.eval_bind, Script.eval_ends, eval_script left]
    congr 1
    funext l
    congr 1
    funext decided
    cases decided with
    | some v => rfl
    | none => simp only [Script.eval_bind, Script.eval_ends, eval_script right]
  | .call name args => by
    simp only [script, Expr.eval, Script.eval_bind, Script.eval_ends, evalArgs_script args,
      Callee.eval_script]
    congr 1
    funext callee
    congr 1
    funext vs
    congr 1
    funext v
    cases v <;> rfl

theorem evalArgs_script : ∀ args : List Expr,
    (scriptArgs cx env args).eval cx sv = evalArgs cx sv env args
  | [] => by simp only [scriptArgs, evalArgs, Script.eval_pure]
  | e :: rest => by
    simp only [scriptArgs, evalArgs, Script.eval_bind, Script.eval_pure, eval_script e,
      evalArgs_script rest]

end

theorem eval_scriptPerform (e : Expr) :
    (e.scriptPerform cx env).eval cx sv = e.perform cx sv env := by
  cases e with
  | call name args =>
    simp only [scriptPerform, perform, Script.eval_bind, Script.eval_ends, Script.eval_pure,
      evalArgs_script, Callee.eval_script]
  | _ => simp only [scriptPerform, perform, Script.eval_bind, Script.eval_pure, eval_script]

theorem eval_scriptCondition (construct : String) (e : Expr) :
    (e.scriptCondition cx env construct).eval cx sv = e.evalCondition cx sv env construct := by
  simp only [scriptCondition, evalCondition, Script.eval_bind, eval_script]
  congr 1
  funext v
  cases v <;> rfl

theorem eval_script? (e : Option Expr) :
    (script? cx env e).eval cx sv = eval? cx sv env e := by
  cases e with
  | none => rfl
  | some e => simp only [script?, eval?, Script.eval_bind, Script.eval_pure, eval_script]

end Expr

/-! ## Statements and steps -/

/-- A statement without parts. -/
def Stmt.script (cx : Context) (kind : BodyKind) (env : Env) : Stmt → Script (Env × Control)
  | .varDecl name ty init doc => do
    let v ← Expr.script? cx env init
    let (answer, env) := env.define name ty v
    Script.ends answer
    .does (.declare name doc) (pure (env, .idle))
  | .assign name value => do
    let v ← value.script cx env
    let (answer, env) := env.assign name v
    Script.ends answer
    return (env, .idle)
  | .expr e => do
    e.scriptPerform cx env
    return (env, .idle)
  | .ret value => do
    let v ← Expr.script? cx env value
    return (env, .returning v)
  | .brk => pure (env, .breaking)
  | .cont => pure (env, .continuing)
  | .yield =>
    if kind = .coroutine then pure (env, .yielding) else .ends (.error .yieldOutsideCoroutine)
  | .create name coroutine => .does (.create name coroutine) (pure (env, .idle))
  | .resume name => .asks (.resume name) fun _ => pure (env, .idle)
  | .ifElse .. | .whileLoop .. => pure (env, .idle)

/-- The next step of a machine: whether there is more to do, and the machine behind it. -/
def Machine.script (cx : Context) (m : Machine) : Script (Bool × Machine) :=
  match m.plan with
  | .settled more m => .ends (more.map fun b => (b, m))
  | .asks construct cond next => do
    let b ← cond.scriptCondition cx m.env construct
    return (true, next b)
  | .performs s rest => do
    let after ← s.script cx m.body m.env
    return (!(m.performed rest after).isSuspended, m.performed rest after)

theorem Stmt.eval_script (cx : Context) (sv : Services) (kind : BodyKind) (env : Env) (s : Stmt) :
    (s.script cx kind env).eval cx sv = s.perform cx sv kind env := by
  cases s with
  | varDecl name ty init doc =>
    simp only [Stmt.script, Stmt.perform, Script.eval_bind, Script.eval_ends, Script.eval_does,
      Script.eval_pure, Expr.eval_script?]
    rfl
  | assign name value =>
    simp only [Stmt.script, Stmt.perform, Script.eval_bind, Script.eval_ends, Script.eval_pure,
      Expr.eval_script]
  | expr e =>
    simp only [Stmt.script, Stmt.perform, Script.eval_bind, Script.eval_pure,
      Expr.eval_scriptPerform]
  | ret value =>
    simp only [Stmt.script, Stmt.perform, Script.eval_bind, Script.eval_pure, Expr.eval_script?]
  | yield =>
    simp only [Stmt.script, Stmt.perform]
    split <;> rfl
  | resume name =>
    simp only [Stmt.script, Stmt.perform, Script.eval_asks, Script.eval_pure, Services.answer,
      Eval.bind_assoc, Eval.pure_bind]
  | _ => rfl

/-- **The script of a step does what the step does**, once services answer its requests. -/
theorem Machine.eval_script (cx : Context) (sv : Services) (m : Machine) :
    (m.script cx).eval cx sv = m.advance cx sv := by
  rw [Machine.advance_eq]
  unfold Machine.script
  cases m.plan with
  | settled more m => rfl
  | asks construct cond next =>
    simp only [Script.eval_bind, Script.eval_pure, Expr.eval_scriptCondition]
  | performs s rest =>
    simp only [Script.eval_bind, Script.eval_pure, Stmt.eval_script]

end CoLang
