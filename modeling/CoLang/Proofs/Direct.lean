import CoLang.Proofs.Fuel
/-!
# Statements run directly

The meaning of a statement by recursion on its syntax, without frames and steps. A statement gives
the environment behind it and a signal. A block stops at the first statement whose signal is not
`normal`, a conditional and a loop run their parts in a scope of their own and close it however the
part ends, and a loop takes `break` and `continue` for itself. A call runs the function's body
directly in an environment that holds its parameters. What concerns coroutine instances is left to
the world's own operations.

Only loops and calls need fuel, so a block of any length runs with none. A yield hands back and is
taken up again at once, so it does nothing.
-/

namespace CoLang

/-- What a statement tells the one around it. -/
inductive Signal where
  | normal
  | brk
  | cont
  | ret (value : Option Val)
deriving Inhabited

/-- Runs a part in a scope of its own, which is closed however the part ends. -/
def Env.inScope (part : Env → Eval (Env × Signal)) (env : Env) : Eval (Env × Signal) := do
  let (env, signal) ← part env.push
  return (env.pop, signal)

/-- Runs the body of a loop as long as its condition holds, for less than `rounds` rounds. -/
def Env.looped (cond : Env → Eval Bool) (body : Env → Eval (Env × Signal)) :
    Nat → Env → Eval (Env × Signal)
  | 0, _ => .exhausted
  | rounds + 1, env => do
    if ← cond env then
      let (env, signal) ← Env.inScope body env
      match signal with
      | .normal | .cont => looped cond body rounds env
      | .brk => return (env, .normal)
      | .ret v => return (env, .ret v)
    else return (env, .normal)

namespace Stmt

mutual

/-- Runs a statement. -/
def exec (cx : Context) (sv : Services) (fuel : Nat) (kind : BodyKind) :
    Stmt → Env → Eval (Env × Signal)
  | .varDecl name ty init doc, env => do
    let v ← Expr.eval? cx sv env init
    let (answer, env) := env.define name ty v
    Eval.ofExcept answer
    Eval.update fun w => w.record cx .declare name doc none
    return (env, .normal)
  | .assign name value, env => do
    let v ← value.eval cx sv env
    let (answer, env) := env.assign name v
    Eval.ofExcept answer
    return (env, .normal)
  | .expr e, env => do
    e.perform cx sv env
    return (env, .normal)
  | .ifElse cond thenBody elseBody, env => do
    if ← cond.evalCondition cx sv env "if" then
      Env.inScope (fun env => execBlock cx sv fuel kind thenBody env) env
    else execElse cx sv fuel kind elseBody env
  | .whileLoop cond body, env =>
    Env.looped (fun env => cond.evalCondition cx sv env "while")
      (fun env => execBlock cx sv fuel kind body env) fuel env
  | .ret value, env => do
    let v ← Expr.eval? cx sv env value
    return (env, .ret v)
  | .brk, env => pure (env, .brk)
  | .cont, env => pure (env, .cont)
  | .yield, env =>
    if kind = .coroutine then pure (env, .normal) else .throw .yieldOutsideCoroutine
  | .create name coroutine, env => do
    Eval.change (World.create cx name coroutine)
    return (env, .normal)
  | .resume name, env => do
    let _ ← sv.resume name
    return (env, .normal)

/-- Runs the statements of a block, up to the first one that signals something. -/
def execBlock (cx : Context) (sv : Services) (fuel : Nat) (kind : BodyKind) :
    List Stmt → Env → Eval (Env × Signal)
  | [], env => pure (env, .normal)
  | s :: rest, env => do
    let (env, signal) ← exec cx sv fuel kind s env
    match signal with
    | .normal => execBlock cx sv fuel kind rest env
    | signal => return (env, signal)

/-- Runs the other branch of a conditional, if it has one. -/
def execElse (cx : Context) (sv : Services) (fuel : Nat) (kind : BodyKind) :
    Option (List Stmt) → Env → Eval (Env × Signal)
  | none, env => pure (env, .normal)
  | some body, env => Env.inScope (fun env => execBlock cx sv fuel kind body env) env

end

end Stmt

/-- Runs a whole body. No loop is left to take a `break` or `continue` that gets this far. -/
def Block.exec (cx : Context) (sv : Services) (fuel : Nat) (kind : BodyKind) (body : Block)
    (env : Env) : Eval (Env × Signal) := do
  let (env, signal) ← Stmt.execBlock cx sv fuel kind body env
  match signal with
  | .brk => .throw .breakOutsideLoop
  | .cont => .throw .continueOutsideLoop
  | signal => return (env, signal)

/-- The value that a body returned. -/
def Signal.value : Signal → Option Val
  | .ret v => v
  | _ => none

/-- Calls a function, running its body directly. -/
def Function.callDirect (cx : Context) (sv : Services) (fuel : Nat) (f : Function)
    (args : List Val) : Eval (Option Val) := do
  let env ← .ofExcept (f.callEnv args)
  f.within cx do
    let (_, signal) ← Block.exec cx sv fuel .function f.body env
    .ofExcept (f.result signal.value)

/-- The services under which bodies run directly, as do the bodies of the functions they call. -/
def directServices (cx : Context) : Nat → Services
  | 0 => { call := fun _ _ => .exhausted, resume := fun _ => .exhausted }
  | fuel + 1 =>
    { call := fun f args => f.callDirect cx (directServices cx fuel) fuel args
      resume := fun name => World.resume cx (services cx fuel) fuel name }

/-! ## Links carry over to direct runs -/

namespace Link

variable {ι : Type} {L : Link ι} {cx : Context} {sv : Services} {cxs : ι → Context}
  {svs : ι → Services} (h : L.Serves cx sv cxs svs)

theorem inScope {part : Env → Eval (Env × Signal)} {parts : ι → Env → Eval (Env × Signal)}
    (hp : ∀ env, L.holds (part env) fun i => parts i env) (env : Env) :
    L.holds (Env.inScope part env) fun i => Env.inScope (parts i) env :=
  L.bind (hp env.push) fun _ => L.pure _

theorem looped {cond : Env → Eval Bool} {conds : ι → Env → Eval Bool}
    {body : Env → Eval (Env × Signal)} {bodies : ι → Env → Eval (Env × Signal)}
    (hx : ∀ {α : Type}, L.holds (.exhausted : Eval α) fun _ => .exhausted)
    (hc : ∀ env, L.holds (cond env) fun i => conds i env)
    (hb : ∀ env, L.holds (body env) fun i => bodies i env) (rounds : Nat) (env : Env) :
    L.holds (Env.looped cond body rounds env)
      fun i => Env.looped (conds i) (bodies i) rounds env := by
  induction rounds generalizing env with
  | zero => exact hx
  | succ rounds ih =>
    simp only [Env.looped]
    refine L.bind (hc env) fun again => ?_
    cases again with
    | false => exact L.pure _
    | true =>
      refine L.bind (inScope hb env) ?_
      rintro ⟨env, signal⟩
      cases signal with
      | normal => exact ih env
      | cont => exact ih env
      | brk => exact L.pure _
      | ret v => exact L.pure _

mutual

theorem exec (h : L.Serves cx sv cxs svs)
    (hx : ∀ {α : Type}, L.holds (.exhausted : Eval α) fun _ => .exhausted) (fuel : Nat)
    (kind : BodyKind) : ∀ (s : Stmt) (env : Env),
      L.holds (s.exec cx sv fuel kind env) fun i => s.exec (cxs i) (svs i) fuel kind env
  | .varDecl name ty init doc, env => by
    simp only [Stmt.exec]
    exact L.bind (eval? h.toCalls env init) fun v => L.bind (L.ofExcept _) fun env =>
      L.bind (h.declare name doc) fun _ => L.pure _
  | .assign name value, env => by
    simp only [Stmt.exec]
    exact L.bind (eval h.toCalls env value) fun v => L.bind (L.ofExcept _) fun env => L.pure _
  | .expr e, env => by
    simp only [Stmt.exec]
    exact L.bind (performExpr h.toCalls env e) fun _ => L.pure _
  | .ifElse cond thenBody elseBody, env => by
    simp only [Stmt.exec]
    refine L.bind (evalCondition h.toCalls env "if" cond) fun taken => ?_
    cases taken with
    | true => exact inScope (execBlock h hx fuel kind thenBody) env
    | false => exact execElse h hx fuel kind elseBody env
  | .whileLoop cond body, env => by
    simp only [Stmt.exec]
    exact looped hx (fun env => evalCondition h.toCalls env "while" cond)
      (execBlock h hx fuel kind body) fuel env
  | .ret value, env => by
    simp only [Stmt.exec]
    exact L.bind (eval? h.toCalls env value) fun v => L.pure _
  | .brk, env => by
    simp only [Stmt.exec]
    exact L.pure _
  | .cont, env => by
    simp only [Stmt.exec]
    exact L.pure _
  | .yield, env => by
    simp only [Stmt.exec]
    split
    · exact L.pure _
    · exact L.throw _
  | .create name coroutine, env => by
    simp only [Stmt.exec]
    exact L.bind (h.create name coroutine) fun _ => L.pure _
  | .resume name, env => by
    simp only [Stmt.exec]
    exact L.bind (h.resume name) fun _ => L.pure _

theorem execBlock (h : L.Serves cx sv cxs svs)
    (hx : ∀ {α : Type}, L.holds (.exhausted : Eval α) fun _ => .exhausted) (fuel : Nat)
    (kind : BodyKind) : ∀ (b : List Stmt) (env : Env),
      L.holds (Stmt.execBlock cx sv fuel kind b env)
        fun i => Stmt.execBlock (cxs i) (svs i) fuel kind b env
  | [], env => by
    simp only [Stmt.execBlock]
    exact L.pure _
  | s :: rest, env => by
    simp only [Stmt.execBlock]
    refine L.bind (exec h hx fuel kind s env) ?_
    rintro ⟨env, signal⟩
    cases signal with
    | normal => exact execBlock h hx fuel kind rest env
    | brk => exact L.pure _
    | cont => exact L.pure _
    | ret v => exact L.pure _

theorem execElse (h : L.Serves cx sv cxs svs)
    (hx : ∀ {α : Type}, L.holds (.exhausted : Eval α) fun _ => .exhausted) (fuel : Nat)
    (kind : BodyKind) : ∀ (b : Option (List Stmt)) (env : Env),
      L.holds (Stmt.execElse cx sv fuel kind b env)
        fun i => Stmt.execElse (cxs i) (svs i) fuel kind b env
  | none, env => by
    simp only [Stmt.execElse]
    exact L.pure _
  | some body, env => by
    simp only [Stmt.execElse]
    exact inScope (execBlock h hx fuel kind body) env

end

theorem execBody (h : L.Serves cx sv cxs svs)
    (hx : ∀ {α : Type}, L.holds (.exhausted : Eval α) fun _ => .exhausted) (fuel : Nat)
    (kind : BodyKind) (body : Block) (env : Env) :
    L.holds (Block.exec cx sv fuel kind body env)
      fun i => Block.exec (cxs i) (svs i) fuel kind body env := by
  refine L.bind (execBlock h hx fuel kind body env) ?_
  rintro ⟨env, signal⟩
  cases signal with
  | normal => exact L.pure _
  | brk => exact L.throw _
  | cont => exact L.throw _
  | ret v => exact L.pure _

end Link

/-- A body that returned returns the same with better services. -/
theorem Block.exec_below {sv sv' : Services} (h : sv.Below sv') (cx : Context) (fuel : Nat)
    (kind : BodyKind) (body : Block) (env : Env) :
    (Block.exec cx sv fuel kind body env).Below (Block.exec cx sv' fuel kind body env) :=
  Link.settling_const.1
    (Link.execBody (h.serves cx) Link.settling_exhausted fuel kind body env)

/-! ## The scopes behind a statement -/

/-- Every value that a computation returns has a property. -/
def Eval.Gives {α : Type} (x : Eval α) (P : α → Prop) : Prop :=
  ∀ w a w', x w = ⟨.value a, w'⟩ → P a

namespace Eval.Gives

variable {α β : Type} {P : α → Prop} {Q : β → Prop}

theorem pure {a : α} (h : P a) : (Pure.pure a : Eval α).Gives P := by
  intro w b w' hb
  cases hb
  exact h

theorem throw (f : Fault) : (Eval.throw f : Eval α).Gives P := by
  intro w a w' ha
  cases ha

theorem exhausted : (Eval.exhausted : Eval α).Gives P := by
  intro w a w' ha
  cases ha

theorem ofExcept {r : Except Fault α} (h : ∀ a, r = .ok a → P a) : (Eval.ofExcept r).Gives P := by
  intro w a w' ha
  cases r with
  | ok b =>
    cases ha
    exact h _ rfl
  | error f => cases ha

theorem bind {x : Eval α} {f : α → Eval β} (hx : x.Gives P) (hf : ∀ a, P a → (f a).Gives Q) :
    (x >>= f).Gives Q := by
  intro w b w' hb
  rcases hxw : x w with ⟨ending, w₁⟩
  cases ending with
  | value a =>
    rw [Eval.bind_of_value hxw] at hb
    exact hf a (hx w a w₁ hxw) w₁ b w' hb
  | fault f =>
    rw [Eval.bind_of_fault hxw] at hb
    cases hb
  | outOfFuel =>
    rw [Eval.bind_of_outOfFuel hxw] at hb
    cases hb

/-- Nothing has to be known of the first of two computations. -/
theorem bind_any {x : Eval α} {f : α → Eval β} (hf : ∀ a, (f a).Gives Q) : (x >>= f).Gives Q :=
  bind (P := fun _ => True) (fun _ _ _ _ => trivial) fun a _ => hf a

theorem mono {P' : α → Prop} {x : Eval α} (hx : x.Gives P) (h : ∀ a, P a → P' a) : x.Gives P' :=
  fun w a w' ha => h a (hx w a w' ha)

theorem of_ending {x : Eval α} (h : x.Gives P) {w : World} {a : α}
    (ha : (x w).ending = .value a) : P a :=
  h w a (x w).world (by rw [← ha])

/-- What follows a computation need only agree on the values it can return. -/
theorem bind_congr {x : Eval α} {f g : α → Eval β} (hx : x.Gives P) (h : ∀ a, P a → f a = g a) :
    x >>= f = x >>= g := by
  funext w
  rcases hxw : x w with ⟨a | f' | _, w'⟩
  · rw [Eval.bind_of_value hxw, Eval.bind_of_value hxw, h a (hx w a w' hxw)]
  · rw [Eval.bind_of_fault hxw, Eval.bind_of_fault hxw]
  · rw [Eval.bind_of_outOfFuel hxw, Eval.bind_of_outOfFuel hxw]

end Eval.Gives

namespace Env

@[simp] theorem depth_pop (env : Env) : env.pop.depth = env.depth - 1 := by
  simp [depth, pop]

theorem truncate_depth (env : Env) : env.truncate env.depth = env := by
  simp [truncate]

theorem truncate_eq_pop {env : Env} {d : Nat} (h : env.depth = d + 1) :
    env.truncate d = env.pop := by
  simp [truncate, pop, h]

theorem length_store (name : String) (v : Val) (scopes : List Scope) :
    (store name v scopes).length = scopes.length := by
  induction scopes with
  | nil => rfl
  | cons scope outer ih =>
    simp only [store]
    split
    · rfl
    · simp [ih]

theorem depth_of_define {env env' : Env} {name : String} {ty : Ty} {v : Option Val}
    (h : env.define name ty v = (.ok (), env')) : env'.depth = env.depth := by
  obtain ⟨scope, outer, hs, -, -, rfl⟩ := define_ok h
  simp [depth, hs]

theorem depth_of_assign {env env' : Env} {name : String} {v : Val}
    (h : env.assign name v = (.ok (), env')) : env'.depth = env.depth := by
  obtain ⟨b, -, -, rfl⟩ := assign_ok h
  exact length_store name v env.scopes

end Env

/-- The environment given has as many scopes as the one before. -/
abbrev Env.SameDepth (env : Env) (r : Env × Signal) : Prop :=
  r.1.depth = env.depth

theorem Env.inScope_sameDepth {part : Env → Eval (Env × Signal)}
    (h : ∀ env, (part env).Gives env.SameDepth) (env : Env) :
    (Env.inScope part env).Gives env.SameDepth := by
  refine .bind (h env.push) ?_
  rintro ⟨env', signal⟩ henv
  refine .pure ?_
  have hd : env'.depth = env.depth + 1 := henv
  show env'.pop.depth = env.depth
  rw [Env.depth_pop, hd]
  rfl

theorem Env.looped_sameDepth {cond : Env → Eval Bool} {body : Env → Eval (Env × Signal)}
    (h : ∀ env, (body env).Gives env.SameDepth) (rounds : Nat) (env : Env) :
    (Env.looped cond body rounds env).Gives env.SameDepth := by
  induction rounds generalizing env with
  | zero => exact .exhausted
  | succ rounds ih =>
    simp only [Env.looped]
    refine .bind_any fun again => ?_
    cases again with
    | false => exact .pure rfl
    | true =>
      refine .bind (inScope_sameDepth h env) ?_
      rintro ⟨env', signal⟩ henv
      have hd : env'.depth = env.depth := henv
      cases signal with
      | normal => exact fun w r w' hr => (ih env' w r w' hr).trans hd
      | cont => exact fun w r w' hr => (ih env' w r w' hr).trans hd
      | brk => exact .pure hd
      | ret v => exact .pure hd

namespace Stmt

variable (cx : Context) (sv : Services) (fuel : Nat) (kind : BodyKind)

mutual

/-- A statement leaves as many scopes open as it found. -/
theorem exec_sameDepth : ∀ (s : Stmt) (env : Env),
    (s.exec cx sv fuel kind env).Gives env.SameDepth
  | .varDecl name ty init doc, env => by
    simp only [exec]
    exact .bind_any fun v => .bind (.ofExcept fun _ h => Env.depth_of_define (Prod.ext h rfl))
      fun _ henv => .bind_any fun _ => .pure henv
  | .assign name value, env => by
    simp only [exec]
    exact .bind_any fun v => .bind (.ofExcept fun _ h => Env.depth_of_assign (Prod.ext h rfl))
      fun _ henv => .pure henv
  | .expr e, env => by
    simp only [exec]
    exact .bind_any fun _ => .pure rfl
  | .ifElse cond thenBody elseBody, env => by
    simp only [exec]
    refine .bind_any fun taken => ?_
    cases taken with
    | true => exact Env.inScope_sameDepth (execBlock_sameDepth thenBody) env
    | false => exact execElse_sameDepth elseBody env
  | .whileLoop cond body, env => by
    simp only [exec]
    exact Env.looped_sameDepth (execBlock_sameDepth body) fuel env
  | .ret value, env => by
    simp only [exec]
    exact .bind_any fun v => .pure rfl
  | .brk, env => by
    simp only [exec]
    exact .pure rfl
  | .cont, env => by
    simp only [exec]
    exact .pure rfl
  | .yield, env => by
    simp only [exec]
    split
    · exact .pure rfl
    · exact .throw _
  | .create name coroutine, env => by
    simp only [exec]
    exact .bind_any fun _ => .pure rfl
  | .resume name, env => by
    simp only [exec]
    exact .bind_any fun _ => .pure rfl

theorem execBlock_sameDepth : ∀ (b : List Stmt) (env : Env),
    (execBlock cx sv fuel kind b env).Gives env.SameDepth
  | [], env => by
    simp only [execBlock]
    exact .pure rfl
  | s :: rest, env => by
    simp only [execBlock]
    refine .bind (exec_sameDepth s env) ?_
    rintro ⟨env', signal⟩ henv
    have hd : env'.depth = env.depth := henv
    cases signal with
    | normal => exact fun w r w' hr => (execBlock_sameDepth rest env' w r w' hr).trans hd
    | brk => exact .pure hd
    | cont => exact .pure hd
    | ret v => exact .pure hd

theorem execElse_sameDepth : ∀ (b : Option (List Stmt)) (env : Env),
    (execElse cx sv fuel kind b env).Gives env.SameDepth
  | none, env => by
    simp only [execElse]
    exact .pure rfl
  | some body, env => by
    simp only [execElse]
    exact Env.inScope_sameDepth (execBlock_sameDepth body) env

end

end Stmt

end CoLang
