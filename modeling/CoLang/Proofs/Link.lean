import CoLang.Proofs.Steps
/-!
# Linked computations

Most facts about programs compare a computation with others that run beside it: the same computation
with more fuel, in another world, or under another limit. A *link* is such a comparison, of one
computation with a family of them. All that is asked of it is that it holds of equal pure answers
and is kept by one computation after another.

A link then carries over from what a body may ask of the rest of the program to everything a body
does: expressions (`Link.eval`), statements (`Link.perform`), steps (`Link.advance`) and runs
(`Link.runs`). If it is also kept by the brackets around calls and resumes, it carries over to the
services themselves, however deep they nest (`Link.Keeps.services`). Over the empty family a link is
a property of single computations.
-/

namespace CoLang

/-- A comparison of a computation with a family of computations. -/
structure Link (ι : Type) where
  holds : {α : Type} → Eval α → (ι → Eval α) → Prop
  ofExcept : ∀ {α : Type} (x : Except Fault α), holds (.ofExcept x) fun _ => .ofExcept x
  bind : ∀ {α β : Type} {x : Eval α} {xs : ι → Eval α} {f : α → Eval β} {fs : ι → α → Eval β},
    holds x xs → (∀ a, holds (f a) fun i => fs i a) → holds (x >>= f) fun i => xs i >>= fs i

namespace Link

variable {ι : Type} (L : Link ι)

theorem pure {α : Type} (a : α) : L.holds (Pure.pure a) fun _ => Pure.pure a :=
  L.ofExcept (.ok a)

theorem throw {α : Type} (f : Fault) :
    L.holds (.throw f : Eval α) fun _ => .throw f :=
  L.ofExcept (.error f)

/-- The link holds of what a call may reach. A name may stand for another function in each program,
as long as the calls are linked. -/
structure Calls (cx : Context) (sv : Services) (cxs : ι → Context) (svs : ι → Services) :
    Prop where
  callee : ∀ name,
    (∃ e, cx.decls.callee name = .error e ∧ ∀ i, (cxs i).decls.callee name = .error e) ∨
    ∃ (c : Callee) (cs : ι → Callee), cx.decls.callee name = .ok c ∧
      (∀ i, (cxs i).decls.callee name = .ok (cs i)) ∧
      ∀ args, L.holds (c.invoke cx sv args) fun i => (cs i).invoke (cxs i) (svs i) args

/-- The link holds of what statements with a property may ask of the rest of the program. -/
structure ServesOn (P : Stmt → Prop) (cx : Context) (sv : Services) (cxs : ι → Context)
    (svs : ι → Services) : Prop extends L.Calls cx sv cxs svs where
  declare : ∀ name doc, L.holds (.update fun w => w.record cx .declare name doc none)
    fun i => .update fun w => w.record (cxs i) .declare name doc none
  create : ∀ name coroutine, P (.create name coroutine) →
    L.holds (.change (World.create cx name coroutine))
      fun i => .change (World.create (cxs i) name coroutine)
  resume : ∀ name, P (.resume name) → L.holds (sv.resume name) fun i => (svs i).resume name

/-- The link holds of everything a body may ask of the rest of the program. -/
structure Serves (cx : Context) (sv : Services) (cxs : ι → Context) (svs : ι → Services) :
    Prop extends L.Calls cx sv cxs svs where
  declare : ∀ name doc, L.holds (.update fun w => w.record cx .declare name doc none)
    fun i => .update fun w => w.record (cxs i) .declare name doc none
  create : ∀ name coroutine, L.holds (.change (World.create cx name coroutine))
    fun i => .change (World.create (cxs i) name coroutine)
  resume : ∀ name, L.holds (sv.resume name) fun i => (svs i).resume name

theorem Serves.on {L : Link ι} {cx : Context} {sv : Services} {cxs : ι → Context}
    {svs : ι → Services} (h : L.Serves cx sv cxs svs) (P : Stmt → Prop) :
    L.ServesOn P cx sv cxs svs :=
  ⟨h.toCalls, h.declare, fun name coroutine _ => h.create name coroutine,
    fun name _ => h.resume name⟩

/-! ## Expressions -/

section Bodies

variable {L} {cx : Context} {sv : Services} {cxs : ι → Context} {svs : ι → Services}
  (h : L.Calls cx sv cxs svs)

include h in
/-- Calling what a name stands for, once its arguments are evaluated. -/
theorem call {α : Type} (name : String) {x : Eval (List Val)} {xs : ι → Eval (List Val)}
    (hx : L.holds x xs) {k : Option Val → Eval α} {ks : ι → Option Val → Eval α}
    (hk : ∀ v, L.holds (k v) fun i => ks i v) :
    L.holds
      (do
        let callee ← .ofExcept (cx.decls.callee name)
        let vs ← x
        let v ← callee.invoke cx sv vs
        k v)
      (fun i => do
        let callee ← .ofExcept ((cxs i).decls.callee name)
        let vs ← xs i
        let v ← callee.invoke (cxs i) (svs i) vs
        ks i v) := by
  rcases h.callee name with ⟨e, hc, hcs⟩ | ⟨c, cs, hc, hcs, hinvoke⟩
  · simp only [hc, hcs, Eval.ofExcept_error_bind]
    exact L.throw e
  · simp only [hc, hcs, Eval.ofExcept_ok_bind]
    exact L.bind hx fun vs => L.bind (hinvoke vs) hk

mutual

theorem eval (h : L.Calls cx sv cxs svs) (env : Env) :
    ∀ e : Expr, L.holds (e.eval cx sv env) fun i => e.eval (cxs i) (svs i) env
  | .lit v => by
    simp only [Expr.eval]
    exact L.pure v
  | .var name => by
    simp only [Expr.eval]
    exact L.ofExcept _
  | .unary op operand => by
    simp only [Expr.eval]
    exact L.bind (eval h env operand) fun v => L.ofExcept _
  | .binary op left right => by
    simp only [Expr.eval]
    refine L.bind (eval h env left) fun l => L.bind (L.ofExcept _) fun decided => ?_
    cases decided with
    | some v => exact L.pure v
    | none => exact L.bind (eval h env right) fun r => L.ofExcept _
  | .call name args => by
    simp only [Expr.eval]
    refine call h name (evalArgs h env args) fun v => ?_
    cases v with
    | some v => exact L.pure v
    | none => exact L.throw _

theorem evalArgs (h : L.Calls cx sv cxs svs) (env : Env) :
    ∀ args : List Expr, L.holds (Expr.evalArgs cx sv env args)
      fun i => Expr.evalArgs (cxs i) (svs i) env args
  | [] => by
    simp only [Expr.evalArgs]
    exact L.pure []
  | e :: rest => by
    simp only [Expr.evalArgs]
    exact L.bind (eval h env e) fun v => L.bind (evalArgs h env rest) fun vs => L.pure _

end

include h

theorem performExpr (env : Env) (e : Expr) :
    L.holds (e.perform cx sv env) fun i => e.perform (cxs i) (svs i) env := by
  cases e with
  | call name args =>
    simp only [Expr.perform]
    exact call h name (evalArgs h env args) fun _ => L.pure ()
  | lit v => exact L.bind (eval h env _) fun _ => L.pure ()
  | var name => exact L.bind (eval h env _) fun _ => L.pure ()
  | binary op left right => exact L.bind (eval h env _) fun _ => L.pure ()
  | unary op operand => exact L.bind (eval h env _) fun _ => L.pure ()

theorem evalCondition (env : Env) (construct : String) (e : Expr) :
    L.holds (e.evalCondition cx sv env construct)
      fun i => e.evalCondition (cxs i) (svs i) env construct := by
  refine L.bind (eval h env e) fun v => ?_
  cases v with
  | bool b => exact L.pure b
  | int n => exact L.throw _
  | float x => exact L.throw _
  | str s => exact L.throw _

theorem eval? (env : Env) (e : Option Expr) :
    L.holds (Expr.eval? cx sv env e) fun i => Expr.eval? (cxs i) (svs i) env e := by
  cases e with
  | none => exact L.pure none
  | some e => exact L.bind (eval h env e) fun v => L.pure (some v)

end Bodies

/-! ## Statements, steps and runs -/

section Statements

variable {L} {cx : Context} {sv : Services} {cxs : ι → Context} {svs : ι → Services}

theorem performOn {P : Stmt → Prop} (h : L.ServesOn P cx sv cxs svs) (kind : BodyKind) (env : Env)
    {s : Stmt} (hs : P s) :
    L.holds (s.perform cx sv kind env) fun i => s.perform (cxs i) (svs i) kind env := by
  have hcalls := h.toCalls
  cases s with
  | varDecl name ty init doc =>
    exact L.bind (eval? hcalls env init) fun v => L.bind (L.ofExcept _) fun env =>
      L.bind (h.declare name doc) fun _ => L.pure _
  | assign name value =>
    exact L.bind (eval hcalls env value) fun v => L.bind (L.ofExcept _) fun env => L.pure _
  | expr e => exact L.bind (performExpr hcalls env e) fun _ => L.pure _
  | ret value => exact L.bind (eval? hcalls env value) fun v => L.pure _
  | create name coroutine => exact L.bind (h.create name coroutine hs) fun _ => L.pure _
  | resume name => exact L.bind (h.resume name hs) fun _ => L.pure _
  | brk => exact L.pure _
  | cont => exact L.pure _
  | yield =>
    simp only [Stmt.perform]
    split
    · exact L.pure _
    · exact L.throw _
  | ifElse cond thenBody elseBody => exact L.pure _
  | whileLoop cond body => exact L.pure _

/-- A step is linked if the statement that it performs, if any, has the property. -/
theorem advanceOn {P : Stmt → Prop} (h : L.ServesOn P cx sv cxs svs) {m : Machine}
    (hm : ∀ s rest, m.plan = .performs s rest → P s) :
    L.holds (m.advance cx sv) fun i => m.advance (cxs i) (svs i) := by
  simp only [Machine.advance_eq]
  cases hplan : m.plan with
  | settled more m => exact L.ofExcept _
  | asks construct cond next =>
    exact L.bind (evalCondition h.toCalls m.env construct cond) fun b => L.pure _
  | performs s rest =>
    exact L.bind (performOn h m.body m.env (hm s rest hplan)) fun after => L.pure _

theorem advance (h : L.Serves cx sv cxs svs) (m : Machine) :
    L.holds (m.advance cx sv) fun i => m.advance (cxs i) (svs i) :=
  advanceOn (h.on fun _ => True) fun _ _ _ => trivial

/-- **What is linked step by step is linked over runs.** -/
theorem runs (h : L.Serves cx sv cxs svs)
    (hx : ∀ {α : Type}, L.holds (.exhausted : Eval α) fun _ => .exhausted) (fuel : Nat)
    (m : Machine) : L.holds (m.runs cx sv fuel) fun i => m.runs (cxs i) (svs i) fuel := by
  induction fuel generalizing m with
  | zero => exact hx
  | succ fuel ih =>
    simp only [Machine.runs_succ]
    refine L.bind (advance h m) ?_
    rintro ⟨more, m⟩
    cases more with
    | true => exact ih m
    | false => exact L.pure m

end Statements

/-! ## Calls, resumes and services -/

/-- The link holds of what changes the world, and is kept by the brackets around calls and resumes,
between programs with the same declarations. -/
structure Keeps (cx : Context) (cxs : ι → Context) : Prop where
  decls : ∀ i, (cxs i).decls = cx.decls
  exhausted : ∀ {α : Type}, L.holds (.exhausted : Eval α) fun _ => .exhausted
  print : ∀ line, L.holds (.change (World.print cx line))
    fun i => .change (World.print (cxs i) line)
  declare : ∀ name doc, L.holds (.update fun w => w.record cx .declare name doc none)
    fun i => .update fun w => w.record (cxs i) .declare name doc none
  create : ∀ name coroutine, L.holds (.change (World.create cx name coroutine))
    fun i => .change (World.create (cxs i) name coroutine)
  within : ∀ (f : Function) {α : Type} {x : Eval α} {xs : ι → Eval α}, L.holds x xs →
    L.holds (f.within cx x) fun i => f.within (cxs i) (xs i)
  resume : ∀ {sv : Services} {svs : ι → Services} {fuel : Nat} {fuels : ι → Nat},
    (∀ m : Machine, L.holds (m.runs cx sv fuel) fun i => m.runs (cxs i) (svs i) (fuels i)) →
    ∀ name, L.holds (World.resume cx sv fuel name)
      fun i => World.resume (cxs i) (svs i) (fuels i) name

namespace Keeps

variable {L} {cx : Context} {cxs : ι → Context} (h : L.Keeps cx cxs)

include h

/-- Calls are linked once bodies are. -/
theorem callFunction {sv : Services} {svs : ι → Services} {fuel : Nat} {fuels : ι → Nat}
    (hruns : ∀ m : Machine, L.holds (m.runs cx sv fuel) fun i => m.runs (cxs i) (svs i) (fuels i))
    (f : Function) (args : List Val) :
    L.holds (f.call cx sv fuel args) fun i => f.call (cxs i) (svs i) (fuels i) args := by
  simp only [Function.call_eq]
  exact L.bind (L.ofExcept _) fun env =>
    h.within f (L.bind (hruns _) fun m => L.ofExcept _)

/-- Between programs with the same declarations, a body is served alike once calls and resumes
are. -/
theorem serves {sv : Services} {svs : ι → Services}
    (hcall : ∀ f args, L.holds (sv.call f args) fun i => (svs i).call f args)
    (hresume : ∀ name, L.holds (sv.resume name) fun i => (svs i).resume name) :
    L.Serves cx sv cxs svs where
  callee name := by
    simp only [h.decls]
    cases hc : cx.decls.callee name with
    | error e => exact .inl ⟨e, rfl, fun _ => rfl⟩
    | ok c =>
      refine .inr ⟨c, fun _ => c, rfl, fun _ => rfl, fun args => ?_⟩
      cases c with
      | builtin b =>
        cases b
        exact L.bind (h.print _) fun _ => L.pure none
      | function f => exact hcall f args
  declare := h.declare
  create := h.create
  resume := hresume

/-- **Services are linked at every level of nesting.** -/
theorem services (n : Nat) :
    L.Serves cx (services cx n) cxs fun i => CoLang.services (cxs i) n := by
  induction n with
  | zero => exact h.serves (fun _ _ => h.exhausted) fun _ => h.exhausted
  | succ n ih =>
    have hruns := runs ih h.exhausted n
    exact h.serves (h.callFunction hruns) (h.resume hruns)

end Keeps

end Link

end CoLang
