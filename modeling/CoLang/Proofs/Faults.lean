import CoLang.Proofs.Script
/-!
# Where faults come from

Only the frames of a machine lead to the faults of control flow: a jump that finds no loop, a yield
in a body that may not yield, a frame that does not fit its syntax. All that expressions, the
environment, calls and the table may refuse is of another kind (`Plain`).
-/

namespace CoLang

variable {α β : Type}

/-- If this fails, then not because of a jump or a frame. -/
def Plain (x : Except Fault α) : Prop :=
  ∀ f, x = .error f → f.kind ≠ .controlFlow

theorem plain_ok (a : α) : Plain (.ok a) := by
  intro f hf
  cases hf

theorem plain_error {f : Fault} (h : f.kind ≠ .controlFlow) :
    Plain (.error f : Except Fault α) := by
  intro g hg
  cases hg
  exact h

theorem Plain.bind {x : Except Fault α} {k : α → Except Fault β} (hx : Plain x)
    (hk : ∀ a, Plain (k a)) : Plain (x >>= k) := by
  cases x with
  | ok a => exact hk a
  | error f => exact plain_error (hx f rfl)

theorem Plain.map {x : Except Fault α} (hx : Plain x) (g : α → β) : Plain (x.map g) := by
  cases x with
  | ok a => exact plain_ok _
  | error f => exact plain_error (hx f rfl)

theorem Env.plain_checkType (name : String) (ty : Ty) (v : Val) :
    Plain (Env.checkType name ty v) := by
  unfold Env.checkType
  split
  · exact plain_ok _
  · exact plain_error (by simp [Fault.kind])

theorem Env.plain_lookup (env : Env) (name : String) : Plain (env.lookup name) := by
  unfold Env.lookup
  split
  · exact plain_error (by simp [Fault.kind])
  · exact plain_error (by simp [Fault.kind])
  · exact plain_ok _

theorem Env.plain_define (env : Env) (name : String) (ty : Ty) (value : Option Val) :
    Plain (env.define name ty value).1 := by
  have hcheck : Plain (value.elim (.ok ()) (Env.checkType name ty)) := by
    cases value with
    | none => exact plain_ok _
    | some v => exact Env.plain_checkType name ty v
  unfold Env.define
  split
  case h_1 e he => exact plain_error (hcheck e he)
  case h_2 =>
    split
    · exact plain_error (by simp [Fault.kind])
    · split
      · exact plain_error (by simp [Fault.kind])
      · exact plain_ok _

theorem Env.plain_assign (env : Env) (name : String) (v : Val) : Plain (env.assign name v).1 := by
  unfold Env.assign
  split
  case h_1 => exact plain_error (by simp [Fault.kind])
  case h_2 b _ =>
    split
    case h_1 e he => exact plain_error (Env.plain_checkType name b.ty v e he)
    case h_2 => exact plain_ok _

theorem LogicOp.plain_expectBool (op : LogicOp) (v : Val) : Plain (op.expectBool v) := by
  cases v with
  | bool b => exact plain_ok _
  | _ => exact plain_error (by simp [Fault.kind])

theorem UnaryOp.plain_apply (op : UnaryOp) (v : Val) : Plain (op.apply v) := by
  unfold UnaryOp.apply
  split
  all_goals first | exact plain_ok _ | exact plain_error (by simp [Fault.kind])

theorem ArithOp.plain_onInt (op : ArithOp) (a b : Int64) : Plain (op.onInt a b) := by
  cases op with
  | div =>
    simp only [ArithOp.onInt]
    split
    · exact plain_error (by simp [Fault.kind])
    · exact plain_ok _
  | _ => exact plain_ok _

theorem BinaryOp.plain_apply (op : BinaryOp) (l r : Val) : Plain (op.apply l r) := by
  unfold BinaryOp.apply
  split
  case h_1 => exact (ArithOp.plain_onInt _ _ _).map _
  case h_3 =>
    split
    · exact plain_ok _
    · exact plain_error (by simp [Fault.kind])
  case h_6 =>
    exact (LogicOp.plain_expectBool _ _).bind fun _ =>
      (LogicOp.plain_expectBool _ _).bind fun _ => plain_ok _
  case h_7 => exact plain_error (by simp [Fault.kind])
  all_goals exact plain_ok _

theorem BinaryOp.plain_decided? (op : BinaryOp) (l : Val) : Plain (op.decided? l) := by
  unfold BinaryOp.decided?
  split
  · exact (LogicOp.plain_expectBool _ _).bind fun _ => plain_ok _
  · exact (LogicOp.plain_expectBool _ _).bind fun _ => plain_ok _
  · exact plain_ok _

theorem Declarations.plain_callee (d : Declarations) (name : String) : Plain (d.callee name) := by
  unfold Declarations.callee
  split
  · exact plain_ok _
  · split
    · exact plain_ok _
    · split
      · exact plain_error (by simp [Fault.kind])
      · exact plain_error (by simp [Fault.kind])

theorem Function.plain_bindArgs (f : Function) (ps : List Param) (vs : List Val) (env : Env) :
    Plain (f.bindArgs ps vs env) := by
  induction ps generalizing vs env with
  | nil => exact plain_ok _
  | cons p ps ih =>
    cases vs with
    | nil => exact plain_ok _
    | cons v vs =>
      simp only [Function.bindArgs]
      split
      · exact (Env.plain_define _ _ _ _).bind fun _ => ih vs _
      · exact plain_error (by simp [Fault.kind])

theorem Function.plain_callEnv (f : Function) (args : List Val) : Plain (f.callEnv args) := by
  unfold Function.callEnv
  split
  · exact f.plain_bindArgs _ _ _
  · exact plain_error (by simp [Fault.kind])

theorem Function.plain_result (f : Function) (returned : Option Val) :
    Plain (f.result returned) := by
  unfold Function.result
  split
  · split
    · exact plain_ok _
    · exact plain_error (by simp [Fault.kind])
  · exact plain_error (by simp [Fault.kind])
  · exact plain_ok _

theorem Function.plain_enter (cx : Context) (f : Function) (w : World) :
    Plain (f.enter cx w).1 := by
  unfold Function.enter
  split
  · exact plain_ok _
  · exact plain_error (by simp [Fault.kind])

theorem Table.plain_checkout (t : Table) (name : String) : Plain (t.checkout name).1 := by
  unfold Table.checkout
  split
  · exact plain_error (by simp [Fault.kind])
  · exact plain_error (by simp [Fault.kind])
  · exact plain_ok _

theorem Table.plain_insert (t : Table) (name : String) (i : Instance) :
    Plain (t.insert name i).1 := by
  unfold Table.insert
  split
  · exact plain_ok _
  · exact plain_error (by simp [Fault.kind])

theorem Instance.plain_body (i : Instance) : Plain i.body := by
  unfold Instance.body
  split
  · split
    · exact plain_error (by simp [Fault.kind])
    · exact plain_ok _
  · exact plain_error (by simp [Fault.kind])

theorem World.plain_create (cx : Context) (name coroutine : String) (w : World) :
    Plain (w.create cx name coroutine).1 := by
  unfold World.create
  split
  case h_1 => exact plain_error (by simp [Fault.kind])
  case h_2 c _ =>
    split
    case h_1 e t ht => exact plain_error (Table.plain_insert _ _ _ e (congrArg Prod.fst ht))
    case h_2 => exact plain_ok _

theorem World.plain_restore (cx : Context) (name : String) (i : Instance) (w : World) :
    Plain (w.restore cx name i).1 := by
  unfold World.restore
  split
  · exact plain_error (by simp [Fault.kind])
  · split
    · exact plain_error (by simp [Fault.kind])
    · exact Table.plain_insert _ _ _

theorem Effect.plain_apply (cx : Context) (e : Effect) (w : World) : Plain (e.apply cx w).1 := by
  cases e with
  | print line =>
    simp only [Effect.apply, World.print]
    split
    · exact plain_ok _
    · exact plain_error (by simp [Fault.kind])
  | declare name doc => exact plain_ok _
  | create name coroutine => exact World.plain_create cx name coroutine w

end CoLang
