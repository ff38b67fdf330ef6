import CoLang.Proofs.Changes
/-!
# What a step does

A step is cut in two. Its *plan* depends on the machine alone: either all is settled, or the answer
of a condition is wanted, or a statement without parts is to be performed. Carrying out the plan is
where the world comes in. So the cases of a step are gone through once, here (`Machine.step_eq`),
and a fact about the world needs three of them.

A run, a call and a resume are computations in terms of steps (`Machine.runs_succ`,
`Function.call_eq`, `World.resume_eq`), which is the form in which facts about computations carry
over to them.
-/

namespace CoLang

/-! ## Computations, one after another -/

namespace Eval

variable {α β : Type} {x : Eval α} {f : α → Eval β} {w w' : World}

theorem bind_of_value {a : α} (h : x w = ⟨.value a, w'⟩) : (x >>= f) w = f a w' := by
  rw [bind_apply, h]

theorem bind_of_fault {e : Fault} (h : x w = ⟨.fault e, w'⟩) : (x >>= f) w = ⟨.fault e, w'⟩ := by
  rw [bind_apply, h]

theorem bind_of_outOfFuel (h : x w = ⟨.outOfFuel, w'⟩) : (x >>= f) w = ⟨.outOfFuel, w'⟩ := by
  rw [bind_apply, h]

@[simp] theorem pure_bind (a : α) (f : α → Eval β) : (Pure.pure a >>= f : Eval β) = f a := rfl

@[simp] theorem ofExcept_ok_bind (a : α) (f : α → Eval β) : (ofExcept (.ok a) >>= f) = f a := rfl

@[simp] theorem ofExcept_error_bind (e : Fault) (f : α → Eval β) :
    (ofExcept (.error e) >>= f) = throw e := rfl

@[simp] theorem bind_pure (x : Eval α) : (x >>= Pure.pure : Eval α) = x := by
  funext w
  rw [bind_apply]
  rcases x w with ⟨ending, w'⟩
  cases ending <;> rfl

theorem bind_assoc {γ : Type} (x : Eval α) (f : α → Eval β) (g : β → Eval γ) :
    (x >>= f) >>= g = x >>= fun a => f a >>= g := by
  funext w
  rw [bind_apply, bind_apply, bind_apply]
  rcases x w with ⟨ending, w'⟩
  cases ending <;> rfl

end Eval

/-! ## The plan of a step -/

/-- What a step of a machine is going to do, as far as the machine alone decides it. -/
inductive Plan where
  /-- Nothing is asked of the world. There is more to do or not, unless the step fails. -/
  | settled (more : Except Fault Bool) (m : Machine)
  /-- The condition of a construct decides how the machine goes on. -/
  | asks (construct : String) (cond : Expr) (next : Bool → Machine)
  /-- A statement without parts is performed, and the frames below it stay. -/
  | performs (s : Stmt) (rest : List Frame)

/-- How a step comes out that asks nothing of the world. -/
def Plan.verdict : Except Fault Bool → Verdict
  | .ok true => .more
  | .ok false => .done
  | .error f => .fault f

/-- Does what was planned. -/
def Plan.carryOut (cx : Context) (sv : Services) (m : Machine) (w : World) : Plan → Stepped
  | .settled more m => ⟨Plan.verdict more, m, w⟩
  | .asks construct cond next =>
    m.andThen (cond.evalCondition cx sv m.env construct w) fun b => (.more, next b)
  | .performs s rest => m.stepSimple cx sv w rest s

namespace Machine

/-- The machine with a conditional's branch in the place of its frame. -/
def dispatch (m : Machine) (rest : List Frame) (thenBody : Block) (elseBody : Option Block)
    (takeThen : Bool) : Machine :=
  let m := { m with frames := rest }
  if takeThen then m.pushBlock thenBody
  else
    match elseBody with
    | some b => m.pushBlock b
    | none => m

/-- The plan for a frame. -/
def planFrame (m : Machine) (frame : Frame) (rest : List Frame) : Plan :=
  let mismatch := .settled (.error (.frameMismatch frame.kind)) m
  match frame.node with
  | .block body =>
    match frame.kind with
    | .block phase index => .settled (.ok true) (m.stepBlock frame rest body phase index)
    | _ => mismatch
  | .stmt (.ifElse cond thenBody elseBody) =>
    match frame.kind with
    | .ifElse .evalCond _ =>
      .asks "if" cond fun taken => m.withTop frame rest (.ifElse .dispatch taken)
    | .ifElse .dispatch takeThen => .settled (.ok true) (m.dispatch rest thenBody elseBody takeThen)
    | _ => mismatch
  | .stmt (.whileLoop cond body) =>
    match frame.kind with
    | .whileLoop .check iteration =>
      .asks "while" cond fun again =>
        if again then m.withTop frame rest (.whileLoop .runBody iteration) else m.leave frame rest
    | .whileLoop .runBody iteration =>
      .settled (.ok true) ((m.withTop frame rest (.whileLoop .postBody iteration)).pushBlock body)
    | .whileLoop .postBody iteration =>
      .settled (.ok true) (m.withTop frame rest (.whileLoop .check (iteration + 1)))
    | _ => mismatch
  | .stmt s => if frame.kind = .ofStmt s then .performs s rest else mismatch

/-- What is left to do once a jump has been carried as far as it goes. -/
def afterUnwind : Control → Except Fault Bool
  | .idle => .ok true
  | .breaking => .error .breakOutsideLoop
  | .continuing => .error .continueOutsideLoop
  | .returning _ | .yielding => .ok false

/-- The machine whose pending jump has been carried as far as it goes. -/
def unwound (m : Machine) : Machine :=
  let r := unwindFrames m.control m.frames m.env
  { m with frames := r.1, env := r.2.1, control := r.2.2 }

/-- The plan of a machine's next step. -/
def plan (m : Machine) : Plan :=
  match m.control with
  | .yielding => .settled (.ok false) m
  | .idle =>
    match m.frames with
    | [] => .settled (.ok false) m
    | frame :: rest => m.planFrame frame rest
  | _ => .settled (afterUnwind m.unwound.control) m.unwound

theorem stepFrame_eq (cx : Context) (sv : Services) (m : Machine) (w : World) (frame : Frame)
    (rest : List Frame) :
    m.stepFrame cx sv w frame rest = (m.planFrame frame rest).carryOut cx sv m w := by
  unfold stepFrame planFrame
  cases hnode : frame.node with
  | block body => cases hkind : frame.kind <;> rfl
  | stmt s =>
    cases s
    case ifElse cond thenBody elseBody =>
      cases hkind : frame.kind with
      | ifElse phase takeThen => cases phase <;> rfl
      | _ => rfl
    case whileLoop cond body =>
      cases hkind : frame.kind with
      | whileLoop phase iteration =>
        cases phase with
        | check =>
          simp only [stepWhile, Plan.carryOut]
          congr 1
          funext again
          cases again <;> rfl
        | runBody => rfl
        | postBody => rfl
      | _ => rfl
    all_goals
      simp only
      split <;> rfl

theorem unwind_eq (m : Machine) :
    m.unwind = (Plan.verdict (afterUnwind m.unwound.control), m.unwound) := by
  unfold unwind unwound
  rcases unwindFrames m.control m.frames m.env with ⟨frames, env, control⟩
  cases control <;> rfl

/-- **A step carries out its plan.** -/
theorem step_eq (cx : Context) (sv : Services) (m : Machine) (w : World) :
    m.step cx sv w = m.plan.carryOut cx sv m w := by
  unfold step plan
  cases hc : m.control with
  | idle =>
    cases hf : m.frames with
    | nil => rfl
    | cons frame rest => exact stepFrame_eq cx sv m w frame rest
  | yielding => rfl
  | breaking => simp only [unwind_eq, Plan.carryOut]
  | continuing => simp only [unwind_eq, Plan.carryOut]
  | returning v => simp only [unwind_eq, Plan.carryOut]

end Machine

/-! ## Steps and runs as computations -/

/-- How a step or a run came out, as the ending of a computation. -/
def Verdict.ending {α : Type} (more done : α) : Verdict → Ending α
  | .more => .value more
  | .done => .value done
  | .fault f => .fault f
  | .outOfFuel => .outOfFuel

/-- A run as the outcome of a computation that gives the machine. -/
def Stepped.outcome (r : Stepped) : Outcome Machine :=
  ⟨r.verdict.ending r.machine r.machine, r.world⟩

namespace Machine

variable (cx : Context) (sv : Services) (m : Machine)

/-- A step as a computation: whether there is more to do, and the machine. -/
def advance : Eval (Bool × Machine) :=
  fun w =>
    let r := m.step cx sv w
    ⟨r.verdict.ending (true, r.machine) (false, r.machine), r.world⟩

/-- A run as a computation, which gives the machine that ended or stopped at a yield. -/
def runs (fuel : Nat) : Eval Machine :=
  fun w => (m.run cx sv fuel w).outcome

/-- The machine behind a statement without parts. -/
def performed (rest : List Frame) (after : Env × Control) : Machine :=
  { m with frames := rest, env := after.1, control := after.2 }

theorem advance_eq :
    m.advance cx sv =
      match m.plan with
      | .settled more m => .ofExcept (more.map fun b => (b, m))
      | .asks construct cond next => do
        let b ← cond.evalCondition cx sv m.env construct
        return (true, next b)
      | .performs s rest => do
        let after ← s.perform cx sv m.body m.env
        return (!(m.performed rest after).isSuspended, m.performed rest after) := by
  funext w
  unfold advance
  rw [step_eq]
  cases m.plan with
  | settled more m => rcases more with _ | _ | _ <;> rfl
  | asks construct cond next =>
    simp only [Plan.carryOut, Eval.bind_apply]
    rcases cond.evalCondition cx sv m.env construct w with ⟨ending, w'⟩
    cases ending <;> rfl
  | performs s rest =>
    simp only [Plan.carryOut, stepSimple, Eval.bind_apply]
    rcases s.perform cx sv m.body m.env w with ⟨ending, w'⟩
    cases ending with
    | value after =>
      obtain ⟨env, control⟩ := after
      cases control <;> rfl
    | fault f => rfl
    | outOfFuel => rfl

theorem runs_succ (fuel : Nat) :
    m.runs cx sv (fuel + 1) = do
      let (more, m) ← m.advance cx sv
      if more then m.runs cx sv fuel else return m := by
  funext w
  rw [Eval.bind_apply]
  simp only [runs, run, advance]
  rcases m.step cx sv w with ⟨verdict, m', w'⟩
  cases verdict <;> rfl

end Machine

namespace Stepped

/-- The run ended or stopped, about to do `control`, with an environment and a world. -/
structure Ended (r : Stepped) (control : Control) (env : Env) (w : World) : Prop where
  verdict : r.verdict = .done
  control : r.machine.control = control
  env : r.machine.env = env
  world : r.world = w

/-- The run failed and left a world. -/
structure Failed (r : Stepped) (f : Fault) (w : World) : Prop where
  verdict : r.verdict = .fault f
  world : r.world = w

theorem ended_iff {r : Stepped} (hmore : r.verdict ≠ .more) {control : Control} {env : Env}
    {w : World} :
    r.Ended control env w ↔
      ∃ m, r.outcome = ⟨.value m, w⟩ ∧ m.control = control ∧ m.env = env := by
  obtain ⟨verdict, m, w₁⟩ := r
  constructor
  · rintro ⟨rfl, hcontrol, henv, rfl⟩
    exact ⟨m, rfl, hcontrol, henv⟩
  · rintro ⟨m', hr, hcontrol, henv⟩
    cases verdict with
    | more => exact absurd rfl hmore
    | done =>
      cases hr
      exact ⟨rfl, hcontrol, henv, rfl⟩
    | fault f => cases hr
    | outOfFuel => cases hr

theorem failed_iff {r : Stepped} {f : Fault} {w : World} :
    r.Failed f w ↔ r.outcome = ⟨.fault f, w⟩ := by
  obtain ⟨verdict, m, w₁⟩ := r
  constructor
  · rintro ⟨rfl, rfl⟩
    rfl
  · intro hr
    cases verdict with
    | fault f =>
      cases hr
      exact ⟨rfl, rfl⟩
    | _ => cases hr

end Stepped

theorem Machine.run_ne_more {cx : Context} {sv : Services} {m : Machine} {fuel : Nat} {w : World} :
    (m.run cx sv fuel w).verdict ≠ .more := by
  induction fuel generalizing m w with
  | zero => simp [run]
  | succ fuel ih =>
    simp only [run]
    split
    · exact ih
    · assumption

/-! ## Calls and resumes as computations -/

/-- Gives a call's depth back at the end of a computation, also when it failed. -/
def Eval.leaving {α : Type} (x : Eval α) : Eval α :=
  fun w =>
    let r := x w
    match r.ending with
    | .outOfFuel => r
    | ending => ⟨ending, r.world.leave⟩

/-- A computation as the body of a call: the call is counted and recorded, and given back. -/
def Function.within {α : Type} (cx : Context) (f : Function) (x : Eval α) : Eval α := do
  Eval.change (f.enter cx)
  Eval.update fun w => w.record cx .call f.name f.doc none
  x.leaving

theorem Function.within_apply {α : Type} (cx : Context) (f : Function) (x : Eval α) (w : World) :
    f.within cx x w =
      match f.enter cx w with
      | (.error e, _) => ⟨.fault e, w⟩
      | (.ok (), w) => x.leaving (w.record cx .call f.name f.doc none) := by
  simp only [Function.within, Eval.bind_apply, Eval.change_apply Function.atomic_enter]
  rcases f.enter cx w with ⟨e | -, w'⟩ <;> rfl

theorem Function.call_eq (cx : Context) (sv : Services) (fuel : Nat) (f : Function)
    (args : List Val) :
    f.call cx sv fuel args = (do
      let env ← .ofExcept (f.callEnv args)
      f.within cx do
        let m ← (Machine.start f.body env .function).runs cx sv fuel
        .ofExcept (f.result m.returned)) := by
  unfold Function.call Function.within
  congr 1
  funext env
  congr 1
  funext u
  congr 1
  funext u w
  simp only [Eval.leaving, Eval.bind_apply, Machine.runs]
  rcases (Machine.start f.body env .function).run cx sv fuel w with ⟨verdict, m, w'⟩
  cases verdict with
  | fault e => rfl
  | outOfFuel => rfl
  | _ =>
    simp only [Stepped.outcome, Verdict.ending, Eval.ofExcept]
    cases f.result m.returned <;> rfl

namespace Instance

/-- The machine that a resume of the instance runs. -/
def body (i : Instance) : Except Fault Machine :=
  if i.isResumable then
    match i.machine with
    | none => .error (.noMachine i.coroutine)
    | some m => .ok m.clearYield
  else .error (.notResumable i.coroutine i.life)

/-- The instance once it has completed. -/
def ended (i : Instance) : Instance :=
  { i with life := .completed, machine := none, resumes := i.resumes + 1 }

/-- What a resume comes to, and the instance behind it, when its machine has ended. -/
def settle (i : Instance) : Ending Machine → Ending Progress × Instance
  | .value m =>
    if m.isSuspended then
      (.value .suspended, { i.ended with life := .suspended, machine := some m })
    else (.value .completed, i.ended)
  | .fault f => (.fault f, i.ended)
  | .outOfFuel => (.outOfFuel, i.ended)

end Instance

/-- The world with an instance put back. -/
def World.park (name : String) (i : Instance) (w : World) : World :=
  { w with table := w.table.checkin name i }

theorem World.resume_eq (cx : Context) (sv : Services) (fuel : Nat) (name : String) (w : World) :
    World.resume cx sv fuel name w =
      match w.table.checkout name with
      | (.error e, _) => ⟨.fault e, w⟩
      | (.ok i, table) =>
        let w := World.beginResume cx { w with table } name i
        match i.body with
        | .error e => ⟨.fault e, w.park name i⟩
        | .ok m =>
          let r := m.runs cx sv fuel w
          match r.ending with
          | .outOfFuel => ⟨.outOfFuel, r.world⟩
          | ending => ⟨(i.settle ending).1, r.world.park name (i.settle ending).2⟩ := by
  unfold World.resume
  rcases hout : w.table.checkout name with ⟨e | i, table⟩
  · simp only [Table.atomic_checkout hout]
  · simp only [Instance.resume, Instance.body]
    by_cases hr : i.isResumable
    · simp only [hr, if_true]
      cases hm : i.machine with
      | none => rfl
      | some m =>
        simp only [Machine.runs]
        rcases m.clearYield.run cx sv fuel (World.beginResume cx { w with table } name i) with
          ⟨verdict, m', w'⟩
        cases verdict with
        | fault f => rfl
        | outOfFuel => rfl
        | _ =>
          simp only [Stepped.outcome, Verdict.ending, Instance.settle]
          by_cases hs : m'.isSuspended
          · simp only [hs, if_true]
            rfl
          · simp only [hs]
            rfl
    · simp only [hr]
      rfl

end CoLang
