import CoLang.Machine.Step
/-!
# Calls and resumes

A call runs a function's body in a machine of its own, in a scope that holds the parameters only. A
resume runs an instance's body up to its next yield. Both may nest without end, so the services that
bodies call on are built for a bounded number of levels.
-/

namespace CoLang

namespace Function

/-- Binds arguments to parameters, from left to right. -/
def bindArgs (f : Function) : List Param → List Val → Env → Except Fault Env
  | p :: ps, v :: vs, env =>
    if v.ty = p.ty then do
      let (answer, env) := env.define p.name p.ty (some v)
      answer
      bindArgs f ps vs env
    else .error (.argumentMismatch p.name f.name p.ty v.ty)
  | _, _, env => .ok env

/-- The environment in which a call runs. -/
def callEnv (f : Function) (args : List Val) : Except Fault Env :=
  if args.length = f.params.length then f.bindArgs f.params args .empty
  else .error (.wrongArity f.name f.params.length args.length)

/-- What a call produces, given what its body returned. A function with a return type must return a
value of that type. -/
def result (f : Function) (returned : Option Val) : Except Fault (Option Val) :=
  match f.returnTy, returned with
  | some ty, some v => if v.ty = ty then .ok (some v) else .error (.returnMismatch f.name ty v.ty)
  | some ty, none => .error (.missingReturn f.name ty)
  | none, v => .ok v

/-- Counts a call that begins, unless too many are under way. -/
def enter (cx : Context) (f : Function) (w : World) : Except Fault Unit × World :=
  if w.depth < cx.settings.maxCallDepth then (.ok (), { w with depth := w.depth + 1 })
  else (.error (.tooDeep f.name cx.settings.maxCallDepth), w)

end Function

/-- What a body returned, once it has ended. -/
def Machine.returned (m : Machine) : Option Val :=
  match m.control with
  | .returning v => v
  | _ => none

/-- Counts a call that ends. -/
def World.leave (w : World) : World :=
  { w with depth := w.depth - 1 }

/-- Calls a function. Arguments are checked before the depth of calls, and the depth is given back
also when the body fails. -/
def Function.call (cx : Context) (sv : Services) (fuel : Nat) (f : Function) (args : List Val) :
    Eval (Option Val) := do
  let env ← .ofExcept (f.callEnv args)
  Eval.change (f.enter cx)
  Eval.update fun w => w.record cx .call f.name f.doc none
  fun w =>
    let r := (Machine.start f.body env .function).run cx sv fuel w
    match r.verdict with
    | .fault e => ⟨.fault e, r.world.leave⟩
    | .outOfFuel => ⟨.outOfFuel, r.world⟩
    | .done | .more => ⟨.ofExcept (f.result r.machine.returned), r.world.leave⟩

/-- The state after a resume: how it came out, the instance and the world. -/
structure Resumed where
  ending : Ending Progress
  inst : Instance
  world : World
deriving Inhabited

namespace Instance

/-- Resumes an instance. One that fails has completed. -/
def resume (cx : Context) (sv : Services) (fuel : Nat) (i : Instance) (w : World) : Resumed :=
  if i.isResumable then
    match i.machine with
    | none => ⟨.fault (.noMachine i.coroutine), i, w⟩
    | some m =>
      let r := m.clearYield.run cx sv fuel w
      let ended := { i with life := .completed, machine := none, resumes := i.resumes + 1 }
      match r.verdict with
      | .fault e => ⟨.fault e, ended, r.world⟩
      | .outOfFuel =>
        ⟨.outOfFuel, { ended with life := .running, machine := some r.machine }, r.world⟩
      | .done | .more =>
        if r.machine.isSuspended then
          ⟨.value .suspended, { ended with life := .suspended, machine := some r.machine }, r.world⟩
        else ⟨.value .completed, ended, r.world⟩
  else ⟨.fault (.notResumable i.coroutine i.life), i, w⟩

end Instance

/-- The world in which an instance, once taken out, is resumed: the resume is in the trace. -/
def World.beginResume (cx : Context) (w : World) (name : String) (i : Instance) : World :=
  if i.isResumable then
    w.record cx .resume i.coroutine ((cx.decls.coroutine? i.coroutine).bind (·.doc)) (some name)
  else w

/-- Resumes the instance of a name. It is out of the table while it runs and put back however the
resume ends. If the fuel runs out the resume has not ended. -/
def World.resume (cx : Context) (sv : Services) (fuel : Nat) (name : String) : Eval Progress :=
  fun w =>
    match w.table.checkout name with
    | (.error e, table) => ⟨.fault e, { w with table }⟩
    | (.ok i, table) =>
      let r := i.resume cx sv fuel (World.beginResume cx { w with table } name i)
      match r.ending with
      | .outOfFuel => ⟨.outOfFuel, r.world⟩
      | ending => ⟨ending, { r.world with table := r.world.table.checkin name r.inst }⟩

/-- The services for bodies that may nest calls and resumes `fuel` levels deep and take `fuel` steps
each. -/
def services (cx : Context) : Nat → Services
  | 0 => { call := fun _ _ => .exhausted, resume := fun _ => .exhausted }
  | fuel + 1 =>
    { call := fun f args => f.call cx (services cx fuel) fuel args
      resume := fun name => World.resume cx (services cx fuel) fuel name }

end CoLang
