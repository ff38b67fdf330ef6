import CoLang.Proofs.Direct
import CoLang.Proofs.Faults
/-!
# What a step may come to

What a statement without parts leaves behind (`Stmt.Leaves`), and what one step of a machine can ask
for, come to and fail with, is said once, whatever the rest of the program answers
(`Machine.Advances`, `Machine.ends_script`). What steps keep is derived from that.
-/

namespace CoLang

/-! ## What a script may end with -/

/-- What is asked for is a function of the program, or a resume of such a name. -/
def Request.Among (d : Declarations) (resumes : String → Prop) : Request → Prop
  | .call f _ => f ∈ d.functions
  | .resume name => resumes name

/-- The script makes such requests and, whatever they are answered, ends with such a value or such a
fault. -/
def Script.Ends {α : Type} (ask : Request → Prop) (ok : α → Prop) (err : Fault → Prop) :
    Script α → Prop
  | .ends (.ok a) => ok a
  | .ends (.error f) => err f
  | .does _ s => s.Ends ask ok err
  | .asks q k => ask q ∧ ∀ v, (k v).Ends ask ok err

namespace Script.Ends

variable {α β : Type} {ask ask' : Request → Prop} {ok ok' : α → Prop} {err err' : Fault → Prop}
  {s : Script α}

theorem mono (h : s.Ends ask ok err) (hask : ∀ q, ask q → ask' q) (hok : ∀ a, ok a → ok' a)
    (herr : ∀ f, err f → err' f) : s.Ends ask' ok' err' := by
  induction s with
  | ends x =>
    cases x with
    | ok a => exact hok a h
    | error f => exact herr f h
  | does e s ih => exact ih h
  | asks q k ih => exact ⟨hask q h.1, fun v => ih v (h.2 v)⟩

theorem ofExcept {x : Except Fault α} (hok : ∀ a, x = .ok a → ok a)
    (herr : ∀ f, x = .error f → err f) : (Script.ends x).Ends ask ok err := by
  cases x with
  | ok a => exact hok a rfl
  | error f => exact herr f rfl

theorem pure {a : α} (h : ok a) : (Pure.pure a : Script α).Ends ask ok err :=
  h

theorem bind {post : β → Prop} {f : α → Script β} (h : s.Ends ask ok err)
    (hf : ∀ a, ok a → (f a).Ends ask post err) : (s >>= f).Ends ask post err := by
  show (s.bind f).Ends ask post err
  induction s with
  | ends x =>
    cases x with
    | ok a => exact hf a h
    | error e => exact h
  | does e s ih => exact ih h
  | asks q k ih => exact ⟨h.1, fun v => ih v (h.2 v)⟩

theorem gives (h : s.Ends ask ok err) (cx : Context) (sv : Services) : (s.eval cx sv).Gives ok := by
  induction s with
  | ends x =>
    refine .ofExcept fun a hx => ?_
    subst hx
    exact h
  | does e s ih => exact .bind_any fun _ => ih h
  | asks q k ih => exact .bind_any fun v => ih v (h.2 v)

end Script.Ends

/-- The script only calls functions, and may end with any value and with faults that are no jumps.
-/
def Script.Calm {α : Type} (d : Declarations) (s : Script α) : Prop :=
  s.Ends (Request.Among d fun _ => False) (fun _ => True) fun f => f.kind ≠ .controlFlow

namespace Script.Calm

variable {α β : Type} {d : Declarations}

theorem ofExcept {x : Except Fault α} (h : Plain x) : (Script.ends x).Calm d :=
  Script.Ends.ofExcept (fun _ _ => trivial) h

theorem pure (a : α) : (Pure.pure a : Script α).Calm d :=
  trivial

theorem bind {s : Script α} {f : α → Script β} (h : s.Calm d) (hf : ∀ a, (f a).Calm d) :
    (s >>= f).Calm d :=
  Script.Ends.bind h fun a _ => hf a

/-- A calm script is no less so where resumes and other faults are allowed for. -/
theorem ends {s : Script α} (h : s.Calm d) (resumes : String → Prop) (stray : Fault → Prop) :
    s.Ends (Request.Among d resumes) (fun _ => True) fun f => f.kind ≠ .controlFlow ∨ stray f := by
  refine h.mono (fun q hq => ?_) (fun _ => id) fun _ => .inl
  cases q with
  | call f args => exact hq
  | resume name => exact hq.elim

end Script.Calm

theorem Declarations.mem_of_callee {d : Declarations} {name : String} {f : Function}
    (h : d.callee name = .ok (.function f)) : f ∈ d.functions := by
  unfold Declarations.callee at h
  split at h
  · cases h
  · split at h
    case h_1 g hg =>
      cases h
      exact List.mem_of_find?_eq_some hg
    case h_2 =>
      split at h <;> cases h

theorem Callee.calm_script {d : Declarations} {name : String} {c : Callee}
    (h : d.callee name = .ok c) (args : List Val) : (c.script args).Calm d := by
  cases c with
  | builtin b =>
    cases b
    exact trivial
  | function f => exact ⟨Declarations.mem_of_callee h, fun _ => trivial⟩

/-- Calling what a name stands for, once its arguments are evaluated. -/
theorem Script.Calm.call {α : Type} {d : Declarations} (name : String)
    {args : Script (List Val)} (hargs : args.Calm d) {k : Option Val → Script α}
    (hk : ∀ v, (k v).Calm d) :
    Script.Calm d (do
      let callee ← Script.ends (d.callee name)
      let vs ← args
      let v ← callee.script vs
      k v) := by
  have hcallee : (Script.ends (d.callee name)).Ends (Request.Among d fun _ => False)
      (fun c => d.callee name = .ok c) fun f => f.kind ≠ .controlFlow :=
    .ofExcept (fun _ => id) (d.plain_callee name)
  refine hcallee.bind fun c hc => ?_
  exact Script.Calm.bind hargs fun vs => .bind (Callee.calm_script hc vs) hk

namespace Expr

variable {cx : Context} {env : Env}

mutual

theorem calm_script : ∀ e : Expr, (e.script cx env).Calm cx.decls
  | .lit v => by
    simp only [script]
    exact .pure v
  | .var name => by
    simp only [script]
    exact .ofExcept (env.plain_lookup name)
  | .unary op operand => by
    simp only [script]
    exact .bind (calm_script operand) fun v => .ofExcept (op.plain_apply v)
  | .binary op left right => by
    simp only [script]
    refine .bind (calm_script left) fun l => .bind (.ofExcept (op.plain_decided? l)) fun o => ?_
    cases o with
    | some v => exact .pure v
    | none => exact .bind (calm_script right) fun r => .ofExcept (op.plain_apply l r)
  | .call name args => by
    simp only [script]
    refine Script.Calm.call name (calm_scriptArgs args) fun v => ?_
    cases v with
    | some v => exact .pure v
    | none => exact .ofExcept (plain_error (by simp [Fault.kind]))

theorem calm_scriptArgs : ∀ args : List Expr, (scriptArgs cx env args).Calm cx.decls
  | [] => by
    simp only [scriptArgs]
    exact .pure _
  | e :: rest => by
    simp only [scriptArgs]
    exact .bind (calm_script e) fun v => .bind (calm_scriptArgs rest) fun vs => .pure _

end

theorem calm_scriptPerform (e : Expr) : (e.scriptPerform cx env).Calm cx.decls := by
  cases e with
  | call name args => exact Script.Calm.call name (calm_scriptArgs args) fun _ => .pure ()
  | _ => exact .bind (calm_script _) fun _ => .pure ()

theorem calm_scriptCondition (construct : String) (e : Expr) :
    (e.scriptCondition cx env construct).Calm cx.decls := by
  refine .bind (calm_script e) fun v => ?_
  cases v with
  | bool b => exact .pure b
  | _ => exact .ofExcept (plain_error (by simp [Fault.kind]))

theorem calm_script? (e : Option Expr) : (script? cx env e).Calm cx.decls := by
  cases e with
  | none => exact .pure none
  | some e => exact .bind (calm_script e) fun v => .pure (some v)

end Expr

/-! ## What a step may come to -/

/-- What a statement without parts may leave: the environment, and what the body is to do next. -/
inductive Stmt.Leaves (kind : BodyKind) (env : Env) : Stmt → Env × Control → Prop
  | defines {name : String} {ty : Ty} {init : Option Expr} {doc : Option Doc} {v : Option Val}
      {env' : Env} (h : env.define name ty v = (.ok (), env')) :
      Leaves kind env (.varDecl name ty init doc) (env', .idle)
  | assigns {name : String} {value : Expr} {v : Val} {env' : Env}
      (h : env.assign name v = (.ok (), env')) : Leaves kind env (.assign name value) (env', .idle)
  | goesOn {s : Stmt} : Leaves kind env s (env, .idle)
  | returns {value : Option Expr} {v : Option Val} :
      Leaves kind env (.ret value) (env, .returning v)
  | breaks : Leaves kind env .brk (env, .breaking)
  | continues : Leaves kind env .cont (env, .continuing)
  | yields (h : kind = .coroutine) : Leaves kind env .yield (env, .yielding)

/-- **All that a statement without parts can ask for and come to.** -/
theorem Stmt.ends_script (cx : Context) (kind : BodyKind) (env : Env) (s : Stmt) :
    (s.script cx kind env).Ends (Request.Among cx.decls fun name => s = .resume name)
      (s.Leaves kind env) fun f =>
        f.kind ≠ .controlFlow ∨ (f = .yieldOutsideCoroutine ∧ s = .yield ∧ kind ≠ .coroutine) := by
  cases s with
  | varDecl name ty init doc =>
    refine ((Expr.calm_script? init).ends _ _).bind fun v _ => ?_
    have hplain := env.plain_define name ty v
    rcases hdefine : env.define name ty v with ⟨f | ⟨⟩, env'⟩
    · rw [hdefine] at hplain
      exact .inl (hplain f rfl)
    · exact .defines hdefine
  | assign name value =>
    refine ((Expr.calm_script value).ends _ _).bind fun v _ => ?_
    have hplain := env.plain_assign name v
    rcases hassign : env.assign name v with ⟨f | ⟨⟩, env'⟩
    · rw [hassign] at hplain
      exact .inl (hplain f rfl)
    · exact .assigns hassign
  | expr e => exact ((Expr.calm_scriptPerform e).ends _ _).bind fun _ _ => .pure .goesOn
  | ret value => exact ((Expr.calm_script? value).ends _ _).bind fun v _ => .pure .returns
  | brk => exact .breaks
  | cont => exact .continues
  | yield =>
    rw [Stmt.script]
    split
    case isTrue hk => exact .yields hk
    case isFalse hk => exact .inr ⟨rfl, rfl, hk⟩
  | create name coroutine => exact .goesOn
  | resume name => exact ⟨rfl, fun _ => .goesOn⟩
  | ifElse cond thenBody elseBody => exact .goesOn
  | whileLoop cond body => exact .goesOn

theorem Stmt.perform_leaves (cx : Context) (sv : Services) (kind : BodyKind) (env : Env)
    (s : Stmt) : (s.perform cx sv kind env).Gives (s.Leaves kind env) := by
  rw [← Stmt.eval_script]
  exact (s.ends_script cx kind env).gives cx sv

namespace Machine

/-- What a step of a machine may come to, whatever the rest of the program answers. -/
inductive Advances (m : Machine) : Bool × Machine → Prop
  | settled {more : Bool} {m' : Machine} (h : m.plan = .settled (.ok more) m') :
      Advances m (more, m')
  | asks {construct : String} {cond : Expr} {next : Bool → Machine}
      (h : m.plan = .asks construct cond next) (b : Bool) : Advances m (true, next b)
  | performs {s : Stmt} {rest : List Frame} {after : Env × Control}
      (h : m.plan = .performs s rest) (hs : s.Leaves m.body m.env after) :
      Advances m (!(m.performed rest after).isSuspended, m.performed rest after)

/-- The faults of a step that are due to a jump or a frame. -/
inductive Strays (m : Machine) : Fault → Prop
  | settled {f : Fault} {m' : Machine} (h : m.plan = .settled (.error f) m') : Strays m f
  | yields {rest : List Frame} (h : m.plan = .performs .yield rest) (hk : m.body ≠ .coroutine) :
      Strays m .yieldOutsideCoroutine

/-- What a step of a machine may ask for: calls, and the resume that it performs. -/
def Asks (d : Declarations) (m : Machine) : Request → Prop :=
  Request.Among d fun name => ∃ rest, m.plan = .performs (.resume name) rest

/-- **All that a step can ask for and come to.** -/
theorem ends_script (cx : Context) (m : Machine) :
    (m.script cx).Ends (m.Asks cx.decls) m.Advances
      fun f => f.kind ≠ .controlFlow ∨ m.Strays f := by
  unfold Machine.script
  cases hplan : m.plan with
  | settled more m' =>
    cases more with
    | ok more => exact .settled hplan
    | error f => exact .inr (.settled hplan)
  | asks construct cond next =>
    refine Script.Ends.bind ((Expr.calm_scriptCondition construct cond).ends _ _) fun b _ => ?_
    exact .asks hplan b
  | performs s rest =>
    refine Script.Ends.bind ((s.ends_script cx m.body m.env).mono ?_ (fun _ => id) ?_)
      fun after h => ?_
    · rintro (⟨f, args⟩ | name) hq
      · exact hq
      · exact ⟨rest, hq ▸ hplan⟩
    · rintro f (hf | ⟨rfl, hs, hk⟩)
      · exact .inl hf
      · exact .inr (.yields (hs ▸ hplan) hk)
    · exact .performs hplan h

theorem advance_gives (cx : Context) (sv : Services) (m : Machine) :
    (m.advance cx sv).Gives m.Advances := by
  rw [← Machine.eval_script]
  exact (m.ends_script cx).gives cx sv

/-- What is performed stands in the innermost frame, and the frames below it stay. -/
theorem frames_of_performs {m : Machine} {s : Stmt} {rest : List Frame}
    (h : m.plan = .performs s rest) : ∃ f, m.frames = f :: rest ∧ f.node = .stmt s := by
  unfold plan at h
  cases hc : m.control with
  | idle =>
    simp only [hc] at h
    cases hf : m.frames with
    | nil => simp [hf] at h
    | cons frame below =>
      simp only [hf] at h
      unfold planFrame at h
      cases hn : frame.node with
      | block b => cases hk : frame.kind <;> simp [hn, hk] at h
      | stmt s' =>
        cases s'
        case ifElse =>
          cases hk : frame.kind with
          | ifElse phase takeThen => cases phase <;> simp [hn, hk] at h
          | _ => simp [hn, hk] at h
        case whileLoop =>
          cases hk : frame.kind with
          | whileLoop phase n => cases phase <;> simp [hn, hk] at h
          | _ => simp [hn, hk] at h
        all_goals
          simp only [hn] at h
          split at h
          · cases h
            exact ⟨frame, rfl, hn⟩
          · cases h
  | _ => simp [hc] at h

/-- What the innermost frame may make of a machine, unless it performs a statement. -/
inductive Turns (m : Machine) (rest : List Frame) (frame : Frame) : Machine → Prop
  | block {body : Block} {phase : BlockPhase} {index : Nat} (hn : frame.node = .block body)
      (hk : frame.kind = .block phase index) :
      Turns m rest frame (m.stepBlock frame rest body phase index)
  | chooses {cond : Expr} {thenBody : Block} {elseBody : Option Block} {takeThen : Bool}
      (hn : frame.node = .stmt (.ifElse cond thenBody elseBody))
      (hk : frame.kind = .ifElse .evalCond takeThen) (taken : Bool) :
      Turns m rest frame (m.withTop frame rest (.ifElse .dispatch taken))
  | branches {cond : Expr} {thenBody : Block} {elseBody : Option Block} {takeThen : Bool}
      (hn : frame.node = .stmt (.ifElse cond thenBody elseBody))
      (hk : frame.kind = .ifElse .dispatch takeThen) :
      Turns m rest frame (m.dispatch rest thenBody elseBody takeThen)
  | goesRound {cond : Expr} {body : Block} {iteration : UInt64}
      (hn : frame.node = .stmt (.whileLoop cond body))
      (hk : frame.kind = .whileLoop .check iteration) :
      Turns m rest frame (m.withTop frame rest (.whileLoop .runBody iteration))
  | leavesLoop {cond : Expr} {body : Block} {iteration : UInt64}
      (hn : frame.node = .stmt (.whileLoop cond body))
      (hk : frame.kind = .whileLoop .check iteration) :
      Turns m rest frame (m.leave frame rest)
  | runsBody {cond : Expr} {body : Block} {iteration : UInt64}
      (hn : frame.node = .stmt (.whileLoop cond body))
      (hk : frame.kind = .whileLoop .runBody iteration) :
      Turns m rest frame ((m.withTop frame rest (.whileLoop .postBody iteration)).pushBlock body)
  | endsRound {cond : Expr} {body : Block} {iteration : UInt64}
      (hn : frame.node = .stmt (.whileLoop cond body))
      (hk : frame.kind = .whileLoop .postBody iteration) :
      Turns m rest frame (m.withTop frame rest (.whileLoop .check (iteration + 1)))

/-- What a step of a machine may come to, case by case. -/
inductive Moves (m : Machine) : Bool × Machine → Prop
  | stays (h : m.control = .yielding ∨ m.control = .idle ∧ m.frames = []) : Moves m (false, m)
  | jumps {more : Bool} (hc : m.control ≠ .idle) (h : afterUnwind m.unwound.control = .ok more) :
      Moves m (more, m.unwound)
  | turns {frame : Frame} {rest : List Frame} {m' : Machine} (hc : m.control = .idle)
      (hf : m.frames = frame :: rest) (h : m.Turns rest frame m') : Moves m (true, m')
  | performs {frame : Frame} {rest : List Frame} {s : Stmt} {after : Env × Control}
      (hc : m.control = .idle) (hf : m.frames = frame :: rest) (hn : frame.node = .stmt s)
      (hs : s.Leaves m.body m.env after) :
      Moves m (!(m.performed rest after).isSuspended, m.performed rest after)

theorem turns_of_settled {m m' : Machine} {frame : Frame} {rest : List Frame} {more : Bool}
    (h : m.planFrame frame rest = .settled (.ok more) m') :
    more = true ∧ m.Turns rest frame m' := by
  unfold planFrame at h
  cases hn : frame.node with
  | block b =>
    cases hk : frame.kind <;> simp only [hn, hk] at h <;> cases h
    exact ⟨rfl, .block hn hk⟩
  | stmt s =>
    cases s
    case ifElse =>
      cases hk : frame.kind with
      | ifElse phase takeThen =>
        cases phase <;> simp only [hn, hk] at h <;> cases h
        exact ⟨rfl, .branches hn hk⟩
      | _ => simp [hn, hk] at h
    case whileLoop =>
      cases hk : frame.kind with
      | whileLoop phase n =>
        cases phase <;> simp only [hn, hk] at h <;> cases h
        · exact ⟨rfl, .runsBody hn hk⟩
        · exact ⟨rfl, .endsRound hn hk⟩
      | _ => simp [hn, hk] at h
    all_goals
      simp only [hn] at h
      split at h <;> cases h

theorem turns_of_asks {m : Machine} {frame : Frame} {rest : List Frame} {construct : String}
    {cond : Expr} {next : Bool → Machine} (h : m.planFrame frame rest = .asks construct cond next)
    (b : Bool) : m.Turns rest frame (next b) := by
  unfold planFrame at h
  cases hn : frame.node with
  | block b => cases hk : frame.kind <;> simp [hn, hk] at h
  | stmt s =>
    cases s
    case ifElse =>
      cases hk : frame.kind with
      | ifElse phase takeThen =>
        cases phase <;> simp only [hn, hk] at h <;> cases h
        exact .chooses hn hk b
      | _ => simp [hn, hk] at h
    case whileLoop =>
      cases hk : frame.kind with
      | whileLoop phase n =>
        cases phase <;> simp only [hn, hk] at h <;> cases h
        cases b
        · exact .leavesLoop hn hk
        · exact .goesRound hn hk
      | _ => simp [hn, hk] at h
    all_goals
      simp only [hn] at h
      split at h <;> cases h

/-- A step is planned for the innermost frame, or there is nothing to ask. -/
theorem plan_cases (m : Machine) :
    (m.control = .yielding ∨ m.control = .idle ∧ m.frames = []) ∧ m.plan = .settled (.ok false) m ∨
      m.control ≠ .idle ∧ m.plan = .settled (afterUnwind m.unwound.control) m.unwound ∨
      ∃ frame rest, m.control = .idle ∧ m.frames = frame :: rest ∧
        m.plan = m.planFrame frame rest := by
  unfold plan
  cases hc : m.control with
  | idle =>
    cases hf : m.frames with
    | nil => exact .inl ⟨.inr ⟨rfl, rfl⟩, rfl⟩
    | cons frame rest => exact .inr (.inr ⟨frame, rest, rfl, rfl, rfl⟩)
  | yielding => exact .inl ⟨.inl rfl, rfl⟩
  | _ => exact .inr (.inl ⟨by simp, rfl⟩)

theorem Advances.moves {m : Machine} {r : Bool × Machine} (h : m.Advances r) : m.Moves r := by
  rcases m.plan_cases with ⟨hrest, hplan⟩ | ⟨hc, hplan⟩ | ⟨frame, rest, hc, hf, hplan⟩
  · cases h with
    | settled h =>
      rw [hplan] at h
      cases h
      exact .stays hrest
    | asks h => rw [hplan] at h; cases h
    | performs h => rw [hplan] at h; cases h
  · cases h with
    | settled h =>
      rw [hplan, Plan.settled.injEq] at h
      obtain ⟨hmore, rfl⟩ := h
      exact .jumps hc hmore
    | asks h => rw [hplan] at h; cases h
    | performs h => rw [hplan] at h; cases h
  · cases h with
    | settled h =>
      obtain ⟨rfl, ht⟩ := turns_of_settled (hplan.symm.trans h)
      exact .turns hc hf ht
    | asks h b => exact .turns hc hf (turns_of_asks (hplan.symm.trans h) b)
    | performs h hs =>
      obtain ⟨frame', hf', hn⟩ := frames_of_performs h
      exact .performs hc hf' hn hs

/-- The machine behind a step, also one that fails or does not end. -/
theorem step_machine (cx : Context) (sv : Services) (m : Machine) (w : World) :
    (∃ more, m.Advances (more, (m.step cx sv w).machine)) ∨ (m.step cx sv w).machine = m ∨
      ∃ f, m.plan = .settled (.error f) (m.step cx sv w).machine := by
  rw [step_eq]
  cases hplan : m.plan with
  | settled more m' =>
    cases more with
    | ok more => exact .inl ⟨more, .settled hplan⟩
    | error f => exact .inr (.inr ⟨f, rfl⟩)
  | asks construct cond next =>
    simp only [Plan.carryOut, andThen]
    split
    case h_1 b hb => exact .inl ⟨true, .asks hplan b⟩
    case h_2 => exact .inr (.inl rfl)
    case h_3 => exact .inr (.inl rfl)
  | performs s rest =>
    have hleaves := s.perform_leaves cx sv m.body m.env
    simp only [Plan.carryOut, stepSimple, andThen]
    split
    case h_1 after hafter => exact .inl ⟨_, .performs hplan (hleaves.of_ending hafter)⟩
    case h_2 => exact .inr (.inl rfl)
    case h_3 => exact .inr (.inl rfl)

end Machine

end CoLang
