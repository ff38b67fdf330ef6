import CoLang.Proofs.Session
/-!
# Comments and the trace decide nothing

A comment may mark a declaration as a step of a process, and then calls, creates, resumes and
declarations look at it in the middle of their work. All that comes of it is an event in the trace,
which nothing reads. So two programs that differ in their comments only, with the trace kept or not,
answer a host alike and come to the same lines, the same depth and the same instances, apart from
the comments in the syntax that an instance has yet to run and from the identities, which are given
out anew in each run (`Interpreter.session_of_bare`).

Leaving out the comments, the identities and the trace (`Interpreter.bare`) commutes with everything
a program does.
For expressions this is a link (`Link.bare`), since they hold no comments. Statements, machines and
instances do, so there a computation is compared with one that gives the bare value
(`Eval.Mirrored`).
-/

namespace CoLang

/-! ## Without comments -/

mutual

/-- A statement without the comments in it. -/
def Stmt.bare : Stmt → Stmt
  | .varDecl name ty init _ => .varDecl name ty init none
  | .ifElse cond thenBody elseBody =>
    .ifElse cond (Stmt.blockBare thenBody) (Stmt.elseBare elseBody)
  | .whileLoop cond body => .whileLoop cond (Stmt.blockBare body)
  | s => s

/-- A block without the comments in it. -/
def Stmt.blockBare : List Stmt → List Stmt
  | [] => []
  | s :: rest => s.bare :: Stmt.blockBare rest

/-- The other branch of a conditional without the comments in it. -/
def Stmt.elseBare : Option (List Stmt) → Option (List Stmt)
  | none => none
  | some body => some (Stmt.blockBare body)

end

/-- A body without the comments in it. -/
def Block.bare (body : Block) : Block := Stmt.blockBare body

def Function.bare (f : Function) : Function := { f with body := f.body.bare, doc := none }

def Coroutine.bare (c : Coroutine) : Coroutine := { c with body := c.body.bare, doc := none }

/-- A program without comments. -/
def Program.bare (p : Program) : Program :=
  ⟨p.functions.map Function.bare, p.coroutines.map Coroutine.bare, p.main.bare⟩

def Declarations.bare (d : Declarations) : Declarations :=
  ⟨d.functions.map Function.bare, d.coroutines.map Coroutine.bare⟩

def Callee.bare : Callee → Callee
  | .builtin b => .builtin b
  | .function f => .function f.bare

def FrameNode.bare : FrameNode → FrameNode
  | .block body => .block body.bare
  | .stmt s => .stmt s.bare

def Frame.bare (f : Frame) : Frame := { f with node := f.node.bare }

/-- A machine without the comments in the syntax that it runs. -/
def Machine.bare (m : Machine) : Machine := { m with frames := m.frames.map Frame.bare }

/-- An instance without its identity and the comments in the syntax that it runs. -/
def Instance.bare (i : Instance) : Instance :=
  { i with id := default, machine := i.machine.map Machine.bare }

def Slot.bare : Slot → Slot
  | .parked i => .parked i.bare
  | .running coroutine => .running coroutine

def Table.bare (t : Table) : Table where
  slots := t.slots.map fun e => (e.1, e.2.bare)
  sorted := by
    unfold Assoc.Sorted
    exact List.pairwise_map.2 t.sorted

/-- A world without comments, identities and the trace. -/
def World.bare (w : World) : World := { w with table := w.table.bare, events := #[] }

/-- A context without comments, in which all identities are the same and no trace is kept. -/
def Context.bare (cx : Context) : Context :=
  { cx with decls := cx.decls.bare, settings := { cx.settings with traceProcess := false },
            identities := default }

def Interpreter.bare (i : Interpreter) : Interpreter :=
  ⟨i.context.bare, i.main.bare, i.world.bare⟩

def Operation.bare : Operation → Operation
  | .restore name inst => .restore name inst.bare
  | op => op

theorem Block.getElem?_bare (body : Block) (n : Nat) : body.bare[n]? = body[n]?.map Stmt.bare := by
  unfold Block.bare
  induction body generalizing n with
  | nil => rfl
  | cons s rest ih =>
    cases n with
    | zero => rfl
    | succ n => exact ih n

/-! ## Declarations -/

namespace Declarations

variable (d : Declarations) (name : String)

theorem function?_bare : d.bare.function? name = (d.function? name).map Function.bare :=
  List.find?_map ..

theorem coroutine?_bare : d.bare.coroutine? name = (d.coroutine? name).map Coroutine.bare :=
  List.find?_map ..

theorem callee_bare : d.bare.callee name = (d.callee name).map Callee.bare := by
  unfold callee
  rw [function?_bare, coroutine?_bare]
  cases Builtin.ofName? name with
  | some b => rfl
  | none =>
    cases d.function? name with
    | some f => rfl
    | none => cases d.coroutine? name <;> rfl

theorem checkFree_bare : d.bare.checkFree name = d.checkFree name := by
  simp only [checkFree, function?_bare, coroutine?_bare, Option.isSome_map]

theorem addFunction_bare (f : Function) :
    d.bare.addFunction f.bare = (d.addFunction f).map Declarations.bare := by
  have hadded : Declarations.bare { d with functions := d.functions ++ [f] } =
      { d.bare with functions := d.bare.functions ++ [f.bare] } := by
    simp [Declarations.bare]
  unfold addFunction
  rw [show f.bare.name = f.name from rfl, show f.bare.params = f.params from rfl, checkFree_bare]
  cases d.checkFree f.name with
  | error e => rfl
  | ok u =>
    cases repeatedParam? f.params [] with
    | some p => rfl
    | none => exact congrArg Except.ok hadded.symm

theorem addCoroutine_bare (c : Coroutine) :
    d.bare.addCoroutine c.bare = (d.addCoroutine c).map Declarations.bare := by
  have hadded : Declarations.bare { d with coroutines := d.coroutines ++ [c] } =
      { d.bare with coroutines := d.bare.coroutines ++ [c.bare] } := by
    simp [Declarations.bare]
  unfold addCoroutine
  rw [show c.bare.name = c.name from rfl, checkFree_bare]
  cases d.checkFree c.name with
  | error e => rfl
  | ok u => exact congrArg Except.ok hadded.symm

/-- Declarations are added one by one, and so are the bare ones. -/
theorem foldlM_bare {α : Type} {step : Declarations → α → Except Fault Declarations} {g : α → α}
    (hstep : ∀ d x, step d.bare (g x) = (step d x).map Declarations.bare) (xs : List α) :
    (xs.map g).foldlM step d.bare = (xs.foldlM step d).map Declarations.bare := by
  induction xs generalizing d with
  | nil => rfl
  | cons x xs ih =>
    rw [List.map_cons, List.foldlM_cons, List.foldlM_cons, hstep]
    cases step d x with
    | error e => rfl
    | ok d' => exact ih d'

theorem build_bare (functions : List Function) (coroutines : List Coroutine) :
    build (functions.map Function.bare) (coroutines.map Coroutine.bare) =
      (build functions coroutines).map Declarations.bare := by
  have hfunctions : (functions.map Function.bare).foldlM addFunction empty =
      (functions.foldlM addFunction empty).map Declarations.bare :=
    foldlM_bare empty addFunction_bare functions
  unfold build
  rw [hfunctions]
  cases functions.foldlM addFunction empty with
  | error e => rfl
  | ok d => exact foldlM_bare d addCoroutine_bare coroutines

end Declarations

/-! ## The table and the world -/

namespace Table

variable (t : Table) (name : String)

theorem slot?_bare : t.bare.slot? name = (t.slot? name).map Slot.bare := by
  show Assoc.get? (t.slots.map fun e => (e.1, e.2.bare)) name = (t.slots.get? name).map Slot.bare
  induction t.slots with
  | nil => rfl
  | cons e rest ih =>
    obtain ⟨n, s⟩ := e
    by_cases hn : n = name
    · simp [Assoc.get?, hn]
    · simpa [Assoc.get?, hn] using ih

theorem setSlot_bare (s : Slot) : (t.setSlot name s).bare = t.bare.setSlot name s.bare := by
  refine ext_slot? fun other => ?_
  by_cases h : other = name
  · subst h
    simp [slot?_bare]
  · simp only [slot?_bare, slot?_setSlot_of_ne h]

theorem isFree_bare : t.bare.isFree name = t.isFree name := by
  unfold isFree
  rw [slot?_bare]
  cases t.slot? name with
  | none => rfl
  | some s => cases s <;> rfl

theorem insert_bare (i : Instance) :
    t.bare.insert name i.bare = ((t.insert name i).1, (t.insert name i).2.bare) := by
  unfold insert
  rw [isFree_bare]
  split
  · exact congrArg (Prod.mk _) (setSlot_bare t name (.parked i)).symm
  · rfl

theorem checkout_bare :
    t.bare.checkout name =
      ((t.checkout name).1.map Instance.bare, (t.checkout name).2.bare) := by
  have hslot := slot?_bare t name
  rcases hs : t.slot? name with - | (i | coroutine)
  · rw [hs] at hslot
    rw [checkout_of_none hs, checkout_of_none hslot]
    rfl
  · rw [hs] at hslot
    rw [checkout_of_parked hs, checkout_of_parked hslot]
    exact congrArg (Prod.mk _) (setSlot_bare t name (.running i.coroutine)).symm
  · rw [hs] at hslot
    rw [checkout_of_running hs, checkout_of_running hslot]
    rfl

end Table

namespace World

variable (cx : Context) (w : World)

/-- An event leaves no mark but in the trace. -/
@[simp] theorem bare_record (action : Action) (name : String) (doc : Option Doc)
    (instanceName : Option String) : (w.record cx action name doc instanceName).bare = w.bare := by
  unfold record
  split
  · split <;> rfl
  · rfl

@[simp] theorem bare_beginResume (name : String) (i : Instance) :
    (World.beginResume cx w name i).bare = w.bare := by
  unfold beginResume
  split <;> simp

/-- Where no trace is kept there are no events. -/
theorem record_of_untraced {cx : Context} (h : cx.settings.traceProcess = false) (w : World)
    (action : Action) (name : String) (doc : Option Doc) (instanceName : Option String) :
    w.record cx action name doc instanceName = w := by
  unfold record
  simp only [h]
  split <;> rfl

theorem beginResume_of_untraced {cx : Context} (h : cx.settings.traceProcess = false) (w : World)
    (name : String) (i : Instance) : World.beginResume cx w name i = w := by
  unfold beginResume
  split
  · exact record_of_untraced h ..
  · rfl

@[simp] theorem record_bare (action : Action) (name : String) (doc : Option Doc)
    (instanceName : Option String) : w.record cx.bare action name doc instanceName = w :=
  record_of_untraced rfl ..

@[simp] theorem beginResume_bare (name : String) (i : Instance) :
    World.beginResume cx.bare w name i = w :=
  beginResume_of_untraced rfl ..

theorem create_bare (name coroutine : String) :
    w.bare.create cx.bare name coroutine =
      ((w.create cx name coroutine).1, (w.create cx name coroutine).2.bare) := by
  unfold World.create
  rw [show cx.bare.decls = cx.decls.bare from rfl, Declarations.coroutine?_bare]
  cases cx.decls.coroutine? coroutine with
  | none => rfl
  | some c =>
    have hinsert : w.bare.table.insert name
        (.create (cx.bare.identities w.bare.created) c.bare) = _ :=
      Table.insert_bare w.table name (.create (cx.identities w.created) c)
    simp only [Option.map_some, hinsert]
    rcases w.table.insert name (.create (cx.identities w.created) c) with ⟨e | -, t⟩
    · rfl
    · have hrecord := bare_record cx { w with table := t, created := w.created + 1 } .create c.name
        c.doc (some name)
      exact congrArg (Prod.mk _) ((record_bare ..).trans hrecord.symm)

theorem restore_bare (name : String) (i : Instance) :
    w.bare.restore cx.bare name i.bare =
      ((w.restore cx name i).1, (w.restore cx name i).2.bare) := by
  unfold World.restore
  rw [show cx.bare.decls = cx.decls.bare from rfl, Declarations.coroutine?_bare,
    Option.isNone_map, show i.bare.coroutine = i.coroutine from rfl,
    show i.bare.life = i.life from rfl, show w.bare.table = w.table.bare from rfl,
    Table.insert_bare]
  split
  · rfl
  · split <;> rfl

theorem print_bare (line : String) :
    w.bare.print cx.bare line = ((w.print cx line).1, (w.print cx line).2.bare) := by
  unfold World.print
  show (if cx.takesLine w.lines.size = true then _ else _) = _
  split <;> rfl

theorem enter_bare (f : Function) :
    f.bare.enter cx.bare w.bare = ((f.enter cx w).1, (f.enter cx w).2.bare) := by
  unfold Function.enter
  show (if w.depth < cx.settings.maxCallDepth then _ else _) = _
  split <;> rfl

end World

/-! ## Computations -/

/-- An ending with another value. -/
def Ending.map {α β : Type} (g : α → β) : Ending α → Ending β
  | .value a => .value (g a)
  | .fault f => .fault f
  | .outOfFuel => .outOfFuel

@[simp] theorem Ending.map_id {α : Type} (ending : Ending α) : ending.map id = ending := by
  cases ending <;> rfl

/-- The second computation does in the bare world what the first does in the world, and gives the
first one's value without comments. -/
def Eval.Mirrored {α β : Type} (g : α → β) (x : Eval α) (y : Eval β) : Prop :=
  ∀ w, y w.bare = ⟨(x w).ending.map g, (x w).world.bare⟩

namespace Eval.Mirrored

variable {α α' β β' : Type} {g : α → α'} {h : β → β'}

theorem pure (a : α) : (Pure.pure a : Eval α).Mirrored g (Pure.pure (g a)) := fun _ => rfl

theorem exhausted : (Eval.exhausted : Eval α).Mirrored g .exhausted := fun _ => rfl

theorem bind {x : Eval α} {y : Eval α'} {f : α → Eval β} {f' : α' → Eval β'} (hx : x.Mirrored g y)
    (hf : ∀ a, (f a).Mirrored h (f' (g a))) : (x >>= f).Mirrored h (y >>= f') := by
  intro w
  have hy := hx w
  rcases hxw : x w with ⟨a | e | _, w'⟩
  · rw [hxw] at hy
    rw [Eval.bind_of_value hxw, Eval.bind_of_value hy]
    exact hf a w'
  · rw [hxw] at hy
    rw [Eval.bind_of_fault hxw, Eval.bind_of_fault hy]
    rfl
  · rw [hxw] at hy
    rw [Eval.bind_of_outOfFuel hxw, Eval.bind_of_outOfFuel hy]
    rfl

theorem change {f f' : World → Except Fault Unit × World}
    (hf : ∀ w, f' w.bare = ((f w).1, (f w).2.bare)) :
    (Eval.change f).Mirrored id (Eval.change f') := by
  intro w
  simp only [Eval.change, hf, Ending.map_id]

theorem leaving {x y : Eval α} (hx : x.Mirrored id y) : x.leaving.Mirrored id y.leaving := by
  intro w
  simp only [Eval.leaving, hx w]
  rcases x w with ⟨a | e | _, w'⟩ <;> rfl

end Eval.Mirrored

/-- A computation whose value holds no comments is mirrored by another. -/
def Link.bare : Link Unit where
  holds x xs := x.Mirrored id (xs ())
  ofExcept x := by
    intro w
    cases x <;> rfl
  bind hx hf := hx.bind hf

/-- Nothing is seen of an event. -/
theorem Eval.Mirrored.record (cx : Context) (action : Action) (name : String)
    (doc doc' : Option Doc) (instanceName : Option String) :
    (Eval.update fun w => w.record cx action name doc instanceName).Mirrored id
      (Eval.update fun w => w.record cx.bare action name doc' instanceName) := by
  intro w
  simp only [Eval.update, World.record_bare, World.bare_record, Ending.map_id]

/-- What the second services do mirrors what the first do. -/
structure Services.Mirrored (sv sv' : Services) : Prop where
  call : ∀ f args, (sv.call f args).Mirrored id (sv'.call f.bare args)
  resume : ∀ name, (sv.resume name).Mirrored id (sv'.resume name)

variable {cx : Context} {sv sv' : Services}

theorem Services.Mirrored.serves (h : sv.Mirrored sv') (cx : Context) :
    Link.bare.Serves cx sv (fun _ => cx.bare) fun _ => sv' where
  callee name := by
    have hcallee := Declarations.callee_bare cx.decls name
    cases hc : cx.decls.callee name with
    | error e =>
      rw [hc] at hcallee
      exact .inl ⟨e, rfl, fun _ => hcallee⟩
    | ok c =>
      rw [hc] at hcallee
      refine .inr ⟨c, fun _ => c.bare, rfl, fun _ => hcallee, fun args => ?_⟩
      cases c with
      | builtin b =>
        cases b
        exact Link.bare.bind (.change fun w => World.print_bare cx w _) fun _ => Link.bare.pure none
      | function f => exact h.call f args
  declare name doc := .record cx .declare name doc doc none
  create name coroutine := .change fun w => World.create_bare cx w name coroutine
  resume := h.resume

/-! ## Machines -/

/-- Without a trace a comment in a statement goes unseen. -/
theorem Stmt.perform_bare (cx : Context) (sv : Services) (kind : BodyKind) (env : Env) (s : Stmt) :
    s.bare.perform cx.bare sv kind env = s.perform cx.bare sv kind env := by
  cases s with
  | varDecl name ty init doc => simp only [Stmt.bare, Stmt.perform, World.record_bare]
  | ifElse cond thenBody elseBody => simp only [Stmt.bare, Stmt.perform]
  | whileLoop cond body => simp only [Stmt.bare, Stmt.perform]
  | _ => simp only [Stmt.bare]

theorem FrameKind.ofStmt_bare (s : Stmt) : FrameKind.ofStmt s.bare = .ofStmt s := by
  cases s <;> simp only [Stmt.bare, FrameKind.ofStmt]

/-- A plan without the comments in the syntax that is left to run. -/
def Plan.bare : Plan → Plan
  | .settled more m => .settled more m.bare
  | .asks construct cond next => .asks construct cond fun b => (next b).bare
  | .performs s rest => .performs s.bare (rest.map Frame.bare)

namespace Machine

variable (m : Machine)

theorem pushStmt_bare (s : Stmt) : (m.pushStmt s).bare = m.bare.pushStmt s.bare := by
  simp [pushStmt, bare, Frame.bare, FrameNode.bare, FrameKind.ofStmt_bare]

theorem stepBlock_bare (frame : Frame) (rest : List Frame) (body : Block) (phase : BlockPhase)
    (index : Nat) :
    (m.stepBlock frame rest body phase index).bare =
      m.bare.stepBlock frame.bare (rest.map Frame.bare) body.bare phase index := by
  cases phase with
  | enter => rfl
  | next =>
    simp only [stepBlock, Block.getElem?_bare]
    cases body[index]? with
    | none => rfl
    | some s => exact pushStmt_bare ..

theorem dispatch_bare (rest : List Frame) (thenBody : Block) (elseBody : Option Block)
    (takeThen : Bool) :
    (m.dispatch rest thenBody elseBody takeThen).bare =
      m.bare.dispatch (rest.map Frame.bare) thenBody.bare (Stmt.elseBare elseBody) takeThen := by
  cases takeThen with
  | true => rfl
  | false => cases elseBody <;> rfl

theorem planFrame_bare (frame : Frame) (rest : List Frame) :
    m.bare.planFrame frame.bare (rest.map Frame.bare) = (m.planFrame frame rest).bare := by
  obtain ⟨kind, base, node⟩ := frame
  cases node with
  | block body =>
    cases kind with
    | block phase index =>
      exact congrArg (Plan.settled _) (stepBlock_bare m _ rest body phase index).symm
    | _ => rfl
  | stmt s =>
    cases s
    case ifElse cond thenBody elseBody =>
      cases kind with
      | ifElse phase takeThen =>
        cases phase with
        | evalCond => rfl
        | dispatch =>
          exact congrArg (Plan.settled _) (dispatch_bare m rest thenBody elseBody takeThen).symm
      | _ => rfl
    case whileLoop cond body =>
      cases kind with
      | whileLoop phase iteration =>
        cases phase with
        | check =>
          refine congrArg (Plan.asks _ _) (funext fun again => ?_)
          cases again <;> rfl
        | runBody => rfl
        | postBody => rfl
      | _ => rfl
    all_goals cases kind <;> rfl

theorem unwindFrames_bare (control : Control) (frames : List Frame) (env : Env) :
    unwindFrames control (frames.map Frame.bare) env =
      ((unwindFrames control frames env).1.map Frame.bare,
        (unwindFrames control frames env).2) := by
  induction frames generalizing env with
  | nil => rfl
  | cons frame rest ih =>
    obtain ⟨kind, base, node⟩ := frame
    cases kind with
    | whileLoop phase iteration =>
      cases control with
      | breaking => rfl
      | continuing => rfl
      | _ => exact ih _
    | _ => exact ih _

theorem unwound_bare : m.bare.unwound = m.unwound.bare := by
  simp only [unwound, bare, unwindFrames_bare]

theorem plan_bare : m.bare.plan = m.plan.bare := by
  have hunwound := unwound_bare m
  obtain ⟨frames, env, control, kind⟩ := m
  cases control with
  | idle =>
    cases frames with
    | nil => rfl
    | cons frame rest => exact planFrame_bare _ frame rest
  | yielding => rfl
  | _ => exact congrArg (fun m' => Plan.settled (afterUnwind m'.control) m') hunwound

theorem advance_bare (h : sv.Mirrored sv') :
    (m.advance cx sv).Mirrored (fun r => (r.1, r.2.bare)) (m.bare.advance cx.bare sv') := by
  rw [advance_eq, advance_eq, plan_bare]
  cases m.plan with
  | settled more m =>
    intro w
    cases more <;> rfl
  | asks construct cond next =>
    exact (Link.evalCondition (h.serves cx).toCalls m.env construct cond).bind fun b => .pure _
  | performs s rest =>
    have hs : (s.perform cx sv m.body m.env).Mirrored id
        (s.bare.perform cx.bare sv' m.body m.env) := by
      rw [Stmt.perform_bare]
      exact Link.performOn ((h.serves cx).on fun _ => True) m.body m.env trivial
    exact hs.bind fun after => .pure _

theorem runs_bare (h : sv.Mirrored sv') (fuel : Nat) :
    (m.runs cx sv fuel).Mirrored Machine.bare (m.bare.runs cx.bare sv' fuel) := by
  induction fuel generalizing m with
  | zero => exact .exhausted
  | succ fuel ih =>
    rw [runs_succ, runs_succ]
    refine (advance_bare m h).bind ?_
    rintro ⟨more, m'⟩
    cases more with
    | true => exact ih m'
    | false => exact .pure m'

end Machine

/-! ## Calls, resumes and operations -/

theorem Function.bindArgs_bare (f : Function) (params : List Param) (args : List Val) (env : Env) :
    f.bare.bindArgs params args env = f.bindArgs params args env := by
  induction params generalizing args env with
  | nil => cases args <;> rfl
  | cons p rest ih =>
    cases args with
    | nil => rfl
    | cons v args =>
      simp only [Function.bindArgs, ih]
      rfl

theorem Function.callEnv_bare (f : Function) (args : List Val) :
    f.bare.callEnv args = f.callEnv args := by
  unfold Function.callEnv
  rw [Function.bindArgs_bare]
  rfl

theorem Function.call_bare (h : sv.Mirrored sv') (fuel : Nat) (f : Function) (args : List Val) :
    (f.call cx sv fuel args).Mirrored id (f.bare.call cx.bare sv' fuel args) := by
  rw [Function.call_eq, Function.call_eq, Function.callEnv_bare]
  refine (Link.bare.ofExcept (f.callEnv args)).bind fun env => ?_
  refine (Eval.Mirrored.change fun w => World.enter_bare cx w f).bind fun _ => ?_
  refine (Eval.Mirrored.record cx .call f.name f.doc none none).bind fun _ => ?_
  refine .leaving ((Machine.runs_bare (.start f.body env .function) h fuel).bind fun m => ?_)
  exact Link.bare.ofExcept (f.result m.returned)

namespace Instance

variable (i : Instance)

theorem body_bare : i.bare.body = i.body.map Machine.bare := by
  unfold body
  show (if i.isResumable = true then _ else _) = _
  split
  · simp only [bare]
    cases i.machine with
    | none => rfl
    | some m =>
      refine congrArg Except.ok ?_
      unfold Machine.clearYield
      rw [apply_ite Machine.bare]
      rfl
  · rfl

theorem settle_bare (ending : Ending Machine) :
    i.bare.settle (ending.map Machine.bare) = ((i.settle ending).1, (i.settle ending).2.bare) := by
  cases ending with
  | value m =>
    by_cases hm : m.isSuspended = true
    · have hm' : m.bare.isSuspended = true := hm
      simp only [settle, Ending.map, hm, hm', if_true]
      rfl
    · have hm' : ¬m.bare.isSuspended = true := hm
      simp only [settle, Ending.map, hm, hm']
      rfl
  | fault f => rfl
  | outOfFuel => rfl

end Instance

theorem World.park_bare (name : String) (i : Instance) (w : World) :
    (w.park name i).bare = w.bare.park name i.bare := by
  simp only [World.park, World.bare, Table.checkin, Table.setSlot_bare]
  rfl

theorem World.resume_bare (h : sv.Mirrored sv') (fuel : Nat) (name : String) :
    (World.resume cx sv fuel name).Mirrored id (World.resume cx.bare sv' fuel name) := by
  intro w
  have hcheckout : w.bare.table.checkout name = _ := Table.checkout_bare w.table name
  rw [World.resume_eq, World.resume_eq, hcheckout]
  rcases w.table.checkout name with ⟨e | i, t⟩
  · rfl
  · -- The instance is out, and the resume may be in the trace.
    obtain ⟨w₁, hw₁⟩ : ∃ w₁, w₁ = World.beginResume cx { w with table := t } name i := ⟨_, rfl⟩
    have hbare : w₁.bare = { w.bare with table := t.bare } := by
      rw [hw₁, World.bare_beginResume]
      rfl
    simp only [Except.map, World.beginResume_bare, ← hw₁, ← hbare, Instance.body_bare]
    cases i.body with
    | error e => exact congrArg (Outcome.mk _) (World.park_bare name i w₁).symm
    | ok m =>
      have hruns : m.bare.runs cx.bare sv' fuel w₁.bare = _ := Machine.runs_bare m h fuel w₁
      simp only [hruns]
      rcases m.runs cx sv fuel w₁ with ⟨ending, w₂⟩
      have hsettled : (⟨(i.bare.settle (ending.map Machine.bare)).1,
          w₂.bare.park name (i.bare.settle (ending.map Machine.bare)).2⟩ : Outcome Progress) =
            ⟨(i.settle ending).1.map id, (w₂.park name (i.settle ending).2).bare⟩ := by
        rw [Instance.settle_bare, World.park_bare, Ending.map_id]
      cases ending with
      | outOfFuel => rfl
      | value m' => exact hsettled
      | fault e => exact hsettled

/-- **Services without comments mirror those with them**, at every level of nesting. -/
theorem services_bare (cx : Context) (n : Nat) :
    (services cx n).Mirrored (services cx.bare n) := by
  induction n with
  | zero => exact ⟨fun _ _ => .exhausted, fun _ => .exhausted⟩
  | succ n ih => exact ⟨Function.call_bare ih n, World.resume_bare ih n⟩

theorem Operation.eval_bare (cx : Context) (main : Block) (fuel : Nat) (op : Operation) :
    (op.eval cx main fuel).Mirrored id (op.bare.eval cx.bare main.bare fuel) := by
  have hservices := services_bare cx fuel
  cases op with
  | runMain =>
    exact (Machine.runs_bare (.start main .empty .main) hservices fuel).bind fun _ => .pure _
  | create name coroutine =>
    exact (Eval.Mirrored.change fun w => World.create_bare cx w name coroutine).bind fun _ =>
      .pure _
  | resume name => exact (World.resume_bare hservices fuel name).bind fun p => .pure _
  | restore name inst =>
    exact (Eval.Mirrored.change fun w => World.restore_bare cx w name inst).bind fun _ => .pure _

/-! ## Where no trace is kept -/

theorem Eval.events_leaving {α : Type} (x : Eval α) (w : World) :
    (x.leaving w).world.events = (x w).world.events := by
  unfold Eval.leaving
  rcases x w with ⟨a | e | _, w'⟩ <;> rfl

namespace Link

/-- The trace stays as it is. -/
def silent : Link Empty where
  holds x _ := ∀ w, (x w).world.events = w.events
  ofExcept _ := fun _ => rfl
  bind := by
    intro α β x xs f fs hx hf w
    have hw := hx w
    rcases hxw : x w with ⟨a | e | _, w'⟩
    · rw [hxw] at hw
      rw [Eval.bind_of_value hxw, hf a w', hw]
    · rw [hxw] at hw
      rw [Eval.bind_of_fault hxw, hw]
    · rw [hxw] at hw
      rw [Eval.bind_of_outOfFuel hxw, hw]

theorem silent_change {f : World → Except Fault Unit × World} {xs : Empty → Eval Unit}
    (hatomic : Atomic f) (h : ∀ {w w'}, f w = (.ok (), w') → w'.events = w.events) :
    silent.holds (.change f) xs := by
  intro w
  rw [Eval.change_apply hatomic]
  rcases hf : f w with ⟨e | ⟨⟩, w'⟩
  · rfl
  · exact h hf

theorem silent_keeps (h : cx.settings.traceProcess = false) : silent.Keeps cx Empty.elim where
  decls e := e.elim
  exhausted := fun _ => rfl
  print line := by
    refine silent_change World.atomic_print fun {w w'} hf => ?_
    obtain ⟨-, rfl⟩ := World.print_ok hf
    rfl
  declare name doc := by
    intro w
    simp only [Eval.update, World.record_of_untraced h]
  create name coroutine := by
    refine silent_change World.atomic_create fun {w w'} hf => ?_
    obtain ⟨c, t, -, -, rfl⟩ := World.create_ok hf
    rw [World.record_of_untraced h]
  within f := by
    intro α x xs hx w
    rw [Function.within_apply]
    by_cases hdepth : w.depth < cx.settings.maxCallDepth
    · simp only [Function.enter, hdepth, if_true, World.record_of_untraced h, Eval.events_leaving]
      exact hx { w with depth := w.depth + 1 }
    · simp only [Function.enter, hdepth, if_false]
  resume := by
    intro sv svs fuel fuels hruns name w
    rw [World.resume_eq]
    rcases w.table.checkout name with ⟨e | i, t⟩
    · rfl
    · simp only [World.beginResume_of_untraced h]
      cases i.body with
      | error e => rfl
      | ok m =>
        have hevents := hruns m { w with table := t }
        simp only
        split <;> exact hevents

end Link

/-! ## Sessions -/

namespace Interpreter

/-- Performs operations one after another, each with fuel for its runs: the replies, and the
interpreter at the end. -/
def session (i : Interpreter) : List (Nat × Operation) → List Reply × Interpreter
  | [] => ([], i)
  | (fuel, op) :: rest =>
    let r := i.perform fuel op
    let later := r.2.session rest
    (r.1 :: later.1, later.2)

variable (i : Interpreter)

theorem perform_bare (fuel : Nat) (op : Operation) :
    i.bare.perform fuel op.bare = ((i.perform fuel op).1, (i.perform fuel op).2.bare) := by
  have hop : op.bare.eval i.bare.context i.bare.main fuel i.bare.world = _ :=
    Operation.eval_bare i.context i.main fuel op i.world
  rw [perform_eq, perform_eq, hop, Ending.map_id]
  rfl

/-- **Leaving out the comments commutes with sessions.** -/
theorem session_bare (ops : List (Nat × Operation)) :
    i.bare.session (ops.map fun e => (e.1, e.2.bare)) =
      ((i.session ops).1, (i.session ops).2.bare) := by
  induction ops generalizing i with
  | nil => rfl
  | cons e rest ih =>
    obtain ⟨fuel, op⟩ := e
    simp only [List.map_cons, session, perform_bare, ih]

theorem build_bare (p : Program) (settings : Settings) (capacity : Option Nat)
    (identities : Nat → Identity) :
    build p.bare { settings with traceProcess := false } capacity default =
      (build p settings capacity identities).map Interpreter.bare := by
  have hdecls := Declarations.build_bare p.functions p.coroutines
  unfold build
  simp only [Program.bare, hdecls]
  cases Declarations.build p.functions p.coroutines <;> rfl

theorem events_session {i : Interpreter} (h : i.context.settings.traceProcess = false)
    (ops : List (Nat × Operation)) : (i.session ops).2.world.events = i.world.events := by
  induction ops generalizing i with
  | nil => rfl
  | cons e rest ih =>
    obtain ⟨fuel, op⟩ := e
    have hperform : (i.perform fuel op).2.world.events = i.world.events := by
      rw [perform_eq]
      refine (Link.silent_keeps h).operation i.main fuel (fun name inst _ => ?_) i.world
      refine Link.silent_change World.atomic_restore fun {w w'} hw => ?_
      obtain ⟨-, -, t, -, rfl⟩ := World.restore_ok hw
      rfl
    refine (ih ?_).trans hperform
    rw [context_perform]
    exact h

/-- **Comments and the trace decide nothing.** Take two programs that differ in their comments only,
and settings that differ at most in whether the trace is kept. Either both programs are refused with
the same fault, or a host that performs the same operations on both gets the same replies and comes
to the same lines, the same depth of calls and the same instances without their comments, whatever
identities they are given. Where no trace is kept it stays empty. -/
theorem session_of_bare {p p' : Program} (hp : p.bare = p'.bare) {settings settings' : Settings}
    (hlimit : settings.maxCallDepth = settings'.maxCallDepth) (capacity : Option Nat)
    (identities identities' : Nat → Identity) :
    (∃ f, build p settings capacity identities = .error f ∧
        build p' settings' capacity identities' = .error f) ∨
      ∃ i i', build p settings capacity identities = .ok i ∧
        build p' settings' capacity identities' = .ok i' ∧
        ∀ ops, (i.session ops).1 = (i'.session ops).1 ∧
          (i.session ops).2.world.lines = (i'.session ops).2.world.lines ∧
          (i.session ops).2.world.depth = (i'.session ops).2.world.depth ∧
          (i.session ops).2.world.table.bare = (i'.session ops).2.world.table.bare ∧
          (settings.traceProcess = false → (i.session ops).2.world.events = #[]) := by
  have hbuild : (build p settings capacity identities).map Interpreter.bare =
      (build p' settings' capacity identities').map Interpreter.bare := by
    rw [← build_bare, ← build_bare, hp, hlimit]
  cases hi : build p settings capacity identities with
  | error f =>
    left
    cases hi' : build p' settings' capacity identities' with
    | error f' =>
      rw [hi, hi'] at hbuild
      cases hbuild
      exact ⟨f, rfl, rfl⟩
    | ok i' =>
      rw [hi, hi'] at hbuild
      cases hbuild
  | ok i =>
    right
    cases hi' : build p' settings' capacity identities' with
    | error f' =>
      rw [hi, hi'] at hbuild
      cases hbuild
    | ok i' =>
      rw [hi, hi'] at hbuild
      have hbare : i.bare = i'.bare := Except.ok.inj hbuild
      refine ⟨i, i', rfl, rfl, fun ops => ?_⟩
      -- Both sessions are the same one once the comments are left out.
      have hsession := session_bare i ops
      rw [hbare, session_bare i' ops, Prod.mk.injEq] at hsession
      obtain ⟨hreplies, hend⟩ := hsession
      refine ⟨hreplies.symm, ?_, ?_, ?_, fun h => ?_⟩
      · exact congrArg (fun i => i.world.lines) hend.symm
      · exact congrArg (fun i => i.world.depth) hend.symm
      · exact congrArg (fun i => i.world.table) hend.symm
      · obtain ⟨d, -, rfl⟩ := build_ok_iff.1 hi
        exact events_session h ops

/-- A program without comments and untraced beside one whose comments mark a coroutine and
declarations in its body and in the main body. The instance is kept with a declaration to come, and
the last operation fails. -/
theorem session_of_bare_marked :
    let p (doc : Option Doc) : Program :=
      ⟨[], [⟨"c", [.yield, .varDecl "y" .int none doc], doc⟩],
        [.create "a" "c", .resume "a", .varDecl "x" .int (some (.lit (.int 1))) doc,
          .expr (.call "print" [.var "x"])]⟩
    let ops : List (Nat × Operation) := [(20, .runMain), (20, .create "a" "c")]
    ∃ i i', build (p none) ⟨8, false⟩ none default = .ok i ∧
      build (p (some ["@process"])) ⟨8, true⟩ none (fun n => ⟨n⟩) = .ok i' ∧
      (i.session ops).1 = [.ok, .fault (.duplicateInstance "a")] ∧
      (i.session ops).1 = (i'.session ops).1 ∧
      (i.session ops).2.world.lines = (i'.session ops).2.world.lines ∧
      (i.session ops).2.world.depth = (i'.session ops).2.world.depth ∧
      (i.session ops).2.world.table.bare = (i'.session ops).2.world.table.bare ∧
      (i.session ops).2.world.events = #[] ∧ (i'.session ops).2.world.events.size = 3 := by
  intro p ops
  have hbare : (p none).bare = (p (some ["@process"])).bare := rfl
  have hlimit : (⟨8, false⟩ : Settings).maxCallDepth = (⟨8, true⟩ : Settings).maxCallDepth := rfl
  rcases session_of_bare hbare hlimit none default (fun n => ⟨n⟩) with
    ⟨f, hf, -⟩ | ⟨i, i', hi, hi', hsame⟩
  · cases hf
  · obtain ⟨hreplies, hlines, hdepth, htable, hevents⟩ := hsame ops
    refine ⟨i, i', hi, hi', ?_, hreplies, hlines, hdepth, htable, hevents rfl, ?_⟩
    · cases hi
      decide +kernel
    · cases hi'
      decide +kernel

end Interpreter

end CoLang
