import CoLang.Proofs.Reach
/-!
# Machines carry out direct runs

A machine that has just begun a statement above other frames comes out above them as the direct run
of the statement does (`Stmt.realizes`). The proof follows the syntax, with one lemma for a block,
one for a block in a scope of its own and one for the rounds of a loop.

For a whole body this gives the two halves of a comparison: the machine settles on what the direct
run returns (`Block.passes_settling`), and the direct run returns whatever the machine returns
(`Block.passes_below`).
-/

namespace CoLang

open Machine

variable {cx : Context} {sv : Services} {fuel bound : Nat} {kind : BodyKind} {rest : List Frame}
  {env : Env}

/-! ## Statements without parts -/

/-- What the frames around a statement are told, where a body is about to do something. A yield is
taken up again, so it tells nothing. -/
def Control.signal : Control → Signal
  | .idle | .yielding => .normal
  | .breaking => .brk
  | .continuing => .cont
  | .returning v => .ret v

/-- Whether other statements stand in a statement. -/
def Stmt.hasParts : Stmt → Bool
  | .ifElse .. | .whileLoop .. => true
  | _ => false

/-- A statement without parts runs directly as it is performed. -/
theorem Stmt.exec_of_simple {s : Stmt} (h : s.hasParts = false) :
    s.exec cx sv fuel kind env = do
      let r ← s.perform cx sv kind env
      return (r.1, r.2.signal) := by
  cases s with
  | ifElse cond thenBody elseBody => cases h
  | whileLoop cond body => cases h
  | yield =>
    simp only [Stmt.exec, Stmt.perform]
    split <;> rfl
  | _ => simp only [Stmt.exec, Stmt.perform, Eval.bind_assoc, Eval.pure_bind, Control.signal]

/-- The machine that has just begun a statement. -/
def Machine.begun (kind : BodyKind) (rest : List Frame) (env : Env) (s : Stmt) : Machine :=
  (Machine.after kind rest env .normal).pushStmt s

theorem Stmt.realizes_of_simple {s : Stmt} (h : s.hasParts = false) :
    (begun kind rest env s).Realizes cx sv bound kind rest (s.exec cx sv fuel kind env) := by
  rw [Stmt.exec_of_simple h]
  have hplan : (begun kind rest env s).plan = .performs s rest := by
    cases s with
    | ifElse cond thenBody elseBody => cases h
    | whileLoop cond body => cases h
    | _ => rfl
  have hstep : (begun kind rest env s).advance cx sv = do
      let r ← s.perform cx sv kind env
      return (!((begun kind rest env s).performed rest r).isSuspended,
        (begun kind rest env s).performed rest r) := by
    rw [advance_eq, hplan]
    rfl
  have hperform : (begun kind rest env s).Reaches cx sv bound (s.perform cx sv kind env)
      fun r => .after kind rest r.1 r.2.signal := by
    constructor
    case value =>
      intro w r w' hr
      obtain ⟨env', control⟩ := r
      have hvalue := hstep ▸ Eval.bind_of_value hr
      cases control with
      | yielding => exact leads_of_yield hvalue rfl
      | _ => exact leads_of_more hvalue
    case fault =>
      intro w f w' hf
      exact fails_of_fault (by rw [hstep, Eval.bind_of_fault hf])
    case outOfFuel =>
      intro w w' ho
      exact exhausts_of_outOfFuel (by rw [hstep, Eval.bind_of_outOfFuel ho]) bound
  exact hperform.bind_any fun r => .pure fun w => .refl _ _

/-! ## Blocks -/

/-- The machine in the middle of a block, before its statement at `index`. -/
def Machine.inBlock (kind : BodyKind) (rest : List Frame) (base : Nat) (body : Block) (index : Nat)
    (env : Env) : Machine :=
  .after kind (⟨.block .next index, base, .block body⟩ :: rest) env .normal

theorem advance_inBlock_end {base index : Nat} {body : Block} (h : body[index]? = none) :
    (inBlock kind rest base body index env).advance cx sv =
      pure (true, .after kind rest (env.truncate base) .normal) := by
  rw [advance_eq]
  simp only [inBlock, after, Signal.control, plan, planFrame, stepBlock, h]
  rfl

theorem advance_inBlock {base index : Nat} {body : Block} {s : Stmt} (h : body[index]? = some s) :
    (inBlock kind rest base body index env).advance cx sv =
      pure (true, begun kind (⟨.block .next (index + 1), base, .block body⟩ :: rest) env s) := by
  rw [advance_eq]
  simp only [inBlock, after, Signal.control, plan, planFrame, stepBlock, h]
  rfl

theorem advance_pushBlock (body : Block) :
    ((after kind rest env .normal).pushBlock body).advance cx sv =
      pure (true, inBlock kind rest env.depth body 0 env.push) := by
  rw [advance_eq]
  rfl

/-- A block in a scope of its own, once its statements are known to be carried out. -/
theorem realizes_pushBlock {body : Block}
    (h : (inBlock kind rest env.depth body 0 env.push).Realizes cx sv fuel kind rest (do
      let r ← Stmt.execBlock cx sv fuel kind body env.push
      return (r.1.truncate env.depth, r.2))) :
    ((after kind rest env .normal).pushBlock body).Realizes cx sv fuel kind rest
      (Env.inScope (fun env => Stmt.execBlock cx sv fuel kind body env) env) := by
  have hscope : Env.inScope (fun env => Stmt.execBlock cx sv fuel kind body env) env = (do
      let r ← Stmt.execBlock cx sv fuel kind body env.push
      return (r.1.truncate env.depth, r.2)) := by
    refine (Stmt.execBlock_sameDepth cx sv fuel kind body env.push).bind_congr ?_
    intro r hr
    have hd : r.1.depth = env.depth + 1 := hr
    rw [Env.truncate_eq_pop hd]
  rw [hscope]
  exact (h.settled (advance_pushBlock body)).mono (by omega)

/-! ## Loops -/

/-- The machine at a point of a loop's round. -/
def Machine.inLoop (kind : BodyKind) (rest : List Frame) (base : Nat) (cond : Expr) (body : Block)
    (phase : WhilePhase) (iteration : UInt64) (env : Env) (signal : Signal) : Machine :=
  .after kind (⟨.whileLoop phase iteration, base, .stmt (.whileLoop cond body)⟩ :: rest) env signal

section Loop

variable {base : Nat} {cond : Expr} {body : Block} {phase : WhilePhase} {iteration : UInt64}

theorem advance_inLoop_check :
    (inLoop kind rest base cond body .check iteration env .normal).advance cx sv = do
      let again ← cond.evalCondition cx sv env "while"
      return (true,
        if again then inLoop kind rest base cond body .runBody iteration env .normal
        else .after kind rest (env.truncate base) .normal) := by
  rw [advance_eq]
  rfl

theorem advance_inLoop_runBody :
    (inLoop kind rest base cond body .runBody iteration env .normal).advance cx sv =
      pure (true,
        (inLoop kind rest base cond body .postBody iteration env .normal).pushBlock body) := by
  rw [advance_eq]
  rfl

theorem advance_inLoop_postBody :
    (inLoop kind rest base cond body .postBody iteration env .normal).advance cx sv =
      pure (true, inLoop kind rest base cond body .check (iteration + 1) env .normal) := by
  rw [advance_eq]
  rfl

theorem advance_inLoop_brk :
    (inLoop kind rest base cond body phase iteration env .brk).advance cx sv =
      pure (true, .after kind rest (env.truncate base) .normal) := by
  rw [advance_eq]
  rfl

theorem advance_inLoop_cont :
    (inLoop kind rest base cond body phase iteration env .cont).advance cx sv =
      pure (true,
        inLoop kind rest base cond body .check (iteration + 1) (env.truncate base) .normal) := by
  rw [advance_eq]
  rfl

/-- The rounds of a loop, once its body is known to be carried out. The induction is on the rounds
that the direct run may take; each takes the machine at least one step. -/
theorem realizes_inLoop
    (h : ∀ rest env, ((after kind rest env .normal).pushBlock body).Realizes cx sv fuel kind rest
      (Env.inScope (fun env => Stmt.execBlock cx sv fuel kind body env) env))
    {rounds : Nat} (hrounds : rounds ≤ fuel) (iteration : UInt64) (env : Env) :
    (inLoop kind rest env.depth cond body .check iteration env .normal).Realizes cx sv rounds kind
      rest (Env.looped (fun env => cond.evalCondition cx sv env "while")
        (fun env => Stmt.execBlock cx sv fuel kind body env) rounds env) := by
  -- On the rounds that are left. A loop out of rounds has no answer, so only the last field of the
  -- three says anything, and it leaves the machine no steps either.
  induction rounds generalizing iteration env with
  | zero =>
    constructor
    case value =>
      intro w r w' hr
      cases hr
    case fault =>
      intro w f w' hf
      cases hf
    case outOfFuel =>
      intro w w' _ n hn
      obtain rfl : n = 0 := by omega
      exact Outcome.not_returned
  | succ rounds ih =>
    refine Reaches.bind_any (.asks advance_inLoop_check) fun again => ?_
    cases again with
    | false =>
      refine .pure fun w => ?_
      simp only [Bool.false_eq_true, if_false, Env.truncate_depth]
      exact .refl _ _
    | true =>
      refine Reaches.settled advance_inLoop_runBody ?_
      refine Reaches.bind ((h _ env).mono (by omega))
        (Env.inScope_sameDepth (Stmt.execBlock_sameDepth cx sv fuel kind body) env) ?_
      rintro ⟨env', signal⟩ henv
      have hdepth : env'.depth = env.depth := henv
      rw [← hdepth]
      cases signal with
      | normal =>
        exact ((ih (by omega) (iteration + 1) env').settled advance_inLoop_postBody).mono (by omega)
      | cont =>
        refine Reaches.mono (Reaches.settled advance_inLoop_cont ?_) (Nat.le_succ rounds)
        rw [Env.truncate_depth]
        exact ih (by omega) (iteration + 1) env'
      | brk =>
        refine Reaches.mono (Reaches.settled advance_inLoop_brk ?_) (Nat.le_succ rounds)
        rw [Env.truncate_depth]
        exact .pure fun w => .refl _ _
      | ret v =>
        refine .pure fun w => leads_of_advance_eq ?_ w
        rw [advance_skip (by simp) fun _ _ _ => ⟨v, rfl⟩, Env.truncate_depth]

end Loop

/-! ## Statements -/

theorem advance_ifElse (cond : Expr) (thenBody : Block) (elseBody : Option Block) :
    (begun kind rest env (.ifElse cond thenBody elseBody)).advance cx sv = (do
      let taken ← cond.evalCondition cx sv env "if"
      return (true, .after kind (⟨.ifElse .dispatch taken, env.depth,
        .stmt (.ifElse cond thenBody elseBody)⟩ :: rest) env .normal)) := by
  rw [advance_eq]
  rfl

theorem advance_dispatch (cond : Expr) (thenBody : Block) (elseBody : Option Block)
    (takeThen : Bool) (base : Nat) :
    (after kind (⟨.ifElse .dispatch takeThen, base, .stmt (.ifElse cond thenBody elseBody)⟩ :: rest)
      env .normal).advance cx sv =
      pure (true, (after kind rest env .normal).dispatch rest thenBody elseBody takeThen) := by
  rw [advance_eq]
  rfl

mutual

/-- **A machine carries out a statement as it runs directly**, whatever the frames below. -/
theorem Stmt.realizes (cx : Context) (sv : Services) (fuel : Nat) (kind : BodyKind) :
    ∀ (s : Stmt) (rest : List Frame) (env : Env),
      (begun kind rest env s).Realizes cx sv fuel kind rest (s.exec cx sv fuel kind env)
  | .ifElse cond thenBody elseBody, rest, env => by
    simp only [Stmt.exec]
    refine Reaches.bind_any (.asks (advance_ifElse cond thenBody elseBody)) fun taken => ?_
    refine Reaches.mono (Reaches.settled (advance_dispatch ..) ?_) (Nat.le_succ fuel)
    cases taken with
    | true =>
      exact realizes_pushBlock
        (Stmt.realizes_block cx sv fuel kind thenBody rest env.depth thenBody 0 env.push rfl)
    | false => exact Stmt.realizes_else cx sv fuel kind elseBody rest env thenBody
  | .whileLoop cond body, rest, env => by
    simp only [Stmt.exec]
    refine realizes_inLoop (fun rest env => ?_) (Nat.le_refl fuel) 0 env
    exact realizes_pushBlock
      (Stmt.realizes_block cx sv fuel kind body rest env.depth body 0 env.push rfl)
  | .varDecl .., _, _ => Stmt.realizes_of_simple rfl
  | .assign .., _, _ => Stmt.realizes_of_simple rfl
  | .expr _, _, _ => Stmt.realizes_of_simple rfl
  | .ret _, _, _ => Stmt.realizes_of_simple rfl
  | .brk, _, _ => Stmt.realizes_of_simple rfl
  | .cont, _, _ => Stmt.realizes_of_simple rfl
  | .yield, _, _ => Stmt.realizes_of_simple rfl
  | .create .., _, _ => Stmt.realizes_of_simple rfl
  | .resume _, _, _ => Stmt.realizes_of_simple rfl

/-- The statements of a block from some index on. The scopes above the block's base are closed when
it ends. -/
theorem Stmt.realizes_block (cx : Context) (sv : Services) (fuel : Nat) (kind : BodyKind) :
    ∀ (tail : List Stmt) (rest : List Frame) (base : Nat) (body : Block) (index : Nat) (env : Env),
      body.drop index = tail →
      (inBlock kind rest base body index env).Realizes cx sv fuel kind rest (do
        let r ← Stmt.execBlock cx sv fuel kind tail env
        return (r.1.truncate base, r.2))
  | [], rest, base, body, index, env, htail => by
    have hend : body[index]? = none := by
      rw [List.getElem?_eq_none_iff]
      exact List.drop_eq_nil_iff.1 htail
    simp only [Stmt.execBlock, Eval.pure_bind]
    exact Reaches.mono (Reaches.settled (advance_inBlock_end hend) (.pure fun w => .refl _ _))
      (Nat.le_succ fuel)
  | s :: tail, rest, base, body, index, env, htail => by
    have hs : body[index]? = some s := by
      rw [← List.head?_drop, htail]
      rfl
    have htail' : body.drop (index + 1) = tail := by
      rw [← List.tail_drop, htail]
      rfl
    simp only [Stmt.execBlock, Eval.bind_assoc]
    refine Reaches.mono (Reaches.settled (advance_inBlock hs) ?_) (Nat.le_succ fuel)
    refine Reaches.bind_any (Stmt.realizes cx sv fuel kind s _ env) ?_
    rintro ⟨env', signal⟩
    -- A jump drops the block's frame without a step of its own.
    have hjump : signal ≠ .normal → ∀ w, Leads cx sv
        (after kind (⟨.block .next (index + 1), base, .block body⟩ :: rest) env' signal) w
        (after kind rest (env'.truncate base) signal) w :=
      fun hsignal w => leads_of_advance_eq (advance_skip hsignal fun _ _ h => by cases h) w
    cases signal with
    | normal =>
      exact Stmt.realizes_block cx sv fuel kind tail rest base body (index + 1) env' htail'
    | brk => exact .pure (hjump (by simp))
    | cont => exact .pure (hjump (by simp))
    | ret v => exact .pure (hjump (by simp))

/-- The other branch of a conditional, if it has one. -/
theorem Stmt.realizes_else (cx : Context) (sv : Services) (fuel : Nat) (kind : BodyKind) :
    ∀ (elseBody : Option (List Stmt)) (rest : List Frame) (env : Env) (thenBody : Block),
      ((after kind rest env .normal).dispatch rest thenBody elseBody false).Realizes cx sv fuel kind
        rest (Stmt.execElse cx sv fuel kind elseBody env)
  | none, _, _, _ => .pure fun w => .refl _ _
  | some body, rest, env, _ => by
    simp only [Stmt.execElse]
    exact realizes_pushBlock
      (Stmt.realizes_block cx sv fuel kind body rest env.depth body 0 env.push rfl)

end

/-! ## Whole bodies -/

/-- The machine that a body ends with, if the body runs directly. -/
def Block.ended (cx : Context) (sv : Services) (fuel : Nat) (kind : BodyKind) (body : Block)
    (env : Env) : Eval Machine := do
  let (env, signal) ← Block.exec cx sv fuel kind body env
  return .after kind [] env signal

/-- How a machine ends that has left all its frames. -/
def Signal.last (kind : BodyKind) (env : Env) : Signal → Eval Machine
  | .brk => .throw .breakOutsideLoop
  | .cont => .throw .continueOutsideLoop
  | signal => pure (.after kind [] env signal)

theorem passes_after_nil (signal : Signal) (n : Nat) :
    (after kind [] env signal).passes cx sv (n + 1) = signal.last kind env := by
  cases signal <;> rfl

theorem Block.ended_eq (body : Block) :
    Block.ended cx sv fuel kind body env = (do
      let r ← Stmt.execBlock cx sv fuel kind body env
      r.2.last kind r.1) := by
  simp only [Block.ended, Block.exec, Eval.bind_assoc]
  congr 1
  funext ⟨env', signal⟩
  cases signal <;> rfl

theorem Block.realizes (cx : Context) (sv : Services) (fuel : Nat) (kind : BodyKind) (body : Block)
    (env : Env) :
    (start body env kind).Realizes cx sv fuel kind []
      (Stmt.execBlock cx sv fuel kind body env) := by
  have hbase : (do
      let r ← Stmt.execBlock cx sv fuel kind body env
      return (r.1.truncate env.depth, r.2)) = Stmt.execBlock cx sv fuel kind body env := by
    refine Eq.trans ?_ (Eval.bind_pure _)
    refine (Stmt.execBlock_sameDepth cx sv fuel kind body env).bind_congr fun r hr => ?_
    rw [← hr, Env.truncate_depth]
  rw [← hbase]
  exact Stmt.realizes_block cx sv fuel kind body [] env.depth body 0 env rfl

/-- **The machine of a body settles on what the body gives when it runs directly.** -/
theorem Block.passes_settling (cx : Context) (sv : Services) (fuel : Nat) (kind : BodyKind)
    (body : Block) (env : Env) :
    Link.settling.holds (Block.ended cx sv fuel kind body env)
      fun n => (start body env kind).passes cx sv n := by
  rw [Block.ended_eq]
  exact (Block.realizes cx sv fuel kind body env).settling fun r n => passes_after_nil r.2 n

/-- **What the machine of a body returns, the body gives when it runs directly.** -/
theorem Block.passes_below (cx : Context) (sv : Services) (fuel : Nat) (kind : BodyKind)
    (body : Block) (env : Env) :
    ((start body env kind).passes cx sv fuel).Below (Block.ended cx sv fuel kind body env) := by
  rw [Block.ended_eq]
  exact (Block.realizes cx sv fuel kind body env).below (fun r n => passes_after_nil r.2 n)
    (Nat.le_refl fuel)

end CoLang
