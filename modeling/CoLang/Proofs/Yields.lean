import CoLang.Proofs.Advances
import CoLang.Proofs.Parts
import CoLang.Proofs.Reach
/-!
# Bodies that never yield

The body of a function and the main body cannot stop at a yield, since a yield in them fails. Nor
can the body of a coroutine in which no yield stands. A machine that runs such a body is *steady*
(`Machine.Steady`), each of its steps keeps it so (`Machine.Steady.advances`), and so it makes no
difference whether it would be taken up again at a yield (`Machine.Steady.passes_eq_runs`).
-/

namespace CoLang

variable {cx : Context} {sv : Services}

/-! ## Syntax without yields -/

/-- Whether the statement is a yield. -/
def Stmt.isYield : Stmt → Bool
  | .yield => true
  | _ => false

/-- Whether no yield stands in a statement, however deep. -/
def Stmt.yieldFree (s : Stmt) : Bool :=
  s.all fun part => !part.isYield

/-- Whether no yield stands in a block. -/
def Stmt.yieldFreeBlock (body : List Stmt) : Bool :=
  Stmt.allBlock (fun part => !part.isYield) body

/-- No yield stands in the syntax that a frame runs. -/
def FrameNode.YieldFree (node : FrameNode) : Prop :=
  node.All fun s => s.yieldFree = true

theorem Stmt.yieldFreeBlock_iff {body : Block} :
    Stmt.yieldFreeBlock body = true ↔ ∀ s ∈ body, s.yieldFree = true :=
  Stmt.allBlock_iff

theorem Stmt.hereditary_yieldFree : Hereditary fun s => s.yieldFree = true :=
  hereditary_all _

/-- A statement without a yield is not left with a yield pending, and in other bodies than those of
coroutines no statement is. -/
theorem Stmt.Leaves.control {kind : BodyKind} {env : Env} {s : Stmt} {after : Env × Control}
    (h : s.Leaves kind env after) (hfree : kind = .coroutine → s.yieldFree = true) :
    after.2 ≠ .yielding := by
  cases h with
  | yields hkind => exact absurd (hfree hkind) (by simp [Stmt.yieldFree, Stmt.all, Stmt.isYield])
  | _ => simp

/-! ## Steady machines -/

namespace Machine

/-- No yield is pending, and if the machine could stop at one, none stands in what it runs. -/
structure Steady (m : Machine) : Prop where
  control : m.control ≠ .yielding
  nodes : m.body = .coroutine → ∀ frame ∈ m.frames, frame.node.YieldFree

variable {m : Machine} {frame : Frame} {rest : List Frame}

theorem Steady.not_suspended (h : m.Steady) : m.isSuspended = false := by
  unfold isSuspended
  split
  case h_1 hc => exact absurd hc h.control
  case h_2 => rfl

/-- The frames of a machine may be replaced by others that run no yield. -/
theorem Steady.reframe (h : m.Steady) {frames : List Frame} (env : Env)
    (hframes : m.body = .coroutine → ∀ frame ∈ frames, frame.node.YieldFree) :
    Steady { m with frames, env } :=
  ⟨h.control, hframes⟩

theorem Steady.pushBlock (h : m.Steady) {body : Block}
    (hbody : m.body = .coroutine → ∀ s ∈ body, s.yieldFree = true) :
    (m.pushBlock body).Steady := by
  refine h.reframe m.env fun hk frame hframe => ?_
  rcases List.mem_cons.1 hframe with rfl | hframe
  · exact hbody hk
  · exact h.nodes hk frame hframe

theorem unwindFrames_yieldFree (control : Control) {frames : List Frame} (env : Env)
    (h : ∀ frame ∈ frames, frame.node.YieldFree) :
    ∀ frame ∈ (unwindFrames control frames env).1, frame.node.YieldFree := by
  induction frames generalizing env with
  | nil => exact h
  | cons top rest ih =>
    have hrest : ∀ frame ∈ rest, frame.node.YieldFree :=
      fun frame hf => h frame (List.mem_cons_of_mem _ hf)
    simp only [unwindFrames]
    split
    · exact hrest
    · intro frame hf
      rcases List.mem_cons.1 hf with rfl | hf
      · exact h top List.mem_cons_self
      · exact hrest frame hf
    · exact ih _ hrest

theorem unwindFrames_control {control : Control} (hc : control ≠ .yielding) (frames : List Frame)
    (env : Env) : (unwindFrames control frames env).2.2 ≠ .yielding := by
  induction frames generalizing env with
  | nil => exact hc
  | cons top rest ih =>
    simp only [unwindFrames]
    split
    · simp
    · simp
    · exact ih _

theorem Steady.unwound (h : m.Steady) : m.unwound.Steady :=
  ⟨unwindFrames_control h.control _ _, fun hk => unwindFrames_yieldFree _ _ (h.nodes hk)⟩

end Machine

/-- What a plan must keep for a machine to stay steady. -/
def Plan.Steady (m : Machine) : Plan → Prop
  | .settled _ m' => m'.Steady
  | .asks _ _ next => ∀ b, (next b).Steady
  | .performs s rest =>
    m.body = .coroutine → s.yieldFree = true ∧ ∀ frame ∈ rest, frame.node.YieldFree

namespace Machine

variable {m : Machine} {frame : Frame} {rest : List Frame}

theorem Steady.stepBlock (h : m.Steady) {body : Block}
    (hbody : m.body = .coroutine → ∀ s ∈ body, s.yieldFree = true)
    (hrest : m.body = .coroutine → ∀ frame ∈ rest, frame.node.YieldFree)
    (hnode : frame.node = .block body) (phase : BlockPhase) (index : Nat) :
    (m.stepBlock frame rest body phase index).Steady := by
  have htop : ∀ kind, m.body = .coroutine →
      ∀ f ∈ { frame with kind } :: rest, f.node.YieldFree := by
    intro kind hk f hf
    rcases List.mem_cons.1 hf with rfl | hf
    · simp only [hnode]
      exact hbody hk
    · exact hrest hk f hf
  cases phase with
  | enter => exact h.reframe _ (htop _)
  | next =>
    simp only [Machine.stepBlock]
    cases hs : body[index]? with
    | none => exact h.reframe _ hrest
    | some s =>
      refine h.reframe _ fun hk f hf => ?_
      rcases List.mem_cons.1 hf with rfl | hf
      · exact hbody hk s (List.mem_of_getElem? hs)
      · exact htop _ hk f hf

theorem Steady.dispatch (h : m.Steady) {cond : Expr} {thenBody : Block} {elseBody : Option Block}
    (hrest : m.body = .coroutine → ∀ frame ∈ rest, frame.node.YieldFree)
    (hnode : m.body = .coroutine → (Stmt.ifElse cond thenBody elseBody).yieldFree = true)
    (takeThen : Bool) :
    (m.dispatch rest thenBody elseBody takeThen).Steady := by
  have hdropped : Steady { m with frames := rest } := h.reframe m.env hrest
  cases takeThen with
  | true => exact hdropped.pushBlock fun hk => Stmt.hereditary_yieldFree.thenBody (hnode hk)
  | false =>
    cases elseBody with
    | none => exact hdropped
    | some body =>
      exact hdropped.pushBlock fun hk => Stmt.hereditary_yieldFree.elseBody (hnode hk)

theorem Steady.planFrame (h : m.Steady) (hframes : m.frames = frame :: rest) :
    (m.planFrame frame rest).Steady m := by
  have htop : m.body = .coroutine → frame.node.YieldFree :=
    fun hk => h.nodes hk frame (by rw [hframes]; exact List.mem_cons_self)
  have hrest : m.body = .coroutine → ∀ f ∈ rest, f.node.YieldFree :=
    fun hk f hf => h.nodes hk f (by rw [hframes]; exact List.mem_cons_of_mem _ hf)
  have hwith : ∀ kind, (m.withTop frame rest kind).Steady := by
    refine fun kind => h.reframe m.env fun hk f hf => ?_
    rcases List.mem_cons.1 hf with rfl | hf
    · exact htop hk
    · exact hrest hk f hf
  unfold Machine.planFrame
  cases hnode : frame.node with
  | block body =>
    cases hkind : frame.kind with
    | block phase index =>
      rw [hnode] at htop
      exact h.stepBlock htop hrest hnode phase index
    | _ => exact h
  | stmt s =>
    rw [hnode] at htop
    cases s
    case ifElse cond thenBody elseBody =>
      cases hkind : frame.kind with
      | ifElse phase takeThen =>
        cases phase with
        | evalCond => exact fun taken => hwith _
        | dispatch => exact h.dispatch hrest htop takeThen
      | _ => exact h
    case whileLoop cond body =>
      cases hkind : frame.kind with
      | whileLoop phase iteration =>
        cases phase with
        | check =>
          intro again
          cases again with
          | true => exact hwith _
          | false => exact h.reframe _ hrest
        | runBody =>
          exact (hwith _).pushBlock fun hk => Stmt.hereditary_yieldFree.body (htop hk)
        | postBody => exact hwith _
      | _ => exact h
    all_goals
      simp only
      split
      · exact fun hk => ⟨htop hk, hrest hk⟩
      · exact h

theorem Steady.plan (h : m.Steady) : m.plan.Steady m := by
  unfold Machine.plan
  cases hc : m.control with
  | yielding => exact h
  | idle =>
    cases hf : m.frames with
    | nil => exact h
    | cons frame rest => exact h.planFrame hf
  | _ => exact h.unwound

/-- **A step keeps a machine steady.** -/
theorem Steady.advances (h : m.Steady) {r : Bool × Machine} (hr : m.Advances r) : r.2.Steady := by
  have hplan := h.plan
  cases hr with
  | settled hp =>
    rw [hp] at hplan
    exact hplan
  | asks hp b =>
    rw [hp] at hplan
    exact hplan b
  | performs hp hs =>
    rw [hp] at hplan
    exact ⟨hs.control fun hk => (hplan hk).1, fun hk => (hplan hk).2⟩

theorem Steady.advance (h : m.Steady) (cx : Context) (sv : Services) :
    (m.advance cx sv).Gives fun r => r.2.Steady :=
  (m.advance_gives cx sv).mono fun _ hr => h.advances hr

/-- **A steady machine runs as if it were taken up again at yields.** -/
theorem Steady.passes_eq_runs (h : m.Steady) (cx : Context) (sv : Services) (fuel : Nat) :
    m.passes cx sv fuel = m.runs cx sv fuel := by
  induction fuel generalizing m with
  | zero => rfl
  | succ fuel ih =>
    rw [runs_succ]
    simp only [passes]
    refine (h.advance cx sv).bind_congr ?_
    rintro ⟨more, m'⟩ hm'
    cases more with
    | true => exact ih hm'
    | false => simp [Steady.not_suspended hm']

end Machine

/-- Other bodies than those of coroutines are steady. -/
theorem Machine.steady_start {kind : BodyKind} (h : kind ≠ .coroutine) (body : Block) (env : Env) :
    (start body env kind).Steady :=
  ⟨by simp [start], fun hk => absurd hk h⟩

/-- The body of a coroutine is steady if no yield stands in it. -/
theorem Machine.steady_start_of_yieldFree {body : Block} (h : Stmt.yieldFreeBlock body = true)
    (env : Env) (kind : BodyKind) : (start body env kind).Steady :=
  ⟨by simp [start], fun _ frame hf => by
    obtain rfl := List.mem_singleton.1 hf
    exact Stmt.yieldFreeBlock_iff.1 h⟩

end CoLang
