import CoLang.Proofs.Frames
/-!
# Jumps and the loops that catch them

Whether a jump is caught is decided when it is carried out, by the frames it finds. But the frames
spell a way into the body. So if every `break` and `continue` of a body stands in a loop of the same
body, the frame of that loop is still there when the jump begins (`Spells.jumpsCaught`), however
often the body was paused in between, and if other bodies than those of coroutines hold no yield,
then no operation fails with a fault of control flow (`Interpreter.no_stray_jump`).
-/

namespace CoLang

/-! ## Programs whose jumps stay in place -/

mutual

/-- Whether each `break` and `continue` in a statement stands in a loop. There may be one around
the statement itself. -/
def Stmt.jumpsCaught (inLoop : Bool) : Stmt → Bool
  | .brk => inLoop
  | .cont => inLoop
  | .ifElse _ thenBody elseBody =>
    Stmt.jumpsCaughtBlock inLoop thenBody && Stmt.jumpsCaughtElse inLoop elseBody
  | .whileLoop _ body => Stmt.jumpsCaughtBlock true body
  | _ => true

def Stmt.jumpsCaughtBlock (inLoop : Bool) : List Stmt → Bool
  | [] => true
  | s :: rest => s.jumpsCaught inLoop && Stmt.jumpsCaughtBlock inLoop rest

def Stmt.jumpsCaughtElse (inLoop : Bool) : Option (List Stmt) → Bool
  | none => true
  | some body => Stmt.jumpsCaughtBlock inLoop body

end

/-- Whether each jump of a body stands in one of its loops, and a yield only in a coroutine. -/
def Block.isLexical (kind : BodyKind) (body : Block) : Bool :=
  Stmt.jumpsCaughtBlock false body && (kind = .coroutine || Stmt.yieldFreeBlock body)

def Program.isLexical (p : Program) : Bool :=
  Block.isLexical .main p.main && p.functions.all (fun f => Block.isLexical .function f.body) &&
    p.coroutines.all fun c => Block.isLexical .coroutine c.body

theorem Stmt.jumpsCaught_of_mem {inLoop : Bool} {body : Block} {s : Stmt}
    (h : Stmt.jumpsCaughtBlock inLoop body = true) (hs : s ∈ body) :
    s.jumpsCaught inLoop = true := by
  induction body with
  | nil => cases hs
  | cons first rest ih =>
    simp only [Stmt.jumpsCaughtBlock, Bool.and_eq_true] at h
    rcases List.mem_cons.1 hs with rfl | hs
    · exact h.1
    · exact ih h.2 hs

/-! ## Loops on the stack -/

def Frame.isLoop (f : Frame) : Bool :=
  match f.kind with
  | .whileLoop .. => true
  | _ => false

def FrameNode.jumpsCaught (inLoop : Bool) : FrameNode → Bool
  | .block body => Stmt.jumpsCaughtBlock inLoop body
  | .stmt s => s.jumpsCaught inLoop

/-- In a block that runs above a frame, jumps are caught by the loops that the frame may count on,
and by the frame itself if it is a loop's. -/
theorem Frame.Hosts.jumpsCaught {f : Frame} {b : Block} (h : f.Hosts b) {inLoop : Bool}
    (hf : f.node.jumpsCaught inLoop = true) :
    Stmt.jumpsCaughtBlock (f.isLoop || inLoop) b = true := by
  cases h with
  | branch hs hbody =>
    have hif := Stmt.jumpsCaught_of_mem hf (List.mem_of_getElem? hs)
    simp only [Stmt.jumpsCaught, Bool.and_eq_true] at hif
    rcases hbody with rfl | rfl
    · exact hif.1
    · exact hif.2
  | loop => exact hf

/-- **The loop around a jump has a frame below it.** -/
theorem Spells.jumpsCaught {body : Block} {d₀ d : Nat} {frames : List Frame}
    (h : Spells body d₀ frames d) (hbody : Stmt.jumpsCaughtBlock false body = true) {f : Frame}
    {rest : List Frame} (hf : frames = f :: rest) :
    f.node.jumpsCaught (rest.any Frame.isLoop) = true := by
  induction h generalizing f rest with
  | bottom hi =>
    cases hf
    exact hbody
  | stmt h hs hk ih =>
    cases hf
    exact Stmt.jumpsCaught_of_mem (ih rfl) (List.mem_of_getElem? hs)
  | enter h hb ih =>
    cases hf
    exact hb.jumpsCaught (ih rfl)
  | next h hb hi ih =>
    cases hf
    exact hb.jumpsCaught (ih rfl)

namespace Machine

theorem unwindFrames_control_cases (control : Control) (frames : List Frame) (env : Env) :
    (unwindFrames control frames env).2.2 = .idle ∨
      (unwindFrames control frames env).2.2 = control := by
  induction frames generalizing env with
  | nil => exact .inr rfl
  | cons top rest ih =>
    simp only [unwindFrames]
    split
    · exact .inl rfl
    · exact .inl rfl
    · exact ih _

/-- A `break` or `continue` that finds the frame of a loop is caught. -/
theorem unwindFrames_caught {control : Control}
    (hc : control = .breaking ∨ control = .continuing) {frames : List Frame}
    (h : frames.any Frame.isLoop = true) (env : Env) :
    (unwindFrames control frames env).2.2 = .idle := by
  induction frames generalizing env with
  | nil => cases h
  | cons top rest ih =>
    simp only [unwindFrames]
    split
    · rfl
    · rfl
    case h_3 hbreak hcontinue =>
      refine ih ?_ _
      rw [List.any_cons, Bool.or_eq_true] at h
      rcases h with htop | hrest
      · unfold Frame.isLoop at htop
        split at htop
        case h_1 phase n hk =>
          rcases hc with rfl | rfl
          · exact absurd rfl (hbreak phase n hk)
          · exact absurd rfl (hcontinue phase n hk)
        case h_2 => cases htop
      · exact hrest

theorem control_turns {m m' : Machine} {rest : List Frame} {frame : Frame}
    (h : m.Turns rest frame m') : m'.control = m.control := by
  cases h with
  | block =>
    unfold stepBlock
    split
    · rfl
    · split <;> rfl
  | branches =>
    unfold dispatch
    split
    · rfl
    · split <;> rfl
  | _ => rfl

/-! ## Machines whose jumps are caught -/

/-- The machine runs a body whose jumps stay in place, and finds a loop for the one it is at. -/
structure Lexical (body : Block) (d₀ : Nat) (kind : BodyKind) (m : Machine) : Prop where
  sound : m.Sound body d₀ kind
  lexical : body.isLexical kind = true
  caught : m.control = .breaking ∨ m.control = .continuing → m.frames.any Frame.isLoop = true

variable {body : Block} {d₀ : Nat} {kind : BodyKind} {m : Machine}

theorem Lexical.jumpsCaught (h : m.Lexical body d₀ kind) {f : Frame} {rest : List Frame}
    (hf : m.frames = f :: rest) : f.node.jumpsCaught (rest.any Frame.isLoop) = true := by
  have hbody := h.lexical
  rw [Block.isLexical, Bool.and_eq_true] at hbody
  rcases h.sound.stack with ⟨hnil, -⟩ | hspells
  · rw [hnil] at hf
    cases hf
  · exact hspells.jumpsCaught hbody.1 hf

theorem lexical_start {env : Env} (h : body.isLexical kind = true) :
    (start body env kind).Lexical body env.depth kind := by
  refine ⟨sound_start body env kind, h, ?_⟩
  rintro (hc | hc) <;> cases hc

/-- No jump gets past the last frame. -/
theorem Lexical.afterUnwind_ne_error (h : m.Lexical body d₀ kind) {f : Fault} :
    afterUnwind m.unwound.control ≠ .error f := by
  intro herror
  have hjump : m.unwound.control = .breaking ∨ m.unwound.control = .continuing := by
    cases hc : m.unwound.control <;> simp [hc, afterUnwind] at herror <;> simp
  have hne : m.unwound.control ≠ .idle := by
    rcases hjump with hc | hc <;> simp [hc]
  rcases unwindFrames_control_cases m.control m.frames m.env with hidle | hsame
  · exact hne hidle
  · -- the jump is the one that the machine was at, and a loop was there to catch it
    have hsame : m.unwound.control = m.control := hsame
    rw [hsame] at hjump hne
    exact hne (hsame ▸ unwindFrames_caught hjump (h.caught hjump) m.env)

theorem Lexical.clearYield (h : m.Lexical body d₀ kind) :
    m.clearYield.Lexical body d₀ kind := by
  refine ⟨h.sound.clearYield, h.lexical, ?_⟩
  unfold Machine.clearYield
  split
  · rintro (hc | hc) <;> cases hc
  · exact h.caught

/-- A machine that is at a jump after a step finds the loop of the jump. -/
theorem Lexical.moves (h : m.Lexical body d₀ kind) {r : Bool × Machine} (hr : m.Moves r)
    (hc : r.2.control = .breaking ∨ r.2.control = .continuing) :
    r.2.frames.any Frame.isLoop = true := by
  cases hr with
  | stays => exact h.caught hc
  | jumps _ hmore =>
    dsimp only at hc
    rcases hc with hc | hc <;> rw [hc] at hmore <;> cases hmore
  | turns hidle _ hturns =>
    rw [control_turns hturns, hidle] at hc
    rcases hc with hc | hc <;> cases hc
  | performs _ hf hn hs =>
    have hcaught := h.jumpsCaught hf
    rw [hn] at hcaught
    cases hs with
    | breaks => exact hcaught
    | continues => exact hcaught
    | _ => rcases hc with hc | hc <;> cases hc

theorem Lexical.strays (h : m.Lexical body d₀ kind) {f : Fault} : ¬ m.Strays f := by
  intro hf
  cases hf with
  | settled hplan => exact h.afterUnwind_ne_error (h.sound.plan_error hplan)
  | yields hplan hkind =>
    have hbody := h.lexical
    simp only [Block.isLexical, ← h.sound.kind, Bool.and_eq_true, Bool.or_eq_true,
      decide_eq_true_eq, hkind, false_or] at hbody
    have hfree := h.sound.performs Stmt.hereditary_yieldFree
      (Stmt.yieldFreeBlock_iff.1 hbody.2) hplan
    cases hfree

def IsLexical (m : Machine) : Prop :=
  ∃ body d₀ kind, m.Lexical body d₀ kind

theorem kept_isLexical {p : Program} (h : p.isLexical = true) :
    Machine.Kept ⟨p.functions, p.coroutines⟩ IsLexical (·.kind ≠ .controlFlow) where
  step := by
    rintro m r ⟨body, d₀, kind, hm⟩ hr
    exact ⟨body, d₀, kind, hm.sound.advances hr, hm.lexical, hm.moves hr.moves⟩
  stray := by
    rintro m f ⟨body, d₀, kind, hm⟩ hf
    exact absurd hf hm.strays
  plain := id
  clearYield := by
    rintro m ⟨body, d₀, kind, hm⟩
    exact ⟨body, d₀, kind, hm.clearYield⟩
  call := by
    intro f args env hf _
    simp only [Program.isLexical, Bool.and_eq_true, List.all_eq_true] at h
    exact ⟨_, _, _, lexical_start (h.1.2 f hf)⟩
  create := by
    intro c hc
    simp only [Program.isLexical, Bool.and_eq_true, List.all_eq_true] at h
    exact ⟨_, _, _, lexical_start (h.2 c hc)⟩

end Machine

/-- **No jump goes astray.** In a session with programs whose jumps all stand in loops of their own
bodies, and whose yields all stand in coroutines, no operation fails with a fault of control flow.
-/
theorem Interpreter.no_stray_jump {i : Interpreter} (h : i.ArisesFrom (·.isLexical = true))
    {op : Operation} (hop : op.Captured (·.isLexical = true)) (fuel : Nat) {f : Fault}
    (hf : (i.perform fuel op).1 = .fault f) : f.kind ≠ .controlFlow := by
  have hkept : ∀ p : Program, p.isLexical = true →
      Machine.Kept ⟨p.functions, p.coroutines⟩ Machine.IsLexical (·.kind ≠ .controlFlow) ∧
        (Machine.start p.main .empty .main).IsLexical := by
    intro p hp
    refine ⟨Machine.kept_isLexical hp, ?_⟩
    simp only [Program.isLexical, Bool.and_eq_true] at hp
    exact ⟨_, _, _, Machine.lexical_start hp.1.1⟩
  exact h.fault_of_perform hkept hop hf

/-- A coroutine yields and goes on within a conditional within a loop, whose condition calls a
function that breaks a loop of its own. It is taken over from another interpreter. -/
theorem Interpreter.no_stray_jump_restored :
    let g : Function := ⟨"g", [], some .bool,
      [.whileLoop (.lit (.bool true)) [.brk], .ret (some (.lit (.bool true)))], none⟩
    let c : Coroutine := ⟨"c",
      [.whileLoop (.call "g" []) [.ifElse (.lit (.bool true)) [.yield, .cont] none]], none⟩
    let p : Program := ⟨[g], [c], [.create "a" "c", .resume "a"]⟩
    let i₀ : Interpreter := ⟨⟨⟨[g], [c]⟩, .default, none, default⟩, p.main, .initial⟩
    let inst := ((i₀.perform 30 .runMain).2.instance? "a").getD default
    let j := (i₀.perform 0 (.restore "b" inst)).2
    p.isLexical = true ∧ j.ArisesFrom (·.isLexical = true) ∧
      (j.perform 40 (.resume "b")).1 = .progress .suspended ∧
      ∀ fuel f, (j.perform fuel (.resume "b")).1 = .fault f → f.kind ≠ .controlFlow := by
  intro g c p i₀ inst j
  have hlexical : p.isLexical = true := by decide +kernel
  have hbuild : i₀.ArisesFrom (·.isLexical = true) := .build hlexical (by rfl)
  have hran : (i₀.perform 30 .runMain).2.ArisesFrom (·.isLexical = true) :=
    hbuild.perform (by simp) (by decide +kernel)
  have hinst : (i₀.perform 30 .runMain).2.instance? "a" = some inst := by
    have hsome : ((i₀.perform 30 .runMain).2.instance? "a").isSome = true := by decide +kernel
    obtain ⟨x, hx⟩ := Option.isSome_iff_exists.1 hsome
    simp [inst, hx]
  have hj : j.ArisesFrom (·.isLexical = true) := hbuild.restore hran hinst
  refine ⟨hlexical, hj, by decide +kernel, fun fuel f hf => ?_⟩
  exact no_stray_jump hj (Operation.captured_of_ne (by simp)) fuel hf

end CoLang
