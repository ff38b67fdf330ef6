import CoLang.Proofs.Bodies
/-!
# The shape of the stack

Whatever steps a machine has taken, and however they ended, its frames are known up to how far each
has come. They spell a way into the body, each keeps the number of scopes that the blocks below it
have opened, and as many scopes are open as blocks have been entered (`Shaped`). So a frame always
fits its syntax, and the stack and the scopes are bounded by how deep the syntax nests, however
often its loops go round (`Machine.Attained.stack_shape`).
-/

namespace CoLang

/-! ## Frames and their syntax -/

/-- The frame is at a point that its syntax has. -/
def Frame.Fits (f : Frame) : Prop :=
  match f.node with
  | .block _ => ∃ phase i, f.kind = .block phase i
  | .stmt s => f.kind.Fits s

/-- What may stand right above a frame: above a block the statement it has come to, or a branch of
this statement, and above a loop the loop's body. -/
inductive Frame.Bears : Frame → FrameNode → Prop
  | stmt {i base : Nat} {b : Block} {s : Stmt} (hs : b[i]? = some s) :
      Bears ⟨.block .next (i + 1), base, .block b⟩ (.stmt s)
  | block {f : Frame} {b : Block} (h : f.Hosts b) : Bears f (.block b)

/-- Whether the frame is that of a block that has been entered. -/
def Frame.isEntered (f : Frame) : Bool :=
  match f.kind with
  | .block .next _ => true
  | _ => false

/-- The number of blocks that have been entered. The body at the bottom opens no scope and does not
count. -/
def entered (frames : List Frame) : Nat :=
  frames.dropLast.countP Frame.isEntered

/-- The frames, the innermost first, of a body that was started with `d₀` open scopes, where now `d`
are open. -/
structure Shaped (body : Block) (d₀ : Nat) (frames : List Frame) (d : Nat) : Prop where
  fits : ∀ f ∈ frames, f.Fits
  bottom : ∀ f, frames.getLast? = some f → ∃ i, f = ⟨.block .next i, d₀, .block body⟩
  above : frames.IsChain fun above below => below.Bears above.node
  bases : ∀ f below, f :: below <:+ frames → f.scopeBase = d₀ + entered below
  depth : d = d₀ + entered frames

theorem entered_cons (f g : Frame) (rest : List Frame) :
    entered (f :: g :: rest) = entered (g :: rest) + if f.isEntered then 1 else 0 := by
  simp only [entered, List.dropLast_cons_cons, List.countP_cons]

theorem FrameKind.Fits.not_entered {kind : FrameKind} {s : Stmt} (h : kind.Fits s) (base : Nat) :
    (⟨kind, base, .stmt s⟩ : Frame).isEntered = false := by
  unfold Frame.isEntered
  split
  case h_1 i hk => exact absurd hk (h.ne_block .next i)
  case h_2 => rfl

/-- A frame is put on a stack that has the shape. -/
theorem Shaped.cons {body : Block} {d₀ d : Nat} {f g : Frame} {rest : List Frame}
    (h : Shaped body d₀ (g :: rest) d) (hfits : f.Fits) (hbears : g.Bears f.node)
    (hbase : f.scopeBase = d) :
    Shaped body d₀ (f :: g :: rest) (d + if f.isEntered then 1 else 0) where
  fits := List.forall_mem_cons.2 ⟨hfits, h.fits⟩
  bottom := by
    intro e he
    rw [List.getLast?_cons_cons] at he
    exact h.bottom e he
  above := List.isChain_cons_cons.2 ⟨hbears, h.above⟩
  bases := by
    intro e below hsuffix
    rcases List.suffix_cons_iff.1 hsuffix with heq | hsuffix
    · cases heq
      rw [hbase, h.depth]
    · exact h.bases e below hsuffix
  depth := by
    rw [entered_cons, ← Nat.add_assoc, ← h.depth]

/-- **Frames that spell a way into a body have its shape.** -/
theorem Spells.shaped {body : Block} {d₀ d : Nat} {frames : List Frame}
    (h : Spells body d₀ frames d) : Shaped body d₀ frames d := by
  induction h with
  | @bottom i hi =>
    refine ⟨?_, ?_, List.IsChain.singleton _, ?_, rfl⟩
    · intro f hf
      obtain rfl := List.mem_singleton.1 hf
      exact ⟨.next, i, rfl⟩
    · intro f hf
      cases hf
      exact ⟨i, rfl⟩
    · intro f below hsuffix
      rcases List.suffix_cons_iff.1 hsuffix with heq | hsuffix
      · cases heq
        rfl
      · cases List.suffix_nil.1 hsuffix
  | @stmt kind s i base d b rest h hs hk ih =>
    have hcons := ih.cons (f := ⟨kind, d, .stmt s⟩) hk (.stmt hs) rfl
    rw [hk.not_entered] at hcons
    exact hcons
  | @enter f rest d b h hb ih =>
    exact ih.cons (f := ⟨.block .enter 0, d, .block b⟩) ⟨.enter, 0, rfl⟩ (.block hb) rfl
  | @next f rest d i b h hb hi ih =>
    exact ih.cons (f := ⟨.block .next i, d, .block b⟩) ⟨.next, i, rfl⟩ (.block hb) rfl

/-! ## How far the stack may grow -/

mutual

/-- The most frames that a statement has at once. A branch takes the place of its conditional. -/
def Stmt.frames : Stmt → Nat
  | .ifElse _ thenBody elseBody => max (Stmt.framesBlock thenBody) (Stmt.framesElse elseBody)
  | .whileLoop _ body => Stmt.framesBlock body + 1
  | _ => 1

def Stmt.framesBlock : List Stmt → Nat
  | [] => 1
  | s :: rest => max (s.frames + 1) (Stmt.framesBlock rest)

def Stmt.framesElse : Option (List Stmt) → Nat
  | none => 1
  | some body => Stmt.framesBlock body

end

mutual

/-- The most scopes that a statement opens at once. -/
def Stmt.scopes : Stmt → Nat
  | .ifElse _ thenBody elseBody => max (Stmt.scopesBlock thenBody + 1) (Stmt.scopesElse elseBody)
  | .whileLoop _ body => Stmt.scopesBlock body + 1
  | _ => 0

def Stmt.scopesBlock : List Stmt → Nat
  | [] => 0
  | s :: rest => max s.scopes (Stmt.scopesBlock rest)

def Stmt.scopesElse : Option (List Stmt) → Nat
  | none => 0
  | some body => Stmt.scopesBlock body + 1

end

def FrameNode.frames : FrameNode → Nat
  | .block body => Stmt.framesBlock body
  | .stmt s => s.frames

def FrameNode.scopes : FrameNode → Nat
  | .block body => Stmt.scopesBlock body
  | .stmt s => s.scopes

theorem Stmt.framesBlock_pos (body : Block) : 0 < Stmt.framesBlock body := by
  cases body with
  | nil => simp [Stmt.framesBlock]
  | cons s rest =>
    simp only [Stmt.framesBlock]
    omega

theorem FrameNode.frames_pos (node : FrameNode) : 0 < node.frames := by
  cases node with
  | block body => exact Stmt.framesBlock_pos body
  | stmt s =>
    cases s with
    | ifElse cond thenBody elseBody =>
      have := Stmt.framesBlock_pos thenBody
      simp only [FrameNode.frames, Stmt.frames]
      omega
    | _ => simp [FrameNode.frames, Stmt.frames]

theorem Stmt.frames_lt_of_mem {body : Block} {s : Stmt} (h : s ∈ body) :
    s.frames < Stmt.framesBlock body := by
  induction body with
  | nil => cases h
  | cons first rest ih =>
    simp only [Stmt.framesBlock]
    rcases List.mem_cons.1 h with rfl | h
    · omega
    · have := ih h
      omega

theorem Stmt.scopes_le_of_mem {body : Block} {s : Stmt} (h : s ∈ body) :
    s.scopes ≤ Stmt.scopesBlock body := by
  induction body with
  | nil => cases h
  | cons first rest ih =>
    simp only [Stmt.scopesBlock]
    rcases List.mem_cons.1 h with rfl | h
    · omega
    · have := ih h
      omega

/-- A block that runs above a frame is nested in what the frame runs. -/
theorem Frame.Hosts.nested {f : Frame} {b : Block} (h : f.Hosts b) :
    Stmt.framesBlock b < f.node.frames ∧ Stmt.scopesBlock b < f.node.scopes := by
  cases h with
  | branch hs hbody =>
    have hframes := Stmt.frames_lt_of_mem (List.mem_of_getElem? hs)
    have hscopes := Stmt.scopes_le_of_mem (List.mem_of_getElem? hs)
    simp only [Stmt.frames, Stmt.scopes] at hframes hscopes
    rcases hbody with rfl | rfl
    · simp only [FrameNode.frames, FrameNode.scopes]
      omega
    · simp only [Stmt.framesElse, Stmt.scopesElse] at hframes hscopes
      simp only [FrameNode.frames, FrameNode.scopes]
      omega
  | loop =>
    simp only [FrameNode.frames, FrameNode.scopes, Stmt.frames, Stmt.scopes]
    omega

/-- The innermost frame leaves room for all that may come to stand above it. -/
theorem Spells.room {body : Block} {d₀ d : Nat} {frames : List Frame}
    (h : Spells body d₀ frames d) {f : Frame} {rest : List Frame} (hf : frames = f :: rest) :
    rest.length + f.node.frames ≤ Stmt.framesBlock body ∧
      d + f.node.scopes ≤ d₀ + Stmt.scopesBlock body := by
  induction h generalizing f rest with
  | bottom hi =>
    cases hf
    exact ⟨by simp [FrameNode.frames], Nat.le_refl _⟩
  | stmt h hs hk ih =>
    cases hf
    obtain ⟨hframes, hscopes⟩ := ih rfl
    have hlt := Stmt.frames_lt_of_mem (List.mem_of_getElem? hs)
    have hle := Stmt.scopes_le_of_mem (List.mem_of_getElem? hs)
    simp only [FrameNode.frames, FrameNode.scopes, List.length_cons] at hframes hscopes ⊢
    omega
  | enter h hb ih =>
    cases hf
    obtain ⟨hframes, hscopes⟩ := ih rfl
    have hlt := hb.nested
    simp only [FrameNode.frames, FrameNode.scopes, List.length_cons] at hframes hscopes hlt ⊢
    omega
  | next h hb hi ih =>
    cases hf
    obtain ⟨hframes, hscopes⟩ := ih rfl
    have hlt := hb.nested
    simp only [FrameNode.frames, FrameNode.scopes, List.length_cons] at hframes hscopes hlt ⊢
    omega

/-! ## Steps of sound machines -/

namespace Machine

variable {body : Block} {d₀ : Nat} {kind : BodyKind} {m m' : Machine} {f : Fault}

theorem planFrame_ne_error {frame : Frame} {rest : List Frame} (h : frame.Fits) :
    m.planFrame frame rest ≠ .settled (.error f) m' := by
  obtain ⟨fkind, base, node⟩ := frame
  cases node with
  | block b =>
    obtain ⟨phase, i, hk⟩ := h
    cases hk
    simp [planFrame]
  | stmt s =>
    have hk : fkind.Fits s := h
    cases s
    case ifElse cond thenBody elseBody =>
      cases fkind <;> simp only [FrameKind.Fits, FrameKind.ofStmt, reduceCtorEq] at hk
      case ifElse phase takeThen => cases phase <;> simp [planFrame]
    case whileLoop cond loopBody =>
      cases fkind <;> simp only [FrameKind.Fits, FrameKind.ofStmt, reduceCtorEq] at hk
      case whileLoop phase n => cases phase <;> simp [planFrame]
    all_goals
      have hkind := hk.eq (by simp) (by simp)
      simp [planFrame, hkind]

theorem Sound.shaped (h : m.Sound body d₀ kind) : Shaped body d₀ m.frames m.env.depth := by
  rcases h.stack with ⟨hnil, hdepth⟩ | hspells
  · rw [hnil, hdepth]
    refine ⟨List.forall_mem_nil _, fun f hf => ?_, List.IsChain.nil, fun f below hs => ?_, rfl⟩
    · cases hf
    · cases List.suffix_nil.1 hs
  · exact hspells.shaped

/-- Where the frames fit, a machine fails by itself only at a jump that finds no loop. -/
theorem Sound.plan_error (h : m.Sound body d₀ kind) (hplan : m.plan = .settled (.error f) m') :
    afterUnwind m.unwound.control = .error f := by
  unfold Machine.plan at hplan
  cases hc : m.control with
  | yielding => simp [hc] at hplan
  | idle =>
    cases hf : m.frames with
    | nil => simp [hc, hf] at hplan
    | cons frame rest =>
      simp only [hc, hf] at hplan
      have hfits : frame.Fits := by
        refine h.shaped.fits frame ?_
        rw [hf]
        exact List.mem_cons_self
      exact absurd hplan (planFrame_ne_error hfits)
  | _ =>
    simp only [hc, Plan.settled.injEq] at hplan
    exact hplan.1

/-- **A step keeps a machine sound, also one that fails.** -/
theorem Sound.step (h : m.Sound body d₀ kind) (cx : Context) (sv : Services) (w : World) :
    (m.step cx sv w).machine.Sound body d₀ kind := by
  rcases m.step_machine cx sv w with ⟨more, hr⟩ | heq | ⟨f, hplan⟩
  · exact h.advances hr
  · rw [heq]
    exact h
  · have hsound := h.plan
    rw [hplan] at hsound
    exact hsound

/-- The machine runs such a body. -/
def RunsOn (B : BodyKind → Block → Prop) (m : Machine) : Prop :=
  ∃ body d₀ kind, m.Sound body d₀ kind ∧ B kind body

/-- **Every machine goes on running the body it was started on.** No step fails for a frame that
does not fit. -/
theorem kept_runsOn {d : Declarations} {B : BodyKind → Block → Prop} {Φ : Fault → Prop}
    (hfunctions : ∀ f ∈ d.functions, B .function f.body)
    (hcoroutines : ∀ c ∈ d.coroutines, B .coroutine c.body)
    (hΦ : ∀ f, (∀ k, f ≠ .frameMismatch k) → Φ f) : Machine.Kept d (RunsOn B) Φ where
  step := by
    rintro m r ⟨body, d₀, kind, hm, hbody⟩ hr
    exact ⟨body, d₀, kind, hm.advances hr, hbody⟩
  stray := by
    rintro m f ⟨body, d₀, kind, hm, -⟩ hf
    refine hΦ f ?_
    rintro k rfl
    cases hf with
    | settled hplan =>
      have hjump := hm.plan_error hplan
      cases hc : m.unwound.control <;> simp [hc, afterUnwind] at hjump
  plain := by
    intro f hf
    refine hΦ f ?_
    rintro k rfl
    exact hf rfl
  clearYield := by
    rintro m ⟨body, d₀, kind, hm, hbody⟩
    exact ⟨body, d₀, kind, hm.clearYield, hbody⟩
  call hf _ := ⟨_, _, _, sound_start _ _ _, hfunctions _ hf⟩
  create hc := ⟨_, _, _, sound_start _ _ _, hcoroutines _ hc⟩

/-! ## All states of a machine -/

/-- The states of a machine that was started on a body. Between its steps, which may fail, a pending
yield may be cleared, and whatever else happens may change the world. -/
inductive Attained (body : Block) (env : Env) (kind : BodyKind) : Machine → Prop
  | start : Attained body env kind (.start body env kind)
  | step {m : Machine} (h : Attained body env kind m) (cx : Context) (sv : Services) (w : World) :
      Attained body env kind (m.step cx sv w).machine
  | clearYield {m : Machine} (h : Attained body env kind m) : Attained body env kind m.clearYield

variable {env : Env}

theorem Attained.run (h : m.Attained body env kind) (cx : Context) (sv : Services) (fuel : Nat)
    (w : World) : (m.run cx sv fuel w).machine.Attained body env kind := by
  induction fuel generalizing m w with
  | zero => exact h
  | succ fuel ih =>
    simp only [Machine.run]
    split
    · exact ih (h.step cx sv w) _
    · exact h.step cx sv w

theorem Attained.sound (h : m.Attained body env kind) : m.Sound body env.depth kind := by
  induction h with
  | start => exact sound_start body env kind
  | step _ cx sv w ih => exact ih.step cx sv w
  | clearYield _ ih => exact ih.clearYield

/-- **The shape of the stack.** In every state of a machine, its frames spell a way into the body
with the scopes that the entered blocks have opened, no more of them than the syntax nests, and no
step finds a frame that does not fit its syntax. -/
theorem Attained.stack_shape (h : m.Attained body env kind) :
    Shaped body env.depth m.frames m.env.depth ∧
    m.frames.length ≤ Stmt.framesBlock body ∧
    m.env.depth ≤ env.depth + Stmt.scopesBlock body ∧
    ∀ cx n w k, w.Parks (Instance.Has fun m' => ∃ body' env' kind', m'.Attained body' env' kind') →
      (m.step cx (services cx n) w).verdict ≠ .fault (.frameMismatch k) := by
  have hsound := h.sound
  have hroom : m.frames.length ≤ Stmt.framesBlock body ∧
      m.env.depth ≤ env.depth + Stmt.scopesBlock body := by
    rcases hsound.stack with ⟨hnil, hdepth⟩ | hspells
    · rw [hnil, hdepth]
      exact ⟨Nat.zero_le _, Nat.le_add_right _ _⟩
    · cases hf : m.frames with
      | nil =>
        rw [hf] at hspells
        cases hspells
      | cons f rest =>
        obtain ⟨hframes, hscopes⟩ := hspells.room hf
        have hone := f.node.frames_pos
        rw [List.length_cons]
        omega
  refine ⟨hsound.shaped, hroom.1, hroom.2, fun cx n w k hw hverdict => ?_⟩
  have hfault : (m.advance cx (services cx n) w).ending = .fault (.frameMismatch k) := by
    simp only [advance, hverdict, Verdict.ending]
  have hkept : Machine.Kept cx.decls (RunsOn fun _ _ => True) fun f => ∀ k, f ≠ .frameMismatch k :=
    kept_runsOn (fun _ _ => trivial) (fun _ _ => trivial) fun _ => id
  have hparks : w.Parks (Instance.Has (RunsOn fun _ _ => True)) := by
    intro name i hi m' hm'
    obtain ⟨body', env', kind', hm'⟩ := hw name i hi m' hm'
    exact ⟨body', env'.depth, kind', hm'.sound, trivial⟩
  exact hkept.fault_of_advance ⟨body, env.depth, kind, hsound, trivial⟩ hparks hfault k rfl

/-- A coroutine pauses within a conditional within a loop, and fails once it goes on. -/
theorem Attained.stack_shape_after_error :
    let body : Block := [.whileLoop (.lit (.bool true))
      [.ifElse (.lit (.bool true)) [.yield, .assign "z" (.lit (.int 0))] none]]
    let cx : Context := ⟨⟨[], []⟩, .default, none, default⟩
    let paused := (Machine.start body .empty .coroutine).run cx (services cx 0) 20 .initial
    let failed := paused.machine.clearYield.run cx (services cx 0) 20 .initial
    paused.machine.isSuspended = true ∧ failed.verdict = .fault (.assignUndefined "z") ∧
      failed.machine.Attained body .empty .coroutine ∧
      Shaped body 1 failed.machine.frames failed.machine.env.depth ∧
      failed.machine.frames.length = 5 ∧ entered failed.machine.frames = 2 ∧
      failed.machine.frames.length ≤ Stmt.framesBlock body ∧
      ∀ k, (failed.machine.step cx (services cx 0) .initial).verdict ≠
        .fault (.frameMismatch k) := by
  intro body cx paused failed
  have hpaused : paused.machine.Attained body .empty .coroutine := Attained.start.run _ _ _ _
  have hfailed : failed.machine.Attained body .empty .coroutine := hpaused.clearYield.run _ _ _ _
  obtain ⟨hshaped, hlength, -, hfits⟩ := hfailed.stack_shape
  refine ⟨by decide +kernel, by decide +kernel, hfailed, hshaped, by decide +kernel,
    by decide +kernel, hlength, fun k => hfits cx 0 .initial k ?_⟩
  intro name i hi
  cases hi

end Machine

end CoLang
