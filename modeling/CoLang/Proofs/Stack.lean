import CoLang.Proofs.Yields
/-!
# The stack of frames

A machine that was started on a body has frames that spell a way into the body's syntax: at the
bottom the body itself, above a block the statement it has come to or a branch of it, above a loop
the loop's body. Each of them remembers how many scopes were open when it began, and a nested block
that has been entered has opened one more (`Spells`). Every step keeps this, also one that jumps
(`Machine.Sound.advances`), so that a machine never holds syntax from elsewhere, and one that
stopped at a yield is inside a block.
-/

namespace CoLang

/-- The frame of a statement is at a point that such a statement has. -/
def FrameKind.Fits : FrameKind → Stmt → Prop
  | .ifElse .., .ifElse .. => True
  | .whileLoop .., .whileLoop .. => True
  | kind, s => kind = .ofStmt s

/-- A block that may run right above a frame: a branch of the conditional that a block has come to,
or the body of a loop. -/
inductive Frame.Hosts : Frame → Block → Prop
  | branch {i base : Nat} {b body : Block} {cond : Expr} {thenBody : Block}
      {elseBody : Option Block} (hs : b[i]? = some (.ifElse cond thenBody elseBody))
      (hbody : body = thenBody ∨ elseBody = some body) :
      Hosts ⟨.block .next (i + 1), base, .block b⟩ body
  | loop {n : UInt64} {base : Nat} {cond : Expr} {body : Block} :
      Hosts ⟨.whileLoop .postBody n, base, .stmt (.whileLoop cond body)⟩ body

/-- The frames, the innermost first, spell a way into a body that was started with `d₀` open scopes,
and now `d` of them are open. -/
inductive Spells (body : Block) (d₀ : Nat) : List Frame → Nat → Prop
  | bottom {i : Nat} (hi : i ≤ body.length) : Spells body d₀ [⟨.block .next i, d₀, .block body⟩] d₀
  | stmt {kind : FrameKind} {s : Stmt} {i base d : Nat} {b : Block} {rest : List Frame}
      (h : Spells body d₀ (⟨.block .next (i + 1), base, .block b⟩ :: rest) d)
      (hs : b[i]? = some s) (hk : kind.Fits s) :
      Spells body d₀ (⟨kind, d, .stmt s⟩ :: ⟨.block .next (i + 1), base, .block b⟩ :: rest) d
  | enter {f : Frame} {rest : List Frame} {d : Nat} {b : Block} (h : Spells body d₀ (f :: rest) d)
      (hb : f.Hosts b) : Spells body d₀ (⟨.block .enter 0, d, .block b⟩ :: f :: rest) d
  | next {f : Frame} {rest : List Frame} {d i : Nat} {b : Block} (h : Spells body d₀ (f :: rest) d)
      (hb : f.Hosts b) (hi : i ≤ b.length) :
      Spells body d₀ (⟨.block .next i, d, .block b⟩ :: f :: rest) (d + 1)

theorem FrameKind.fits_ofStmt (s : Stmt) : (FrameKind.ofStmt s).Fits s := by
  cases s <;> simp [FrameKind.ofStmt, FrameKind.Fits]

/-- The frame of a statement without parts has one point only. -/
theorem FrameKind.Fits.eq {kind : FrameKind} {s : Stmt} (h : kind.Fits s)
    (hif : ∀ cond thenBody elseBody, s ≠ .ifElse cond thenBody elseBody)
    (hwhile : ∀ cond body, s ≠ .whileLoop cond body) : kind = .ofStmt s := by
  unfold FrameKind.Fits at h
  split at h
  · exact absurd rfl (hif _ _ _)
  · exact absurd rfl (hwhile _ _)
  · exact h

theorem FrameKind.Fits.ne_block {kind : FrameKind} {s : Stmt} (h : kind.Fits s)
    (phase : BlockPhase) (i : Nat) : kind ≠ .block phase i := by
  rintro rfl
  cases s <;> cases h

namespace Spells

variable {body : Block} {d₀ d : Nat} {frame : Frame} {rest : List Frame}

/-- The scopes that stay open when the innermost frame ends are those that the frames below it
account for. -/
theorem beneath (h : Spells body d₀ (frame :: rest) d) :
    frame.scopeBase ≤ d ∧
      ((rest = [] ∧ frame.scopeBase = d₀) ∨ Spells body d₀ rest frame.scopeBase) := by
  cases h with
  | bottom hi => exact ⟨Nat.le_refl _, .inl ⟨rfl, rfl⟩⟩
  | stmt h hs hk => exact ⟨Nat.le_refl _, .inr h⟩
  | enter h hb => exact ⟨Nat.le_refl _, .inr h⟩
  | next h hb hi => exact ⟨Nat.le_succ _, .inr h⟩

theorem beneath_loop {phase : WhilePhase} {n : UInt64} {base : Nat} {node : FrameNode}
    (h : Spells body d₀ (⟨.whileLoop phase n, base, node⟩ :: rest) d) :
    Spells body d₀ rest base := by
  cases h with
  | stmt h hs hk => exact h

/-- A loop may be at any point of its round. -/
theorem reloop {phase : WhilePhase} {n : UInt64} {base : Nat} {node : FrameNode}
    (h : Spells body d₀ (⟨.whileLoop phase n, base, node⟩ :: rest) d) (phase' : WhilePhase)
    (n' : UInt64) : Spells body d₀ (⟨.whileLoop phase' n', base, node⟩ :: rest) base := by
  cases h with
  | @stmt _ s _ _ _ _ _ h hs hk =>
    refine .stmt h hs ?_
    cases s <;> simp [FrameKind.Fits, FrameKind.ofStmt] at hk ⊢

end Spells

theorem Env.depth_truncate {env : Env} {d : Nat} (h : d ≤ env.depth) :
    (env.truncate d).depth = d := by
  unfold Env.depth at h ⊢
  simp only [Env.truncate, Env.depth, List.length_drop]
  omega

@[simp] theorem Env.depth_push (env : Env) : env.push.depth = env.depth + 1 := rfl

/-! ## Sound machines -/

namespace Machine

/-- The machine runs a body of the given kind that was started with `d₀` open scopes, and has not
stopped at a yield outside of it. -/
structure Sound (body : Block) (d₀ : Nat) (kind : BodyKind) (m : Machine) : Prop where
  stack : (m.frames = [] ∧ m.env.depth = d₀) ∨ Spells body d₀ m.frames m.env.depth
  kind : m.body = kind
  inside : m.control = .yielding → m.frames ≠ []

variable {body : Block} {d₀ : Nat} {kind : BodyKind} {m : Machine} {frame : Frame}
  {rest : List Frame}

theorem sound_start (body : Block) (env : Env) (kind : BodyKind) :
    (start body env kind).Sound body env.depth kind :=
  ⟨.inr (.bottom (Nat.zero_le _)), rfl, fun h => by cases h⟩

theorem Sound.clearYield (h : m.Sound body d₀ kind) : m.clearYield.Sound body d₀ kind := by
  unfold Machine.clearYield
  split
  · exact ⟨h.stack, h.kind, fun hc => by cases hc⟩
  · exact h

/-- A machine that is about to go on may take other frames that spell a way into the body. -/
theorem Sound.reframe (h : m.Sound body d₀ kind) (hc : m.control = .idle) {frames : List Frame}
    {env : Env} (hstack : (frames = [] ∧ env.depth = d₀) ∨ Spells body d₀ frames env.depth) :
    Sound body d₀ kind { m with frames, env } := by
  refine ⟨hstack, h.kind, fun hy => ?_⟩
  have hy : m.control = .yielding := hy
  rw [hc] at hy
  cases hy

/-- Where a jump ends, the frames that are left spell a way into the body. -/
theorem spells_unwindFrames (control : Control) {frames : List Frame} {env : Env}
    (h : (frames = [] ∧ env.depth = d₀) ∨ Spells body d₀ frames env.depth) :
    ((unwindFrames control frames env).1 = [] ∧ (unwindFrames control frames env).2.1.depth = d₀) ∨
      Spells body d₀ (unwindFrames control frames env).1
        (unwindFrames control frames env).2.1.depth := by
  induction frames generalizing env with
  | nil =>
    rcases h with ⟨-, hd⟩ | h
    · exact .inl ⟨rfl, hd⟩
    · cases h
  | cons frame rest ih =>
    have hspells : Spells body d₀ (frame :: rest) env.depth := by
      rcases h with ⟨hf, -⟩ | h
      · cases hf
      · exact h
    obtain ⟨hle, hbeneath⟩ := hspells.beneath
    have hdepth := Env.depth_truncate hle
    obtain ⟨fkind, base, node⟩ := frame
    simp only [unwindFrames]
    split
    case h_1 => exact .inr (by rw [hdepth]; exact hspells.beneath_loop)
    case h_2 => exact .inr (by rw [hdepth]; exact hspells.reloop _ _)
    case h_3 =>
      refine ih ?_
      rw [hdepth]
      exact hbeneath

theorem Sound.unwound (h : m.Sound body d₀ kind) (hc : m.control ≠ .yielding) :
    m.unwound.Sound body d₀ kind :=
  ⟨spells_unwindFrames m.control h.stack, h.kind,
    fun hy => absurd hy (unwindFrames_control hc m.frames m.env)⟩

end Machine

/-- What a plan must keep for a machine to stay sound. -/
def Plan.Sound (body : Block) (d₀ : Nat) (kind : BodyKind) (m : Machine) : Plan → Prop
  | .settled _ m' => m'.Sound body d₀ kind
  | .asks _ _ next => ∀ b, (next b).Sound body d₀ kind
  | .performs _ rest => rest ≠ [] ∧ Spells body d₀ rest m.env.depth

namespace Machine

variable {body : Block} {d₀ : Nat} {kind : BodyKind} {m : Machine} {frame : Frame}
  {rest : List Frame}

/-- A block that goes on begins its next statement, or ends with the scopes it opened closed. -/
theorem Sound.stepNext (h : m.Sound body d₀ kind) (hc : m.control = .idle) {b : Block} {i : Nat}
    (hframe : frame = ⟨.block .next i, frame.scopeBase, .block b⟩)
    (hthis : Spells body d₀ (frame :: rest) m.env.depth)
    (hnext : i + 1 ≤ b.length →
      Spells body d₀ (⟨.block .next (i + 1), frame.scopeBase, .block b⟩ :: rest) m.env.depth) :
    (m.stepBlock frame rest b .next i).Sound body d₀ kind := by
  simp only [Machine.stepBlock]
  cases hs : b[i]? with
  | none =>
    obtain ⟨hle, hbeneath⟩ := hthis.beneath
    refine h.reframe hc ?_
    rw [Env.depth_truncate hle]
    exact hbeneath
  | some s =>
    have hlt : i < b.length := (List.getElem?_eq_some_iff.1 hs).1
    have htop : ({ frame with kind := .block .next (i + 1) } : Frame) =
        ⟨.block .next (i + 1), frame.scopeBase, .block b⟩ := by
      rw [hframe]
    refine h.reframe hc (.inr ?_)
    simp only [Machine.withTop, htop]
    exact .stmt (hnext hlt) hs (FrameKind.fits_ofStmt s)

theorem Sound.dispatch (h : m.Sound body d₀ kind) (hc : m.control = .idle) {cond : Expr}
    {thenBody : Block} {elseBody : Option Block} {i base : Nat} {b : Block}
    (hrest : Spells body d₀ (⟨.block .next (i + 1), base, .block b⟩ :: rest) m.env.depth)
    (hs : b[i]? = some (.ifElse cond thenBody elseBody)) (takeThen : Bool) :
    (m.dispatch (⟨.block .next (i + 1), base, .block b⟩ :: rest) thenBody elseBody takeThen).Sound
      body d₀ kind := by
  unfold Machine.dispatch
  cases takeThen with
  | true => exact h.reframe hc (.inr (.enter hrest (.branch hs (.inl rfl))))
  | false =>
    cases elseBody with
    | none => exact h.reframe hc (.inr hrest)
    | some other => exact h.reframe hc (.inr (.enter hrest (.branch hs (.inr rfl))))

/-- The step of a loop keeps the loop above its block, or puts the loop's body above it. -/
theorem Sound.planLoop (h : m.Sound body d₀ kind) (hc : m.control = .idle) {cond : Expr}
    {loopBody : Block} {phase : WhilePhase} {n : UInt64}
    (hframe : frame = ⟨.whileLoop phase n, m.env.depth, .stmt (.whileLoop cond loopBody)⟩)
    (hthis : Spells body d₀ (frame :: rest) m.env.depth) :
    (m.planFrame frame rest).Sound body d₀ kind m := by
  subst hframe
  cases phase with
  | check =>
    intro again
    cases again with
    | true => exact h.reframe hc (.inr (hthis.reloop _ _))
    | false =>
      refine h.reframe hc (.inr ?_)
      rw [Env.depth_truncate (Nat.le_refl _)]
      exact hthis.beneath_loop
  | runBody => exact h.reframe hc (.inr (.enter (hthis.reloop _ _) .loop))
  | postBody => exact h.reframe hc (.inr (hthis.reloop _ _))

theorem Sound.planFrame (h : m.Sound body d₀ kind) (hc : m.control = .idle)
    (hthis : Spells body d₀ (frame :: rest) m.env.depth) :
    (m.planFrame frame rest).Sound body d₀ kind m := by
  have hspells := hthis
  generalize hd : m.env.depth = d at hspells
  -- The cases are those of the innermost frame: the body, a statement, a nested block.
  cases hspells with
  | bottom hi => exact h.stepNext hc rfl hthis fun hi => by rw [hd]; exact .bottom hi
  | enter hrest hb =>
    refine h.reframe hc (.inr ?_)
    rw [Env.depth_push, hd]
    exact .next hrest hb (Nat.zero_le _)
  | next hrest hb hi => exact h.stepNext hc rfl hthis fun hi => by rw [hd]; exact .next hrest hb hi
  | @stmt fkind s i base d b below hrest hs hk =>
    rw [← hd] at hrest
    cases s
    case ifElse cond thenBody elseBody =>
      cases fkind <;> simp only [FrameKind.Fits, FrameKind.ofStmt, reduceCtorEq] at hk
      case ifElse phase takeThen =>
        cases phase with
        | evalCond =>
          intro taken
          refine h.reframe hc (.inr ?_)
          rw [← hd]
          exact .stmt hrest hs trivial
        | dispatch => exact h.dispatch hc hrest hs takeThen
    case whileLoop cond loopBody =>
      cases fkind <;> simp only [FrameKind.Fits, FrameKind.ofStmt, reduceCtorEq] at hk
      case whileLoop phase n => exact h.planLoop hc (by rw [hd]) hthis
    all_goals
      have hkind := hk.eq (by simp) (by simp)
      simp only [Machine.planFrame, hkind, if_true]
      exact ⟨by simp, hrest⟩

theorem Sound.plan (h : m.Sound body d₀ kind) : m.plan.Sound body d₀ kind m := by
  unfold Machine.plan
  cases hc : m.control with
  | yielding => exact h
  | idle =>
    cases hf : m.frames with
    | nil => exact h
    | cons frame rest =>
      have hspells : Spells body d₀ (frame :: rest) m.env.depth := by
        rcases h.stack with ⟨hnil, -⟩ | hspells
        · rw [hf] at hnil
          cases hnil
        · rw [← hf]
          exact hspells
      exact h.planFrame hc hspells
  | _ => exact h.unwound (by rw [hc]; simp)

end Machine

/-- A statement without parts leaves as many scopes open as it found. -/
theorem Stmt.Leaves.depth {kind : BodyKind} {env : Env} {s : Stmt} {after : Env × Control}
    (h : s.Leaves kind env after) : after.1.depth = env.depth := by
  cases h with
  | defines h => exact Env.depth_of_define h
  | assigns h => exact Env.depth_of_assign h
  | _ => rfl

namespace Machine

variable {body : Block} {d₀ : Nat} {kind : BodyKind} {m : Machine}

/-- **A step keeps a machine sound.** -/
theorem Sound.advances (h : m.Sound body d₀ kind) {r : Bool × Machine} (hr : m.Advances r) :
    r.2.Sound body d₀ kind := by
  have hplan := h.plan
  cases hr with
  | settled hp =>
    rw [hp] at hplan
    exact hplan
  | asks hp b =>
    rw [hp] at hplan
    exact hplan b
  | @performs s rest after hp hs =>
    rw [hp] at hplan
    obtain ⟨hne, hspells⟩ := hplan
    refine ⟨.inr ?_, h.kind, fun _ => hne⟩
    show Spells body d₀ rest after.1.depth
    rw [hs.depth]
    exact hspells

theorem Sound.advance (h : m.Sound body d₀ kind) (cx : Context) (sv : Services) :
    (m.advance cx sv).Gives fun r => r.2.Sound body d₀ kind :=
  (m.advance_gives cx sv).mono fun _ hr => h.advances hr

/-- **A run keeps a machine sound.** -/
theorem Sound.runs (h : m.Sound body d₀ kind) (cx : Context) (sv : Services) (fuel : Nat) :
    (m.runs cx sv fuel).Gives fun m' => m'.Sound body d₀ kind := by
  induction fuel generalizing m with
  | zero => exact .exhausted
  | succ fuel ih =>
    rw [runs_succ]
    refine .bind (h.advance cx sv) ?_
    rintro ⟨more, m'⟩ hm'
    cases more with
    | true => exact ih hm'
    | false => exact .pure hm'

end Machine

/-! ## Properties that pass to the parts of statements -/

section Hereditary

variable {P : Stmt → Prop} {body : Block} {d₀ : Nat} {kind : BodyKind}

theorem Frame.Hosts.all {f : Frame} {b : Block} (h : f.Hosts b) (hP : Hereditary P)
    (hf : f.node.All P) : ∀ s ∈ b, P s := by
  cases h with
  | branch hs hbody =>
    have hif := hf _ (List.mem_of_getElem? hs)
    rcases hbody with rfl | rfl
    · exact hP.thenBody hif
    · exact hP.elseBody hif
  | loop => exact hP.body hf

theorem Spells.all {frames : List Frame} {d : Nat} (h : Spells body d₀ frames d)
    (hP : Hereditary P) (hbody : ∀ s ∈ body, P s) : ∀ f ∈ frames, f.node.All P := by
  induction h with
  | bottom hi =>
    intro f hf
    obtain rfl := List.mem_singleton.1 hf
    exact hbody
  | stmt h hs hk ih =>
    intro f hf
    rcases List.mem_cons.1 hf with rfl | hf
    · exact ih _ List.mem_cons_self _ (List.mem_of_getElem? hs)
    · exact ih f hf
  | enter h hb ih =>
    intro f hf
    rcases List.mem_cons.1 hf with rfl | hf
    · exact hb.all hP (ih _ List.mem_cons_self)
    · exact ih f hf
  | next h hb hi ih =>
    intro f hf
    rcases List.mem_cons.1 hf with rfl | hf
    · exact hb.all hP (ih _ List.mem_cons_self)
    · exact ih f hf

namespace Machine

theorem Sound.all {m : Machine} (h : m.Sound body d₀ kind) (hP : Hereditary P)
    (hbody : ∀ s ∈ body, P s) : ∀ f ∈ m.frames, f.node.All P := by
  rcases h.stack with ⟨hnil, -⟩ | hspells
  · intro f hf
    rw [hnil] at hf
    cases hf
  · exact hspells.all hP hbody

/-- **A sound machine only performs statements that have the properties of its body.** -/
theorem Sound.performs {m : Machine} (h : m.Sound body d₀ kind) (hP : Hereditary P)
    (hbody : ∀ s ∈ body, P s) {s : Stmt} {rest : List Frame} (hplan : m.plan = .performs s rest) :
    P s := by
  obtain ⟨f, hf, hnode⟩ := frames_of_performs hplan
  have hall : f.node.All P := by
    refine h.all hP hbody f ?_
    rw [hf]
    exact List.mem_cons_self
  rw [hnode] at hall
  exact hall

end Machine

end Hereditary

end CoLang
