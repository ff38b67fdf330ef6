import CoLang.Proofs.Jumps
/-!
# Programs without loops

A body without loops has a bounded number of steps before it (`Machine.work`). A step may begin
other bodies, but these do not nest without end: calls nest up to the limit, and a name is not
resumed again while it is being resumed, so resumes nest no deeper than there are names to resume in
the text of the program (`room`). By induction on the room that is left, on the work of the
innermost body and on the rest of its step, each body in flight comes to its end (`Tame.closes`),
and so every operation returns (`Interpreter.returns_without_loops`).
-/

namespace CoLang

/-! ## Texts without loops -/

def Stmt.isLoop : Stmt → Bool
  | .whileLoop .. => true
  | _ => false

/-- Whether no loop stands in a body, however deep. -/
def Block.isLoopFree (body : Block) : Bool :=
  Stmt.allBlock (fun s => !s.isLoop) body

def Program.isLoopFree (p : Program) : Bool :=
  p.main.isLoopFree && p.functions.all (fun f => f.body.isLoopFree) &&
    p.coroutines.all fun c => c.body.isLoopFree

mutual

/-- The names that are resumed in a statement. -/
def Stmt.resumes : Stmt → List String
  | .resume name => [name]
  | .ifElse _ thenBody elseBody => Stmt.resumesBlock thenBody ++ Stmt.resumesElse elseBody
  | .whileLoop _ body => Stmt.resumesBlock body
  | _ => []

def Stmt.resumesBlock : List Stmt → List String
  | [] => []
  | s :: rest => s.resumes ++ Stmt.resumesBlock rest

def Stmt.resumesElse : Option (List Stmt) → List String
  | none => []
  | some body => Stmt.resumesBlock body

end

def Program.resumes (p : Program) : List String :=
  Stmt.resumesBlock p.main ++ p.functions.flatMap (fun f => Stmt.resumesBlock f.body) ++
    p.coroutines.flatMap fun c => Stmt.resumesBlock c.body

theorem Stmt.resumes_subset_of_mem {body : Block} {s : Stmt} (h : s ∈ body) :
    s.resumes ⊆ Stmt.resumesBlock body := by
  induction body with
  | nil => cases h
  | cons first rest ih =>
    rw [Stmt.resumesBlock]
    rcases List.mem_cons.1 h with rfl | h
    · exact List.subset_append_left _ _
    · exact List.subset_append_of_subset_right _ (ih h)

/-- No loop stands in the statement, and it resumes instances of these names only. -/
def Stmt.Straight (names : List String) (s : Stmt) : Prop :=
  s.all (fun s => !s.isLoop) = true ∧ s.resumes ⊆ names

theorem Block.straight {body : Block} (h : body.isLoopFree = true) {names : List String}
    (hnames : Stmt.resumesBlock body ⊆ names) : ∀ s ∈ body, s.Straight names := by
  intro s hs
  exact ⟨Stmt.allBlock_iff.1 h s hs, List.Subset.trans (Stmt.resumes_subset_of_mem hs) hnames⟩

theorem Stmt.hereditary_straight (names : List String) : Hereditary (Stmt.Straight names) where
  thenBody h s hs := by
    have hnames := h.2
    rw [Stmt.resumes, List.append_subset] at hnames
    exact ⟨(hereditary_all _).thenBody h.1 s hs,
      List.Subset.trans (Stmt.resumes_subset_of_mem hs) hnames.1⟩
  elseBody h s hs := by
    have hnames := h.2
    rw [Stmt.resumes, Stmt.resumesElse, List.append_subset] at hnames
    exact ⟨(hereditary_all _).elseBody h.1 s hs,
      List.Subset.trans (Stmt.resumes_subset_of_mem hs) hnames.2⟩
  body h s hs := by
    have hnames := h.2
    rw [Stmt.resumes] at hnames
    exact ⟨(hereditary_all _).body h.1 s hs,
      List.Subset.trans (Stmt.resumes_subset_of_mem hs) hnames⟩

theorem Stmt.Straight.not_loop {names : List String} {cond : Expr} {body : Block} :
    ¬ (Stmt.whileLoop cond body).Straight names := by
  intro h
  exact absurd (Stmt.of_all h.1) (by simp [Stmt.isLoop])

/-! ## The work before a body -/

mutual

/-- More than the number of steps that a statement takes of its own, if no loop stands in it. -/
def Stmt.work : Stmt → Nat
  | .ifElse _ thenBody elseBody => 3 + Stmt.workBlock thenBody + Stmt.workElse elseBody
  | _ => 1

def Stmt.workBlock : List Stmt → Nat
  | [] => 0
  | s :: rest => 2 + s.work + Stmt.workBlock rest

def Stmt.workElse : Option (List Stmt) → Nat
  | none => 0
  | some body => Stmt.workBlock body

end

def Frame.work (f : Frame) : Nat :=
  match f.node with
  | .block body =>
    match f.kind with
    | .block .enter i => 2 + Stmt.workBlock (body.drop i)
    | .block .next i => 1 + Stmt.workBlock (body.drop i)
    | _ => 0
  | .stmt s =>
    match f.kind with
    | .ifElse .dispatch _ => s.work
    | _ => 1 + s.work

def Frame.workAll : List Frame → Nat
  | [] => 0
  | f :: rest => f.work + Frame.workAll rest

theorem Stmt.work_pos (s : Stmt) : 0 < s.work := by
  cases s <;> simp only [Stmt.work] <;> omega

theorem Frame.work_pos {f : Frame} {s : Stmt} (h : f.node = .stmt s) : 0 < f.work := by
  have hs := s.work_pos
  simp only [Frame.work, h]
  split
  · exact hs
  · omega

namespace Machine

/-- The work before a body. A jump ends it, since no loop is there to catch it. -/
def work (m : Machine) : Nat :=
  match m.control with
  | .idle => Frame.workAll m.frames
  | _ => 0

/-- The machine runs a body without loops, and resumes instances of these names only. -/
def Straight (names : List String) (m : Machine) : Prop :=
  m.RunsOn fun _ body => ∀ s ∈ body, s.Straight names

variable {names : List String} {m : Machine}

theorem work_of_idle {frame : Frame} {rest : List Frame} (hc : m.control = .idle)
    (hf : m.frames = frame :: rest) : m.work = frame.work + Frame.workAll rest := by
  simp [work, hc, hf, Frame.workAll]

theorem work_le (m : Machine) : m.work ≤ Frame.workAll m.frames := by
  unfold work
  split
  · exact Nat.le_refl _
  · exact Nat.zero_le _

theorem Straight.all (h : m.Straight names) : ∀ f ∈ m.frames, f.node.All (Stmt.Straight names) := by
  obtain ⟨body, d₀, kind, hm, hbody⟩ := h
  exact hm.all (Stmt.hereditary_straight names) hbody

theorem Straight.isLoop_eq_false (h : m.Straight names) : ∀ f ∈ m.frames, f.isLoop = false := by
  intro f hf
  have hall := h.all f hf
  obtain ⟨body, d₀, kind, hm, -⟩ := h
  have hfits := hm.shaped.fits f hf
  unfold Frame.isLoop
  split
  case h_2 => rfl
  case h_1 phase n hk =>
    unfold Frame.Fits at hfits
    cases hn : f.node with
    | block b =>
      simp only [hn, hk] at hfits
      obtain ⟨phase', i, heq⟩ := hfits
      cases heq
    | stmt s =>
      rw [hn] at hall
      simp only [hn, hk] at hfits
      cases s
      case whileLoop => exact absurd hall Stmt.Straight.not_loop
      all_goals cases hfits

/-- Without loops a jump is caught by nothing. -/
theorem unwindFrames_uncaught {frames : List Frame} (h : ∀ f ∈ frames, f.isLoop = false)
    (control : Control) (env : Env) : (unwindFrames control frames env).2.2 = control := by
  induction frames generalizing env with
  | nil => rfl
  | cons top rest ih =>
    rw [List.forall_mem_cons] at h
    have htop : ∀ phase n, top.kind ≠ .whileLoop phase n := by
      intro phase n hk
      have hloop := h.1
      simp [Frame.isLoop, hk] at hloop
    simp only [unwindFrames]
    split
    case h_1 hk => exact absurd hk (htop _ _)
    case h_2 hk => exact absurd hk (htop _ _)
    case h_3 => exact ih h.2 _

/-- The step of a frame leaves less work, if it performs nothing. -/
theorem Straight.work_turns (h : m.Straight names) {m' : Machine} {rest : List Frame}
    {frame : Frame} (hc : m.control = .idle) (hf : m.frames = frame :: rest)
    (ht : m.Turns rest frame m') : m'.work < m.work := by
  have hall : frame.node.All (Stmt.Straight names) := by
    refine h.all frame ?_
    rw [hf]
    exact List.mem_cons_self
  rw [work_of_idle hc hf]
  refine Nat.lt_of_le_of_lt (work_le m') ?_
  cases ht with
  | @block body phase i hn hk =>
    cases phase with
    | enter => simp [stepBlock, withTop, Frame.workAll, Frame.work, hn, hk]
    | next =>
      simp only [stepBlock]
      cases hs : body[i]? with
      | none =>
        simp only [leave, Frame.work, hn, hk]
        omega
      | some s =>
        obtain ⟨hi, hs⟩ := List.getElem?_eq_some_iff.1 hs
        have hnew : Frame.work ⟨.ofStmt s, m.env.depth, .stmt s⟩ = 1 + s.work := by
          cases s <;> rfl
        have hdrop : body.drop i = s :: body.drop (i + 1) := by
          rw [← hs]
          exact List.drop_eq_getElem_cons hi
        simp only [pushStmt, withTop, Frame.workAll, hnew]
        simp only [Frame.work, hn, hk, hdrop, Stmt.workBlock]
        omega
  | chooses hn hk taken => simp [withTop, Frame.workAll, Frame.work, hn, hk]
  | @branches cond thenBody elseBody takeThen hn hk =>
    have hframe : frame.work = 3 + Stmt.workBlock thenBody + Stmt.workElse elseBody := by
      simp [Frame.work, hn, hk, Stmt.work]
    rw [hframe]
    unfold dispatch
    split
    · simp only [pushBlock, Frame.work, List.drop_zero, Frame.workAll]
      omega
    · split
      · simp only [pushBlock, Frame.work, List.drop_zero, Frame.workAll, Stmt.workElse]
        omega
      · dsimp only
        omega
  | _ =>
    rename_i hn _
    rw [hn] at hall
    exact absurd hall Stmt.Straight.not_loop

/-- **A step that is not the last leaves less work.** -/
theorem Straight.work_moves (h : m.Straight names) {r : Bool × Machine} (hr : m.Moves r)
    (hmore : r.1 = true) : r.2.work < m.work := by
  cases hr with
  | stays => cases hmore
  | jumps hc hafter =>
    have hsame : m.unwound.control = m.control :=
      unwindFrames_uncaught h.isLoop_eq_false m.control m.env
    rw [hsame] at hafter
    dsimp only at hmore
    subst hmore
    cases hcontrol : m.control <;> rw [hcontrol] at hafter <;> cases hafter
    exact absurd hcontrol hc
  | turns hc hf ht => exact h.work_turns hc hf ht
  | @performs frame rest s after hc hf hn hs =>
    rw [work_of_idle hc hf]
    have hpos := Frame.work_pos hn
    have hle := work_le (m.performed rest after)
    have hframes : (m.performed rest after).frames = rest := rfl
    rw [hframes] at hle
    dsimp only
    omega

theorem kept_straight {p : Program} (h : p.isLoopFree = true) (hnames : p.resumes ⊆ names) :
    Machine.Kept ⟨p.functions, p.coroutines⟩ (Straight names) fun _ => True := by
  simp only [Program.isLoopFree, Bool.and_eq_true, List.all_eq_true] at h
  refine kept_runsOn (fun f hf => Block.straight (h.1.2 f hf) ?_)
    (fun c hc => Block.straight (h.2 c hc) ?_) fun _ _ => trivial
  · refine List.Subset.trans (fun name hname => ?_) hnames
    simp only [Program.resumes, List.mem_append, List.mem_flatMap]
    exact .inl (.inr ⟨f, hf, hname⟩)
  · refine List.Subset.trans (fun name hname => ?_) hnames
    simp only [Program.resumes, List.mem_append, List.mem_flatMap]
    exact .inr ⟨c, hc, hname⟩

end Machine

/-! ## Room for more bodies -/

/-- How many more bodies there may be in flight: calls up to the limit, and resumes of names that
are not being resumed. -/
def room (cx : Context) (names : List String) (σ : List Role) : Nat :=
  (cx.settings.maxCallDepth - calls σ) + (names.length - (resumed σ).length)

namespace Moment

/-- All bodies are without loops, and the resumes in flight are of these names. -/
structure Tame (cx : Context) (names : List String) (z : Moment) : Prop where
  keeps : z.Keeps cx.decls (Machine.Straight names) fun _ => True
  orderly : z.Orderly cx
  resumed : resumed z.roles ⊆ names

/-- The innermost body comes to its end. -/
def Closes (cx : Context) (t : Active) (below : List Waiting) (w : World) : Prop :=
  ∃ x w', (Moment.running t below w).Leads cx (close t.role below w' x)

variable {cx : Context} {names : List String} {z z' : Moment} {t : Active} {below : List Waiting}
  {w w' : World}

theorem Closes.of_leads {t' : Active}
    (hz : (Moment.running t below w).Leads cx (.running t' below w')) (hrole : t'.role = t.role)
    (h : Closes cx t' below w') : Closes cx t below w := by
  obtain ⟨x, w₁, hleads⟩ := h
  rw [hrole] at hleads
  exact ⟨x, w₁, hz.trans hleads⟩

theorem closes_fail (cx : Context) (t : Active) (f : Fault) (below : List Waiting) (w : World) :
    Closes cx (t.fail f) below w :=
  ⟨.error f, w, .single rfl⟩

theorem Tame.leads (hk : Machine.Kept cx.decls (Machine.Straight names) fun _ => True)
    (h : z.Tame cx names) (hz : z.Leads cx z') (hroles : CoLang.resumed z'.roles ⊆ names) :
    z'.Tame cx names :=
  ⟨h.keeps.leads hk hz, h.orderly.leads hz, hroles⟩

/-- The names that are resumed in flight are no more than there are. -/
theorem Tame.length_resumed_le (h : z.Tame cx names) :
    (CoLang.resumed z.roles).length ≤ names.length :=
  (List.subperm_of_subset h.orderly.inFlight.distinct h.resumed).length_le

/-- A body that begins is tame too, and leaves less room. -/
theorem Tame.opened (hk : Machine.Kept cx.decls (Machine.Straight names) fun _ => True)
    {role : Role} {m : Machine} {q : Request} {k : Option Val → Script (Bool × Machine)}
    (h : (Moment.running ⟨role, m, .asks q k⟩ below w).Tame cx names) {inner : Active}
    (hq : q.begin cx w = .opened inner w') :
    (Moment.running inner (⟨role, m, k⟩ :: below) w').Tame cx names ∧
      room cx names (inner.role :: role :: below.map Waiting.role) <
        room cx names (role :: below.map Waiting.role) := by
  have hnext : (Moment.running ⟨role, m, .asks q k⟩ below w).next cx =
      some (.running inner (⟨role, m, k⟩ :: below) w') := by
    simp only [next, hq]
  obtain ⟨hstraight, hask, -⟩ := h.keeps.1
  cases Request.opens_of_begin hq with
  | @call f args env w₁ henv hw =>
    have hlimit := (h.orderly.leads (.single hnext)).inFlight.limit
    simp only [roles, List.map_cons, Active.start, calls, List.countP_cons, Role.isCall,
      if_true] at hlimit
    refine ⟨h.leads hk (.single hnext) h.resumed, ?_⟩
    simp only [Active.start, room, calls, List.countP_cons, Role.isCall, CoLang.resumed,
      List.filterMap_cons, Role.resumed?, if_true]
    omega
  | @resume name i table m' hout hbody =>
    -- the machine is at a resume of its own text
    have hname : name ∈ names := by
      obtain ⟨rest, hplan⟩ := hask
      obtain ⟨body, d₀, kind, hm, hbody⟩ := hstraight
      have hstmt := hm.performs (Stmt.hereditary_straight names) hbody hplan
      exact hstmt.2 List.mem_cons_self
    have htame := h.leads hk (.single hnext) (List.cons_subset.2 ⟨hname, h.resumed⟩)
    refine ⟨htame, ?_⟩
    have hlength := htame.length_resumed_le
    simp only [roles, List.map_cons, Active.start, CoLang.resumed, List.filterMap_cons,
      Role.resumed?, List.length_cons] at hlength
    simp only [Active.start, room, calls, List.countP_cons, Role.isCall, CoLang.resumed,
      List.filterMap_cons, Role.resumed?, List.length_cons]
    omega

/-- A body comes to its end if those do that it begins, and if it does so from its next step on. -/
theorem Tame.closes_of_step (hk : Machine.Kept cx.decls (Machine.Straight names) fun _ => True)
    {role : Role} {m : Machine} {script : Script (Bool × Machine)}
    (hopen : ∀ {t' below' w'}, (Moment.running t' below' w').Tame cx names →
      room cx names (t'.role :: below'.map Waiting.role) <
        room cx names (role :: below.map Waiting.role) → Closes cx t' below' w')
    (hstep : ∀ {m' w'}, m.Advances (true, m') →
      (Moment.running (.start cx role m') below w').Tame cx names →
        Closes cx (.start cx role m') below w')
    (h : (Moment.running ⟨role, m, script⟩ below w).Tame cx names) :
    Closes cx ⟨role, m, script⟩ below w := by
  induction script generalizing w with
  | ends x =>
    rcases x with f | ⟨_ | _, m'⟩
    · exact ⟨.error f, w, .single rfl⟩
    · exact ⟨.ok m', w, .single rfl⟩
    · have htame := h.leads hk (.single rfl) h.resumed
      exact .of_leads (.single rfl) rfl (hstep h.keeps.1.script htame)
  | does e s ih =>
    rcases he : e.apply cx w with ⟨f | ⟨⟩, w'⟩
    · have hnext : (Moment.running ⟨role, m, .does e s⟩ below w).next cx =
          some (.running (Active.fail ⟨role, m, .does e s⟩ f) below w') := by
        simp only [next, he]
      exact .of_leads (.single hnext) rfl (closes_fail cx _ f below w')
    · have hnext : (Moment.running ⟨role, m, .does e s⟩ below w).next cx =
          some (.running ⟨role, m, s⟩ below w') := by
        simp only [next, he]
      exact .of_leads (.single hnext) rfl (ih (h.leads hk (.single hnext) h.resumed))
  | asks q k ih =>
    cases hq : q.begin cx w with
    | refused f w' =>
      have hnext : (Moment.running ⟨role, m, .asks q k⟩ below w).next cx =
          some (.running (Active.fail ⟨role, m, .asks q k⟩ f) below w') := by
        simp only [next, hq]
      exact .of_leads (.single hnext) rfl (closes_fail cx _ f below w')
    | opened inner w' =>
      have hnext : (Moment.running ⟨role, m, .asks q k⟩ below w).next cx =
          some (.running inner (⟨role, m, k⟩ :: below) w') := by
        simp only [next, hq]
      obtain ⟨htame, hroom⟩ := h.opened hk hq
      obtain ⟨x, w₁, hinner⟩ := hopen htame hroom
      -- the body that waited goes on with the answer, or fails with its error
      have hleads := Leads.head hnext hinner
      cases hanswer : inner.role.answer x with
      | ok v =>
        have hwake : close inner.role (⟨role, m, k⟩ :: below) w₁ x =
            .running ⟨role, m, k v⟩ below (inner.role.close x w₁) := by
          simp only [close, Waiting.wake, hanswer]
          rfl
        rw [hwake] at hleads
        exact .of_leads hleads rfl (ih v (h.leads hk hleads h.resumed))
      | error f =>
        have hwake : close inner.role (⟨role, m, k⟩ :: below) w₁ x =
            .running (Active.fail ⟨role, m, .asks q k⟩ f) below (inner.role.close x w₁) := by
          simp only [close, Waiting.wake, hanswer]
          rfl
        rw [hwake] at hleads
        exact .of_leads hleads rfl (closes_fail cx _ f below _)

/-- **Each body in flight comes to its end.** The induction is on the room for more bodies, and
within that on the work before the innermost one. -/
theorem Tame.closes (hk : Machine.Kept cx.decls (Machine.Straight names) fun _ => True)
    (h : (Moment.running t below w).Tame cx names) : Closes cx t below w := by
  obtain ⟨n, hn⟩ : ∃ n, room cx names (t.role :: below.map Waiting.role) = n := ⟨_, rfl⟩
  induction n using Nat.strongRecOn generalizing t below w with
  | _ n ihroom =>
    obtain ⟨j, hj⟩ : ∃ j, t.machine.work = j := ⟨_, rfl⟩
    induction j using Nat.strongRecOn generalizing t w with
    | _ j ihwork =>
      obtain ⟨role, m, script⟩ := t
      refine h.closes_of_step hk ?_ ?_
      · intro t' below' w' h' hroom
        exact ihroom _ (hn ▸ hroom) h' rfl
      · intro m' w' hadvances h'
        have hwork : m'.work < m.work := h.keeps.1.machine.work_moves hadvances.moves rfl
        exact ihwork m'.work (hj ▸ hwork) h' hn rfl

end Moment

/-! ## Operations -/

/-- The body with which an operation begins comes to its end, and with it the operation. -/
theorem Interpreter.Reachable.leads_finished_of_running {p : Program} (hp : p.isLoopFree = true)
    {i : Interpreter} (h : i.Reachable p) {op : Operation}
    (hop : ∀ name inst, op ≠ .restore name inst) {t : Active} {w : World}
    (hfirst : (Moment.begins i.main op i.world).next i.context = some (.running t [] w)) :
    ∃ r w', (Moment.begins i.main op i.world).Leads i.context (.finished r w') := by
  -- besides the names in the text, the host may resume an instance
  obtain ⟨names, hnames⟩ : ∃ names, names = p.resumes ++ resumed [t.role] := ⟨_, rfl⟩
  have hkept : ∀ p' : Program, p' = p →
      Machine.Kept ⟨p'.functions, p'.coroutines⟩ (Machine.Straight names) (fun _ => True) ∧
        (Machine.start p'.main .empty .main).Straight names := by
    rintro p' rfl
    have hsubset : p'.resumes ⊆ names := hnames ▸ List.subset_append_left _ _
    refine ⟨Machine.kept_straight hp hsubset, _, _, _, Machine.sound_start _ _ _, ?_⟩
    simp only [Program.isLoopFree, Bool.and_eq_true] at hp
    refine Block.straight hp.1.1 (List.Subset.trans ?_ hsubset)
    rw [Program.resumes, List.append_assoc]
    exact List.subset_append_left _ _
  obtain ⟨_, -, hdriven⟩ := h.driven
  have htame : (Moment.running t [] w).Tame i.context names := by
    refine ⟨h.keeps hkept (Operation.captured_of_ne hop) (.single hfirst),
      (hdriven.orderly op).leads (.single hfirst), ?_⟩
    rw [hnames]
    exact List.subset_append_right _ _
  have hdecls := Declarations.eq_of_build (Reachable.program h).1
  obtain ⟨x, w', hclose⟩ := htame.closes (hdecls ▸ (hkept p rfl).1)
  exact ⟨_, _, .head hfirst hclose⟩

/-- **Programs without loops end.** Whatever operations were performed before, and however deep
calls may nest, every operation returns after finitely many steps, and does so with all fuel from
some amount on. -/
theorem Interpreter.returns_without_loops {p : Program} (hp : p.isLoopFree = true)
    {i : Interpreter} (h : i.Reachable p) (op : Operation) :
    ∃ r w, r ≠ .outOfFuel ∧ (Moment.begins i.main op i.world).Leads i.context (.finished r w) ∧
      ∃ n, ∀ fuel, n ≤ fuel → i.perform fuel op = (r, { i with world := w }) := by
  obtain ⟨r, w, hend⟩ :
      ∃ r w, (Moment.begins i.main op i.world).Leads i.context (.finished r w) := by
    rcases Moment.first_cases i.context i.main i.world op with
      ⟨role, m, w', hfirst⟩ | ⟨r, w', -, hfirst⟩
    · refine h.leads_finished_of_running hp ?_ (congrArg some hfirst)
      rintro name inst rfl
      rw [Moment.first] at hfirst
      rcases hw : i.world.restore i.context name inst with ⟨f | ⟨⟩, w₁⟩ <;>
        rw [hw] at hfirst <;> cases hfirst
    · exact ⟨r, w', .single (congrArg some hfirst)⟩
  obtain ⟨hr, n, hn⟩ := Moment.result_of_leads_finished hend
  refine ⟨r, w, hr, hend, n, fun fuel hfuel => ?_⟩
  rw [perform_eq_result, hn fuel hfuel]

/-- Two functions call each other without end, and a coroutine has a function create and resume
another, which pauses. -/
theorem Interpreter.returns_without_loops_recursive :
    let f : Function := ⟨"f", [], none, [.expr (.call "g" [])], none⟩
    let g : Function := ⟨"g", [], none, [.expr (.call "f" [])], none⟩
    let k : Function := ⟨"k", [], none, [.create "a" "d", .resume "a"], none⟩
    let c : Coroutine := ⟨"c", [.expr (.call "k" [])], none⟩
    let d : Coroutine := ⟨"d", [.yield, .resume "b"], none⟩
    let p : Program := ⟨[f, g, k], [c, d], [.create "b" "c", .resume "b", .expr (.call "f" [])]⟩
    let i (depth : Nat) : Interpreter :=
      ⟨⟨⟨[f, g, k], [c, d]⟩, ⟨depth, true⟩, none, default⟩, p.main, .initial⟩
    let i' := ((i 3).perform 60 .runMain).2
    p.isLoopFree = true ∧ (i 1000000000).Reachable p ∧ i'.Reachable p ∧
      ((i 3).perform 60 .runMain).1 = .fault (.tooDeep "g" 3) ∧
      (∃ r, r ≠ .outOfFuel ∧ ∃ n, ∀ fuel, n ≤ fuel →
        ((i 1000000000).perform fuel .runMain).1 = r) ∧
      ∃ r, r ≠ .outOfFuel ∧ ∃ n, ∀ fuel, n ≤ fuel → (i'.perform fuel (.resume "a")).1 = r := by
  intro f g k c d p i i'
  have hp : p.isLoopFree = true := by decide +kernel
  have hbuild : ∀ depth, (i depth).Reachable p := fun depth => .build (by rfl)
  have hreply : ((i 3).perform 60 .runMain).1 = .fault (.tooDeep "g" 3) := by decide +kernel
  have hi' : i'.Reachable p := by
    refine (hbuild 3).perform (by simp) ?_
    rw [hreply]
    simp
  obtain ⟨r, w, hr, -, n, hn⟩ := returns_without_loops hp (hbuild 1000000000) .runMain
  obtain ⟨r', w', hr', -, n', hn'⟩ := returns_without_loops hp hi' (.resume "a")
  refine ⟨hp, hbuild _, hi', hreply, ⟨r, hr, n, fun fuel hfuel => ?_⟩,
    r', hr', n', fun fuel hfuel => ?_⟩
  · rw [hn fuel hfuel]
  · rw [hn' fuel hfuel]

end CoLang
