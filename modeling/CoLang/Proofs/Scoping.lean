import CoLang.Proofs.Bindings
import CoLang.Proofs.Frames
/-!
# The scopes around a conditional or a loop

While a conditional or a loop is under way, its frames stand above those that were there before, and
every block of it that has been entered has a scope of its own. So a declaration in it goes to a
scope that it has opened, and the scopes around it change only where it assigns. When it is over, by
its own end or by a jump, its scopes are closed (`Machine.Attained.scopes_around`).
-/

namespace CoLang

/-! ## Statements in statements -/

/-- The second statement stands in the first, however deep, or is the first. -/
inductive Stmt.Contains (S : Stmt) : Stmt → Prop
  | self : Contains S S
  | thenBody {cond : Expr} {thenBody : Block} {elseBody : Option Block} {s : Stmt}
      (h : Contains S (.ifElse cond thenBody elseBody)) (hs : s ∈ thenBody) : Contains S s
  | elseBody {cond : Expr} {thenBody elseBody : Block} {s : Stmt}
      (h : Contains S (.ifElse cond thenBody (some elseBody))) (hs : s ∈ elseBody) : Contains S s
  | body {cond : Expr} {body : Block} {s : Stmt} (h : Contains S (.whileLoop cond body))
      (hs : s ∈ body) : Contains S s

theorem Stmt.hereditary_contains (S : Stmt) : Hereditary S.Contains where
  thenBody h _ hs := .thenBody h hs
  elseBody h _ hs := .elseBody h hs
  body h _ hs := .body h hs

/-- Whether the statement is a conditional or a loop. -/
def Stmt.isCompound : Stmt → Bool
  | .ifElse .. => true
  | .whileLoop .. => true
  | _ => false

/-- A value is assigned to the variable of a name somewhere in the statement. -/
def Stmt.Assigns (S : Stmt) (name : String) : Prop :=
  ∃ value, S.Contains (.assign name value)

/-! ## Scopes that stay -/

/-- The scopes have the same names with the same types, and the same values apart from those of some
names. -/
structure Scope.SameBut (changed : String → Prop) (s s' : Scope) : Prop where
  types : ∀ name, (s'.get? name).map Binding.ty = (s.get? name).map Binding.ty
  values : ∀ name, ¬ changed name → s'.get? name = s.get? name

namespace Scope.SameBut

variable {changed : String → Prop} {s s' s'' : Scope}

theorem refl (s : Scope) : s.SameBut changed s :=
  ⟨fun _ => rfl, fun _ _ => rfl⟩

theorem trans (h : s.SameBut changed s') (h' : s'.SameBut changed s'') : s.SameBut changed s'' :=
  ⟨fun name => (h'.types name).trans (h.types name),
    fun name hn => (h'.values name hn).trans (h.values name hn)⟩

theorem set {name : String} {b b' : Binding} (hb : s.get? name = some b) (hty : b'.ty = b.ty)
    (hname : changed name) : s.SameBut changed (s.set name b') := by
  constructor
  · intro other
    by_cases heq : other = name
    · rw [heq, Scope.get?_set_self, hb, Option.map_some, Option.map_some, hty]
    · rw [Scope.get?_set_of_ne s b' heq]
  · intro other hother
    apply Scope.get?_set_of_ne s b'
    rintro rfl
    exact hother hname

end Scope.SameBut

namespace Env

variable {changed : String → Prop} {base : Nat} {env env' env'' : Env}

/-- The scopes below a height that are open before and after have only changed for some names. -/
def SameBelow (changed : String → Prop) (base : Nat) (env env' : Env) : Prop :=
  ∀ height s s', height < base → env.scopeAt height = some s → env'.scopeAt height = some s' →
    s.SameBut changed s'

theorem exists_scopeAt {height : Nat} (h : height < env.depth) :
    ∃ s, env.scopeAt height = some s := by
  refine ⟨_, List.getElem?_eq_getElem ?_⟩
  rw [List.length_reverse]
  exact h

theorem lt_depth_of_scopeAt {height : Nat} {s : Scope} (h : env.scopeAt height = some s) :
    height < env.depth := by
  have hlt := (List.getElem?_eq_some_iff.1 h).1
  rwa [List.length_reverse] at hlt

theorem sameBelow_of_suffix (h : env'.scopes <:+ env.scopes ∨ env.scopes <:+ env'.scopes) :
    env.SameBelow changed base env' := by
  intro height s s' _ hs hs'
  rw [scopeAt_eq_of_suffix h hs hs']
  exact .refl s'

theorem SameBelow.refl (env : Env) : env.SameBelow changed base env :=
  sameBelow_of_suffix (.inl (List.suffix_refl _))

/-- The scopes must be open in between. -/
theorem SameBelow.trans (h : env.SameBelow changed base env')
    (h' : env'.SameBelow changed base env'') (hbase : base ≤ env'.depth) :
    env.SameBelow changed base env'' := by
  intro height s s'' hlt hs hs''
  obtain ⟨s', hs'⟩ := exists_scopeAt (Nat.lt_of_lt_of_le hlt hbase)
  exact (h height s s' hlt hs hs').trans (h' height s' s'' hlt hs' hs'')

/-- A declaration goes to the innermost scope. -/
theorem sameBelow_of_define {name : String} {ty : Ty} {v : Option Val}
    (h : env.define name ty v = (.ok (), env')) (hbase : base < env.depth) :
    env.SameBelow changed base env' := by
  obtain ⟨scope, outer, hscopes, -, -, rfl⟩ := define_ok h
  have hdepth : env.depth = outer.length + 1 := by rw [depth, hscopes, List.length_cons]
  -- Both environments have the scopes around the innermost one, and these reach up to the base.
  have houter : (⟨outer⟩ : Env).scopes <:+ env.scopes := by
    rw [hscopes]
    exact List.suffix_cons _ _
  intro height s s' hlt hs hs'
  obtain ⟨t, ht⟩ : ∃ t, (⟨outer⟩ : Env).scopeAt height = some t :=
    exists_scopeAt (show height < outer.length by omega)
  have hst := scopeAt_eq_of_suffix (.inr houter) ht hs
  have hst' := scopeAt_eq_of_suffix (.inr (List.suffix_cons _ _)) ht hs'
  rw [← hst, ← hst']
  exact .refl t

theorem sameBelow_of_assign {name : String} {v : Val} (h : env.assign name v = (.ok (), env'))
    (hname : changed name) : env.SameBelow changed base env' := by
  intro height s s' _ hs hs'
  apply scopeAt_of_getElem (depth_of_assign h) ?_ hs hs'
  obtain ⟨b, -, -, rfl⟩ := assign_ok h
  intro i t t' ht ht'
  exact getElem_store .refl (fun _ _ hb => .set hb rfl hname) ht ht'

end Env

/-! ## The frames of a construct -/

theorem entered_append (above : List Frame) {rest : List Frame} (h : rest ≠ []) :
    entered (above ++ rest) = above.countP Frame.isEntered + entered rest := by
  rw [entered, List.dropLast_append_of_ne_nil h, List.countP_append]
  rfl

namespace Frame.Bears

variable {g : Frame} {node : FrameNode} {s S : Stmt}

theorem all {P : Stmt → Prop} (h : g.Bears node) (hP : Hereditary P) (hg : g.node.All P) :
    node.All P := by
  cases h with
  | stmt hs => exact hg _ (List.mem_of_getElem? hs)
  | block hb => exact hb.all hP hg

/-- Above a block that has come to a statement, there is this statement or a part of it. -/
theorem contains (h : g.Bears node) (hS : g.Bears (.stmt S)) : node.All S.Contains := by
  cases hS with
  | stmt hS =>
    cases h with
    | stmt hs =>
      rw [hS, Option.some.injEq] at hs
      rw [hs]
      exact .self
    | block hb =>
      cases hb with
      | branch hs hbody =>
        rw [hS, Option.some.injEq] at hs
        subst hs
        rcases hbody with rfl | rfl
        · exact fun s hs => .thenBody .self hs
        · exact fun s hs => .elseBody .self hs

theorem stmt_inj (h : g.Bears (.stmt s)) (hS : g.Bears (.stmt S)) : s = S := by
  cases hS with
  | stmt hS =>
    cases h with
    | stmt hs =>
      rw [hS, Option.some.injEq] at hs
      exact hs.symm

theorem isEntered (h : g.Bears (.stmt s)) : g.isEntered = true := by
  cases h with
  | stmt => rfl

end Frame.Bears

namespace Shaped

variable {body : Block} {d₀ d : Nat} {above below : List Frame} {f g : Frame} {s S : Stmt}

/-- **All frames above a block run the statement that the block has come to, or parts of it.** -/
theorem contains (h : Shaped body d₀ (above ++ g :: below) d) (hS : g.Bears (.stmt S)) :
    ∀ f ∈ above, f.node.All S.Contains := by
  have hchain := h.above
  clear h
  induction above with
  | nil => exact List.forall_mem_nil _
  | cons f above ih =>
    cases above with
    | nil =>
      rw [List.singleton_append, List.isChain_cons_cons] at hchain
      exact List.forall_mem_singleton.2 (hchain.1.contains hS)
    | cons f' above =>
      rw [List.cons_append, List.cons_append, List.isChain_cons_cons] at hchain
      have hall := ih hchain.2
      refine List.forall_mem_cons.2 ⟨?_, hall⟩
      exact hchain.1.all S.hereditary_contains (hall f' List.mem_cons_self)

/-- A statement that stands in another is within a block of that one, which has opened a scope. -/
theorem base_lt (h : Shaped body d₀ (f :: above ++ g :: below) d) (hS : g.Bears (.stmt S))
    (hf : f.node = .stmt s) (hne : s ≠ S) : d₀ + entered (g :: below) < d := by
  have hchain := h.above
  have hdepth := h.depth
  rw [entered_append _ (List.cons_ne_nil _ _)] at hdepth
  cases above with
  | nil =>
    rw [List.singleton_append, List.isChain_cons_cons, hf] at hchain
    exact absurd (hchain.1.stmt_inj hS) hne
  | cons f' above =>
    rw [List.cons_append, List.cons_append, List.isChain_cons_cons, hf] at hchain
    have hpos : 0 < (f :: f' :: above).countP Frame.isEntered := by
      apply List.countP_pos_iff.2
      exact ⟨f', by simp, hchain.1.isEntered⟩
    omega

theorem base_le (h : Shaped body d₀ (above ++ g :: below) d) : d₀ + entered (g :: below) ≤ d := by
  have hdepth := h.depth
  rw [entered_append _ (List.cons_ne_nil _ _)] at hdepth
  omega

/-- The frame of a statement stands on a block that has come to it. -/
theorem of_stmt {frames : List Frame} (h : Shaped body d₀ (f :: frames) d)
    (hf : f.node = .stmt S) :
    ∃ g below, frames = g :: below ∧ g.Bears (.stmt S) ∧ d = d₀ + entered frames := by
  cases frames with
  | nil =>
    obtain ⟨i, rfl⟩ := h.bottom f rfl
    cases hf
  | cons g below =>
    have hbears := (List.isChain_cons_cons.1 h.above).1
    rw [hf] at hbears
    refine ⟨g, below, rfl, hbears, ?_⟩
    have hfits := h.fits f List.mem_cons_self
    obtain ⟨kind, base, node⟩ := f
    cases hf
    rw [h.depth, entered_cons, FrameKind.Fits.not_entered hfits]
    rfl

end Shaped

/-! ## Steps -/

theorem suffix_of_cons_suffix_cons {α : Type} {a b : α} {l l' : List α} (h : a :: l <:+ b :: l') :
    l <:+ l' := by
  rcases List.suffix_cons_iff.1 h with heq | hsuffix
  · cases heq
    exact List.suffix_refl _
  · exact (List.suffix_cons _ _).trans hsuffix

theorem exists_cons_suffix {α : Type} {l l' : List α} (h : l <:+ l') (hlt : l.length < l'.length) :
    ∃ a, a :: l <:+ l' := by
  obtain ⟨t, rfl⟩ := h
  rcases List.eq_nil_or_concat t with rfl | ⟨t', a, rfl⟩
  · exact absurd hlt (Nat.lt_irrefl _)
  · exact ⟨a, t', by simp⟩

namespace Machine

variable {m m' : Machine} {frame : Frame} {rest : List Frame}

theorem length_unwindFrames_le (control : Control) (frames : List Frame) (env : Env) :
    (unwindFrames control frames env).1.length ≤ frames.length := by
  induction frames generalizing env with
  | nil => exact Nat.le_refl _
  | cons top tail ih =>
    simp only [unwindFrames]
    split
    · exact Nat.le_succ _
    · exact Nat.le_refl _
    · exact Nat.le_succ_of_le (ih _)

/-- A jump is caught above some frames, or it goes on below them and closes the scopes that were
opened above. -/
theorem unwindFrames_above (control : Control) {frames : List Frame} (env : Env)
    (h : frame :: rest <:+ frames) :
    rest <:+ (unwindFrames control frames env).1 ∨
      (unwindFrames control frames env).1.length ≤ rest.length ∧
        (unwindFrames control frames env).2.1.depth ≤ frame.scopeBase := by
  induction frames generalizing env with
  | nil => cases List.suffix_nil.1 h
  | cons top tail ih =>
    have htail := suffix_of_cons_suffix_cons h
    simp only [unwindFrames]
    split
    · exact .inl htail
    · exact .inl (htail.trans (List.suffix_cons _ _))
    · rcases List.suffix_cons_iff.1 h with heq | hsuffix
      · cases heq
        right
        refine ⟨length_unwindFrames_le _ _ _, ?_⟩
        apply Nat.le_trans (suffix_unwindFrames _ _ _).length_le
        simp only [Env.truncate, Env.depth, List.length_drop]
        omega
      · exact ih _ hsuffix

/-- The step of a frame that performs nothing leaves the frames below. -/
theorem suffix_turns (h : m.Turns rest frame m') : rest <:+ m'.frames := by
  cases h with
  | @block body phase index _ _ =>
    cases phase with
    | enter => exact List.suffix_cons _ _
    | next =>
      simp only [stepBlock]
      split
      · exact List.suffix_refl _
      · exact (List.suffix_cons _ _).trans (List.suffix_cons _ _)
  | branches =>
    unfold dispatch
    split
    · exact List.suffix_cons _ _
    · split
      · exact List.suffix_cons _ _
      · exact List.suffix_refl _
  | leavesLoop => exact List.suffix_refl _
  | runsBody => exact (List.suffix_cons _ _).trans (List.suffix_cons _ _)
  | _ => exact List.suffix_cons _ _

/-- What a step of a sound machine comes to, also one that fails. -/
theorem Sound.step_cases {body : Block} {d₀ : Nat} {kind : BodyKind} (h : m.Sound body d₀ kind)
    (cx : Context) (sv : Services) (w : World) :
    (∃ more, m.Moves (more, (m.step cx sv w).machine)) ∨ (m.step cx sv w).machine = m ∨
      (m.step cx sv w).machine = m.unwound := by
  rcases m.step_machine cx sv w with ⟨more, hr⟩ | heq | ⟨f, hplan⟩
  · exact .inl ⟨more, hr.moves⟩
  · exact .inr (.inl heq)
  · rcases m.plan_cases with ⟨-, hp⟩ | ⟨-, hp⟩ | ⟨top, tail, -, hf, hp⟩
    · rw [hp] at hplan
      cases hplan
    · rw [hp, Plan.settled.injEq] at hplan
      exact .inr (.inr hplan.2.symm)
    · have hfits : top.Fits := by
        apply h.shaped.fits
        rw [hf]
        exact List.mem_cons_self
      rw [hp] at hplan
      exact absurd hplan (planFrame_ne_error hfits)

section Amid

variable {body : Block} {d₀ : Nat} {kind : BodyKind} {g : Frame} {below : List Frame} {S : Stmt}

/-- The frames that a step finds below others stay, unless a jump goes past them. -/
theorem Moves.suffix {r : Bool × Machine} (h : m.Moves r) (hframes : frame :: rest <:+ m.frames) :
    rest <:+ r.2.frames ∨
      r.2.frames.length ≤ rest.length ∧ r.2.env.depth ≤ frame.scopeBase := by
  cases h with
  | stays => exact .inl ((List.suffix_cons _ _).trans hframes)
  | jumps => exact unwindFrames_above m.control m.env hframes
  | turns _ hf hturns =>
    rw [hf] at hframes
    exact .inl ((suffix_of_cons_suffix_cons hframes).trans (suffix_turns hturns))
  | performs _ hf =>
    rw [hf] at hframes
    exact .inl (suffix_of_cons_suffix_cons hframes)

/-- A step in a conditional or loop changes the scopes around it only where it assigns. -/
theorem Sound.sameBelow (h : m.Sound body d₀ kind) (hS : g.Bears (.stmt S))
    (hcompound : S.isCompound = true) (hframes : frame :: g :: below <:+ m.frames)
    {r : Bool × Machine} (hr : m.Moves r) :
    m.env.SameBelow S.Assigns (d₀ + entered (g :: below)) r.2.env := by
  cases hr with
  | stays => exact .refl _
  | jumps => exact Env.sameBelow_of_suffix (.inl (suffix_unwindFrames _ _ _))
  | turns _ _ hturns =>
    apply Env.sameBelow_of_suffix
    rcases env_turns hturns with hpush | hsuffix
    · simp only [hpush]
      exact .inr (List.suffix_cons _ _)
    · exact .inl hsuffix
  | @performs top tail s after _ hf hn hs =>
    rw [hf] at hframes
    obtain ⟨above, rfl⟩ := suffix_of_cons_suffix_cons hframes
    have hshaped := h.shaped
    rw [hf] at hshaped
    have hall : ∀ f ∈ top :: above, f.node.All S.Contains := Shaped.contains hshaped hS
    have hcontains := hall top List.mem_cons_self
    rw [hn] at hcontains
    cases hs with
    | defines hdefine =>
      apply Env.sameBelow_of_define hdefine
      apply hshaped.base_lt hS hn
      rintro rfl
      cases hcompound
    | assigns hassign => exact Env.sameBelow_of_assign hassign ⟨_, hcontains⟩
    | _ => exact .refl _

/-- The frames of a construct stand above a block, in a machine that runs a body. -/
structure Amid (body : Block) (d₀ : Nat) (kind : BodyKind) (g : Frame) (below : List Frame)
    (m : Machine) : Prop where
  sound : m.Sound body d₀ kind
  above : ∃ f, f :: g :: below <:+ m.frames

theorem Amid.base_le (h : m.Amid body d₀ kind g below) :
    d₀ + entered (g :: below) ≤ m.env.depth := by
  obtain ⟨f, hf⟩ := h.above
  obtain ⟨above, habove⟩ := (List.suffix_cons f (g :: below)).trans hf
  have hshaped := h.sound.shaped
  rw [← habove] at hshaped
  exact hshaped.base_le

theorem Amid.clearYield (h : m.Amid body d₀ kind g below) :
    m.clearYield.Amid body d₀ kind g below := by
  refine ⟨h.sound.clearYield, ?_⟩
  rw [frames_clearYield]
  exact h.above

/-- **A step in a conditional or loop.** It changes the scopes around the construct only where the
construct assigns. The construct is still under way, or it has ended above the block that it stands
in, or a jump has gone past that block. -/
theorem Amid.step (h : m.Amid body d₀ kind g below) (hS : g.Bears (.stmt S))
    (hcompound : S.isCompound = true) (cx : Context) (sv : Services) (w : World) :
    let m' := (m.step cx sv w).machine
    m.env.SameBelow S.Assigns (d₀ + entered (g :: below)) m'.env ∧
      (g :: below <:+ m'.frames ∨
        m'.frames.length ≤ (g :: below).length ∧ m'.env.depth ≤ d₀ + entered (g :: below)) := by
  intro m'
  obtain ⟨f, hf⟩ := h.above
  have hbase := h.sound.shaped.bases f (g :: below) hf
  rw [← hbase]
  rcases h.sound.step_cases cx sv w with ⟨more, hr⟩ | heq | heq
  · rw [hbase]
    refine ⟨h.sound.sameBelow hS hcompound hf hr, ?_⟩
    rw [← hbase]
    exact hr.suffix hf
  · simp only [m', heq]
    exact ⟨.refl _, .inl ((List.suffix_cons _ _).trans hf)⟩
  · simp only [m', heq]
    exact ⟨Env.sameBelow_of_suffix (.inl (suffix_unwindFrames _ _ _)),
      unwindFrames_above m.control m.env hf⟩

end Amid

/-! ## From the beginning of a construct to its end -/

/-- Since the machine was at some state, there have been no fewer frames. A branch takes the place
of its conditional, so the construct whose frame was the innermost is still under way. -/
inductive UnderWay (m : Machine) : Machine → Prop
  | here : UnderWay m m
  | step {m₁ : Machine} (h : UnderWay m m₁) (cx : Context) (sv : Services) (w : World)
      (hlength : m.frames.length ≤ (m₁.step cx sv w).machine.frames.length) :
      UnderWay m (m₁.step cx sv w).machine
  | clearYield {m₁ : Machine} (h : UnderWay m m₁) : UnderWay m m₁.clearYield

/-- The construct whose frame was the innermost has just ended, in whatever way. -/
inductive Over (m : Machine) : Machine → Prop
  | step {m₁ : Machine} (h : UnderWay m m₁) (cx : Context) (sv : Services) (w : World)
      (hlength : (m₁.step cx sv w).machine.frames.length < m.frames.length) :
      Over m (m₁.step cx sv w).machine

/-- A run stays in a construct if there are frames enough all along. -/
theorem UnderWay.run {m₁ : Machine} (h : m.UnderWay m₁) {cx : Context} {sv : Services} {w : World}
    {fuel : Nat}
    (hlength : ∀ n ≤ fuel, m.frames.length ≤ (m₁.run cx sv n w).machine.frames.length) :
    m.UnderWay (m₁.run cx sv fuel w).machine := by
  induction fuel generalizing m₁ w with
  | zero => exact h
  | succ fuel ih =>
    have hone := hlength 1 (Nat.le_add_left 1 fuel)
    simp only [Machine.run] at hone ⊢
    cases hverdict : (m₁.step cx sv w).verdict with
    | more =>
      rw [hverdict] at hone
      apply ih (h.step cx sv w hone)
      intro n hn
      have hnext := hlength (n + 1) (Nat.succ_le_succ hn)
      simp only [Machine.run, hverdict] at hnext
      exact hnext
    | _ =>
      rw [hverdict] at hone
      exact h.step cx sv w hone

variable {body : Block} {d₀ : Nat} {kind : BodyKind} {g : Frame} {below : List Frame} {S : Stmt}

/-- **As long as a conditional or loop is under way, the scopes around it change only where it
assigns.** -/
theorem UnderWay.amid (h : m.UnderWay m') (hm : m.Amid body d₀ kind g below)
    (hframes : m.frames = frame :: g :: below) (hS : g.Bears (.stmt S))
    (hcompound : S.isCompound = true) :
    m'.Amid body d₀ kind g below ∧
      m.env.SameBelow S.Assigns (d₀ + entered (g :: below)) m'.env := by
  induction h with
  | here => exact ⟨hm, .refl _⟩
  | @step m₁ _ cx sv w hlength ih =>
    obtain ⟨hamid, hsame⟩ := ih
    obtain ⟨hstep, hframes'⟩ := hamid.step hS hcompound cx sv w
    rw [hframes, List.length_cons] at hlength
    have hsuffix : g :: below <:+ (m₁.step cx sv w).machine.frames := by
      rcases hframes' with hsuffix | ⟨hle, -⟩
      · exact hsuffix
      · omega
    exact ⟨⟨hamid.sound.step cx sv w, exists_cons_suffix hsuffix hlength⟩,
      hsame.trans hstep hamid.base_le⟩
  | clearYield _ ih =>
    rw [env_clearYield]
    exact ⟨ih.1.clearYield, ih.2⟩

/-- **The scopes around a conditional or loop.** Let a machine be at a conditional or a loop, and
let this be over, because it has come to its end, was left by a `break`, `continue` or return, or
whatever else, with any number of yields in between. All scopes that it has opened are closed again,
and if it has not been left by a jump to the outside, then no other scope is. Every scope that is
still open has the same names with the same types as before, and the same values, apart from the
variables with a name that the construct assigns to. -/
theorem Attained.scopes_around {env : Env} (h : m.Attained body env kind)
    (hframes : m.frames = frame :: rest) (hnode : frame.node = .stmt S)
    (hcompound : S.isCompound = true) (hover : m.Over m') :
    m'.env.depth ≤ m.env.depth ∧ (m'.frames = rest → m'.env.depth = m.env.depth) ∧
      ∀ height s', m'.env.scopeAt height = some s' →
        ∃ s, m.env.scopeAt height = some s ∧ s.SameBut S.Assigns s' := by
  have hsound := h.sound
  have hshaped := hsound.shaped
  rw [hframes] at hshaped
  obtain ⟨g, below, rfl, hS, hdepth⟩ := hshaped.of_stmt hnode
  cases hover with
  | @step m₁ hunder cx sv w hlength =>
    have hm : m.Amid body env.depth kind g below := ⟨hsound, frame, [], hframes.symm⟩
    obtain ⟨hamid, hsame⟩ := hunder.amid hm hframes hS hcompound
    obtain ⟨hstep, hend⟩ := hamid.step hS hcompound cx sv w
    have hshaped' := (hamid.sound.step cx sv w).shaped
    rw [← hdepth] at hend hsame hstep
    rw [hframes, List.length_cons] at hlength
    -- The frames that are left account for the scopes that are left.
    have hrest : (m₁.step cx sv w).machine.frames = g :: below →
        (m₁.step cx sv w).machine.env.depth = m.env.depth := by
      intro heq
      rw [hshaped'.depth, heq, hdepth]
    have hle : (m₁.step cx sv w).machine.env.depth ≤ m.env.depth := by
      rcases hend with hsuffix | ⟨-, hle⟩
      · apply Nat.le_of_eq
        apply hrest
        exact (hsuffix.eq_of_length_le (by omega)).symm
      · exact hle
    refine ⟨hle, hrest, fun height s' hs' => ?_⟩
    have hlt := Nat.lt_of_lt_of_le (Env.lt_depth_of_scopeAt hs') hle
    obtain ⟨s, hs⟩ := Env.exists_scopeAt hlt
    have hbase : m.env.depth ≤ m₁.env.depth := by
      rw [hdepth]
      exact hamid.base_le
    exact ⟨s, hs, (hsame.trans hstep hbase) height s s' hlt hs hs'⟩

/-- A conditional in a loop gives a variable of the body its value, hides it under another type,
yields, and is left by a `continue` when the coroutine goes on. -/
theorem Attained.scopes_around_continue :
    let S : Stmt := .ifElse (.lit (.bool true))
      [.assign "n" (.lit (.int 5)), .varDecl "n" .bool none none, .yield, .cont] none
    let body : Block := [.varDecl "n" .int none none, .whileLoop (.lit (.bool true)) [S]]
    let cx : Context := ⟨⟨[], []⟩, .default, none, default⟩
    let sv := services cx 0
    let m := ((Machine.start body .empty .coroutine).run cx sv 7 .initial).machine
    let paused := (m.run cx sv 9 .initial).machine
    let m' := ((paused.clearYield.run cx sv 2 .initial).machine.step cx sv .initial).machine
    (∃ frame rest, m.frames = frame :: rest ∧ frame.node = .stmt S) ∧
      (paused.isSuspended = true ∧ paused.env.depth = 3) ∧ m.Over m' ∧
      (m.env.depth = 2 ∧ ((m.env.binding? "n").bind Binding.value).isSome = false) ∧
      (m'.env.depth = 1 ∧ ((m'.env.binding? "n").bind Binding.value).isSome = true) ∧
      ∀ height s', m'.env.scopeAt height = some s' →
        ∃ s, m.env.scopeAt height = some s ∧ s.SameBut S.Assigns s' := by
  intro S body cx sv m paused m'
  have hm : m.Attained body .empty .coroutine := Attained.start.run cx sv 7 .initial
  obtain ⟨frame, rest, hframes, hnode⟩ : ∃ frame rest, m.frames = frame :: rest ∧
      frame.node = .stmt S := ⟨_, _, rfl, rfl⟩
  have hpaused : m.UnderWay paused := UnderWay.here.run (by decide +kernel)
  have hover : m.Over m' :=
    .step (hpaused.clearYield.run (by decide +kernel)) cx sv .initial (by decide +kernel)
  refine ⟨⟨frame, rest, hframes, hnode⟩, ⟨by decide +kernel, by decide +kernel⟩, hover,
    ⟨by decide +kernel, by decide +kernel⟩, ⟨by decide +kernel, by decide +kernel⟩, ?_⟩
  exact (hm.scopes_around hframes hnode rfl hover).2.2

end Machine

end CoLang
