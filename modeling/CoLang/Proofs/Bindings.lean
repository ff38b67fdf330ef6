import CoLang.Proofs.Lineage
/-!
# Typed variables

A variable is declared with a type and holds nothing or a value of that type (`Env.Typed`). Steps
keep this, so it holds of every body at every moment of a session. A body is followed from moment to
moment. As long as one of its scopes is open (`Lives`), the variables in it keep their types, and
those that have a value go on having one (`Scope.Grows`).
-/

namespace CoLang

/-! ## Variables and scopes -/

/-- The value, if there is one, is of the type of the variable. -/
def Binding.Typed (b : Binding) : Prop :=
  ∀ v, b.value = some v → v.ty = b.ty

/-- What may become of a variable: its type stays, and a value may be replaced but not lost. -/
structure Binding.Grows (b b' : Binding) : Prop where
  ty : b'.ty = b.ty
  value : b.value.isSome = true → b'.value.isSome = true

theorem Binding.Grows.refl (b : Binding) : b.Grows b :=
  ⟨rfl, id⟩

theorem Binding.Grows.trans {b b' b'' : Binding} (h : b.Grows b') (h' : b'.Grows b'') :
    b.Grows b'' :=
  ⟨h'.ty.trans h.ty, fun hb => h'.value (h.value hb)⟩

namespace Scope

variable {s s' s'' : Scope} {name : String} {b : Binding}

@[simp] theorem get?_set_self (s : Scope) (name : String) (b : Binding) :
    (s.set name b).get? name = some b :=
  Assoc.get?_set_self _ _ _

theorem get?_set_of_ne (s : Scope) {other : String} (b : Binding) (h : other ≠ name) :
    (s.set name b).get? other = s.get? other :=
  Assoc.get?_set_of_ne _ _ h

/-- All variables of the scope that have a value have one of their type. -/
def Typed (s : Scope) : Prop :=
  ∀ name b, s.get? name = some b → b.Typed

/-- All variables of a scope are still there, and may have got values. -/
def Grows (s s' : Scope) : Prop :=
  ∀ name b, s.get? name = some b → ∃ b', s'.get? name = some b' ∧ b.Grows b'

theorem Grows.refl (s : Scope) : s.Grows s :=
  fun _ b hb => ⟨b, hb, .refl b⟩

theorem Grows.trans (h : s.Grows s') (h' : s'.Grows s'') : s.Grows s'' := by
  intro name b hb
  obtain ⟨b', hb', hgrows⟩ := h name b hb
  obtain ⟨b'', hb'', hgrows'⟩ := h' name b' hb'
  exact ⟨b'', hb'', hgrows.trans hgrows'⟩

theorem typed_empty : empty.Typed := by
  intro name b hb
  cases hb

theorem Typed.set (h : s.Typed) (hb : b.Typed) : (s.set name b).Typed := by
  intro other b' hb'
  by_cases heq : other = name
  · subst heq
    rw [get?_set_self, Option.some.injEq] at hb'
    exact hb' ▸ hb
  · rw [get?_set_of_ne s b heq] at hb'
    exact h other b' hb'

/-- A scope grows if the variable that is set is new, or grows itself. -/
theorem grows_set (h : ∀ b₀, s.get? name = some b₀ → b₀.Grows b) : s.Grows (s.set name b) := by
  intro other b₀ hb₀
  by_cases heq : other = name
  · subst heq
    exact ⟨b, get?_set_self s other b, h b₀ hb₀⟩
  · exact ⟨b₀, (get?_set_of_ne s b heq).trans hb₀, .refl b₀⟩

end Scope

namespace Env

variable {env env' : Env}

/-- All variables that have a value have one of their type. -/
def Typed (env : Env) : Prop :=
  ∀ s ∈ env.scopes, s.Typed

/-- The scope at a height, counted from the outermost one. -/
def scopeAt (env : Env) (height : Nat) : Option Scope :=
  env.scopes.reverse[height]?

/-- The scopes that are open before and after have grown. -/
def Follows (env env' : Env) : Prop :=
  ∀ height s s', env.scopeAt height = some s → env'.scopeAt height = some s' → s.Grows s'

theorem typed_empty : empty.Typed := by
  intro s hs
  rw [List.mem_singleton.1 hs]
  exact Scope.typed_empty

theorem Typed.push (h : env.Typed) : env.push.Typed :=
  List.forall_mem_cons.2 ⟨Scope.typed_empty, h⟩

theorem Typed.of_suffix (h : env.Typed) (hs : env'.scopes <:+ env.scopes) : env'.Typed :=
  fun s hmem => h s (hs.subset hmem)

theorem Typed.define (h : env.Typed) {name : String} {ty : Ty} {v : Option Val}
    (hdef : env.define name ty v = (.ok (), env')) : env'.Typed := by
  obtain ⟨scope, outer, hs, -, hty, rfl⟩ := define_ok hdef
  rw [Typed, hs, List.forall_mem_cons] at h
  exact List.forall_mem_cons.2 ⟨h.1.set hty, h.2⟩

theorem typed_store {scopes : List Scope} (h : ∀ s ∈ scopes, s.Typed) {name : String}
    {b : Binding} (hb : (scopes.findSome? fun s => s.get? name) = some b) {v : Val}
    (hty : v.ty = b.ty) : ∀ s ∈ store name v scopes, s.Typed := by
  induction scopes with
  | nil => cases hb
  | cons scope outer ih =>
    rw [List.forall_mem_cons] at h
    rw [List.findSome?_cons] at hb
    unfold store
    cases hget : scope.get? name with
    | none =>
      rw [hget] at hb
      exact List.forall_mem_cons.2 ⟨h.1, ih h.2 hb⟩
    | some b₀ =>
      rw [hget] at hb
      cases hb
      refine List.forall_mem_cons.2 ⟨h.1.set ?_, h.2⟩
      intro x hx
      cases hx
      exact hty

theorem Typed.assign (h : env.Typed) {name : String} {v : Val}
    (hassign : env.assign name v = (.ok (), env')) : env'.Typed := by
  obtain ⟨b, hb, hty, rfl⟩ := assign_ok hassign
  exact typed_store h hb hty

/-- **A variable that is read has a value of its type.** -/
theorem Typed.lookup (h : env.Typed) {name : String} {v : Val} (hv : env.lookup name = .ok v) :
    ∃ b, env.binding? name = some b ∧ v.ty = b.ty := by
  unfold Env.lookup at hv
  split at hv
  case h_1 => cases hv
  case h_2 => cases hv
  case h_3 ty v' hb =>
    cases hv
    obtain ⟨s, hs, hget⟩ := List.exists_of_findSome?_eq_some hb
    exact ⟨⟨ty, some v⟩, hb, h s hs name _ hget v rfl⟩

/-! ### From one environment to the next -/

theorem scopeAt_of_suffix (h : env.scopes <:+ env'.scopes) {height : Nat} {s : Scope}
    (hs : env.scopeAt height = some s) : env'.scopeAt height = some s := by
  obtain ⟨inner, hinner⟩ := h
  unfold scopeAt at hs ⊢
  rw [← hinner, List.reverse_append,
    List.getElem?_append_left (List.getElem?_eq_some_iff.1 hs).1]
  exact hs

/-- Opening or closing scopes leaves the others as they are. -/
theorem scopeAt_eq_of_suffix (h : env'.scopes <:+ env.scopes ∨ env.scopes <:+ env'.scopes)
    {height : Nat} {s s' : Scope} (hs : env.scopeAt height = some s)
    (hs' : env'.scopeAt height = some s') : s = s' := by
  have heq : some s = some s' := by
    rcases h with h | h
    · rw [← hs, scopeAt_of_suffix h hs']
    · rw [← hs', scopeAt_of_suffix h hs]
  exact Option.some.inj heq

theorem follows_of_suffix (h : env'.scopes <:+ env.scopes ∨ env.scopes <:+ env'.scopes) :
    env.Follows env' := by
  intro height s s' hs hs'
  rw [scopeAt_eq_of_suffix h hs hs']
  exact .refl s'

theorem Follows.refl (env : Env) : env.Follows env :=
  follows_of_suffix (.inl (List.suffix_refl _))

/-- Scopes that are changed in their places are at the same heights. -/
theorem scopeAt_of_getElem {R : Scope → Scope → Prop} (hdepth : env'.depth = env.depth)
    (h : ∀ (i : Nat) (s s' : Scope), env.scopes[i]? = some s → env'.scopes[i]? = some s' →
      R s s') {height : Nat} {s s' : Scope} (hs : env.scopeAt height = some s)
    (hs' : env'.scopeAt height = some s') : R s s' := by
  unfold scopeAt at hs hs'
  have hlength : env'.scopes.length = env.scopes.length := hdepth
  have hlt : height < env.scopes.length := by
    have hlt := (List.getElem?_eq_some_iff.1 hs).1
    rwa [List.length_reverse] at hlt
  rw [List.getElem?_reverse hlt] at hs
  rw [List.getElem?_reverse (by omega), hlength] at hs'
  exact h _ s s' hs hs'

theorem follows_of_define {name : String} {ty : Ty} {v : Option Val}
    (h : env.define name ty v = (.ok (), env')) : env.Follows env' := by
  intro height t t' ht ht'
  refine scopeAt_of_getElem (depth_of_define h) ?_ ht ht'
  obtain ⟨scope, outer, hs, hnew, -, rfl⟩ := define_ok h
  intro i s s' hi hi'
  rw [hs] at hi
  cases i with
  | zero =>
    cases hi
    cases hi'
    refine Scope.grows_set fun b₀ hb₀ => ?_
    rw [hnew] at hb₀
    cases hb₀
  | succ i =>
    rw [List.getElem?_cons_succ] at hi hi'
    rw [hi, Option.some.injEq] at hi'
    exact hi' ▸ .refl s

/-- A value is stored in one scope, whose variable of that name it goes to. -/
theorem getElem_store {R : Scope → Scope → Prop} {name : String} {v : Val} (hrefl : ∀ s, R s s)
    (hset : ∀ s b, s.get? name = some b → R s (s.set name { b with value := some v }))
    {scopes : List Scope} {i : Nat} {s s' : Scope} (hi : scopes[i]? = some s)
    (hi' : (store name v scopes)[i]? = some s') : R s s' := by
  induction scopes generalizing i with
  | nil => cases hi
  | cons scope outer ih =>
    unfold store at hi'
    cases hget : scope.get? name with
    | none =>
      rw [hget] at hi'
      cases i with
      | zero =>
        cases hi
        cases hi'
        exact hrefl s
      | succ i => exact ih hi hi'
    | some b =>
      rw [hget] at hi'
      cases i with
      | zero =>
        cases hi
        cases hi'
        exact hset s b hget
      | succ i =>
        rw [List.getElem?_cons_succ] at hi hi'
        rw [hi, Option.some.injEq] at hi'
        exact hi' ▸ hrefl s

theorem follows_of_assign {name : String} {v : Val} (h : env.assign name v = (.ok (), env')) :
    env.Follows env' := by
  intro height t t' ht ht'
  refine scopeAt_of_getElem (depth_of_assign h) ?_ ht ht'
  obtain ⟨b, -, -, rfl⟩ := assign_ok h
  intro i s s' hi hi'
  refine getElem_store Scope.Grows.refl (fun scope b hb => Scope.grows_set fun b₀ hb₀ => ?_) hi hi'
  rw [hb] at hb₀
  cases hb₀
  exact ⟨rfl, fun _ => rfl⟩

end Env

/-! ## Steps of a machine -/

namespace Machine

/-- Carrying out a jump only closes scopes. -/
theorem suffix_unwindFrames (control : Control) (frames : List Frame) (env : Env) :
    (unwindFrames control frames env).2.1.scopes <:+ env.scopes := by
  induction frames generalizing env with
  | nil => exact List.suffix_refl _
  | cons top rest ih =>
    have htop : (env.truncate top.scopeBase).scopes <:+ env.scopes := List.drop_suffix _ _
    simp only [unwindFrames]
    split
    · exact htop
    · exact htop
    · exact (ih _).trans htop

variable {m m' : Machine} {rest : List Frame} {frame : Frame}

/-- The step of a frame that performs nothing opens a scope or closes some. -/
theorem env_turns (h : m.Turns rest frame m') :
    m'.env = m.env.push ∨ m'.env.scopes <:+ m.env.scopes := by
  have hsame : m.env.scopes <:+ m.env.scopes := List.suffix_refl _
  have hleave : (m.leave frame rest).env.scopes <:+ m.env.scopes := List.drop_suffix _ _
  cases h with
  | @block body phase index _ _ =>
    cases phase with
    | enter => exact .inl rfl
    | next =>
      simp only [stepBlock]
      split
      · exact .inr hleave
      · exact .inr hsame
  | branches =>
    unfold dispatch
    split
    · exact .inr hsame
    · split
      · exact .inr hsame
      · exact .inr hsame
  | leavesLoop => exact .inr hleave
  | _ => exact .inr hsame

theorem Moves.typed {r : Bool × Machine} (h : m.Moves r) (hm : m.env.Typed) : r.2.env.Typed := by
  cases h with
  | stays => exact hm
  | jumps => exact hm.of_suffix (suffix_unwindFrames _ _ _)
  | turns _ _ hturns =>
    rcases env_turns hturns with hpush | hsuffix
    · simp only [hpush]
      exact hm.push
    · exact hm.of_suffix hsuffix
  | performs _ _ _ hs =>
    cases hs with
    | defines hdefine => exact hm.define hdefine
    | assigns hassign => exact hm.assign hassign
    | _ => exact hm

/-- **The scopes that are open before and after a step have grown.** -/
theorem Moves.follows {r : Bool × Machine} (h : m.Moves r) : m.env.Follows r.2.env := by
  cases h with
  | stays => exact .refl _
  | jumps => exact Env.follows_of_suffix (.inl (suffix_unwindFrames _ _ _))
  | turns _ _ hturns =>
    refine Env.follows_of_suffix ?_
    rcases env_turns hturns with hpush | hsuffix
    · simp only [hpush]
      exact .inr (List.suffix_cons _ _)
    · exact .inl hsuffix
  | performs _ _ _ hs =>
    cases hs with
    | defines hdefine => exact Env.follows_of_define hdefine
    | assigns hassign => exact Env.follows_of_assign hassign
    | _ => exact .refl _

@[simp] theorem env_clearYield (m : Machine) : m.clearYield.env = m.env := by
  unfold clearYield
  split <;> rfl

@[simp] theorem frames_clearYield (m : Machine) : m.clearYield.frames = m.frames := by
  unfold clearYield
  split <;> rfl

end Machine

theorem Function.typed_bindArgs (f : Function) {params : List Param} {args : List Val}
    {env env' : Env} (henv : env.Typed) (h : f.bindArgs params args env = .ok env') :
    env'.Typed := by
  induction params generalizing args env with
  | nil =>
    cases h
    exact henv
  | cons p ps ih =>
    cases args with
    | nil =>
      cases h
      exact henv
    | cons v vs =>
      rw [Function.bindArgs] at h
      split at h
      · rcases hdefine : env.define p.name p.ty (some v) with ⟨e | ⟨⟩, env₁⟩
        · rw [hdefine] at h
          cases h
        · rw [hdefine] at h
          exact ih (henv.define hdefine) h
      · cases h

theorem Function.typed_callEnv {f : Function} {args : List Val} {env : Env}
    (h : f.callEnv args = .ok env) : env.Typed := by
  unfold Function.callEnv at h
  split at h
  · exact f.typed_bindArgs Env.typed_empty h
  · cases h

theorem Machine.kept_typed (d : Declarations) :
    Machine.Kept d (fun m => m.env.Typed) fun _ => True where
  step hm hr := hr.moves.typed hm
  stray _ _ := trivial
  plain _ := trivial
  clearYield := by
    intro m hm
    rw [Machine.env_clearYield]
    exact hm
  call _ henv := Function.typed_callEnv henv
  create _ := Env.typed_empty

/-! ## Scopes of bodies -/

theorem Machine.Becomes.follows {m m' : Machine} (h : m.Becomes m') : m.env.Follows m'.env := by
  cases h with
  | stays => exact .refl _
  | goesOn =>
    rw [Machine.env_clearYield]
    exact .refl _
  | advances h => exact h.moves.follows

namespace Moment

/-- The scope at a height of the body at a spot. -/
def scope? (z : Moment) (spot : Spot) (height : Nat) : Option Scope :=
  (z.machine? spot).bind fun m => m.env.scopeAt height

/-- From one moment to a later one, the scope at a height of a body is open all the time. -/
inductive Lives (cx : Context) (main : Block) (height : Nat) :
    Moment → Spot → Moment → Spot → Prop
  | here (z : Moment) (spot : Spot) : Lives cx main height z spot z spot
  | goes {z y y' : Moment} {spot t t' : Spot} (h : Lives cx main height z spot y t)
      (hstep : y.Onward cx main y') (hgoes : Goes y y' t t')
      (hopen : (y'.scope? t' height).isSome = true) : Lives cx main height z spot y' t'

variable {cx : Context} {z z' : Moment}

/-- **A scope that stays open grows.** -/
theorem Lives.grows {main : Block} {height : Nat} {spot spot' : Spot}
    (h : Lives cx main height z spot z' spot')
    (hz : z.Keeps cx.decls (fun _ => True) fun _ => True) {s : Scope}
    (hs : z.scope? spot height = some s) :
    z'.Keeps cx.decls (fun _ => True) (fun _ => True) ∧
      ∃ s', z'.scope? spot' height = some s' ∧ s.Grows s' := by
  induction h with
  | here => exact ⟨hz, s, hs, .refl s⟩
  | goes h hstep hgoes hopen ih =>
    obtain ⟨hy, s₁, hs₁, hgrows⟩ := ih hs
    refine ⟨hstep.keeps hy, ?_⟩
    obtain ⟨s', hs'⟩ := Option.isSome_iff_exists.1 hopen
    obtain ⟨m, hm, hat⟩ := Option.bind_eq_some_iff.1 hs₁
    obtain ⟨m', hm', hat'⟩ := Option.bind_eq_some_iff.1 hs'
    have hfollows := (hstep.becomes hy hgoes hm hm').follows
    exact ⟨s', hs', hgrows.trans (hfollows height s₁ s' hat hat')⟩

end Moment

/-- What a call gives is of the return type, if there is one. -/
theorem Function.ty_of_result {f : Function} {returned v : Option Val} {ty : Ty}
    (hf : f.returnTy = some ty) (h : f.result returned = .ok v) : ∃ x, v = some x ∧ x.ty = ty := by
  unfold Function.result at h
  rw [hf] at h
  cases returned with
  | none => cases h
  | some x =>
    dsimp only at h
    split at h
    case isTrue hty =>
      cases h
      exact ⟨x, rfl, hty⟩
    case isFalse => cases h

theorem Eval.Gives.leaving {α : Type} {P : α → Prop} {x : Eval α} (h : x.Gives P) :
    x.leaving.Gives P := by
  intro w a w' hx
  unfold Eval.leaving at hx
  rcases hxw : x w with ⟨b | f | _, w₁⟩ <;> simp only [hxw] at hx <;> cases hx
  exact h w a w₁ hxw

theorem Function.gives_call (cx : Context) (sv : Services) (fuel : Nat) {f : Function} {ty : Ty}
    (hf : f.returnTy = some ty) (args : List Val) :
    (f.call cx sv fuel args).Gives fun v => ∃ x, v = some x ∧ x.ty = ty := by
  rw [Function.call_eq]
  refine .bind_any fun env => ?_
  unfold Function.within
  refine .bind_any fun _ => .bind_any fun _ => Eval.Gives.leaving ?_
  refine .bind_any fun m => .ofExcept fun v hv => ?_
  exact Function.ty_of_result hf hv

/-! ## Sessions -/

/-- **Variables keep their types.** At every moment of a session, every variable that has a value,
in every scope of every body in flight or in a slot, has one of its type, and so has what is read of
it. Bodies are followed wherever they go, and as long as a scope is open, also over later
operations, its variables keep their types and do not lose a value. What a call of a function with a
return type gives is of that type. -/
theorem Interpreter.variables_keep_types {P : Program → Prop} {i : Interpreter}
    (h : i.ArisesFrom P) {op : Operation} (hop : op.Captured P) {z : Moment}
    (hz : (Moment.begins i.main op i.world).Leads i.context z) :
    (∀ spot m, z.machine? spot = some m → m.env.Typed ∧
      ∀ name v, m.env.lookup name = .ok v → ∃ b, m.env.binding? name = some b ∧ v.ty = b.ty) ∧
    (∀ z' spot' m', z.Onward i.context i.main z' → z'.machine? spot' = some m' →
      (∃ spot m, z.Goes z' spot spot' ∧ z.machine? spot = some m) ∨ z.Begins m') ∧
    (∀ height spot z' spot' s, Moment.Lives i.context i.main height z spot z' spot' →
      z.scope? spot height = some s → ∃ s', z'.scope? spot' height = some s' ∧ s.Grows s') ∧
    ∀ n f args ty w v w', f.returnTy = some ty →
      (i.services n).call f args w = ⟨.value v, w'⟩ → ∃ x, v = some x ∧ x.ty = ty := by
  have htrue : z.Keeps i.context.decls (fun _ => True) fun _ => True :=
    h.keeps (fun p _ => ⟨Machine.kept_true _, trivial⟩) hop hz
  refine ⟨fun spot m hm => ?_, fun z' spot' m' hstep hm' => hstep.origin htrue hm',
    fun height spot z' spot' s hlives hs => (hlives.grows htrue hs).2, ?_⟩
  · have hkept : ∀ p : Program, P p →
        Machine.Kept ⟨p.functions, p.coroutines⟩ (fun m => m.env.Typed) (fun _ => True) ∧
          (Machine.start p.main .empty .main).env.Typed :=
      fun p _ => ⟨Machine.kept_typed _, Env.typed_empty⟩
    have htyped := (h.keeps hkept hop hz).machine hm
    exact ⟨htyped, fun name v hv => htyped.lookup hv⟩
  · intro n f args ty w v w' hf hcall
    cases n with
    | zero => cases hcall
    | succ n => exact Function.gives_call i.context (i.services n) n hf args w v w' hcall

/-- A coroutine declares a variable and yields, and assigns to it when the host resumes it again. -/
theorem Interpreter.variables_keep_types_resumed :
    let c : Coroutine := ⟨"c", [.varDecl "n" .int none none, .yield, .assign "n" (.lit (.int 1))],
      none⟩
    let g : Function := ⟨"g", [⟨"x", .bool⟩], some .bool, [.ret (some (.var "x"))], none⟩
    let i₀ : Interpreter := ⟨⟨⟨[g], [c]⟩, .default, none, default⟩, [], .initial⟩
    let i := (i₀.perform 0 (.create "a" "c")).2
    let start := Moment.begins i.main (.resume "a") i.world
    let z := (start.after i.context 4).getD start
    let paused := (start.after i.context 6).getD start
    let second := Moment.begins i.main (.resume "a") paused.world
    let z' := (second.after i.context 3).getD second
    i.ArisesFrom (fun _ => True) ∧ start.Leads i.context z ∧
      z.Lives i.context i.main 0 (.flight 0) z' (.flight 0) ∧
      (∃ s s', z.scope? (.flight 0) 0 = some s ∧ s.get? "n" = some ⟨.int, none⟩ ∧
        z'.scope? (.flight 0) 0 = some s' ∧ s'.get? "n" = some ⟨.int, some (.int 1)⟩ ∧
        s.Grows s') ∧
      (∃ m, z.machine? (.flight 0) = some m ∧ m.env.Typed) ∧
      ∃ v w, (i.services 9).call g [.bool true] i.world = ⟨.value v, w⟩ ∧
        ∃ x, v = some x ∧ x.ty = .bool := by
  intro c g i₀ i start z paused second z'
  have hbuild : i₀.ArisesFrom (fun _ => True) :=
    .build (p := ⟨[g], [c], []⟩) trivial (by rfl)
  have hi : i.ArisesFrom (fun _ => True) := hbuild.perform (by simp) (by decide +kernel)
  have hop : (Operation.resume "a").Captured fun _ => True := Operation.captured_of_ne (by simp)
  have hz : start.Leads i.context z := ⟨4, rfl⟩
  have hlives : z.Lives i.context i.main 0 (.flight 0) z' (.flight 0) := by
    refine .goes (y := (second.after i.context 2).getD second) (t := .flight 0) ?_ (.next rfl)
      (.flies 0) (by decide +kernel)
    refine .goes (y := (second.after i.context 1).getD second) (t := .flight 0) ?_ (.next rfl)
      (.flies 0) (by decide +kernel)
    refine .goes (y := second) (t := .parked "a") ?_ (.next rfl) (.leaves rfl) (by decide +kernel)
    refine .goes (y := paused) (t := .parked "a") ?_ (.begins (.resume "a")) (.rests rfl)
      (by decide +kernel)
    refine .goes (y := (start.after i.context 5).getD start) (t := .flight 0) ?_ (.next rfl)
      (.returns rfl) (by decide +kernel)
    exact .goes (.here z (.flight 0)) (.next rfl) (.flies 0) (by decide +kernel)
  obtain ⟨htyped, -, hgrows, hcall⟩ := variables_keep_types hi hop hz
  obtain ⟨s', hs', hs⟩ := hgrows 0 _ _ _ _ hlives rfl
  cases hs'
  exact ⟨hi, hz, hlives, ⟨_, _, rfl, rfl, rfl, rfl, hs⟩, ⟨_, rfl, (htyped (.flight 0) _ rfl).1⟩,
    _, _, rfl, hcall 9 g [.bool true] .bool i.world _ _ rfl rfl⟩
end CoLang
