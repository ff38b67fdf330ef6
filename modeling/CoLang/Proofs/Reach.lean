import CoLang.Proofs.Direct
/-!
# Where machines lead

A machine *reaches* what a computation says (`Machine.Reaches`): with every value of the computation
it comes to the machine for that value, it fails as the computation does, and it has not come to an
end where the computation has not. Reaching is put together as computations are
(`Machine.Reaches.bind`), from steps that the machine alone decides (`settled`) and steps that
depend on an answer (`asks`).

The machine is taken up again at every yield (`Machine.passes`), so nothing here depends on whose
body it runs.

Jumps need care. A machine that breaks, continues or returns drops all the frames in between in one
step, so it never stands right behind the statement it leaves. What holds is that it takes the same
step as the machine that does (`Machine.advance_skip`).
-/

namespace CoLang

variable {cx : Context} {sv : Services}

/-- Runs a machine, and takes it up again at every yield, for at most `fuel` steps. -/
def Machine.passes (cx : Context) (sv : Services) : Nat → Machine → Eval Machine
  | 0, _ => .exhausted
  | fuel + 1, m => do
    let (more, m) ← m.advance cx sv
    if more then passes cx sv fuel m
    else if m.isSuspended then passes cx sv fuel m.clearYield
    else return m

/-- A machine that returned returns the same with more steps. -/
theorem Machine.passes_le (cx : Context) (sv : Services) (m : Machine) {fuel fuel' : Nat}
    (h : fuel ≤ fuel') : (m.passes cx sv fuel).Below (m.passes cx sv fuel') := by
  induction fuel generalizing m fuel' with
  | zero => exact fun _ hw => absurd hw Outcome.not_returned
  | succ fuel ih =>
    obtain ⟨n, rfl⟩ : ∃ n, fuel' = n + 1 := ⟨fuel' - 1, by omega⟩
    simp only [Machine.passes]
    refine Link.settling_const.1 (Link.settling.bind (Link.settling_refl _) ?_)
    rintro ⟨more, m⟩
    cases more with
    | true => exact Link.settling_const.2 (ih m (by omega))
    | false =>
      simp only [Bool.false_eq_true, if_false]
      split
      · exact Link.settling_const.2 (ih _ (by omega))
      · exact Link.settling_refl _

theorem Link.passes {ι : Type} {L : Link ι} {cxs : ι → Context} {svs : ι → Services}
    (h : L.Serves cx sv cxs svs)
    (hx : ∀ {α : Type}, L.holds (.exhausted : Eval α) fun _ => .exhausted) (fuel : Nat)
    (m : Machine) : L.holds (m.passes cx sv fuel) fun i => m.passes (cxs i) (svs i) fuel := by
  induction fuel generalizing m with
  | zero => exact hx
  | succ fuel ih =>
    simp only [Machine.passes]
    refine L.bind (Link.advance h m) ?_
    rintro ⟨more, m⟩
    cases more with
    | true => exact ih m
    | false =>
      simp only [Bool.false_eq_true, if_false]
      split
      · exact ih m.clearYield
      · exact L.pure m

/-- A machine that returned returns the same with more steps and better services. -/
theorem Machine.passes_below (cx : Context) (m : Machine) {sv sv' : Services} {fuel fuel' : Nat}
    (hsv : sv.Below sv') (hfuel : fuel ≤ fuel') :
    (m.passes cx sv fuel).Below (m.passes cx sv' fuel') :=
  (Link.settling_const.1 (Link.passes (hsv.serves cx) Link.settling_exhausted fuel m)).trans
    (Machine.passes_le cx sv' m hfuel)

/-! ## Where a machine leads -/

section Leads

variable (cx sv)

/-- After some steps one machine does whatever the other does. -/
def Leads (m : Machine) (w : World) (m' : Machine) (w' : World) : Prop :=
  ∃ k, ∀ n, m.passes cx sv (n + 1 + k) w = m'.passes cx sv (n + 1) w'

/-- After some steps the machine fails. -/
def Fails (m : Machine) (w : World) (f : Fault) (w' : World) : Prop :=
  ∃ k, ∀ n, m.passes cx sv (n + 1 + k) w = ⟨.fault f, w'⟩

/-- The machine does not come to an end within the given number of steps. -/
def Exhausts (bound : Nat) (m : Machine) (w : World) : Prop :=
  ∀ n ≤ bound, ¬(m.passes cx sv n w).Returned

end Leads

theorem Leads.refl (m : Machine) (w : World) : Leads cx sv m w m w :=
  ⟨0, fun _ => rfl⟩

variable {m m' : Machine} {w w' : World}

theorem Leads.trans {m'' : Machine} {w'' : World} (h : Leads cx sv m w m' w')
    (h' : Leads cx sv m' w' m'' w'') : Leads cx sv m w m'' w'' := by
  obtain ⟨k, hk⟩ := h
  obtain ⟨k', hk'⟩ := h'
  refine ⟨k' + k, fun n => ?_⟩
  rw [← hk' n, show n + 1 + (k' + k) = (n + k') + 1 + k by omega, hk (n + k'),
    show n + k' + 1 = n + 1 + k' by omega]

theorem Leads.fails {f : Fault} {w'' : World} (h : Leads cx sv m w m' w')
    (h' : Fails cx sv m' w' f w'') : Fails cx sv m w f w'' := by
  obtain ⟨k, hk⟩ := h
  obtain ⟨k', hk'⟩ := h'
  refine ⟨k' + k, fun n => ?_⟩
  rw [← hk' n, show n + 1 + (k' + k) = (n + k') + 1 + k by omega, hk (n + k'),
    show n + k' + 1 = n + 1 + k' by omega]

theorem Leads.exhausts {bound : Nat} (h : Leads cx sv m w m' w')
    (h' : Exhausts cx sv bound m' w') : Exhausts cx sv bound m w := by
  obtain ⟨k, hk⟩ := h
  intro n hn hret
  cases n with
  | zero => exact Outcome.not_returned hret
  | succ n =>
    -- With `k` more steps the first machine still returns, and by then it is the second.
    have hmore : m.passes cx sv (n + 1 + k) w = m.passes cx sv (n + 1) w :=
      m.passes_le cx sv (by omega) w hret
    apply h' (n + 1) hn
    rw [← hk n, hmore]
    exact hret

/-- Machines that take the same step go the same way. -/
theorem leads_of_advance_eq (h : m.advance cx sv = m'.advance cx sv) (w : World) :
    Leads cx sv m w m' w := by
  refine ⟨0, fun n => ?_⟩
  show m.passes cx sv (n + 1) w = m'.passes cx sv (n + 1) w
  simp only [Machine.passes, h]

theorem passes_of_more (h : m.advance cx sv w = ⟨.value (true, m'), w'⟩) (n : Nat) :
    m.passes cx sv (n + 1) w = m'.passes cx sv n w' := by
  simp only [Machine.passes]
  rw [Eval.bind_of_value h]
  rfl

theorem leads_of_more (h : m.advance cx sv w = ⟨.value (true, m'), w'⟩) : Leads cx sv m w m' w' :=
  ⟨1, fun n => passes_of_more h (n + 1)⟩

theorem leads_of_yield (h : m.advance cx sv w = ⟨.value (false, m'), w'⟩)
    (hs : m'.isSuspended = true) : Leads cx sv m w m'.clearYield w' := by
  refine ⟨1, fun n => ?_⟩
  show (m.advance cx sv >>= _) w = _
  rw [Eval.bind_of_value h]
  simp only [Bool.false_eq_true, if_false, hs, if_true]

theorem fails_of_fault {f : Fault} (h : m.advance cx sv w = ⟨.fault f, w'⟩) :
    Fails cx sv m w f w' := by
  refine ⟨0, fun n => ?_⟩
  show (m.advance cx sv >>= _) w = _
  rw [Eval.bind_of_fault h]

theorem exhausts_of_outOfFuel (h : m.advance cx sv w = ⟨.outOfFuel, w'⟩) (bound : Nat) :
    Exhausts cx sv bound m w := by
  intro n _ hret
  cases n with
  | zero => exact Outcome.not_returned hret
  | succ n =>
    simp only [Machine.passes] at hret
    rw [Eval.bind_of_outOfFuel h] at hret
    exact Outcome.not_returned hret

theorem exhausts_of_more {bound : Nat} (h : m.advance cx sv w = ⟨.value (true, m'), w'⟩)
    (h' : Exhausts cx sv bound m' w') : Exhausts cx sv (bound + 1) m w := by
  intro n hn hret
  cases n with
  | zero => exact Outcome.not_returned hret
  | succ n =>
    rw [passes_of_more h] at hret
    exact h' n (by omega) hret

/-! ## Machines that realize a direct run -/

/-- What a body is about to do behind a signal. -/
def Signal.control : Signal → Control
  | .normal => .idle
  | .brk => .breaking
  | .cont => .continuing
  | .ret v => .returning v

/-- The machine behind a statement: the frames below it are left, and its signal is pending. -/
def Machine.after (kind : BodyKind) (rest : List Frame) (env : Env) (signal : Signal) : Machine :=
  { frames := rest, env, control := signal.control, body := kind }

variable (cx sv) in
/-- The machine comes to where a computation leads it: with a value to the machine for that value,
or to the same fault. If the computation has not ended, the machine does not end within `bound`
steps. -/
structure Machine.Reaches {α : Type} (bound : Nat) (m : Machine) (x : Eval α)
    (next : α → Machine) : Prop where
  value : ∀ {w a w'}, x w = ⟨.value a, w'⟩ → Leads cx sv m w (next a) w'
  fault : ∀ {w f w'}, x w = ⟨.fault f, w'⟩ → Fails cx sv m w f w'
  outOfFuel : ∀ {w w'}, x w = ⟨.outOfFuel, w'⟩ → Exhausts cx sv bound m w

namespace Machine.Reaches

variable {α β : Type} {bound : Nat} {x : Eval α} {next : α → Machine}

theorem mono {bound' : Nat} (h : m.Reaches cx sv bound x next) (hb : bound' ≤ bound) :
    m.Reaches cx sv bound' x next where
  value := h.value
  fault := h.fault
  outOfFuel hx n hn := h.outOfFuel hx n (by omega)

theorem pure {a : α} (hl : ∀ w, Leads cx sv m w (next a) w) :
    m.Reaches cx sv bound (Pure.pure a) next where
  value hx := by
    cases hx
    exact hl _
  fault hx := by cases hx
  outOfFuel hx := by cases hx

/-- A step that the machine alone decides. It is a step, so the bound grows. -/
theorem settled (hm : m.advance cx sv = Pure.pure (true, m'))
    (h : m'.Reaches cx sv bound x next) : m.Reaches cx sv (bound + 1) x next := by
  have hstep : ∀ w, m.advance cx sv w = ⟨.value (true, m'), w⟩ := fun w => by rw [hm]; rfl
  exact ⟨fun hx => (leads_of_more (hstep _)).trans (h.value hx),
    fun hx => (leads_of_more (hstep _)).fails (h.fault hx),
    fun hx => exhausts_of_more (hstep _) (h.outOfFuel hx)⟩

/-- A step that depends on an answer. -/
theorem asks (hm : m.advance cx sv = do
      let a ← x
      return (true, next a)) : m.Reaches cx sv bound x next where
  value hx := leads_of_more (by rw [hm, Eval.bind_of_value hx]; rfl)
  fault hx := fails_of_fault (by rw [hm, Eval.bind_of_fault hx])
  outOfFuel hx := exhausts_of_outOfFuel (by rw [hm, Eval.bind_of_outOfFuel hx]) bound

/-- One computation after another: the second begins where the first one led. -/
theorem bind {P : α → Prop} {f : α → Eval β} {next' : β → Machine}
    (h : m.Reaches cx sv bound x next) (hP : x.Gives P)
    (hf : ∀ a, P a → (next a).Reaches cx sv bound (f a) next') :
    m.Reaches cx sv bound (x >>= f) next' := by
  constructor
  case value =>
    intro w b w' hx
    rcases hc : x w with ⟨a | f' | _, w₁⟩
    · rw [Eval.bind_of_value hc] at hx
      exact (h.value hc).trans ((hf a (hP w a w₁ hc)).value hx)
    · rw [Eval.bind_of_fault hc] at hx
      cases hx
    · rw [Eval.bind_of_outOfFuel hc] at hx
      cases hx
  case fault =>
    intro w f' w' hx
    rcases hc : x w with ⟨a | f'' | _, w₁⟩
    · rw [Eval.bind_of_value hc] at hx
      exact (h.value hc).fails ((hf a (hP w a w₁ hc)).fault hx)
    · rw [Eval.bind_of_fault hc] at hx
      cases hx
      exact h.fault hc
    · rw [Eval.bind_of_outOfFuel hc] at hx
      cases hx
  case outOfFuel =>
    intro w w' hx
    rcases hc : x w with ⟨a | f' | _, w₁⟩
    · rw [Eval.bind_of_value hc] at hx
      exact (h.value hc).exhausts ((hf a (hP w a w₁ hc)).outOfFuel hx)
    · rw [Eval.bind_of_fault hc] at hx
      cases hx
    · exact h.outOfFuel hc

/-- Nothing has to be known of the values of the first computation. -/
theorem bind_any {f : α → Eval β} {next' : β → Machine} (h : m.Reaches cx sv bound x next)
    (hf : ∀ a, (next a).Reaches cx sv bound (f a) next') :
    m.Reaches cx sv bound (x >>= f) next' :=
  h.bind (P := fun _ => True) (fun _ _ _ _ => trivial) fun a _ => hf a

section Whole

variable {f : α → Eval Machine}

/-- If the machines reached end at their next step, the machine settles on how they end. -/
theorem settling (h : m.Reaches cx sv bound x next)
    (hf : ∀ a n, (next a).passes cx sv (n + 1) = f a) :
    Link.settling.holds (x >>= f) fun n => m.passes cx sv n := by
  intro w hret
  rcases hc : x w with ⟨a | f' | _, w₁⟩
  · obtain ⟨k, hk⟩ := h.value hc
    refine ⟨k + 1, fun n hn => ?_⟩
    obtain ⟨j, rfl⟩ : ∃ j, n = j + 1 + k := ⟨n - 1 - k, by omega⟩
    rw [Eval.bind_of_value hc, ← hf a j]
    exact hk j
  · obtain ⟨k, hk⟩ := h.fault hc
    refine ⟨k + 1, fun n hn => ?_⟩
    obtain ⟨j, rfl⟩ : ∃ j, n = j + 1 + k := ⟨n - 1 - k, by omega⟩
    rw [Eval.bind_of_fault hc]
    exact hk j
  · rw [Eval.bind_of_outOfFuel hc] at hret
    exact absurd hret Outcome.not_returned

/-- If the machines reached end at their next step, what the machine returns is how they end. -/
theorem below (h : m.Reaches cx sv bound x next)
    (hf : ∀ a n, (next a).passes cx sv (n + 1) = f a) {n : Nat} (hn : n ≤ bound) :
    (m.passes cx sv n).Below (x >>= f) := by
  intro w hret
  have hlater : ∀ k, m.passes cx sv (n + 1 + k) w = m.passes cx sv n w :=
    fun k => m.passes_le cx sv (by omega) w hret
  rcases hc : x w with ⟨a | f' | _, w₁⟩
  · obtain ⟨k, hk⟩ := h.value hc
    rw [Eval.bind_of_value hc, ← hf a n, ← hk n, hlater k]
  · obtain ⟨k, hk⟩ := h.fault hc
    rw [Eval.bind_of_fault hc, ← hk n, hlater k]
  · exact absurd hret (h.outOfFuel hc n hn)

end Whole

end Machine.Reaches

/-- The machine comes out above `rest` as a direct run does. -/
abbrev Machine.Realizes (cx : Context) (sv : Services) (bound : Nat) (kind : BodyKind)
    (rest : List Frame) (m : Machine) (x : Eval (Env × Signal)) : Prop :=
  m.Reaches cx sv bound x fun r => .after kind rest r.1 r.2

/-! ## Jumps -/

namespace Machine

variable {kind : BodyKind} {rest : List Frame} {frame : Frame} {env : Env}

/-- The step of a machine that is to jump. -/
theorem advance_jump {signal : Signal} (h : signal ≠ .normal) :
    (after kind rest env signal).advance cx sv =
      .ofExcept ((afterUnwind (after kind rest env signal).unwound.control).map
        fun more => (more, (after kind rest env signal).unwound)) := by
  rw [advance_eq]
  cases signal with
  | normal => exact absurd rfl h
  | brk => rfl
  | cont => rfl
  | ret v => rfl

/-- A frame that does not catch a jump is dropped, with the scopes above it. -/
theorem advance_skip {signal : Signal} (h : signal ≠ .normal)
    (hcatch : ∀ phase iteration, frame.kind = .whileLoop phase iteration → ∃ v, signal = .ret v) :
    (after kind (frame :: rest) env signal).advance cx sv =
      (after kind rest (env.truncate frame.scopeBase) signal).advance cx sv := by
  have hskip : unwindFrames signal.control (frame :: rest) env =
      unwindFrames signal.control rest (env.truncate frame.scopeBase) := by
    cases hk : frame.kind with
    | whileLoop phase iteration =>
      obtain ⟨v, rfl⟩ := hcatch phase iteration hk
      simp only [unwindFrames, hk, Signal.control]
    | _ => simp only [unwindFrames, hk]
  rw [advance_jump h, advance_jump h]
  simp only [unwound, after, hskip]

end Machine

end CoLang
