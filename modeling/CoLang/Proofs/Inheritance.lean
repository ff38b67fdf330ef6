import CoLang.Proofs.Stack
/-!
# Links between bodies with a property

If a property of statements passes to their parts, a machine started on a body with that property
only ever performs statements that have it (`Machine.Sound.performs`). So what links two programs
need only be checked for the requests that such statements make (`Link.KeepsOn.services`).
-/

namespace CoLang

variable {P : Stmt → Prop} {body : Block} {d₀ : Nat} {kind : BodyKind}

namespace Link

variable {ι : Type} {L : Link ι}

/-- What follows two linked computations need only be linked for the values that they return. -/
theorem bind_of_gives {α β : Type} {Q : α → Prop} {x : Eval α} {xs : ι → Eval α} {f : α → Eval β}
    {fs : ι → α → Eval β} (hx : L.holds x xs) (hQ : x.Gives Q) (hQs : ∀ i, (xs i).Gives Q)
    (hf : ∀ a, Q a → L.holds (f a) fun i => fs i a) :
    L.holds (x >>= f) fun i => xs i >>= fs i := by
  classical
  -- Values that are not returned may lead anywhere, so let them all lead to one and the same fault.
  let cut (g : α → Eval β) (a : α) : Eval β := if Q a then g a else .throw default
  have hcut : ∀ {y : Eval α} (g : α → Eval β), y.Gives Q → y >>= g = y >>= cut g :=
    fun g hy => hy.bind_congr fun a ha => by simp only [cut, ha, if_true]
  rw [hcut f hQ]
  simp only [fun i => hcut (fs i) (hQs i)]
  refine L.bind hx fun a => ?_
  by_cases ha : Q a
  · simp only [cut, ha, if_true]
    exact hf a ha
  · simp only [cut, ha, if_false]
    exact L.throw _

variable {cx : Context} {sv : Services} {cxs : ι → Context} {svs : ι → Services}

theorem runsOn (h : L.ServesOn P cx sv cxs svs)
    (hx : ∀ {α : Type}, L.holds (.exhausted : Eval α) fun _ => .exhausted) (hP : Hereditary P)
    (hbody : ∀ s ∈ body, P s) (fuel : Nat) {m : Machine} (hm : m.Sound body d₀ kind) :
    L.holds (m.runs cx sv fuel) fun i => m.runs (cxs i) (svs i) fuel := by
  induction fuel generalizing m with
  | zero => exact hx
  | succ fuel ih =>
    simp only [Machine.runs_succ]
    refine bind_of_gives (advanceOn h fun s rest hplan => hm.performs hP hbody hplan)
      (hm.advance cx sv) (fun i => hm.advance (cxs i) (svs i)) ?_
    rintro ⟨more, m'⟩ hm'
    cases more with
    | true => exact ih hm'
    | false => exact L.pure m'

variable (L) in
/-- The link holds of what changes the world, and is kept by the brackets around calls and by the
resumes that are asked for, between programs with the same functions, whose statements all have a
property. -/
structure KeepsOn (P : Stmt → Prop) (cx : Context) (cxs : ι → Context) : Prop where
  decls : ∀ i, (cxs i).decls = cx.decls
  functions : ∀ f ∈ cx.decls.functions, ∀ s ∈ f.body, P s
  exhausted : ∀ {α : Type}, L.holds (.exhausted : Eval α) fun _ => .exhausted
  print : ∀ line, L.holds (.change (World.print cx line))
    fun i => .change (World.print (cxs i) line)
  declare : ∀ name doc, L.holds (.update fun w => w.record cx .declare name doc none)
    fun i => .update fun w => w.record (cxs i) .declare name doc none
  create : ∀ name coroutine, P (.create name coroutine) →
    L.holds (.change (World.create cx name coroutine))
      fun i => .change (World.create (cxs i) name coroutine)
  within : ∀ (f : Function) {α : Type} {x : Eval α} {xs : ι → Eval α}, L.holds x xs →
    L.holds (f.within cx x) fun i => f.within (cxs i) (xs i)
  resume : ∀ {sv : Services} {svs : ι → Services} {fuel : Nat},
    (∀ {body : Block} {d₀ : Nat} {kind : BodyKind} {m : Machine}, (∀ s ∈ body, P s) →
      m.Sound body d₀ kind →
      L.holds (m.runs cx sv fuel) fun i => m.runs (cxs i) (svs i) fuel) →
    ∀ name, P (.resume name) →
      L.holds (World.resume cx sv fuel name) fun i => World.resume (cxs i) (svs i) fuel name

namespace KeepsOn

theorem callFunction (h : L.KeepsOn P cx cxs) {fuel : Nat}
    (hruns : ∀ {body : Block} {d₀ : Nat} {kind : BodyKind} {m : Machine}, (∀ s ∈ body, P s) →
      m.Sound body d₀ kind → L.holds (m.runs cx sv fuel) fun i => m.runs (cxs i) (svs i) fuel)
    {f : Function} (hf : f ∈ cx.decls.functions) (args : List Val) :
    L.holds (f.call cx sv fuel args) fun i => f.call (cxs i) (svs i) fuel args := by
  simp only [Function.call_eq]
  refine L.bind (L.ofExcept _) fun env => h.within f (L.bind ?_ fun m => L.ofExcept _)
  exact hruns (h.functions f hf) (Machine.sound_start f.body env .function)

theorem serves (h : L.KeepsOn P cx cxs)
    (hcall : ∀ f ∈ cx.decls.functions, ∀ args,
      L.holds (sv.call f args) fun i => (svs i).call f args)
    (hresume : ∀ name, P (.resume name) → L.holds (sv.resume name) fun i => (svs i).resume name) :
    L.ServesOn P cx sv cxs svs where
  callee name := by
    simp only [h.decls]
    cases hc : cx.decls.callee name with
    | error e => exact .inl ⟨e, rfl, fun _ => rfl⟩
    | ok c =>
      refine .inr ⟨c, fun _ => c, rfl, fun _ => rfl, fun args => ?_⟩
      cases c with
      | builtin b =>
        cases b
        exact L.bind (h.print _) fun _ => L.pure none
      | function f => exact hcall f (Declarations.mem_of_callee hc) args
  declare := h.declare
  create := h.create
  resume := hresume

/-- **Services are linked at every level of nesting**, for statements with the property. -/
theorem services (h : L.KeepsOn P cx cxs) (hP : Hereditary P) (n : Nat) :
    L.ServesOn P cx (services cx n) cxs fun i => CoLang.services (cxs i) n := by
  induction n with
  | zero => exact h.serves (fun _ _ _ => h.exhausted) fun _ _ => h.exhausted
  | succ n ih =>
    refine h.serves (fun f hf args => h.callFunction ?_ hf args)
      fun name hname => h.resume ?_ name hname
    · exact fun hbody hm => runsOn ih h.exhausted hP hbody n hm
    · exact fun hbody hm => runsOn ih h.exhausted hP hbody n hm

end KeepsOn

end Link

end CoLang
