import CoLang.Proofs.Link
/-!
# Fuel

Fuel bounds a computation and decides nothing else: a computation that returned with some fuel
returns the same with more. So "the run returns this" can be said as "with some fuel it does", and
what it returns is unique.

Comparing a computation with an endless row of others of which all but finitely many give what it
gives is a link (`Link.settling`). With a row that is always the same it says that one computation
returns whatever the other returns (`Eval.Below`).
-/

namespace CoLang

/-- Whether a computation returned, with a value or a fault. -/
def Outcome.Returned {α : Type} (o : Outcome α) : Prop :=
  o.ending ≠ .outOfFuel

namespace Outcome

variable {α : Type} {w : World}

theorem returned_value {a : α} : (⟨.value a, w⟩ : Outcome α).Returned := by
  simp [Returned]

theorem returned_fault {f : Fault} : (⟨.fault f, w⟩ : Outcome α).Returned := by
  simp [Returned]

theorem not_returned : ¬(⟨.outOfFuel, w⟩ : Outcome α).Returned := by
  simp [Returned]

end Outcome

theorem Eval.returned_of_leaving {α : Type} {x : Eval α} {w : World}
    (h : (x.leaving w).Returned) : (x w).Returned := by
  intro ho
  simp only [Eval.leaving, ho] at h
  exact h ho

theorem Eval.leaving_of_returned {α : Type} {x : Eval α} {w : World} (h : (x w).Returned) :
    x.leaving w = ⟨(x w).ending, (x w).world.leave⟩ := by
  unfold Eval.leaving
  rcases hx : x w with ⟨a | f | _, w'⟩
  · rfl
  · rfl
  · rw [hx] at h
    exact absurd h Outcome.not_returned

/-- The second computation returns whatever the first returns. -/
def Eval.Below {α : Type} (x y : Eval α) : Prop :=
  ∀ w, (x w).Returned → y w = x w

theorem Eval.Below.refl {α : Type} (x : Eval α) : x.Below x :=
  fun _ _ => rfl

theorem Eval.Below.trans {α : Type} {x y z : Eval α} (hxy : x.Below y) (hyz : y.Below z) :
    x.Below z := by
  intro w hw
  rw [← hxy w hw]
  exact hyz w (by rw [hxy w hw]; exact hw)

/-- Every service of the second returns whatever that of the first returns. -/
structure Services.Below (sv sv' : Services) : Prop where
  call : ∀ f args, (sv.call f args).Below (sv'.call f args)
  resume : ∀ name, (sv.resume name).Below (sv'.resume name)

/-! ## Rows that settle -/

/-- From some point on, all computations of a row return what the first one returns. -/
def Link.settling : Link Nat where
  holds x xs := ∀ w, (x w).Returned → ∃ k, ∀ j, k ≤ j → xs j w = x w
  ofExcept x := fun w _ => ⟨0, fun _ _ => rfl⟩
  bind := by
    intro α β x xs f fs hx hf w hw
    rcases hxw : x w with ⟨ending, w'⟩
    cases ending with
    | value a =>
      rw [Eval.bind_of_value hxw] at hw ⊢
      obtain ⟨k₁, h₁⟩ := hx w (by rw [hxw]; exact Outcome.returned_value)
      obtain ⟨k₂, h₂⟩ := hf a w' hw
      refine ⟨max k₁ k₂, fun j hj => ?_⟩
      show (xs j >>= fs j) w = f a w'
      rw [Eval.bind_of_value ((h₁ j (by omega)).trans hxw)]
      exact h₂ j (by omega)
    | fault e =>
      obtain ⟨k, h⟩ := hx w (by rw [hxw]; exact Outcome.returned_fault)
      refine ⟨k, fun j hj => ?_⟩
      show (xs j >>= fs j) w = (x >>= f) w
      rw [Eval.bind_of_fault hxw, Eval.bind_of_fault ((h j hj).trans hxw)]
    | outOfFuel =>
      rw [Eval.bind_of_outOfFuel hxw] at hw
      exact absurd hw Outcome.not_returned

namespace Link

theorem settling_const {α : Type} {x y : Eval α} :
    settling.holds x (fun _ => y) ↔ x.Below y := by
  constructor
  · intro h w hw
    obtain ⟨k, hk⟩ := h w hw
    exact hk k (Nat.le_refl k)
  · intro h w hw
    exact ⟨0, fun _ _ => h w hw⟩

theorem settling_refl {α : Type} (x : Eval α) : settling.holds x fun _ => x :=
  settling_const.2 (.refl x)

theorem settling_exhausted {α : Type} {xs : Nat → Eval α} : settling.holds .exhausted xs :=
  fun _ hw => absurd hw Outcome.not_returned

theorem settling_leaving {α : Type} {x : Eval α} {xs : Nat → Eval α} (h : settling.holds x xs) :
    settling.holds x.leaving fun j => (xs j).leaving := by
  intro w hw
  obtain ⟨k, hk⟩ := h w (Eval.returned_of_leaving hw)
  refine ⟨k, fun j hj => ?_⟩
  simp only [Eval.leaving, hk j hj]

/-- Rows that settle are kept by calls and resumes. -/
theorem settling_keeps (cx : Context) : settling.Keeps cx fun _ => cx where
  decls _ := rfl
  exhausted := settling_exhausted
  print line := settling_refl _
  declare name doc := settling_refl _
  create name coroutine := settling_refl _
  within f _ _ _ h :=
    settling.bind (settling_refl _) fun _ =>
      settling.bind (settling_refl _) fun _ => settling_leaving h
  resume := by
    intro sv svs fuel fuels hruns name w hw
    simp only [World.resume_eq] at hw ⊢
    rcases hout : w.table.checkout name with ⟨e | i, table⟩
    · exact ⟨0, fun _ _ => rfl⟩
    · rcases hbody : i.body with e | m
      · exact ⟨0, fun _ _ => by simp only [hbody]⟩
      · simp only [hout, hbody] at hw ⊢
        -- A resume returns only if the run in it does.
        have hret :
            (m.runs cx sv fuel (World.beginResume cx { w with table } name i)).Returned := by
          intro ho
          simp only [ho] at hw
          exact hw rfl
        obtain ⟨k, hk⟩ := hruns m _ hret
        refine ⟨k, fun j hj => ?_⟩
        simp only [hk j hj]

end Link

/-! ## More fuel -/

/-- A run that returned returns the same with more steps. -/
theorem Machine.runs_le (cx : Context) (sv : Services) (m : Machine) {fuel fuel' : Nat}
    (h : fuel ≤ fuel') : (m.runs cx sv fuel).Below (m.runs cx sv fuel') := by
  induction fuel generalizing m fuel' with
  | zero => exact fun _ hw => absurd hw Outcome.not_returned
  | succ fuel ih =>
    obtain ⟨n, rfl⟩ : ∃ n, fuel' = n + 1 := ⟨fuel' - 1, by omega⟩
    rw [Machine.runs_succ, Machine.runs_succ]
    refine Link.settling_const.1 (Link.settling.bind (Link.settling_refl _) ?_)
    rintro ⟨more, m⟩
    cases more with
    | true => exact Link.settling_const.2 (ih m (by omega))
    | false => exact Link.settling_refl _

theorem Services.Below.serves {sv sv' : Services} (h : sv.Below sv') (cx : Context) :
    Link.settling.Serves cx sv (fun _ => cx) fun _ => sv' :=
  (Link.settling_keeps cx).serves (fun f args => Link.settling_const.2 (h.call f args))
    fun name => Link.settling_const.2 (h.resume name)

/-- A run that returned returns the same with more steps and better services. -/
theorem Machine.runs_below (cx : Context) (m : Machine) {sv sv' : Services} {fuel fuel' : Nat}
    (hsv : sv.Below sv') (hfuel : fuel ≤ fuel') :
    (m.runs cx sv fuel).Below (m.runs cx sv' fuel') :=
  (Link.settling_const.1 (Link.runs (hsv.serves cx) Link.settling_exhausted fuel m)).trans
    (Machine.runs_le cx sv' m hfuel)

/-- **Services with more fuel return whatever those with less return.** -/
theorem services_below (cx : Context) {n n' : Nat} (h : n ≤ n') :
    (services cx n).Below (services cx n') := by
  induction n generalizing n' with
  | zero =>
    exact ⟨fun _ _ _ hw => absurd hw Outcome.not_returned,
      fun _ _ hw => absurd hw Outcome.not_returned⟩
  | succ n ih =>
    obtain ⟨k, rfl⟩ : ∃ k, n' = k + 1 := ⟨n' - 1, by omega⟩
    have hruns : ∀ m : Machine, Link.settling.holds (m.runs cx (services cx n) n)
        fun _ => m.runs cx (services cx k) k :=
      fun m => Link.settling_const.2 (m.runs_below cx (ih (by omega)) (by omega))
    exact ⟨fun f args => Link.settling_const.1 ((Link.settling_keeps cx).callFunction hruns f args),
      fun name => Link.settling_const.1 ((Link.settling_keeps cx).resume hruns name)⟩

/-- The services of a program, with more and more fuel, settle on what they return with some. -/
theorem services_settling (cx : Context) (n : Nat) :
    Link.settling.Serves cx (services cx n) (fun _ => cx) (services cx) :=
  (Link.settling_keeps cx).serves
    (fun f args w hw => ⟨n, fun _ hj => (services_below cx hj).call f args w hw⟩)
    fun name w hw => ⟨n, fun _ hj => (services_below cx hj).resume name w hw⟩

end CoLang
