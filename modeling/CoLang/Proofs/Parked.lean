import CoLang.Proofs.Session
import CoLang.Proofs.Stack
/-!
# Properties of instances at rest

A property of instances that created ones have, and that a resume hands on, is had by every instance
in its slot, whatever operations are performed (`Interpreter.parks_perform`). One such property is
that the machine of the instance runs the body of a coroutine and is sound (`Instance.Runs`).
-/

namespace CoLang

/-- Every instance in its slot has a property. -/
def World.Parks (P : Instance → Prop) (w : World) : Prop :=
  ∀ name i, w.table.slot? name = some (.parked i) → P i

namespace World.Parks

variable {P : Instance → Prop} {w w' : World}

theorem of_table (h : w.Parks P) (ht : w'.table = w.table) : w'.Parks P := by
  intro name i hi
  rw [ht] at hi
  exact h name i hi

theorem setSlot (h : w.Parks P) {name : String} {s : Slot} (hs : ∀ i, s = .parked i → P i)
    (ht : w'.table = w.table.setSlot name s) : w'.Parks P := by
  intro other i hi
  rw [ht] at hi
  rcases Table.parked_of_setSlot hi with ⟨-, hnew⟩ | ⟨-, hold⟩
  · exact hs i hnew
  · exact h other i hold

theorem park (h : w.Parks P) (name : String) {i : Instance} (hi : P i) :
    (w.park name i).Parks P := by
  refine h.setSlot (fun j hj => ?_) rfl
  cases hj
  exact hi

theorem insert (h : w.Parks P) {name : String} {i : Instance} (hi : P i) {t : Table}
    (hins : w.table.insert name i = (.ok (), t)) (ht : w'.table = t) : w'.Parks P := by
  obtain ⟨-, rfl⟩ := Table.insert_ok hins
  refine h.setSlot (fun j hj => ?_) ht
  cases hj
  exact hi

end World.Parks

/-- Created instances have the property, and a resume that runs a body and returns hands it on. -/
structure Instance.Kept (cx : Context) (P : Instance → Prop) : Prop where
  create : ∀ {name c} (id), cx.decls.coroutine? name = some c → P (.create id c)
  resume : ∀ {i m}, P i → i.body = .ok m → ∀ sv fuel w, (m.runs cx sv fuel w).Returned →
    P (i.settle (m.runs cx sv fuel w).ending).2

namespace Link

/-- A computation that returns leaves a property of the instances in their slots as it was. -/
def parks (P : Instance → Prop) : Link Empty where
  holds x _ := ∀ w, w.Parks P → (x w).Returned → (x w).world.Parks P
  ofExcept x := fun w hw _ => hw
  bind := by
    intro α β x xs f fs hx hf w hw hret
    rcases hxw : x w with ⟨a | e | _, w₁⟩
    · have hw₁ := hx w hw (by rw [hxw]; exact Outcome.returned_value)
      rw [hxw] at hw₁
      rw [Eval.bind_of_value hxw] at hret ⊢
      exact hf a w₁ hw₁ hret
    · have hw₁ := hx w hw (by rw [hxw]; exact Outcome.returned_fault)
      rw [hxw] at hw₁
      rw [Eval.bind_of_fault hxw]
      exact hw₁
    · rw [Eval.bind_of_outOfFuel hxw] at hret
      exact absurd hret Outcome.not_returned

variable {P : Instance → Prop}

theorem parks_change {f : World → Except Fault Unit × World} {xs : Empty → Eval Unit}
    (hatomic : Atomic f) (h : ∀ {w w'}, w.Parks P → f w = (.ok (), w') → w'.Parks P) :
    (parks P).holds (.change f) xs := by
  intro w hw _
  rw [Eval.change_apply hatomic]
  rcases hf : f w with ⟨e | ⟨⟩, w'⟩
  · exact hw
  · exact h hw hf

/-- **What resumes hand on, calls and resumes keep.** -/
theorem parks_keeps {cx : Context} (h : Instance.Kept cx P) : (parks P).Keeps cx Empty.elim where
  decls e := e.elim
  exhausted := fun _ _ hret => absurd hret Outcome.not_returned
  print line := by
    refine parks_change World.atomic_print fun {w w'} hw hf => ?_
    obtain ⟨-, rfl⟩ := World.print_ok hf
    exact hw.of_table rfl
  declare name doc := fun w hw _ => hw.of_table (by simp [Eval.update])
  create name coroutine := by
    refine parks_change World.atomic_create fun {w w'} hw hf => ?_
    obtain ⟨c, t, hc, ht, rfl⟩ := World.create_ok hf
    exact hw.insert (h.create _ hc) ht (by simp)
  within f := by
    intro α x xs hx w hw hret
    rw [Function.within_apply] at hret ⊢
    by_cases hdepth : w.depth < cx.settings.maxCallDepth
    · simp only [Function.enter, hdepth, if_true] at hret ⊢
      have hx' := Eval.returned_of_leaving hret
      rw [Eval.leaving_of_returned hx']
      exact (hx _ (hw.of_table (by simp)) hx').of_table rfl
    · simp only [Function.enter, hdepth, if_false]
      exact hw
  resume := by
    intro sv svs fuel fuels hruns name w hw hret
    rcases World.resume_cases hret with
      ⟨htable, -⟩ | ⟨i, m, w₁, hparked, hbody, htable, -, hreturned, heq⟩
    · exact hw.of_table htable
    · have hw₁ : w₁.Parks P := hw.setSlot (fun j hj => by cases hj) htable
      have hsettled := h.resume (hw name i hparked) hbody sv fuel w₁ hreturned
      rw [heq]
      exact (hruns m w₁ hw₁ hreturned).park name hsettled

end Link

/-- An operation that returns leaves the property to the instances in their slots, if what it
restores has it. -/
theorem Interpreter.parks_perform {P : Instance → Prop} {i : Interpreter}
    (hP : Instance.Kept i.context P) (h : i.world.Parks P) {fuel : Nat} {op : Operation}
    (hop : ∀ name inst, op = .restore name inst → P inst)
    (hret : (i.perform fuel op).1 ≠ .outOfFuel) : (i.perform fuel op).2.world.Parks P := by
  have hlink := (Link.parks_keeps hP).operation i.main fuel
    fun name inst heq => Link.parks_change World.atomic_restore fun {w w'} hw hf => by
      obtain ⟨-, -, t, ht, rfl⟩ := World.restore_ok hf
      exact hw.insert (hop name inst heq) ht rfl
  have hparks := hlink i.world h (returned_of_perform hret)
  rw [Interpreter.perform_eq]
  exact hparks

/-- What operations keep of the instances in their slots, they all have between operations. -/
theorem Interpreter.ArisesFrom.parks_of_perform {P : Program → Prop} {Q : Instance → Prop}
    {i : Interpreter} (h : i.ArisesFrom P)
    (hperform : ∀ {i : Interpreter} {fuel : Nat} {op : Operation}, i.ArisesFrom P →
      i.world.Parks Q → (∀ name inst, op = .restore name inst → Q inst) →
      (i.perform fuel op).1 ≠ .outOfFuel → (i.perform fuel op).2.world.Parks Q) :
    i.world.Parks Q := by
  induction h with
  | build _ h =>
    obtain ⟨d, -, rfl⟩ := Interpreter.build_ok_iff.1 h
    intro name inst hinst
    cases hinst
  | perform h hop hret ih =>
    exact hperform h ih (fun name inst heq => absurd heq (hop name inst)) hret
  | @restore i i' h _ fuel name name' inst hinst ih ih' =>
    refine hperform h ih (fun n j heq => ?_) (restore_returns i fuel name inst)
    cases heq
    exact ih' name' inst (Table.get?_eq_some_iff.1 hinst)

/-- Every instance of a reachable interpreter has what resumes hand on. -/
theorem Interpreter.Reachable.parks {P : Instance → Prop} {p : Program} {i : Interpreter}
    (hP : ∀ cx : Context, cx.decls = ⟨p.functions, p.coroutines⟩ → Instance.Kept cx P)
    (h : Reachable p i) : i.world.Parks P :=
  h.parks_of_perform fun hi hw hop hret =>
    parks_perform (hP _ (Declarations.eq_of_build (Reachable.program hi).1)) hw hop hret

/-! ## The machines of instances -/

/-- The machine of the instance, if there is one, is sound and runs a body that belongs to its
coroutine. -/
def Instance.Runs (belongs : String → Block → Prop) (i : Instance) : Prop :=
  ∀ m, i.machine = some m →
    ∃ body, belongs i.coroutine body ∧ m.Sound body Env.empty.depth .coroutine

theorem Instance.machine_of_body {i : Instance} {m : Machine} (h : i.body = .ok m) :
    ∃ m₀, i.machine = some m₀ ∧ m = m₀.clearYield := by
  unfold Instance.body at h
  split at h
  · split at h
    case h_1 => cases h
    case h_2 m₀ hm₀ =>
      cases h
      exact ⟨m₀, hm₀, rfl⟩
  · cases h

theorem Instance.coroutine_settle (i : Instance) (ending : Ending Machine) :
    (i.settle ending).2.coroutine = i.coroutine := by
  unfold Instance.settle
  split
  · split <;> rfl
  · rfl
  · rfl

/-- Only an instance that stopped at a yield has a machine after a resume. -/
theorem Instance.machine_settle {i : Instance} {ending : Ending Machine} {m : Machine}
    (h : (i.settle ending).2.machine = some m) : ending = .value m ∧ m.isSuspended = true := by
  unfold Instance.settle at h
  split at h
  · split at h
    case isTrue hs =>
      cases h
      exact ⟨rfl, hs⟩
    case isFalse => cases h
  · cases h
  · cases h

/-- **The machines of instances stay sound.** -/
theorem Instance.runs_kept {cx : Context} (belongs : String → Block → Prop)
    (h : ∀ {name c}, cx.decls.coroutine? name = some c → belongs c.name c.body) :
    Instance.Kept cx (Instance.Runs belongs) where
  create := by
    intro name c id hc m hm
    cases hm
    exact ⟨c.body, h hc, Machine.sound_start c.body .empty .coroutine⟩
  resume := by
    intro i m hi hbody sv fuel w hret m' hm'
    obtain ⟨m₀, hm₀, rfl⟩ := Instance.machine_of_body hbody
    obtain ⟨body, hbelongs, hsound⟩ := hi m₀ hm₀
    obtain ⟨hending, -⟩ := Instance.machine_settle hm'
    rw [Instance.coroutine_settle]
    exact ⟨body, hbelongs, (hsound.clearYield.runs cx sv fuel).of_ending hending⟩

end CoLang
