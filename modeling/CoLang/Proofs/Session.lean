import CoLang.Interpreter
import CoLang.Proofs.Fuel
/-!
# Sessions

A host drives an interpreter by operations: it runs the main body and creates, resumes and restores
instances (`Operation`, `Interpreter.perform`). Between two operations that returned an interpreter
is at rest (`Interpreter.AtRest`): no call is under way, no instance is out, and each one kept is of
a declared coroutine and stands before its first statement, behind a yield or at its end.

What makes this so is that calls and resumes are bracketed. Whatever a body does, and however it
ends, it leaves as many calls under way and the same instances out as it found (`Link.orderly`).
-/

namespace CoLang

/-! ## Tables -/

namespace Table

variable {t : Table} {name other : String} {s : Slot}

theorem get?_eq_some_iff {i : Instance} :
    t.get? name = some i ↔ t.slot? name = some (.parked i) := by
  unfold get?
  split
  case h_1 j hj => simp [hj]
  case h_2 hne =>
    simp only [reduceCtorEq, false_iff]
    exact hne i

theorem not_running_of_isFree (h : t.isFree name = true) (coroutine : String) :
    t.slot? name ≠ some (.running coroutine) := by
  intro hs
  simp [isFree, hs] at h

end Table

namespace World

variable {cx : Context} {w : World} {action : Action} {name : String} {doc : Option Doc}
  {instanceName : Option String}

@[simp] theorem table_record : (w.record cx action name doc instanceName).table = w.table := by
  unfold record
  split
  · split <;> rfl
  · rfl

@[simp] theorem depth_record : (w.record cx action name doc instanceName).depth = w.depth := by
  unfold record
  split
  · split <;> rfl
  · rfl

@[simp] theorem lines_record : (w.record cx action name doc instanceName).lines = w.lines := by
  unfold record
  split
  · split <;> rfl
  · rfl

@[simp] theorem table_beginResume (cx : Context) (w : World) (name : String) (i : Instance) :
    (World.beginResume cx w name i).table = w.table := by
  unfold beginResume
  split <;> simp

@[simp] theorem depth_beginResume (cx : Context) (w : World) (name : String) (i : Instance) :
    (World.beginResume cx w name i).depth = w.depth := by
  unfold beginResume
  split <;> simp

@[simp] theorem lines_beginResume (cx : Context) (w : World) (name : String) (i : Instance) :
    (World.beginResume cx w name i).lines = w.lines := by
  unfold beginResume
  split <;> simp

/-- An instance that is put back as it was found leaves the table as it was. -/
theorem table_park_of_checkout {cx : Context} {w : World} {name : String} {i : Instance}
    {t : Table} (h : w.table.checkout name = (.ok i, t)) :
    ((World.beginResume cx { w with table := t } name i).park name i).table = w.table := by
  obtain ⟨hparked, rfl⟩ := Table.checkout_ok h
  simp only [World.park, Table.checkin, table_beginResume, Table.setSlot_setSlot]
  exact Table.setSlot_of_slot? hparked

end World

/-! ## What a body keeps in order -/

/-- The instance can be put into a table: it is of a declared coroutine, it is not being resumed,
and no jump is pending in it but a yield. -/
structure Instance.AtRest (d : Declarations) (i : Instance) : Prop where
  declared : (d.coroutine? i.coroutine).isSome = true
  life : i.life ≠ .running
  control : ∀ m, i.machine = some m → m.control = .idle ∨ m.control = .yielding

namespace World

/-- The instances that are not out are at rest. -/
def Orderly (d : Declarations) (w : World) : Prop :=
  ∀ name i, w.table.slot? name = some (.parked i) → i.AtRest d

/-- As many calls are under way, and the same instances are out. -/
structure Balanced (w w' : World) : Prop where
  depth : w'.depth = w.depth
  running : ∀ name coroutine, w'.table.slot? name = some (.running coroutine) ↔
    w.table.slot? name = some (.running coroutine)

theorem Balanced.refl (w : World) : w.Balanced w :=
  ⟨rfl, fun _ _ => Iff.rfl⟩

theorem Balanced.trans {w w' w'' : World} (h : w.Balanced w') (h' : w'.Balanced w'') :
    w.Balanced w'' :=
  ⟨h'.depth.trans h.depth, fun name coroutine =>
    (h'.running name coroutine).trans (h.running name coroutine)⟩

variable {d : Declarations} {w w' : World}

theorem Orderly.of_table (h : w.Orderly d) (ht : w'.table = w.table) : w'.Orderly d :=
  fun name i hi => h name i (by rw [← ht, hi])

theorem Balanced.of_table (hd : w'.depth = w.depth) (ht : w'.table = w.table) : w.Balanced w' :=
  ⟨hd, fun _ _ => by rw [ht]⟩

/-- A slot may be set to an instance at rest, or to the mark of one that is out. -/
theorem Orderly.setSlot (h : w.Orderly d) {name : String} {s : Slot}
    (hs : ∀ i, s = .parked i → i.AtRest d) (ht : w'.table = w.table.setSlot name s) :
    w'.Orderly d := by
  intro other i hi
  rw [ht] at hi
  rcases Table.parked_of_setSlot hi with ⟨-, hnew⟩ | ⟨-, hold⟩
  · exact hs i hnew
  · exact h other i hold

theorem Orderly.park (h : w.Orderly d) (name : String) {i : Instance} (hi : i.AtRest d) :
    (w.park name i).Orderly d := by
  refine h.setSlot (fun j hj => ?_) rfl
  cases hj
  exact hi

/-- Taking an instance out and putting one back under its name leaves the others as they were. -/
theorem Balanced.park {w₁ w₂ : World} {name coroutine : String} {i i' : Instance}
    (hparked : w.table.slot? name = some (.parked i))
    (ht : w₁.table = w.table.setSlot name (.running coroutine)) (hd : w₁.depth = w.depth)
    (h : w₁.Balanced w₂) : w.Balanced (w₂.park name i') where
  depth := h.depth.trans hd
  running := by
    intro other c
    by_cases heq : other = name
    · subst heq
      simp [World.park, Table.checkin, hparked]
    · rw [World.park, Table.checkin, Table.slot?_setSlot_of_ne heq, h.running, ht,
        Table.slot?_setSlot_of_ne heq]

end World

namespace Link

variable {d : Declarations}

/-- In an orderly world a computation that returns leaves an orderly and balanced one. -/
def orderly (d : Declarations) : Link Empty where
  holds x _ := ∀ w, w.Orderly d → (x w).Returned → (x w).world.Orderly d ∧ w.Balanced (x w).world
  ofExcept x := fun w hw _ => ⟨hw, .refl w⟩
  bind := by
    intro α β x xs f fs hx hf w hw hret
    rcases hxw : x w with ⟨a | e | _, w₁⟩
    · obtain ⟨hw₁, hb₁⟩ := hx w hw (by rw [hxw]; exact Outcome.returned_value)
      rw [hxw] at hw₁ hb₁
      rw [Eval.bind_of_value hxw] at hret ⊢
      obtain ⟨hw₂, hb₂⟩ := hf a w₁ hw₁ hret
      exact ⟨hw₂, hb₁.trans hb₂⟩
    · rw [Eval.bind_of_fault hxw]
      have hfault := hx w hw (by rw [hxw]; exact Outcome.returned_fault)
      rw [hxw] at hfault
      exact hfault
    · rw [Eval.bind_of_outOfFuel hxw] at hret
      exact absurd hret Outcome.not_returned

theorem orderly_change {f : World → Except Fault Unit × World} {xs : Empty → Eval Unit}
    (hatomic : Atomic f)
    (h : ∀ {w w'}, w.Orderly d → f w = (.ok (), w') → w'.Orderly d ∧ w.Balanced w') :
    (orderly d).holds (.change f) xs := by
  intro w hw _
  rw [Eval.change_apply hatomic]
  rcases hf : f w with ⟨e | ⟨⟩, w'⟩
  · exact ⟨hw, .refl w⟩
  · exact h hw hf

theorem orderly_update {f : World → World} {xs : Empty → Eval Unit}
    (htable : ∀ w, (f w).table = w.table) (hdepth : ∀ w, (f w).depth = w.depth) :
    (orderly d).holds (.update f) xs :=
  fun w hw _ => ⟨hw.of_table (htable w), .of_table (hdepth w) (htable w)⟩

end Link

/-! ## Changes of the table -/

namespace World

variable {d : Declarations} {w w' : World} {name : String} {i : Instance}

/-- Putting an instance at rest where the name is free keeps the order. -/
theorem Orderly.insert (h : w.Orderly d) (hi : i.AtRest d) {t : Table}
    (hins : w.table.insert name i = (.ok (), t)) (ht : w'.table = t) (hd : w'.depth = w.depth) :
    w'.Orderly d ∧ w.Balanced w' := by
  obtain ⟨hfree, rfl⟩ := Table.insert_ok hins
  refine ⟨h.setSlot (fun j hj => ?_) ht, hd, fun other c => ?_⟩
  · cases hj
    exact hi
  · rw [ht]
    by_cases heq : other = name
    · subst heq
      simp [Table.not_running_of_isFree hfree]
    · rw [Table.slot?_setSlot_of_ne heq]

end World

theorem Declarations.name_of_coroutine? {d : Declarations} {name : String} {c : Coroutine}
    (h : d.coroutine? name = some c) : c.name = name := by
  simpa using List.find?_some h

theorem Instance.atRest_create {d : Declarations} {name : String} {c : Coroutine} (id : Identity)
    (h : d.coroutine? name = some c) : (Instance.create id c).AtRest d where
  declared := by
    show (d.coroutine? c.name).isSome = true
    rw [Declarations.name_of_coroutine? h, h]
    rfl
  life := by simp [Instance.create]
  control := by
    intro m hm
    cases hm
    exact .inl rfl

/-- However a resume ends, the instance is at rest behind it. -/
theorem Instance.AtRest.settle {d : Declarations} {i : Instance} (h : i.AtRest d)
    (ending : Ending Machine) : (i.settle ending).2.AtRest d := by
  have hended : i.ended.AtRest d :=
    ⟨h.declared, by simp [Instance.ended], fun m hm => by cases hm⟩
  cases ending with
  | value m =>
    simp only [Instance.settle]
    split
    case isTrue hs =>
      refine ⟨h.declared, by simp, fun m' hm' => ?_⟩
      cases hm'
      refine .inr ?_
      unfold Machine.isSuspended at hs
      split at hs
      case h_1 hc => exact hc
      case h_2 => cases hs
    case isFalse => exact hended
  | fault f => exact hended
  | outOfFuel => exact hended

/-- What a resume that returns has done to table and depth: nothing, or it has put the instance back
as its body has left it. -/
theorem World.resume_cases {cx : Context} {sv : Services} {fuel : Nat} {name : String} {w : World}
    (hret : (World.resume cx sv fuel name w).Returned) :
    (World.resume cx sv fuel name w).world.table = w.table ∧
        (World.resume cx sv fuel name w).world.depth = w.depth ∨
      ∃ i m w₁, w.table.slot? name = some (.parked i) ∧ i.body = .ok m ∧
        w₁.table = w.table.setSlot name (.running i.coroutine) ∧ w₁.depth = w.depth ∧
        (m.runs cx sv fuel w₁).Returned ∧
        (World.resume cx sv fuel name w).world =
          (m.runs cx sv fuel w₁).world.park name (i.settle (m.runs cx sv fuel w₁).ending).2 := by
  rw [World.resume_eq] at hret ⊢
  rcases hout : w.table.checkout name with ⟨e | i, t⟩
  · exact .inl ⟨rfl, rfl⟩
  · simp only [hout] at hret ⊢
    cases hbody : i.body with
    | error e => exact .inl ⟨World.table_park_of_checkout hout, World.depth_beginResume ..⟩
    | ok m =>
      obtain ⟨hparked, rfl⟩ := Table.checkout_ok hout
      simp only [hbody] at hret ⊢
      refine .inr ⟨i, m, World.beginResume cx
        { w with table := w.table.setSlot name (.running i.coroutine) } name i, hparked, hbody,
        World.table_beginResume .., World.depth_beginResume .., ?_⟩
      split
      case h_1 ho =>
        rw [ho] at hret
        exact absurd rfl hret
      case h_2 ho => exact ⟨ho, rfl⟩

/-- **Calls and resumes keep the world in order.** -/
theorem Link.orderly_keeps (cx : Context) : (Link.orderly cx.decls).Keeps cx Empty.elim where
  decls e := e.elim
  exhausted := fun _ _ hret => absurd hret Outcome.not_returned
  print line := by
    refine orderly_change World.atomic_print fun {w w'} hw hf => ?_
    obtain ⟨-, rfl⟩ := World.print_ok hf
    exact ⟨hw.of_table rfl, .of_table rfl rfl⟩
  declare name doc := orderly_update (fun w => by simp) fun w => by simp
  create name coroutine := by
    refine orderly_change World.atomic_create fun {w w'} hw hf => ?_
    obtain ⟨c, t, hc, ht, rfl⟩ := World.create_ok hf
    exact hw.insert (Instance.atRest_create _ hc) ht (by simp) (by simp)
  within f := by
    intro α x xs hx w hw hret
    rw [Function.within_apply] at hret ⊢
    by_cases hdepth : w.depth < cx.settings.maxCallDepth
    · simp only [Function.enter, hdepth, if_true] at hret ⊢
      have hx' := Eval.returned_of_leaving hret
      obtain ⟨hw', hb⟩ := hx _ (hw.of_table (by simp)) hx'
      rw [Eval.leaving_of_returned hx']
      refine ⟨hw'.of_table rfl, ?_, fun name c => ?_⟩
      · simp [World.leave, hb.depth]
      · simpa [World.leave] using hb.running name c
    · simp only [Function.enter, hdepth, if_false]
      exact ⟨hw, .refl w⟩
  resume := by
    intro sv svs fuel fuels hruns name w hw hret
    rcases World.resume_cases hret with
      ⟨htable, hdepth⟩ | ⟨i, m, w₁, hparked, -, htable, hdepth, hreturned, heq⟩
    · exact ⟨hw.of_table htable, .of_table hdepth htable⟩
    · -- Whether the body ended, yielded or failed, the instance goes back into its slot.
      have hw₁ : w₁.Orderly cx.decls := hw.setSlot (fun j hj => by cases hj) htable
      obtain ⟨hw₂, hb₂⟩ := hruns m w₁ hw₁ hreturned
      rw [heq]
      exact ⟨hw₂.park name ((hw name i hparked).settle _), .park hparked htable hdepth hb₂⟩

/-! ## Operations of the host -/

/-- What a host asks of an interpreter. -/
inductive Operation where
  | runMain
  | create (name coroutine : String)
  | resume (name : String)
  | restore (name : String) (inst : Instance)

/-- What a host is told. -/
inductive Reply where
  | ok
  | progress (p : Progress)
  | fault (f : Fault)
  /-- The operation has not ended. -/
  | outOfFuel
deriving DecidableEq

/-- The reply for the way in which a computation ended. -/
def Reply.ofEnding {α : Type} (reply : α → Reply) : Ending α → Reply
  | .value a => reply a
  | .fault f => .fault f
  | .outOfFuel => .outOfFuel

namespace Interpreter

/-- Performs an operation, with fuel for its runs. -/
def perform (i : Interpreter) (fuel : Nat) : Operation → Reply × Interpreter
  | .runMain =>
    let (ending, i) := i.runMain fuel
    (.ofEnding (fun _ => .ok) ending, i)
  | .create name coroutine =>
    let (answer, i) := i.create name coroutine
    (.ofEnding (fun _ => .ok) (.ofExcept answer), i)
  | .resume name =>
    let (ending, i) := i.resume fuel name
    (.ofEnding .progress ending, i)
  | .restore name inst =>
    let (answer, i) := i.restore name inst
    (.ofEnding (fun _ => .ok) (.ofExcept answer), i)

end Interpreter

/-- An operation as a computation. -/
def Operation.eval (cx : Context) (main : Block) (fuel : Nat) : Operation → Eval Reply
  | .runMain => do
    let _ ← (Machine.start main .empty .main).runs cx (services cx fuel) fuel
    return .ok
  | .create name coroutine => do
    Eval.change (World.create cx name coroutine)
    return .ok
  | .resume name => do
    let p ← World.resume cx (services cx fuel) fuel name
    return .progress p
  | .restore name inst => do
    Eval.change (World.restore cx name inst)
    return .ok

theorem Interpreter.perform_eq (i : Interpreter) (fuel : Nat) (op : Operation) :
    i.perform fuel op =
      (.ofEnding id (op.eval i.context i.main fuel i.world).ending,
        { i with world := (op.eval i.context i.main fuel i.world).world }) := by
  cases op with
  | runMain =>
    simp only [Interpreter.perform, Interpreter.runMain, Interpreter.services, Operation.eval,
      Eval.bind_apply, Machine.runs, Stepped.outcome]
    rcases (Machine.start i.main .empty .main).run i.context (CoLang.services i.context fuel) fuel
      i.world with ⟨verdict, m, w⟩
    cases verdict <;> rfl
  | create name coroutine =>
    simp only [Interpreter.perform, Interpreter.create, Operation.eval, Eval.bind_apply,
      Eval.change]
    rcases i.world.create i.context name coroutine with ⟨f | -, w⟩ <;> rfl
  | resume name =>
    simp only [Interpreter.perform, Interpreter.resume, Interpreter.services, Operation.eval,
      Eval.bind_apply]
    rcases World.resume i.context (CoLang.services i.context fuel) fuel name i.world with
      ⟨ending, w⟩
    cases ending <;> rfl
  | restore name inst =>
    simp only [Interpreter.perform, Interpreter.restore, Operation.eval, Eval.bind_apply,
      Eval.change]
    rcases i.world.restore i.context name inst with ⟨f | -, w⟩ <;> rfl

/-- Operations are linked, apart from what a restore puts into the table. -/
theorem Link.Keeps.operation {ι : Type} {L : Link ι} {cx : Context} {cxs : ι → Context}
    (h : L.Keeps cx cxs) (main : Block) (fuel : Nat) {op : Operation}
    (hrestore : ∀ name inst, op = .restore name inst →
      L.holds (.change (World.restore cx name inst))
        fun i => .change (World.restore (cxs i) name inst)) :
    L.holds (op.eval cx main fuel) fun i => op.eval (cxs i) main fuel := by
  cases op with
  | runMain => exact L.bind (runs (h.services fuel) h.exhausted fuel _) fun _ => L.pure _
  | create name coroutine => exact L.bind (h.create name coroutine) fun _ => L.pure _
  | resume name => exact L.bind ((h.services (fuel + 1)).resume name) fun _ => L.pure _
  | restore name inst => exact L.bind (hrestore name inst rfl) fun _ => L.pure _

/-! ## Declarations -/

namespace Declarations

theorem eq_of_addFunction {d d' : Declarations} {f : Function} (h : d.addFunction f = .ok d') :
    d' = { d with functions := d.functions ++ [f] } := by
  unfold addFunction at h
  cases hfree : d.checkFree f.name with
  | error e =>
    rw [hfree] at h
    cases h
  | ok u =>
    rw [hfree] at h
    cases hp : repeatedParam? f.params [] with
    | some p =>
      simp only [hp] at h
      cases h
    | none =>
      simp only [hp] at h
      cases h
      rfl

theorem eq_of_addCoroutine {d d' : Declarations} {c : Coroutine} (h : d.addCoroutine c = .ok d') :
    d' = { d with coroutines := d.coroutines ++ [c] } := by
  unfold addCoroutine at h
  cases hfree : d.checkFree c.name with
  | error e =>
    rw [hfree] at h
    cases h
  | ok u =>
    rw [hfree] at h
    cases h
    rfl

/-- Where each step adds one declaration, all of them together add all. -/
theorem eq_of_foldlM {α : Type} {step : Declarations → α → Except Fault Declarations}
    (add : Declarations → List α → Declarations) (hnil : ∀ d, add d [] = d)
    (hstep : ∀ {d d' x}, step d x = .ok d' → ∀ xs, add d (x :: xs) = add d' xs) {xs : List α}
    {d d' : Declarations} (h : xs.foldlM step d = .ok d') : d' = add d xs := by
  induction xs generalizing d with
  | nil =>
    cases h
    exact (hnil _).symm
  | cons x xs ih =>
    rw [List.foldlM_cons] at h
    cases hx : step d x with
    | error e =>
      rw [hx] at h
      cases h
    | ok d₁ =>
      rw [hx] at h
      rw [ih h, hstep hx]

/-- A table of declarations that is built holds them all, in order. -/
theorem eq_of_build {functions : List Function} {coroutines : List Coroutine} {d : Declarations}
    (h : build functions coroutines = .ok d) : d = ⟨functions, coroutines⟩ := by
  unfold build at h
  cases hf : functions.foldlM addFunction empty with
  | error e =>
    rw [hf] at h
    cases h
  | ok d₁ =>
    rw [hf] at h
    have hfunctions : d₁ = { empty with functions := empty.functions ++ functions } :=
      eq_of_foldlM (fun d fs => { d with functions := d.functions ++ fs }) (fun d => by simp)
        (fun hx xs => by simp [eq_of_addFunction hx]) hf
    have hcoroutines : d = { d₁ with coroutines := d₁.coroutines ++ coroutines } :=
      eq_of_foldlM (fun d cs => { d with coroutines := d.coroutines ++ cs }) (fun d => by simp)
        (fun hx xs => by simp [eq_of_addCoroutine hx]) h
    rw [hcoroutines, hfunctions]
    simp [empty]

end Declarations

/-! ## Reachable interpreters -/

/-- The interpreters, of programs with a property, that hosts get to by operations that return.
Instances that are restored were taken from such interpreters. -/
inductive Interpreter.ArisesFrom (P : Program → Prop) : Interpreter → Prop
  | build {p : Program} (hp : P p) {settings : Settings} {capacity : Option Nat}
      {identities : Nat → Identity} {i : Interpreter}
      (h : Interpreter.build p settings capacity identities = .ok i) : ArisesFrom P i
  | perform {i : Interpreter} (h : ArisesFrom P i) {fuel : Nat} {op : Operation}
      (hop : ∀ name inst, op ≠ .restore name inst) (hret : (i.perform fuel op).1 ≠ .outOfFuel) :
      ArisesFrom P (i.perform fuel op).2
  | restore {i i' : Interpreter} (h : ArisesFrom P i) (h' : ArisesFrom P i') {fuel : Nat}
      {name name' : String} {inst : Instance} (hinst : i'.instance? name' = some inst) :
      ArisesFrom P (i.perform fuel (.restore name inst)).2

/-- The interpreters of one program that hosts get to. -/
abbrev Interpreter.Reachable (p : Program) : Interpreter → Prop :=
  ArisesFrom (· = p)

/-- The interpreters, of any programs, that hosts get to. -/
abbrev Interpreter.Arises : Interpreter → Prop :=
  ArisesFrom fun _ => True

/-- No call is under way, no instance is out, and all of them are at rest. -/
structure Interpreter.AtRest (i : Interpreter) : Prop where
  orderly : i.world.Orderly i.context.decls
  depth : i.world.depth = 0
  parked : ∀ name coroutine, i.world.table.slot? name ≠ some (.running coroutine)

theorem Interpreter.returned_of_perform {i : Interpreter} {fuel : Nat} {op : Operation}
    (h : (i.perform fuel op).1 ≠ .outOfFuel) :
    (op.eval i.context i.main fuel i.world).Returned := by
  intro ho
  rw [Interpreter.perform_eq, ho] at h
  exact h rfl

/-- An operation leaves an interpreter at rest, if no jump but a yield is pending in what it
restores. -/
theorem Interpreter.AtRest.perform {i : Interpreter} (h : i.AtRest) {fuel : Nat} {op : Operation}
    (hop : ∀ name inst, op = .restore name inst → ∀ m, inst.machine = some m →
      m.control = .idle ∨ m.control = .yielding)
    (hret : (i.perform fuel op).1 ≠ .outOfFuel) : (i.perform fuel op).2.AtRest := by
  have hlink := (Link.orderly_keeps i.context).operation i.main fuel
    fun name inst heq => Link.orderly_change World.atomic_restore fun {w w'} hw hf => by
      obtain ⟨hdeclared, hlife, t, ht, rfl⟩ := World.restore_ok hf
      exact hw.insert ⟨hdeclared, hlife, hop name inst heq⟩ ht rfl rfl
  obtain ⟨horderly, hbalanced⟩ := hlink i.world h.orderly (returned_of_perform hret)
  rw [Interpreter.perform_eq]
  refine ⟨horderly, hbalanced.depth.trans h.depth, fun name coroutine hs => ?_⟩
  exact h.parked name coroutine ((hbalanced.running name coroutine).1 hs)

theorem Interpreter.context_perform (i : Interpreter) (fuel : Nat) (op : Operation) :
    (i.perform fuel op).2.context = i.context := by
  rw [Interpreter.perform_eq]

theorem Interpreter.main_perform (i : Interpreter) (fuel : Nat) (op : Operation) :
    (i.perform fuel op).2.main = i.main := by
  rw [Interpreter.perform_eq]

theorem Interpreter.build_ok_iff {p : Program} {settings : Settings} {capacity : Option Nat}
    {identities : Nat → Identity} {i : Interpreter} :
    Interpreter.build p settings capacity identities = .ok i ↔
      ∃ d, Declarations.build p.functions p.coroutines = .ok d ∧
        i = ⟨⟨d, settings, capacity, identities⟩, p.main, .initial⟩ := by
  unfold Interpreter.build
  cases Declarations.build p.functions p.coroutines with
  | error e =>
    constructor
    · intro h
      cases h
    · rintro ⟨d, hd, -⟩
      cases hd
  | ok d =>
    constructor
    · intro h
      cases h
      exact ⟨d, rfl, rfl⟩
    · rintro ⟨d', hd, rfl⟩
      cases hd
      rfl

/-- A restore does not run anything, so it returns. -/
theorem Interpreter.restore_returns (i : Interpreter) (fuel : Nat) (name : String)
    (inst : Instance) : (i.perform fuel (.restore name inst)).1 ≠ .outOfFuel := by
  simp only [Interpreter.perform]
  rcases i.restore name inst with ⟨f | -, i'⟩ <;> simp [Reply.ofEnding, Ending.ofExcept]

namespace Interpreter.ArisesFrom

variable {P : Program → Prop} {i : Interpreter}

/-- An interpreter still runs the program that it was built for. -/
theorem program (h : i.ArisesFrom P) :
    ∃ p, P p ∧ Declarations.build p.functions p.coroutines = .ok i.context.decls ∧
      i.main = p.main := by
  induction h with
  | @build p hp settings capacity identities i h =>
    obtain ⟨d, hd, rfl⟩ := Interpreter.build_ok_iff.1 h
    exact ⟨p, hp, hd, rfl⟩
  | perform _ _ _ ih => rwa [context_perform, main_perform]
  | restore _ _ _ ih _ => rwa [context_perform, main_perform]

/-- **Between operations an interpreter is at rest.** -/
theorem atRest (h : i.ArisesFrom P) : i.AtRest := by
  induction h with
  | build _ h =>
    obtain ⟨d, -, rfl⟩ := Interpreter.build_ok_iff.1 h
    refine ⟨fun name i hi => ?_, rfl, fun name c hc => ?_⟩
    · cases hi
    · cases hc
  | perform _ hop hret ih => exact ih.perform (fun name inst heq => absurd heq (hop name inst)) hret
  | @restore i i' h h' fuel name name' inst hinst ih ih' =>
    refine ih.perform (fun n j heq => ?_) (restore_returns i fuel name inst)
    cases heq
    exact (ih'.orderly name' inst (Table.get?_eq_some_iff.1 hinst)).control

end Interpreter.ArisesFrom

theorem Interpreter.Reachable.build {p : Program} {settings : Settings} {capacity : Option Nat}
    {identities : Nat → Identity} {i : Interpreter}
    (h : Interpreter.build p settings capacity identities = .ok i) : Reachable p i :=
  ArisesFrom.build (P := (· = p)) rfl h

theorem Interpreter.Reachable.program {p : Program} {i : Interpreter} (h : Reachable p i) :
    Declarations.build p.functions p.coroutines = .ok i.context.decls ∧ i.main = p.main := by
  obtain ⟨p', rfl, hbuilt⟩ := ArisesFrom.program h
  exact hbuilt

end CoLang
