import CoLang.Proofs.Inheritance
import CoLang.Proofs.Parked
/-!
# Instances that nothing names

Instances are created and resumed by name, and the names stand in the program. All code that is ever
run comes from the program, also the code that parked machines go on with. So an instance whose name
stands in no `create` and no `resume` of the program is only ever touched by a host that names it
(`Interpreter.untouched_unless_named`), however deep calls and resumes nest.
-/

namespace CoLang

/-! ## Programs that do not name an instance -/

/-- Whether the statement creates or resumes the instance of a name. -/
def Stmt.names (name : String) : Stmt → Bool
  | .create n _ => n == name
  | .resume n => n == name
  | _ => false

/-- Whether a statement and all that stands in it, however deep, leaves a name out. -/
def Stmt.spares (name : String) (s : Stmt) : Bool :=
  s.all fun s => !s.names name

/-- Whether all statements of a body leave a name out. -/
def Block.spares (name : String) (body : Block) : Bool :=
  body.all (Stmt.spares name)

/-- Whether no statement of the program, in whatever body, creates or resumes the instance of a
name. -/
def Program.spares (name : String) (p : Program) : Bool :=
  p.main.spares name && p.functions.all (fun f => Block.spares name f.body) &&
    p.coroutines.all fun c => Block.spares name c.body

theorem Block.spares_iff {name : String} {body : Block} :
    body.spares name = true ↔ ∀ s ∈ body, s.spares name = true :=
  List.all_eq_true

theorem Stmt.hereditary_spares (name : String) : Hereditary fun s => s.spares name = true :=
  hereditary_all _

theorem Stmt.spares_create {name n coroutine : String} :
    (Stmt.create n coroutine).spares name = true ↔ name ≠ n := by
  simp only [Stmt.spares, Stmt.all, Stmt.names, Bool.not_eq_true', beq_eq_false_iff_ne]
  exact ne_comm

theorem Stmt.spares_resume {name n : String} :
    (Stmt.resume n).spares name = true ↔ name ≠ n := by
  simp only [Stmt.spares, Stmt.all, Stmt.names, Bool.not_eq_true', beq_eq_false_iff_ne]
  exact ne_comm

/-! ## Worlds in which a slot stays -/

/-- The machine of the instance runs a body that leaves a name out. -/
def Instance.Spares (name : String) (i : Instance) : Prop :=
  i.Runs fun _ body => body.spares name = true

/-- The slot of a name is as it was, and what parked machines run leaves the name out. -/
structure World.Spared (name : String) (w w' : World) : Prop where
  parks : w'.Parks (Instance.Spares name)
  slot? : w'.table.slot? name = w.table.slot? name

namespace World.Spared

variable {name : String} {w w' w'' : World}

theorem trans (h : w.Spared name w') (h' : w'.Spared name w'') : w.Spared name w'' :=
  ⟨h'.parks, h'.slot?.trans h.slot?⟩

theorem of_table (h : w.Spared name w') (ht : w''.table = w'.table) : w.Spared name w'' := by
  refine ⟨h.parks.of_table ht, ?_⟩
  rw [ht]
  exact h.slot?

/-- Another slot may be filled with an instance whose code leaves the name out. -/
theorem setSlot (h : w.Spared name w') {other : String} {s : Slot} (hne : name ≠ other)
    (hs : ∀ i, s = .parked i → i.Spares name) (ht : w''.table = w'.table.setSlot other s) :
    w.Spared name w'' := by
  refine ⟨h.parks.setSlot hs ht, ?_⟩
  rw [ht, Table.slot?_setSlot_of_ne hne]
  exact h.slot?

end World.Spared

namespace Link

/-- A computation leaves the slot of a name as it is, however it ends. -/
def spares (name : String) : Link Empty where
  holds x _ := ∀ w : World, w.Parks (Instance.Spares name) → w.Spared name (x w).world
  ofExcept _ := fun _ hw => ⟨hw, rfl⟩
  bind := by
    intro α β x xs f fs hx hf w hw
    have hxw := hx w hw
    rcases hend : x w with ⟨a | e | _, w₁⟩ <;> rw [hend] at hxw
    · rw [Eval.bind_of_value hend]
      exact hxw.trans (hf a w₁ hxw.parks)
    · rw [Eval.bind_of_fault hend]
      exact hxw
    · rw [Eval.bind_of_outOfFuel hend]
      exact hxw

variable {name : String}

theorem spares_change {f : World → Except Fault Unit × World} {xs : Empty → Eval Unit}
    (hatomic : Atomic f)
    (h : ∀ {w w'}, w.Parks (Instance.Spares name) → f w = (.ok (), w') → w.Spared name w') :
    (spares name).holds (.change f) xs := by
  intro w hw
  rw [Eval.change_apply hatomic]
  rcases hf : f w with ⟨e | ⟨⟩, w'⟩
  · exact ⟨hw, rfl⟩
  · exact h hw hf

theorem spares_of_table {x : Eval Unit} {xs : Empty → Eval Unit}
    (h : ∀ w, (x w).world.table = w.table) : (spares name).holds x xs := by
  intro w hw
  exact World.Spared.of_table ⟨hw, rfl⟩ (h w)

theorem spares_leaving {α : Type} {x : Eval α} {xs : Empty → Eval α}
    (h : (spares name).holds x xs) : (spares name).holds x.leaving fun i => (xs i).leaving := by
  intro w hw
  unfold Eval.leaving
  dsimp only
  split
  · exact h w hw
  · exact (h w hw).of_table rfl

/-- The instance that a resume puts back goes on running the body that it ran before. -/
theorem spares_settle {cx : Context} {sv : Services} {fuel : Nat} {w : World} {i : Instance}
    {m : Machine} (hi : i.Spares name) (hbody : i.body = .ok m) :
    (i.settle (m.runs cx sv fuel w).ending).2.Spares name := by
  intro m' hm'
  obtain ⟨m₀, hm₀, rfl⟩ := Instance.machine_of_body hbody
  obtain ⟨body, hspares, hsound⟩ := hi m₀ hm₀
  obtain ⟨hending, -⟩ := Instance.machine_settle hm'
  exact ⟨body, hspares, (hsound.clearYield.runs cx sv fuel).of_ending hending⟩

theorem spares_resume {cx : Context} {sv : Services} {fuel : Nat}
    (hruns : ∀ {body : Block} {d₀ : Nat} {kind : BodyKind} {m : Machine},
      (∀ s ∈ body, s.spares name = true) → m.Sound body d₀ kind →
      (spares name).holds (m.runs cx sv fuel) Empty.elim)
    {other : String} (hne : name ≠ other) {xs : Empty → Eval Progress} :
    (spares name).holds (World.resume cx sv fuel other) xs := by
  intro w hw
  rw [World.resume_eq]
  rcases hout : w.table.checkout other with ⟨e | i, t⟩
  · exact ⟨hw, rfl⟩
  · obtain ⟨hparked, rfl⟩ := Table.checkout_ok hout
    have hi := hw other i hparked
    -- The world in which the body runs, with the instance out of the table.
    obtain ⟨w₁, hw₁⟩ : ∃ w₁, w₁ = World.beginResume cx
      { w with table := w.table.setSlot other (.running i.coroutine) } other i := ⟨_, rfl⟩
    have hbegun : w.Spared name w₁ := by
      refine World.Spared.setSlot ⟨hw, rfl⟩ hne (fun j hj => ?_) (s := .running i.coroutine) ?_
      · cases hj
      · simp [hw₁]
    simp only [← hw₁]
    cases hbody : i.body with
    | error e =>
      subst hw₁
      exact .of_table ⟨hw, rfl⟩ (World.table_park_of_checkout hout)
    | ok m =>
      obtain ⟨m₀, hm₀, hm⟩ := Instance.machine_of_body hbody
      obtain ⟨body, hspares, hsound⟩ := hi m₀ hm₀
      have hran := hruns (Block.spares_iff.1 hspares) hsound.clearYield w₁ hbegun.parks
      rw [← hm] at hran
      have hall := hbegun.trans hran
      simp only
      split
      · exact hall
      · refine hall.setSlot hne (fun j hj => ?_) rfl
        cases hj
        exact spares_settle hi hbody

/-- **Calls and resumes leave the slot of a name that the program leaves out.** -/
theorem spares_keeps {cx : Context}
    (hfunctions : ∀ f ∈ cx.decls.functions, Block.spares name f.body = true)
    (hcoroutines : ∀ c ∈ cx.decls.coroutines, Block.spares name c.body = true) :
    (spares name).KeepsOn (fun s => s.spares name = true) cx Empty.elim where
  decls e := e.elim
  functions f hf := Block.spares_iff.1 (hfunctions f hf)
  exhausted := fun _ hw => ⟨hw, rfl⟩
  print line := by
    apply spares_change World.atomic_print
    intro w w' hw hf
    obtain ⟨-, rfl⟩ := World.print_ok hf
    exact ⟨hw.of_table rfl, rfl⟩
  declare n doc := spares_of_table fun w => by simp [Eval.update]
  create n coroutine h := by
    apply spares_change World.atomic_create
    intro w w' hw hf
    obtain ⟨c, t, hc, ht, rfl⟩ := World.create_ok hf
    obtain ⟨-, rfl⟩ := Table.insert_ok ht
    refine World.Spared.setSlot ⟨hw, rfl⟩ (Stmt.spares_create.1 h) (fun j hj => ?_)
      (s := .parked (.create (cx.identities w.created) c)) (by simp)
    cases hj
    intro m hm
    cases hm
    exact ⟨c.body, hcoroutines c (List.mem_of_find?_eq_some hc),
      Machine.sound_start c.body .empty .coroutine⟩
  within f := by
    intro α x xs hx
    refine (spares name).bind (spares_change Function.atomic_enter ?_) fun _ =>
      (spares name).bind (spares_of_table fun w => by simp [Eval.update]) fun _ =>
        spares_leaving hx
    intro w w' hw hf
    obtain ⟨-, rfl⟩ := Function.enter_ok hf
    exact ⟨hw.of_table rfl, rfl⟩
  resume := by
    intro sv svs fuel hruns n hn
    apply spares_resume
    · intro body d₀ kind m hbody hm
      exact hruns hbody hm
    · exact Stmt.spares_resume.1 hn

end Link

/-! ## Operations -/

/-- The name of the instance that an operation is about. -/
def Operation.target? : Operation → Option String
  | .runMain => none
  | .create name _ => some name
  | .resume name => some name
  | .restore name _ => some name

namespace Interpreter

variable {p : Program} {i : Interpreter} {name : String}

theorem Reachable.parks_spares (h : Reachable p i) (hp : p.spares name = true) :
    i.world.Parks (Instance.Spares name) := by
  simp only [Program.spares, Bool.and_eq_true, List.all_eq_true] at hp
  refine h.parks fun cx hcx => Instance.runs_kept (fun _ body => body.spares name = true) ?_
  intro n c hc
  have hmem := List.mem_of_find?_eq_some hc
  rw [hcx] at hmem
  exact hp.2 c hmem

/-- An operation that is not about a name leaves its slot, if the program leaves the name out. -/
theorem Reachable.slot?_perform (h : Reachable p i) (hp : p.spares name = true) {op : Operation}
    (hop : op.target? ≠ some name) (fuel : Nat) :
    (i.perform fuel op).2.world.table.slot? name = i.world.table.slot? name := by
  have hparks := h.parks_spares hp
  simp only [Program.spares, Bool.and_eq_true, List.all_eq_true] at hp
  have hdecls := Declarations.eq_of_build h.program.1
  have hkeeps :
      (Link.spares name).KeepsOn (fun s => s.spares name = true) i.context Empty.elim := by
    apply Link.spares_keeps
    · rw [hdecls]
      exact hp.1.2
    · rw [hdecls]
      exact hp.2
  have hserves := fun n => hkeeps.services (Stmt.hereditary_spares name) n
  have hne : ∀ {n}, op.target? = some n → name ≠ n := by
    rintro n htarget rfl
    exact hop htarget
  -- A reply is all that comes behind the computation of an operation.
  have hreplied : ∀ {α : Type} {x : Eval α} (reply : α → Reply),
      (Link.spares name).holds x Empty.elim →
      ((x >>= fun a => pure (reply a)) i.world).world.table.slot? name =
        i.world.table.slot? name := by
    intro α x reply hx
    have hspared := (Link.spares name).bind hx fun a => (Link.spares name).pure (reply a)
    exact (hspared i.world hparks).slot?
  rw [perform_eq]
  cases op with
  | runMain =>
    have hmain : ∀ s ∈ i.main, s.spares name = true := by
      rw [h.program.2]
      exact Block.spares_iff.1 hp.1.1
    apply hreplied fun _ => .ok
    exact Link.runsOn (hserves fuel) hkeeps.exhausted (Stmt.hereditary_spares name) hmain fuel
      (Machine.sound_start i.main .empty .main)
  | create n coroutine =>
    apply hreplied fun _ => .ok
    exact hkeeps.create n coroutine (Stmt.spares_create.2 (hne rfl))
  | resume n =>
    apply hreplied .progress
    exact (hserves (fuel + 1)).resume n (Stmt.spares_resume.2 (hne rfl))
  | restore n inst =>
    simp only [Operation.eval, Eval.bind_apply, Eval.change_apply World.atomic_restore]
    rcases hrestore : World.restore i.context n inst i.world with ⟨e | ⟨⟩, w⟩
    · rfl
    · obtain ⟨-, -, t, ht, rfl⟩ := World.restore_ok hrestore
      obtain ⟨-, rfl⟩ := Table.insert_ok ht
      exact Table.slot?_setSlot_of_ne (hne rfl)

/-- **An instance that nothing names is left alone.** Let no `create` and no `resume` in the program
name an instance, and let a host perform an operation that does not name it either. Then the
instance is exactly as it was, its stage of life, its machine and the number of its resumes, or is
missing as it was. This holds whether the operation succeeds, fails or has not ended. -/
theorem untouched_unless_named (h : Reachable p i) (hp : p.spares name = true) {op : Operation}
    (hop : op.target? ≠ some name) (fuel : Nat) :
    (i.perform fuel op).2.instance? name = i.instance? name ∧
      (i.perform fuel op).2.life? name = i.life? name := by
  have hslot := h.slot?_perform hp hop fuel
  constructor
  · rw [instance?, instance?, Table.get?, Table.get?, hslot]
  · rw [life?, life?, Table.life?, Table.life?, hslot]

/-- An instance has yielded once. The main body then resumes another one of the same coroutine, from
within a function, and this one fails when it goes on. -/
theorem untouched_unless_named_beside_error :
    let c : Coroutine := ⟨"c", [.yield, .assign "z" (.lit (.int 0))], none⟩
    let g : Function := ⟨"g", [], none, [.resume "b", .resume "b"], none⟩
    let p : Program := ⟨[g], [c], [.create "b" "c", .expr (.call "g" [])]⟩
    let i₀ : Interpreter := ⟨⟨⟨[g], [c]⟩, .default, none, default⟩, p.main, .initial⟩
    let i₁ := (i₀.perform 0 (.create "a" "c")).2
    let i := (i₁.perform 9 (.resume "a")).2
    let j := (i.perform 30 .runMain).2
    i.Reachable p ∧ p.spares "a" = true ∧ i.life? "a" = some .suspended ∧
      (i.perform 30 .runMain).1 = .fault (.assignUndefined "z") ∧
      j.life? "b" = some .completed ∧
      j.instance? "a" = i.instance? "a" ∧ j.life? "a" = i.life? "a" := by
  intro c g p i₀ i₁ i j
  have hi₀ : i₀.Reachable p := .build (by rfl)
  have hi₁ : i₁.Reachable p := hi₀.perform (by simp) (by decide +kernel)
  have hi : i.Reachable p := hi₁.perform (by simp) (by decide +kernel)
  have hspares : p.spares "a" = true := by decide +kernel
  exact ⟨hi, hspares, by decide +kernel, by decide +kernel, by decide +kernel,
    untouched_unless_named hi hspares (by simp [Operation.target?]) 30⟩

end Interpreter

end CoLang
