import CoLang.Proofs.Bodies
import CoLang.Proofs.Yields
/-!
# Resumes that run to the end

A body that holds no yield of its own is not stopped by the yields of others: whatever is called,
created or resumed on its way, its machine stays steady (`Machine.Steady.runs`). So a resume that
runs such a body leaves the instance completed, if it returns (`World.resume_of_steady`). An
instance that was never resumed is as it was created, at every moment of every session
(`Interpreter.ArisesFrom.created`).
-/

namespace CoLang

/-! ## One resume -/

/-- **A run keeps a machine steady.** -/
theorem Machine.Steady.runs {m : Machine} (h : m.Steady) (cx : Context) (sv : Services)
    (fuel : Nat) : (m.runs cx sv fuel).Gives Machine.Steady := by
  induction fuel generalizing m with
  | zero => exact .exhausted
  | succ fuel ih =>
    rw [Machine.runs_succ]
    refine .bind (h.advance cx sv) ?_
    rintro ⟨more, m'⟩ hm'
    cases more with
    | true => exact ih hm'
    | false => exact .pure hm'

/-- A resume is settled as the end of its instance, unless the machine stopped at a yield. -/
theorem Instance.settle_of_steady (i : Instance) {ending : Ending Machine}
    (h : ∀ m, ending = .value m → m.Steady) (hret : ending ≠ .outOfFuel) :
    ((i.settle ending).1 = .value .completed ∨ ∃ f, (i.settle ending).1 = .fault f) ∧
      (i.settle ending).2 = i.ended := by
  cases ending with
  | value m =>
    have hm := (h m rfl).not_suspended
    simp [Instance.settle, hm]
  | fault f => exact ⟨.inr ⟨f, rfl⟩, rfl⟩
  | outOfFuel => exact absurd rfl hret

/-- **A resume of a steady machine leaves its instance completed**, if it returns. -/
theorem World.resume_of_steady {cx : Context} {sv : Services} {fuel : Nat} {name : String}
    {w : World} {i : Instance} {m : Machine} (hslot : w.table.slot? name = some (.parked i))
    (hbody : i.body = .ok m) (hm : m.Steady) (hret : (World.resume cx sv fuel name w).Returned) :
    ((World.resume cx sv fuel name w).ending = .value .completed ∨
      ∃ f, (World.resume cx sv fuel name w).ending = .fault f) ∧
    (World.resume cx sv fuel name w).world.table.slot? name = some (.parked i.ended) := by
  rw [World.resume_eq] at hret ⊢
  simp only [Table.checkout_of_parked hslot, hbody] at hret ⊢
  split
  case h_1 hending =>
    rw [hending] at hret
    exact absurd rfl hret
  case h_2 hending =>
    have hsteady := hm.runs cx sv fuel
    obtain ⟨hfinal, hended⟩ := i.settle_of_steady (fun m' hm' => hsteady.of_ending hm') hending
    refine ⟨hfinal, ?_⟩
    rw [hended]
    exact Table.slot?_setSlot_self

/-! ## Instances that were never resumed -/

/-- A property that created instances have, and all that were resumed, is kept by what an operation
does to the table. -/
theorem World.Parks.shift {P : Instance → Prop} {cx : Context} {given : Instance → Prop}
    {σ σ' : List Role} {w w' : World}
    (hcreate : ∀ id, ∀ c ∈ cx.decls.coroutines, P (.create id c))
    (hsettle : ∀ i ending, P (Instance.settle i ending).2) (hgiven : ∀ i, given i → P i)
    (h : w.Parks P) (hs : Shift cx given σ w σ' w') : w'.Parks P := by
  cases hs with
  | stays => exact h
  | main => exact h
  | effect he => exact h.effect hcreate he
  | restores hi hw =>
    obtain ⟨-, -, t, ht, rfl⟩ := World.restore_ok hw
    exact h.insert (hgiven _ hi) ht rfl
  | calls hw =>
    obtain ⟨-, rfl⟩ := Function.enter_ok hw
    exact h.of_table (by rw [World.table_record])
  | resumes hout hbody =>
    obtain ⟨-, rfl⟩ := Table.checkout_ok hout
    exact h.setSlot (fun j hj => by cases hj) (World.table_beginResume ..)
  | refuses hout hbody => exact h.of_table (World.table_park_of_checkout hout)
  | @closes _ _ role x =>
    cases role with
    | main => exact h
    | call f => exact h
    | resume name i => exact h.park name (hsettle i _)

/-- If it was never resumed, the instance is as it was created by a program with a property. -/
def Instance.Created (P : Program → Prop) (i : Instance) : Prop :=
  i.life = .fresh → ∃ p, P p ∧ ∃ id, ∃ c ∈ p.coroutines, i = .create id c

theorem Instance.created_settle (P : Program → Prop) (i : Instance) (ending : Ending Machine) :
    (i.settle ending).2.Created P := by
  intro hfresh
  unfold Instance.settle at hfresh
  split at hfresh
  · split at hfresh <;> cases hfresh
  · cases hfresh
  · cases hfresh

namespace Interpreter.ArisesFrom

variable {P : Program → Prop} {i : Interpreter}

theorem created_of_parks (h : i.ArisesFrom P) {op : Operation}
    (hop : ∀ name inst, op = .restore name inst → inst.Created P)
    (hw : i.world.Parks (Instance.Created P)) {z : Moment}
    (hz : (Moment.begins i.main op i.world).Leads i.context z) :
    z.world.Parks (Instance.Created P) := by
  obtain ⟨p, hp, hbuild, -⟩ := h.program
  have hdecls := Declarations.eq_of_build hbuild
  have hcreate : ∀ id, ∀ c ∈ i.context.decls.coroutines, (Instance.create id c).Created P := by
    intro id c hc _
    rw [hdecls] at hc
    exact ⟨p, hp, id, c, hc, rfl⟩
  suffices hall : (∀ j, z.Given j → j.Created P) ∧ z.world.Parks (Instance.Created P) from hall.2
  refine hz.keeps (P := fun y => (∀ j, y.Given j → j.Created P) ∧
    y.world.Parks (Instance.Created P)) ?_ ⟨?_, hw⟩
  · rintro y y' ⟨hgiven, hy⟩ hnext
    refine ⟨?_, hy.shift hcreate (Instance.created_settle P) hgiven (Moment.next_shift hnext)⟩
    -- Only the first moment of an operation hands an instance in.
    rintro j ⟨main, name, w, rfl⟩
    exact absurd hnext Moment.next_ne_begins
  · rintro j ⟨main, name, w, heq⟩
    cases heq
    exact hop name j rfl

theorem parks_created (h : i.ArisesFrom P) : i.world.Parks (Instance.Created P) :=
  h.parks_of_perform fun hi hw hop hret => hi.created_of_parks hop hw (leads_finished hret)

/-- **An instance that was never resumed is as it was created**, at every moment of every session.
-/
theorem created (h : i.ArisesFrom P) {op : Operation} (hop : op.Captured P) {z : Moment}
    (hz : (Moment.begins i.main op i.world).Leads i.context z) :
    z.world.Parks (Instance.Created P) := by
  refine created_of_parks h (fun name inst heq => ?_) h.parks_created hz
  obtain ⟨i', name', hi', hinst⟩ := hop name inst heq
  exact hi'.parks_created name' inst (Table.get?_eq_some_iff.1 hinst)

end Interpreter.ArisesFrom

/-! ## Sessions -/

/-- No yield stands in the body of the coroutine of this name, at whatever depth. -/
def Program.NeverYields (coroutine : String) (p : Program) : Prop :=
  ∀ c ∈ p.coroutines, c.name = coroutine → Stmt.yieldFreeBlock c.body = true

/-- **Yields of others never suspend.** If no yield stands in the body of a coroutine, then at every
moment of a session a resume of an instance of it that was never resumed, if it returns, has
completed or failed, and leaves the instance completed. Nothing is assumed of what serves the calls
and resumes of the body, so instances that it resumes may well be suspended. -/
theorem Interpreter.completes_of_neverYields {coroutine : String} {i : Interpreter}
    (h : i.ArisesFrom (·.NeverYields coroutine)) {op : Operation}
    (hop : op.Captured (·.NeverYields coroutine)) {z : Moment}
    (hz : (Moment.begins i.main op i.world).Leads i.context z) {name : String} {inst : Instance}
    (hslot : z.world.table.slot? name = some (.parked inst)) (hof : inst.coroutine = coroutine)
    (hfresh : inst.life = .fresh) (sv : Services) (fuel : Nat)
    (hret : (World.resume i.context sv fuel name z.world).Returned) :
    ((World.resume i.context sv fuel name z.world).ending = .value .completed ∨
      ∃ f, (World.resume i.context sv fuel name z.world).ending = .fault f) ∧
    (World.resume i.context sv fuel name z.world).world.table.slot? name =
      some (.parked inst.ended) := by
  obtain ⟨p, hp, id, c, hc, rfl⟩ := h.created hop hz name inst hslot hfresh
  have hfree : Stmt.yieldFreeBlock c.body = true := hp c hc hof
  have hsteady := Machine.steady_start_of_yieldFree hfree .empty .coroutine
  exact World.resume_of_steady hslot rfl hsteady hret

/-- While main runs, a coroutine without yields creates and resumes one that stops at a yield, and
calls a function that resumes it again. -/
theorem Interpreter.completes_of_neverYields_inner :
    let c : Coroutine := ⟨"c", [.create "b" "d", .resume "b", .expr (.call "f" [])], none⟩
    let d : Coroutine := ⟨"d", [.whileLoop (.lit (.bool true)) [.yield]], none⟩
    let f : Function := ⟨"f", [], none, [.resume "b"], none⟩
    let p : Program := ⟨[f], [c, d], [.create "a" "c", .resume "a"]⟩
    let i : Interpreter := ⟨⟨⟨[f], [c, d]⟩, .default, none, default⟩, p.main, .initial⟩
    let start := Moment.begins i.main .runMain i.world
    ∃ z inst, start.Leads i.context z ∧ z.world.table.get? "a" = some inst ∧
      inst.coroutine = "c" ∧ inst.life = .fresh ∧
      let r := World.resume i.context (i.services 40) 40 "a" z.world
      (r.world.table.get? "b").map (fun inst => (inst.life, inst.resumes)) = some (.suspended, 2) ∧
      (r.ending = .value .completed ∨ ∃ f, r.ending = .fault f) ∧
      r.world.table.slot? "a" = some (.parked inst.ended) := by
  intro c d f p i start
  have hp : p.NeverYields "c" := by
    intro c' hc' hname
    rcases List.mem_pair.1 hc' with rfl | rfl
    · rfl
    · exact absurd hname (by decide)
  have hi : i.ArisesFrom (·.NeverYields "c") := .build hp (build_ok_iff.2 ⟨_, rfl, rfl⟩)
  have hop : Operation.runMain.Captured (·.NeverYields "c") := Operation.captured_of_ne (by simp)
  -- The moment at which main has created the instance, and what a resume comes to there.
  have hmoment : (start.after i.context 4).map (fun z =>
      ((z.world.table.get? "a").map fun inst => (inst.coroutine, inst.life),
        let r := World.resume i.context (i.services 40) 40 "a" z.world
        (Reply.ofEnding .progress r.ending,
          (r.world.table.get? "b").map fun inst => (inst.life, inst.resumes)))) =
      some (some ("c", .fresh), .progress .completed, some (.suspended, 2)) := by decide +kernel
  obtain ⟨z, hz, hat⟩ := Option.map_eq_some_iff.1 hmoment
  obtain ⟨hinst, hresumed⟩ := Prod.mk.inj hat
  obtain ⟨hreply, hb⟩ := Prod.mk.inj hresumed
  obtain ⟨inst, hslot, hinst⟩ := Option.map_eq_some_iff.1 hinst
  obtain ⟨hof, hfresh⟩ := Prod.mk.inj hinst
  have hret : (World.resume i.context (i.services 40) 40 "a" z.world).Returned := by
    intro ho
    rw [ho] at hreply
    cases hreply
  exact ⟨z, inst, ⟨4, hz⟩, hslot, hof, hfresh, hb, completes_of_neverYields hi hop ⟨4, hz⟩
    (Table.get?_eq_some_iff.1 hslot) hof hfresh (i.services 40) 40 hret⟩

end CoLang
