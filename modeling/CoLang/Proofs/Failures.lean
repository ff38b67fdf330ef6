import CoLang.Proofs.LifeCycle
import CoLang.Proofs.Snapshot
/-!
# Resumes that fail

A resume that fails while it runs the body of an instance completes it, and its name is free for
another. So does one that is refused because the instance has completed before. There is one more
way to fail: a host may hand in an instance that calls itself fresh or suspended but comes without a
machine (`Instance.isHollow`). Every resume of it is refused, nothing changes, and the name stays
taken for good (`Interpreter.failed_resume_completes`).
-/

namespace CoLang

/-- Whether the instance may be resumed though there is no machine to run. -/
def Instance.isHollow (i : Instance) : Bool :=
  i.isResumable && i.machine.isNone

namespace Instance

variable {cx : Context} {given : Instance → Prop} {i j : Instance}

theorem isHollow_create (id : Identity) (c : Coroutine) :
    (Instance.create id c).isHollow = false := rfl

theorem Resumes.not_hollow (h : i.Resumes j) : j.isHollow = false := by
  cases h with
  | suspends hi hm => rfl
  | completes hi => rfl

/-- Resumes and creates make no hollow instances, so these are the ones that were handed in. -/
theorem Leads.given_of_hollow (h : i.Leads cx given j) (hj : j.isHollow = true) :
    j = i ∨ given j := by
  rcases Relation.ReflTransGen.cases_tail h with heq | ⟨k, -, hmove⟩
  · exact .inl heq
  · right
    cases hmove with
    | resumed hres =>
      rw [hres.not_hollow] at hj
      cases hj
    | replaced _ hnew =>
      rcases hnew with hgiven | ⟨n, c, -, rfl⟩
      · exact hgiven
      · rw [isHollow_create] at hj
        cases hj

theorem body_of_hollow (h : i.isHollow = true) : i.body = .error (.noMachine i.coroutine) := by
  simp only [isHollow, Bool.and_eq_true, Option.isNone_iff_eq_none] at h
  simp [body, h.1, h.2]

theorem not_completed_of_hollow (h : i.isHollow = true) : i.life ≠ .completed := by
  intro hlife
  simp [isHollow, isResumable, hlife] at h

/-- An instance that is not hollow is refused only because of the stage it is at. -/
theorem not_resumable_of_body_error {f : Fault} (h : i.body = .error f)
    (hsound : i.isHollow = false) : i.isResumable = false := by
  by_contra hi
  rw [Bool.not_eq_false] at hi
  obtain ⟨m, hm⟩ : ∃ m, i.machine = some m := by
    rw [← Option.isSome_iff_exists]
    simpa [isHollow, hi] using hsound
  simp [body, hi, hm] at h

theorem completed_of_not_resumable (h : i.isResumable = false) (hlife : i.life ≠ .running) :
    i.life = .completed := by
  cases hl : i.life with
  | running => exact absurd hl hlife
  | completed => rfl
  | _ => simp [isResumable, hl] at h

end Instance

/-- What a failed resume leaves of the instance: it has completed, or nothing was run and it is as
it was. -/
theorem World.slot?_of_resume_fault {cx : Context} {sv : Services} {fuel : Nat} {name : String}
    {w : World} {i : Instance} {f : Fault} (hi : w.table.slot? name = some (.parked i))
    (hf : (World.resume cx sv fuel name w).ending = .fault f) :
    (∃ m, i.body = .ok m) ∧
        (World.resume cx sv fuel name w).world.table.slot? name = some (.parked i.ended) ∨
      i.body = .error f ∧
        (World.resume cx sv fuel name w).world.table.slot? name = some (.parked i) := by
  rw [World.resume_eq] at hf ⊢
  simp only [Table.checkout_of_parked hi] at hf ⊢
  cases hbody : i.body with
  | error e =>
    right
    simp only [hbody] at hf ⊢
    cases hf
    exact ⟨rfl, Table.slot?_setSlot_self⟩
  | ok m =>
    left
    refine ⟨⟨m, rfl⟩, ?_⟩
    simp only [hbody] at hf ⊢
    generalize m.runs cx sv fuel _ = r at hf ⊢
    rcases r with ⟨m' | e | _, w'⟩
    · -- A run that ended with a machine is no failure.
      simp only [Instance.settle] at hf
      split at hf <;> cases hf
    · exact Table.slot?_setSlot_self
    · cases hf

theorem Instance.life_settle (i : Instance) (ending : Ending Machine) :
    (i.settle ending).2.life ≠ .running := by
  unfold Instance.settle
  split
  · split
    · simp
    · simp [Instance.ended]
  · simp [Instance.ended]
  · simp [Instance.ended]

namespace Interpreter

/-- The interpreters that a host gets to later on by operations that return, if it hands in such
instances. -/
inductive Later (given : Instance → Prop) (i : Interpreter) : Interpreter → Prop
  | refl : Later given i i
  | perform {j : Interpreter} (h : Later given i j) {fuel : Nat} {op : Operation}
      (hop : ∀ name inst, op = .restore name inst → given inst)
      (hret : (j.perform fuel op).1 ≠ .outOfFuel) : Later given i (j.perform fuel op).2

variable {p : Program} {given : Instance → Prop} {i j : Interpreter} {name : String}
  {inst : Instance}

theorem Driven.later (h : i.Driven p) (hj : i.Later given j) : j.Driven p := by
  induction hj with
  | refl => exact h
  | perform _ _ hret ih => exact ih.perform hret

theorem Later.context (hj : i.Later given j) : j.context = i.context := by
  induction hj with
  | refl => rfl
  | perform _ _ _ ih => rw [context_perform, ih]

theorem Driven.decls (h : i.Driven p) : i.context.decls = ⟨p.functions, p.coroutines⟩ := by
  induction h with
  | build h =>
    obtain ⟨d, hd, rfl⟩ := build_ok_iff.1 h
    exact Declarations.eq_of_build hd
  | perform _ _ ih => rw [context_perform, ih]

/-- No instance in the table is in the middle of a resume, since one that calls itself so is not
taken. -/
theorem Driven.not_running (h : i.Driven p) :
    i.world.Parks fun inst => inst.life ≠ .running := by
  induction h with
  | build h =>
    obtain ⟨d, -, rfl⟩ := build_ok_iff.1 h
    intro name inst hinst
    cases hinst
  | @perform i _ fuel op hret ih =>
    have hkept : Instance.Kept i.context fun inst => inst.life ≠ .running :=
      ⟨fun _ _ => by simp [Instance.create], fun _ _ _ _ _ _ => Instance.life_settle _ _⟩
    by_cases hop : ∃ name inst, op = .restore name inst ∧ inst.life = .running
    · obtain ⟨name, inst, rfl, hlife⟩ := hop
      have hrefused : (i.perform fuel (.restore name inst)).2 = i := by
        simp only [Interpreter.perform, Interpreter.restore]
        rcases hw : i.world.restore i.context name inst with ⟨f | ⟨⟩, w⟩
        · rw [World.atomic_restore hw]
        · exact absurd hlife (World.restore_ok hw).2.1
      rw [hrefused]
      exact ih
    · refine parks_perform hkept ih (fun name inst heq hlife => ?_) hret
      exact hop ⟨name, inst, heq, hlife⟩

/-- **An instance stays under its name**, or what has become of it. -/
theorem Later.instance? (h : i.Driven p) (hj : i.Later given j)
    (hi : i.instance? name = some inst) :
    ∃ inst', j.instance? name = some inst' ∧ inst.Leads i.context given inst' := by
  induction hj with
  | refl => exact ⟨inst, hi, .refl⟩
  | @perform j hj fuel op hop hret ih =>
    obtain ⟨inst₁, hinst₁, hleads₁⟩ := ih
    obtain ⟨inst₂, hinst₂, hleads₂⟩ := (h.later hj).instance?_perform hret hinst₁
    rw [hj.context] at hleads₂
    refine ⟨inst₂, hinst₂, hleads₁.trans (hleads₂.mono ?_)⟩
    rintro k ⟨other, heq⟩
    exact hop other k heq

/-- A name whose instance has completed can be given to a new one. -/
theorem create_of_completed {c : Coroutine} (hc : c ∈ i.context.decls.coroutines)
    (hinst : i.instance? name = some inst) :
    (inst.life = .completed → ∃ j, i.create name c.name = (.ok (), j)) ∧
      (inst.life ≠ .completed → i.create name c.name = (.error (.duplicateInstance name), i)) := by
  have hslot := Table.get?_eq_some_iff.1 hinst
  obtain ⟨c', hc'⟩ : ∃ c', i.context.decls.coroutine? c.name = some c' := by
    apply Option.isSome_iff_exists.1
    unfold Declarations.coroutine?
    rw [List.find?_isSome]
    exact ⟨c, hc, by simp⟩
  simp only [Interpreter.create, World.create, hc', Table.insert, Table.isFree, hslot]
  constructor
  · intro hlife
    simp only [hlife, decide_true, if_true]
    exact ⟨_, rfl⟩
  · intro hlife
    simp only [hlife, decide_false]
    rfl

theorem instance?_of_restore (h : i.restore name inst = (.ok (), j)) :
    j.instance? name = some inst := by
  unfold Interpreter.restore at h
  rcases hw : i.world.restore i.context name inst with ⟨answer, w⟩
  rw [hw] at h
  cases h
  obtain ⟨-, -, t, ht, rfl⟩ := World.restore_ok hw
  obtain ⟨-, rfl⟩ := Table.insert_ok ht
  exact Table.get?_eq_some_iff.2 Table.slot?_setSlot_self

theorem ending_of_resume_fault {fuel : Nat} {f : Fault}
    (hf : (i.perform fuel (.resume name)).1 = .fault f) :
    (World.resume i.context (i.services fuel) fuel name i.world).ending = .fault f := by
  simp only [perform, Interpreter.resume] at hf
  cases hending : (World.resume i.context (i.services fuel) fuel name i.world).ending with
  | value a =>
    rw [hending] at hf
    cases hf
  | fault e =>
    rw [hending] at hf
    cases hf
    rfl
  | outOfFuel =>
    rw [hending] at hf
    cases hf

/-- **A resume that fails completes the instance**, and its name can be given to a new one, unless
the instance is hollow. Then it stays as it is, its name stays taken, and it is an instance that the
host handed in. -/
theorem failed_resume_completes (h : i.Driven p) (hrestore : i.restore name inst = (.ok (), j))
    {k : Interpreter} (hk : j.Later given k) {fuel : Nat} {f : Fault}
    (hf : (k.perform fuel (.resume name)).1 = .fault f) :
    ∃ before after, k.instance? name = some before ∧
      (k.perform fuel (.resume name)).2.instance? name = some after ∧
      (before.isHollow = false → after.life = .completed ∧ ∀ c ∈ p.coroutines, ∃ k',
        (k.perform fuel (.resume name)).2.create name c.name = (.ok (), k')) ∧
      (before.isHollow = true → after = before ∧ f = .noMachine before.coroutine ∧
        (before = inst ∨ given before) ∧ ∀ c ∈ p.coroutines,
          (k.perform fuel (.resume name)).2.create name c.name =
            (.error (.duplicateInstance name), (k.perform fuel (.resume name)).2)) := by
  have hj : (i.perform fuel (.restore name inst)).2 = j := by
    simp only [perform, hrestore]
  have hdriven : j.Driven p := by
    rw [← hj]
    exact h.perform (restore_returns i fuel name inst)
  obtain ⟨before, hbefore, hleads⟩ := hk.instance? hdriven (instance?_of_restore hrestore)
  have hslot := Table.get?_eq_some_iff.1 hbefore
  have hlife := (hdriven.later hk).not_running name before hslot
  -- Whatever is left of the instance, it is in its slot and decides whether its name is free.
  obtain ⟨k₁, hk₁⟩ : ∃ k₁, k₁ = (k.perform fuel (.resume name)).2 := ⟨_, rfl⟩
  have hdecls : k₁.context.decls = ⟨p.functions, p.coroutines⟩ := by
    rw [hk₁, context_perform]
    exact (hdriven.later hk).decls
  have hcreate : ∀ {after : Instance}, k₁.instance? name = some after → ∀ c ∈ p.coroutines,
      (after.life = .completed → ∃ k', k₁.create name c.name = (.ok (), k')) ∧
        (after.life ≠ .completed →
          k₁.create name c.name = (.error (.duplicateInstance name), k₁)) := by
    intro after hafter c hc
    apply create_of_completed _ hafter
    rw [hdecls]
    exact hc
  rw [← hk₁]
  rcases World.slot?_of_resume_fault hslot (ending_of_resume_fault hf) with
    ⟨⟨m, hm⟩, hafter⟩ | ⟨hbody, hafter⟩
  · have hcompleted : k₁.instance? name = some before.ended := by
      rw [hk₁]
      exact Table.get?_eq_some_iff.2 hafter
    refine ⟨before, before.ended, hbefore, hcompleted, fun _ => ⟨rfl, fun c hc => ?_⟩, ?_⟩
    · exact (hcreate hcompleted c hc).1 rfl
    · intro hhollow
      rw [Instance.body_of_hollow hhollow] at hm
      cases hm
  · have hsame : k₁.instance? name = some before := by
      rw [hk₁]
      exact Table.get?_eq_some_iff.2 hafter
    refine ⟨before, before, hbefore, hsame, fun hsound => ?_, fun hhollow => ?_⟩
    · have hcompleted := Instance.completed_of_not_resumable
        (Instance.not_resumable_of_body_error hbody hsound) hlife
      exact ⟨hcompleted, fun c hc => (hcreate hsame c hc).1 hcompleted⟩
    · rw [Instance.body_of_hollow hhollow] at hbody
      cases hbody
      refine ⟨rfl, rfl, hleads.given_of_hollow hhollow, fun c hc => ?_⟩
      exact (hcreate hsame c hc).2 (Instance.not_completed_of_hollow hhollow)

/-- An instance that is handed in before its first resume and fails at its second. -/
theorem failed_resume_completes_after_yield :
    let c : Coroutine := ⟨"c", [.yield, .assign "x" (.lit (.int 1))], none⟩
    let p : Program := ⟨[], [c], []⟩
    ∃ i j k k' : Interpreter, i.Driven p ∧ i.restore "a" (.create default c) = (.ok (), j) ∧
      j.Later (fun _ => False) k ∧
      (k.instance? "a").map Instance.life = some .suspended ∧
      (k.perform 20 (.resume "a")).1 = .fault (.assignUndefined "x") ∧
      ((k.perform 20 (.resume "a")).2.instance? "a").map Instance.life = some .completed ∧
      (k.perform 20 (.resume "a")).2.create "a" "c" = (.ok (), k') := by
  intro c p
  let i : Interpreter := ⟨⟨⟨[], [c]⟩, .default, none, default⟩, [], .initial⟩
  let j := (i.perform 20 (.restore "a" (.create default c))).2
  let k := (j.perform 20 (.resume "a")).2
  have hdriven : i.Driven p := .build (build_ok_iff.2 ⟨_, rfl, rfl⟩)
  have hrestore : i.restore "a" (.create default c) = (.ok (), j) := rfl
  have hk : j.Later (fun _ => False) k := .perform .refl (by simp) (by decide +kernel)
  have hlife : (k.instance? "a").map Instance.life = some .suspended := by decide +kernel
  have hf : (k.perform 20 (.resume "a")).1 = .fault (.assignUndefined "x") := by decide +kernel
  obtain ⟨before, after, hbefore, hafter, hsound, -⟩ :=
    failed_resume_completes hdriven hrestore hk hf
  have hhollow : (k.instance? "a").map Instance.isHollow = some false := by decide +kernel
  rw [hbefore, Option.map_some, Option.some.injEq] at hhollow
  obtain ⟨hcompleted, hcreate⟩ := hsound hhollow
  obtain ⟨k', hk'⟩ := hcreate c (List.mem_singleton.2 rfl)
  refine ⟨i, j, k, k', hdriven, hrestore, hk, hlife, hf, ?_, hk'⟩
  rw [hafter, Option.map_some, hcompleted]

/-- The text of an instance that is suspended nowhere is read, and the instance is taken. Its resume
fails and leaves it suspended, so that its name is not free. -/
theorem hollow_resume_stays_suspended :
    let text := "\x7b\"id\":\"00000000-0000-0000-0000-000000000000\",\"coroutine\":\"c\"," ++
      "\"state\":\"suspended\",\"vm\":null,\"resumes\":0\x7d"
    let p : Program := ⟨[], [⟨"c", [.yield], none⟩], []⟩
    ∃ (inst : Instance) (i j : Interpreter),
      Instance.ofText? .exact .hyphenated text = some inst ∧ i.Driven p ∧
      i.restore "a" inst = (.ok (), j) ∧
      (j.perform 20 (.resume "a")).1 = .fault (.noMachine "c") ∧
      (j.perform 20 (.resume "a")).2.life? "a" = some .suspended ∧
      ((j.perform 20 (.resume "a")).2.create "a" "c").1 = .error (.duplicateInstance "a") := by
  intro text p
  let i : Interpreter := ⟨⟨⟨p.functions, p.coroutines⟩, .default, none, default⟩, p.main, .initial⟩
  let inst : Instance := ⟨⟨0⟩, "c", .suspended, none, 0⟩
  have htext : (Instance.ofText? .exact .hyphenated text).any (fun i => i.id = ⟨0⟩ &&
      i.coroutine = "c" && i.life = .suspended && i.machine.isNone && i.resumes = 0) = true := by
    decide +kernel
  obtain ⟨⟨id, coroutine, life, machine, resumes⟩, htext, hat⟩ := (Option.any_eq_true _ _).1 htext
  simp only [Bool.and_eq_true, decide_eq_true_eq, Option.isNone_iff_eq_none] at hat
  obtain ⟨⟨⟨⟨rfl, rfl⟩, rfl⟩, rfl⟩, rfl⟩ := hat
  refine ⟨inst, i, (i.perform 20 (.restore "a" inst)).2, htext,
    .build (build_ok_iff.2 ⟨_, rfl, rfl⟩), rfl, by decide +kernel, by decide +kernel, rfl⟩

end Interpreter

end CoLang
