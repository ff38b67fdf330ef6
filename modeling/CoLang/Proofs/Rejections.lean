import CoLang.Proofs.Chronicle
/-!
# Operations that are rejected

Whether a create or a restore is rejected depends on what the program declares, on the resumes in
flight and on the instances at rest, and so do the first checks of a resume (`Moment.Rejects`). They
are the same for a host that drives the interpreter and for a body in the depth of a run. What is
rejected changes nothing: the table, the lines, the trace and the depth of calls are as they were,
and no body has begun (`Interpreter.rejected_changes_nothing`).
-/

namespace CoLang

/-- The program has a coroutine of this name. -/
def Program.HasCoroutine (p : Program) (name : String) : Prop :=
  ∃ c ∈ p.coroutines, c.name = name

/-- The operation puts an instance under a name and runs nothing. -/
def Operation.isInsertion : Operation → Bool
  | .create .. | .restore .. => true
  | .runMain | .resume _ => false

namespace Moment

/-- The name cannot be given to another instance: its own is in flight or has not completed. -/
def Taken (z : Moment) (name : String) : Prop :=
  name ∈ resumed z.roles ∨
    ∃ inst, z.world.table.slot? name = some (.parked inst) ∧ inst.life ≠ .completed

/-- The operations on instances that are rejected at a moment, with the kind of fault that tells
why. -/
inductive Rejects (p : Program) (z : Moment) : Operation → FaultKind → Prop
  | createUndeclared {name coroutine : String} (hnone : ¬p.HasCoroutine coroutine) :
      Rejects p z (.create name coroutine) .name
  | createTaken {name coroutine : String} (hdeclared : p.HasCoroutine coroutine)
      (htaken : z.Taken name) : Rejects p z (.create name coroutine) .duplicateName
  | restoreUndeclared {name : String} {inst : Instance} (hnone : ¬p.HasCoroutine inst.coroutine) :
      Rejects p z (.restore name inst) .name
  | restoreRunning {name : String} {inst : Instance} (hdeclared : p.HasCoroutine inst.coroutine)
      (hlife : inst.life = .running) : Rejects p z (.restore name inst) .illegalState
  | restoreTaken {name : String} {inst : Instance} (hdeclared : p.HasCoroutine inst.coroutine)
      (hlife : inst.life ≠ .running) (htaken : z.Taken name) :
      Rejects p z (.restore name inst) .duplicateName
  | resumeUnknown {name : String} (hnone : ∀ inst, ¬z.Holds name inst) :
      Rejects p z (.resume name) .name
  | resumeInFlight {name : String} (hmem : name ∈ resumed z.roles) :
      Rejects p z (.resume name) .illegalState
  | resumeCompleted {name : String} {inst : Instance} (hinst : z.Holds name inst)
      (hlife : inst.life = .completed) : Rejects p z (.resume name) .illegalState

/-- The operation that is tried next, by the host or by the innermost body. -/
def attempt? : Moment → Option Operation
  | .begins _ op _ => some op
  | .running active _ _ =>
    match active.script with
    | .does (.create name coroutine) _ => some (.create name coroutine)
    | .asks (.resume name) _ => some (.resume name)
    | _ => none
  | .finished .. => none

/-- The moment at which what was tried has failed and nothing has changed besides. -/
def failed (f : Fault) : Moment → Moment
  | .begins _ _ w => .finished (.fault f) w
  | .running active below w => .running (active.fail f) below w
  | .finished r w => .finished r w

end Moment

/-! ## Why an instance is not taken into the table -/

theorem Declarations.coroutine?_isSome_iff {d : Declarations} {p : Program}
    (h : d.coroutines = p.coroutines) {name : String} :
    (d.coroutine? name).isSome = true ↔ p.HasCoroutine name := by
  unfold Declarations.coroutine? Program.HasCoroutine
  rw [List.find?_isSome, h]
  simp

namespace World

variable {cx : Context} {w w' : World} {name coroutine : String} {i : Instance} {f : Fault}

theorem create_error_iff :
    w.create cx name coroutine = (.error f, w) ↔
      (cx.decls.coroutine? coroutine).isSome = false ∧ .undefinedCoroutine coroutine = f ∨
      (cx.decls.coroutine? coroutine).isSome = true ∧ w.table.isFree name = false ∧
        .duplicateInstance name = f := by
  rw [atomic_create.eq_error_iff]
  unfold World.create
  cases hc : cx.decls.coroutine? coroutine with
  | none => simp
  | some c =>
    cases hfree : w.table.isFree name with
    | true => simp [Table.insert, hfree]
    | false => simp [Table.insert, hfree]

theorem restore_error_iff :
    w.restore cx name i = (.error f, w) ↔
      (cx.decls.coroutine? i.coroutine).isSome = false ∧ .undefinedCoroutine i.coroutine = f ∨
      (cx.decls.coroutine? i.coroutine).isSome = true ∧ i.life = .running ∧
        .capturedRunning name = f ∨
      (cx.decls.coroutine? i.coroutine).isSome = true ∧ i.life ≠ .running ∧
        w.table.isFree name = false ∧ .duplicateInstance name = f := by
  rw [atomic_restore.eq_error_iff]
  unfold World.restore
  cases hc : cx.decls.coroutine? i.coroutine with
  | none => simp
  | some c =>
    by_cases hlife : i.life = .running
    · simp [hlife]
    · cases hfree : w.table.isFree name with
      | true => simp [hlife, Table.insert, hfree]
      | false => simp [hlife, Table.insert, hfree]

/-- A create that is not refused changes the table, since the name was free before. -/
theorem ne_of_create (h : w.create cx name coroutine = (.ok (), w')) : w' ≠ w := by
  rintro rfl
  obtain ⟨c, t, -, ht, heq⟩ := World.create_ok h
  obtain ⟨hfree, rfl⟩ := Table.insert_ok ht
  have hslot : w'.table.slot? name = some (.parked (.create (cx.identities w'.created) c)) := by
    rw [congrArg World.table heq, World.table_record]
    exact Table.slot?_setSlot_self
  cases Table.completed_of_isFree hfree hslot

/-- A resume that is refused runs nothing, however much fuel there is. -/
theorem resume_of_refused {sv : Services} {fuel : Nat}
    (h : (Request.resume name).begin cx w = .refused f w') :
    World.resume cx sv fuel name w = ⟨.fault f, w'⟩ := by
  rw [World.resume_eq]
  simp only [Request.begin] at h
  rcases hout : w.table.checkout name with ⟨e | i, t⟩
  · rw [hout] at h
    cases h
    rw [Table.atomic_checkout hout]
  · simp only [hout] at h ⊢
    cases hbody : i.body with
    | error e =>
      simp only [hbody] at h ⊢
      cases h
      rfl
    | ok m =>
      simp only [hbody] at h
      cases h

theorem begin_of_checkout_error (h : w.table.checkout name = (.error f, w.table)) :
    (Request.resume name).begin cx w = .refused f w := by
  simp only [Request.begin, h]

/-- The mark that the resume of a completed instance leaves in the table is gone again. -/
theorem begin_of_completed (hslot : w.table.slot? name = some (.parked i))
    (hlife : i.life = .completed) :
    (Request.resume name).begin cx w = .refused (.notResumable i.coroutine i.life) w := by
  have hout := Table.checkout_of_parked hslot
  have hbody : i.body = .error (.notResumable i.coroutine i.life) := by
    simp [Instance.body, Instance.isResumable, hlife]
  have hsound : i.isHollow = false := by
    simp [Instance.isHollow, Instance.isResumable, hlife]
  simp only [Request.begin, hout, hbody]
  rw [World.eq_of_refused hout hbody hsound]

end World

/-! ## What a refusal leaves -/

/-- The world refuses the operation and is left as it is. -/
def Operation.Refused (cx : Context) (w : World) (f : Fault) : Operation → Prop
  | .runMain => False
  | .create name coroutine => w.create cx name coroutine = (.error f, w)
  | .resume name => (Request.resume name).begin cx w = .refused f w
  | .restore name inst => w.restore cx name inst = (.error f, w)

namespace Operation

variable {cx : Context} {op : Operation} {f : Fault} {z : Moment}

theorem Refused.perform {i : Interpreter} (h : op.Refused i.context i.world f) (fuel : Nat) :
    i.perform fuel op = (.fault f, i) := by
  cases op with
  | runMain => cases h
  | create name coroutine =>
    have hcreate : i.world.create i.context name coroutine = (.error f, i.world) := h
    simp only [Interpreter.perform, Interpreter.create, hcreate]
    rfl
  | resume name =>
    simp only [Interpreter.perform, Interpreter.resume, World.resume_of_refused h]
    rfl
  | restore name inst =>
    have hrestore : i.world.restore i.context name inst = (.error f, i.world) := h
    simp only [Interpreter.perform, Interpreter.restore, hrestore]
    rfl

theorem error_of_reply {x : Except Fault Unit}
    (h : Reply.ofEnding (fun _ => .ok) (.ofExcept x) = .fault f) : x = .error f := by
  cases x with
  | ok _ => cases h
  | error e =>
    cases h
    rfl

theorem Refused.of_perform {i : Interpreter} {fuel : Nat} (hinsert : op.isInsertion = true)
    (h : (i.perform fuel op).1 = .fault f) : op.Refused i.context i.world f := by
  cases op with
  | runMain => cases hinsert
  | resume name => cases hinsert
  | create name coroutine => exact World.atomic_create.eq_error_iff.2 (error_of_reply h)
  | restore name inst => exact World.atomic_restore.eq_error_iff.2 (error_of_reply h)

theorem Refused.next (h : op.Refused cx z.world f) (hop : z.attempt? = some op) :
    z.next cx = some (z.failed f) := by
  cases z with
  | finished r w => cases hop
  | begins main op' w =>
    cases hop
    cases op with
    | runMain => cases h
    | create name coroutine =>
      have hcreate : w.create cx name coroutine = (.error f, w) := h
      simp only [Moment.next, Moment.first, hcreate]
      rfl
    | resume name =>
      have hbegin : (Request.resume name).begin cx w = .refused f w := h
      simp only [Moment.next, Moment.first, hbegin]
      rfl
    | restore name inst =>
      have hrestore : w.restore cx name inst = (.error f, w) := h
      simp only [Moment.next, Moment.first, hrestore]
      rfl
  | running active below w =>
    simp only [Moment.attempt?] at hop
    split at hop
    case h_1 name coroutine s hs =>
      cases hop
      have hcreate : (Effect.create name coroutine).apply cx w = (.error f, w) := h
      simp only [Moment.next, hs, hcreate]
      rfl
    case h_2 name k hs =>
      cases hop
      have hbegin : (Request.resume name).begin cx w = .refused f w := h
      simp only [Moment.next, hs, hbegin]
      rfl
    case h_3 => cases hop

theorem refused_of_settled {w : World} {x : Except Fault Unit × World}
    (h : Moment.settled x = .finished (.fault f) w) : x = (.error f, w) := by
  rcases x with ⟨e | ⟨⟩, w'⟩ <;> cases h
  rfl

theorem Refused.of_next (hinsert : op.isInsertion = true) (hop : z.attempt? = some op)
    (h : z.next cx = some (z.failed f)) : op.Refused cx z.world f := by
  cases z with
  | finished r w => cases hop
  | begins main op' w =>
    cases hop
    cases op with
    | runMain => cases hinsert
    | resume name => cases hinsert
    | create name coroutine => exact refused_of_settled (Option.some.inj h)
    | restore name inst => exact refused_of_settled (Option.some.inj h)
  | running active below w =>
    simp only [Moment.attempt?] at hop
    split at hop
    case h_1 name coroutine s hs =>
      cases hop
      simp only [Moment.next, hs] at h
      rcases hw : w.create cx name coroutine with ⟨e | ⟨⟩, w'⟩
      · have happly : (Effect.create name coroutine).apply cx w = (.error e, w') := hw
        rw [happly] at h
        cases h
        exact hw
      · have happly : (Effect.create name coroutine).apply cx w = (.ok (), w') := hw
        rw [happly] at h
        cases h
        exact absurd rfl (World.ne_of_create hw)
    case h_2 =>
      cases hop
      cases hinsert
    case h_3 => cases hop

end Operation

/-! ## What is rejected -/

namespace Moment

variable {cx : Context} {p : Program} {z : Moment} {op : Operation} {name : String}

/-- The marks in the table are those of the resumes in flight, so the table knows which names are
taken. -/
theorem Orderly.isFree_iff (h : z.Orderly cx) :
    z.world.table.isFree name = false ↔ z.Taken name := by
  have hrunning := h.inFlight.running name
  unfold Taken Table.isFree
  rw [← hrunning]
  cases hslot : z.world.table.slot? name with
  | none => simp
  | some s =>
    cases s with
    | parked inst => simp
    | running coroutine => simp

/-- A name that is in flight has an instance. -/
theorem exists_holds_of_resumed (h : name ∈ resumed z.roles) : ∃ inst, z.Holds name inst := by
  obtain ⟨role, hrole, hname⟩ := List.mem_filterMap.1 h
  cases role with
  | main => cases hname
  | call f => cases hname
  | resume other inst =>
    cases hname
    exact ⟨inst, .inr hrole⟩

/-- A name that no instance has, not even one in flight, has no slot. -/
theorem Orderly.slot?_of_unknown (h : z.Orderly cx) (hnone : ∀ inst, ¬z.Holds name inst) :
    z.world.table.slot? name = none := by
  cases hslot : z.world.table.slot? name with
  | none => rfl
  | some s =>
    exfalso
    cases s with
    | parked inst => exact hnone inst (.inl hslot)
    | running coroutine =>
      have hmem := (h.inFlight.running name).1 ⟨coroutine, hslot⟩
      obtain ⟨inst, hinst⟩ := exists_holds_of_resumed hmem
      exact hnone inst hinst

/-- An instance in flight is resumable, so one that has completed is in its slot. -/
theorem Orderly.slot?_of_completed (h : z.Orderly cx) {inst : Instance} (hinst : z.Holds name inst)
    (hlife : inst.life = .completed) : z.world.table.slot? name = some (.parked inst) := by
  rcases hinst with hslot | hmem
  · exact hslot
  · obtain ⟨m, hm⟩ := h.ready name inst hmem
    have hresumable := Instance.isResumable_of_body hm
    simp [Instance.isResumable, hlife] at hresumable

/-- **What is rejected is refused**, with a fault of the kind that tells why. -/
theorem Rejects.refused {kind : FaultKind} (h : z.Rejects p op kind) (hz : z.Orderly cx)
    (hdecls : cx.decls.coroutines = p.coroutines) :
    ∃ f, f.kind = kind ∧ op.Refused cx z.world f := by
  have hdeclared : ∀ {coroutine}, (cx.decls.coroutine? coroutine).isSome = true ↔
      p.HasCoroutine coroutine := Declarations.coroutine?_isSome_iff hdecls
  cases h with
  | createUndeclared hnone =>
    rw [← hdeclared, Bool.not_eq_true] at hnone
    exact ⟨_, rfl, World.create_error_iff.2 (.inl ⟨hnone, rfl⟩)⟩
  | createTaken hsome htaken =>
    have hsome := hdeclared.2 hsome
    have hfree := hz.isFree_iff.2 htaken
    exact ⟨_, rfl, World.create_error_iff.2 (.inr ⟨hsome, hfree, rfl⟩)⟩
  | restoreUndeclared hnone =>
    rw [← hdeclared, Bool.not_eq_true] at hnone
    exact ⟨_, rfl, World.restore_error_iff.2 (.inl ⟨hnone, rfl⟩)⟩
  | restoreRunning hsome hlife =>
    have hsome := hdeclared.2 hsome
    exact ⟨_, rfl, World.restore_error_iff.2 (.inr (.inl ⟨hsome, hlife, rfl⟩))⟩
  | restoreTaken hsome hlife htaken =>
    have hsome := hdeclared.2 hsome
    have hfree := hz.isFree_iff.2 htaken
    exact ⟨_, rfl, World.restore_error_iff.2 (.inr (.inr ⟨hsome, hlife, hfree, rfl⟩))⟩
  | @resumeUnknown name hnone =>
    have hslot := hz.slot?_of_unknown hnone
    exact ⟨_, rfl, World.begin_of_checkout_error (Table.checkout_of_none hslot)⟩
  | @resumeInFlight name hmem =>
    obtain ⟨coroutine, hslot⟩ := (hz.inFlight.running name).2 hmem
    exact ⟨_, rfl, World.begin_of_checkout_error (Table.checkout_of_running hslot)⟩
  | resumeCompleted hinst hlife =>
    exact ⟨_, rfl, World.begin_of_completed (hz.slot?_of_completed hinst hlife) hlife⟩

/-- A create or a restore that is refused is one that is rejected. -/
theorem rejects_of_refused {f : Fault} (hz : z.Orderly cx)
    (hdecls : cx.decls.coroutines = p.coroutines) (hinsert : op.isInsertion = true)
    (h : op.Refused cx z.world f) : z.Rejects p op f.kind := by
  have hdeclared : ∀ {coroutine}, (cx.decls.coroutine? coroutine).isSome = true ↔
      p.HasCoroutine coroutine := Declarations.coroutine?_isSome_iff hdecls
  cases op with
  | runMain => cases hinsert
  | resume name => cases hinsert
  | create name coroutine =>
    rcases World.create_error_iff.1 h with ⟨hnone, rfl⟩ | ⟨hsome, hfree, rfl⟩
    · rw [← Bool.not_eq_true, hdeclared] at hnone
      exact .createUndeclared hnone
    · exact .createTaken (hdeclared.1 hsome) (hz.isFree_iff.1 hfree)
  | restore name inst =>
    rcases World.restore_error_iff.1 h with
      ⟨hnone, rfl⟩ | ⟨hsome, hlife, rfl⟩ | ⟨hsome, hlife, hfree, rfl⟩
    · rw [← Bool.not_eq_true, hdeclared] at hnone
      exact .restoreUndeclared hnone
    · exact .restoreRunning (hdeclared.1 hsome) hlife
    · exact .restoreTaken (hdeclared.1 hsome) hlife (hz.isFree_iff.1 hfree)

end Moment

namespace Interpreter

variable {p : Program} {i : Interpreter}

/-- **What is rejected changes nothing.** At every moment of every operation, a rejected create,
restore or resume fails with its kind of fault, runs no body and leaves the interpreter as it is,
and where a body asked for it that body fails. A create or a restore fails in no other case. -/
theorem rejected_changes_nothing (h : i.Driven p) {op : Operation} {z : Moment}
    (hz : (Moment.begins i.main op i.world).Leads i.context z) (tried : Operation) :
    let j : Interpreter := { i with world := z.world }
    (∀ kind, z.Rejects p tried kind → ∃ f, f.kind = kind ∧
      (∀ fuel, j.perform fuel tried = (.fault f, j)) ∧
      (z.attempt? = some tried → z.next i.context = some (z.failed f))) ∧
    (tried.isInsertion = true → ∀ f,
      (∃ fuel, (j.perform fuel tried).1 = .fault f) ∨
        z.attempt? = some tried ∧ z.next i.context = some (z.failed f) →
      z.Rejects p tried f.kind) := by
  intro j
  have horderly : z.Orderly i.context := (h.orderly op).leads hz
  have hdecls : i.context.decls.coroutines = p.coroutines := by rw [h.decls]
  refine ⟨fun kind hrejects => ?_, fun hinsert f hfails => ?_⟩
  · obtain ⟨f, hkind, hrefused⟩ := hrejects.refused horderly hdecls
    have hj : tried.Refused j.context j.world f := hrefused
    exact ⟨f, hkind, hj.perform, hrefused.next⟩
  · apply Moment.rejects_of_refused horderly hdecls hinsert
    rcases hfails with ⟨fuel, hfuel⟩ | ⟨hattempt, hnext⟩
    · exact Operation.Refused.of_perform (i := j) hinsert hfuel
    · exact .of_next hinsert hattempt hnext

/-- An instance in flight calls a function that tries to create another under its name. -/
theorem rejected_changes_nothing_nested :
    let f : Function := ⟨"f", [], none, [.create "a" "c"], none⟩
    let c : Coroutine := ⟨"c", [.expr (.call "f" [])], none⟩
    let p : Program := ⟨[f], [c], [.create "a" "c", .resume "a"]⟩
    let i : Interpreter := ⟨⟨⟨[f], [c]⟩, .default, none, default⟩, p.main, .initial⟩
    let start := Moment.begins i.main .runMain i.world
    let z := (start.after i.context 9).getD start
    let j : Interpreter := { i with world := z.world }
    start.Leads i.context z ∧ resumed z.roles = ["a"] ∧ z.attempt? = some (.create "a" "c") ∧
      (∃ e, e.kind = .duplicateName ∧ (∀ fuel, j.perform fuel (.create "a" "c") = (.fault e, j)) ∧
        z.next i.context = some (z.failed e)) ∧
      (∃ e, e.kind = .illegalState ∧ ∀ fuel, j.perform fuel (.resume "a") = (.fault e, j)) ∧
      z.Rejects p (.create "a" "d") .name := by
  intro f c p i start z j
  have hdriven : i.Driven p := .build (build_ok_iff.2 ⟨_, rfl, rfl⟩)
  have hz : start.Leads i.context z := ⟨9, rfl⟩
  have hresumed : resumed z.roles = ["a"] := by decide +kernel
  have hattempt : z.attempt? = some (.create "a" "c") := rfl
  have hmem : "a" ∈ resumed z.roles := by simp [hresumed]
  have htaken : z.Rejects p (.create "a" "c") .duplicateName :=
    .createTaken ⟨c, List.mem_singleton.2 rfl, rfl⟩ (.inl hmem)
  obtain ⟨e, hkind, hperform, hnext⟩ := (rejected_changes_nothing hdriven hz _).1 _ htaken
  obtain ⟨e', hkind', hperform', -⟩ :=
    (rejected_changes_nothing hdriven hz (.resume "a")).1 _ (.resumeInFlight hmem)
  have hundeclared : (j.perform 0 (.create "a" "d")).1 = .fault (.undefinedCoroutine "d") := by
    decide +kernel
  have hrejects := (rejected_changes_nothing hdriven hz (.create "a" "d")).2 rfl _
    (.inl ⟨0, hundeclared⟩)
  exact ⟨hz, hresumed, hattempt, ⟨e, hkind, hperform, hnext hattempt⟩, ⟨e', hkind', hperform'⟩,
    hrejects⟩

end Interpreter

end CoLang
