import CoLang.Proofs.InFlight
import CoLang.Proofs.Parked
import Mathlib.Algebra.Group.Nat.Defs
/-!
# The life of an instance

Between operations every instance is fresh, suspended or completed, and which of these it is shows
in all its parts (`Instance.Stage`). It passes from one to the other only by being resumed, which is
counted, and once it has completed it stays as it is until another takes its name. An error ends all
that is in flight (`Moment.leads_finished_of_raised`).
-/

namespace CoLang

theorem Machine.control_of_isSuspended {m : Machine} (h : m.isSuspended = true) :
    m.control = .yielding := by
  unfold Machine.isSuspended at h
  split at h
  case h_1 hc => exact hc
  case h_2 => cases h

/-- The instance after `n` resumes that ran its body. The count that it keeps is a word. -/
inductive Instance.Stage : Nat → Instance → Prop
  | fresh {i : Instance} {m : Machine} {base : Nat} {body : Block} (life : i.life = .fresh)
      (machine : i.machine = some m) (control : m.control = .idle)
      (frames : m.frames = [⟨.block .next 0, base, .block body⟩]) (resumes : i.resumes = 0) :
      Stage 0 i
  | suspended {n : Nat} {i : Instance} {m : Machine} (life : i.life = .suspended)
      (machine : i.machine = some m) (control : m.control = .yielding) (frames : m.frames ≠ [])
      (kind : m.body = .coroutine) (resumes : i.resumes = .ofNat (n + 1)) : Stage (n + 1) i
  | completed {n : Nat} {i : Instance} (life : i.life = .completed) (machine : i.machine = none)
      (resumes : i.resumes = .ofNat (n + 1)) : Stage (n + 1) i

namespace Instance.Stage

variable {n : Nat} {i : Instance}

theorem resumes_eq (h : i.Stage n) : i.resumes = .ofNat n := by
  cases h with
  | fresh life machine control frames resumes => exact resumes
  | suspended life machine control frames kind resumes => exact resumes
  | completed life machine resumes => exact resumes

/-- As long as the count fits the word it is exact, and only a fresh instance has none. -/
theorem toNat_resumes (h : i.Stage n) (hn : n < 2 ^ 64) : i.resumes.toNat = n := by
  rw [h.resumes_eq, UInt64.toNat_ofNat']
  exact Nat.mod_eq_of_lt hn

theorem ended (h : i.Stage n) : i.ended.Stage (n + 1) := by
  refine .completed rfl rfl ?_
  show i.resumes + 1 = _
  rw [h.resumes_eq, UInt64.ofNat_add]
  rfl

/-- A resume that ran the body takes the instance to its next stage. -/
theorem settle (h : i.Stage n) {ending : Ending Machine}
    (hm : ∀ m, ending = .value m → m.isSuspended = true → m.frames ≠ [] ∧ m.body = .coroutine) :
    (i.settle ending).2.Stage (n + 1) := by
  cases ending with
  | fault f => exact h.ended
  | outOfFuel => exact h.ended
  | value m =>
    simp only [Instance.settle]
    split
    case isTrue hs =>
      obtain ⟨hframes, hkind⟩ := hm m rfl hs
      exact .suspended rfl rfl (Machine.control_of_isSuspended hs) hframes hkind
        h.ended.resumes_eq
    case isFalse => exact h.ended

end Instance.Stage

/-- The instance is what `n` resumes that ran its body have made of a created one. -/
inductive Instance.Aged : Nat → Instance → Prop
  | created (id : Identity) (c : Coroutine) : Aged 0 (.create id c)
  | resumed {n : Nat} {i j : Instance} (h : i.Aged n) (hj : i.Resumes j) : Aged (n + 1) j

/-- The instance has an age and is at the stage of its life that goes with it, and its machine is
sound. -/
def Instance.Alive (i : Instance) : Prop :=
  (∃ n, i.Aged n ∧ i.Stage n) ∧ i.Runs fun _ _ => True

theorem Instance.alive_kept (cx : Context) : Instance.Kept cx Instance.Alive where
  create id hc := by
    refine ⟨⟨0, .created id _, ?_⟩, (Instance.runs_kept _ fun _ => trivial).create id hc⟩
    exact .fresh rfl rfl rfl rfl rfl
  resume := by
    intro i m hi hbody sv fuel w hret
    have hruns := (Instance.runs_kept _ fun _ => trivial).resume hi.2 hbody sv fuel w hret
    obtain ⟨n, haged, hstage⟩ := hi.1
    refine ⟨⟨n + 1, haged.resumed (Instance.resumes_settle hbody),
      hstage.settle fun m' hm' hs => ?_⟩, hruns⟩
    rw [hm'] at hruns
    obtain ⟨body, -, hsound⟩ := hruns m' (by simp only [Instance.settle, hs, if_true])
    exact ⟨hsound.inside (Machine.control_of_isSuspended hs), hsound.kind⟩

/-! ## Errors -/

/-- The error that the innermost body in flight fails with at this moment. -/
def Moment.raised? : Moment → Option Fault
  | .running ⟨_, _, .ends (.error f)⟩ _ _ => some f
  | _ => none

/-- The world behind bodies that all fail, the innermost first. -/
def failAll (f : Fault) (σ : List Role) (w : World) : World :=
  σ.foldl (fun w role => role.close (.error f) w) w

theorem failAll_cons (f : Fault) (role : Role) (σ : List Role) (w : World) :
    failAll f (role :: σ) w = failAll f σ (role.close (.error f) w) := rfl

theorem Role.answer_error (role : Role) (f : Fault) : role.answer (.error f) = .error f := by
  cases role <;> rfl

theorem Role.reply_error (role : Role) (f : Fault) : role.reply (.error f) = .fault f := by
  cases role <;> rfl

/-- **An error ends all bodies in flight**, and the operation with them. -/
theorem Moment.leads_finished_of_raised (cx : Context) {z : Moment} {f : Fault}
    (h : z.raised? = some f) : z.Leads cx (.finished (.fault f) (failAll f z.roles z.world)) := by
  obtain ⟨role, m, below, w, rfl⟩ :
      ∃ role m below w, z = .running ⟨role, m, .ends (.error f)⟩ below w := by
    unfold Moment.raised? at h
    split at h
    · cases h
      exact ⟨_, _, _, _, rfl⟩
    · cases h
  simp only [Moment.roles, Moment.world]
  induction below generalizing role m w with
  | nil =>
    refine .single ?_
    show some (Moment.finished (role.reply (.error f)) (role.close (.error f) w)) = _
    rw [Role.reply_error]
    rfl
  | cons b below ih =>
    have hnext : (Moment.running ⟨role, m, .ends (.error f)⟩ (b :: below) w).next cx =
        some (.running ⟨b.role, b.machine, .ends (.error f)⟩ below (role.close (.error f) w)) := by
      show some (Moment.running (b.wake (role.answer (.error f))) below _) = _
      rw [Role.answer_error]
      rfl
    exact .head hnext (ih b.role b.machine (role.close (.error f) w) rfl)

theorem slot?_close_of_ne {role : Role} {name : String} (h : role.resumed? ≠ some name)
    (x : Except Fault Machine) (w : World) :
    (role.close x w).table.slot? name = w.table.slot? name := by
  cases role with
  | main => rfl
  | call f => rfl
  | resume other i =>
    have hne : name ≠ other := by
      rintro rfl
      exact h rfl
    exact Table.slot?_setSlot_of_ne hne

theorem slot?_failAll_of_not_mem {σ : List Role} {name : String} (h : name ∉ resumed σ) (f : Fault)
    (w : World) : (failAll f σ w).table.slot? name = w.table.slot? name := by
  induction σ generalizing w with
  | nil => rfl
  | cons role σ ih =>
    have hrest : name ∉ resumed σ := by
      intro hmem
      obtain ⟨r, hr, hname⟩ := List.mem_filterMap.1 hmem
      exact h (List.mem_filterMap.2 ⟨r, List.mem_cons_of_mem _ hr, hname⟩)
    have hrole : role.resumed? ≠ some name := by
      intro hname
      exact h (List.mem_filterMap.2 ⟨role, List.mem_cons_self, hname⟩)
    rw [failAll_cons, ih hrest, slot?_close_of_ne hrole]

/-- Every instance whose resume fails has completed. -/
theorem slot?_failAll {σ : List Role} (hσ : (resumed σ).Nodup) {name : String} {i : Instance}
    (h : .resume name i ∈ σ) (f : Fault) (w : World) :
    (failAll f σ w).table.slot? name = some (.parked i.ended) := by
  induction σ generalizing w with
  | nil => cases h
  | cons role σ ih =>
    rw [failAll_cons]
    rcases List.mem_cons.1 h with rfl | h
    · rw [slot?_failAll_of_not_mem (List.nodup_cons.1 hσ).1]
      exact Table.slot?_setSlot_self
    · exact ih (hσ.sublist ((List.sublist_cons_self role σ).filterMap _)) h _

/-! ## Sessions -/

namespace Interpreter

variable {i : Interpreter}

theorem ArisesFrom.driven {P : Program → Prop} (h : i.ArisesFrom P) : ∃ p, P p ∧ i.Driven p := by
  induction h with
  | build hp h => exact ⟨_, hp, .build h⟩
  | perform _ _ hret ih => exact ih.imp fun p hp => ⟨hp.1, hp.2.perform hret⟩
  | @restore i i' _ _ fuel name name' inst _ ih _ =>
    exact ih.imp fun p hp => ⟨hp.1, hp.2.perform (restore_returns i fuel name inst)⟩

theorem Arises.alive (h : i.Arises) : i.world.Parks Instance.Alive :=
  h.parks_of_perform fun _ hw hop hret => parks_perform (Instance.alive_kept _) hw hop hret

end Interpreter

/-- **The life of an instance.** Between operations it is fresh, suspended or completed in all its
parts. From moment to moment it is left alone, or it is resumed, or once it has completed another
takes its name; a resume that ran its body counts one. An error is what the operation returns, and
all that was in flight has completed by then. -/
theorem Interpreter.life_cycle {i : Interpreter} (h : i.Arises) :
    (∀ name s, i.world.table.slot? name = some s →
      ∃ inst n, s = .parked inst ∧ inst.Aged n ∧ inst.Stage n ∧
        (n < 2 ^ 64 → inst.resumes.toNat = n)) ∧
    (∀ fuel op name j, (i.perform fuel op).1 ≠ .outOfFuel → i.instance? name = some j →
      ∃ j', (i.perform fuel op).2.instance? name = some j' ∧
        j.Leads i.context (fun k => ∃ other, op = .restore other k) j') ∧
    ∀ op z, (Moment.begins i.main op i.world).Leads i.context z →
      (∀ z' name j, z.next i.context = some z' → z.Holds name j →
        ∃ j', z'.Holds name j' ∧ (j' = j ∨ j.Moves i.context z.Given j')) ∧
      (∀ z' name j, z.next i.context = some z' → z.roles = .resume name j :: z'.roles →
        ∃ j', z'.world.table.slot? name = some (.parked j') ∧ j.Resumes j' ∧
          j'.resumes = j.resumes + 1) ∧
      ∀ f, z.raised? = some f → ∃ w,
        (∃ n, ∀ fuel, n ≤ fuel → i.perform fuel op = (.fault f, { i with world := w })) ∧
        ∀ name j, .resume name j ∈ z.roles → ∃ j', w.table.slot? name = some (.parked j') ∧
          j'.life = .completed ∧ j'.machine = none ∧ j'.resumes = j.resumes + 1 := by
  obtain ⟨p, -, hdriven⟩ := h.driven
  have hparked : ∀ name c, i.world.table.slot? name ≠ some (.running c) := by
    intro name c hc
    have hmem := ((hdriven.orderly .runMain).inFlight.running name).1 ⟨c, hc⟩
    cases hmem
  refine ⟨fun name s hs => ?_, fun fuel op name j hret hj => ?_, fun op z hz => ?_⟩
  · cases s with
    | running c => exact absurd hs (hparked name c)
    | parked inst =>
      obtain ⟨⟨n, haged, hstage⟩, -⟩ := h.alive name inst hs
      exact ⟨inst, n, rfl, haged, hstage, hstage.toNat_resumes⟩
  · exact hdriven.instance?_perform hret hj
  · have horderly := (hdriven.orderly op).leads hz
    refine ⟨fun z' name j hnext hj => ?_, fun z' name j hnext hroles => ?_, fun f hf => ?_⟩
    · exact CoLang.Holds.shift horderly.inFlight horderly.ready (Moment.next_shift hnext) hj
    · obtain ⟨-, j', hj', hworld⟩ := horderly.closes hnext hroles
      refine ⟨j', ?_, hj', ?_⟩
      · rw [hworld]
        exact Table.slot?_setSlot_self
      · cases hj' <;> rfl
    · refine ⟨failAll f z.roles z.world, ?_, fun name j hj => ?_⟩
      · obtain ⟨-, n, hn⟩ :=
          Moment.result_of_leads_finished (hz.trans (Moment.leads_finished_of_raised i.context hf))
        refine ⟨n, fun fuel hfuel => ?_⟩
        rw [perform_eq_result, hn fuel hfuel]
      · exact ⟨j.ended, slot?_failAll horderly.inFlight.distinct hj f z.world, rfl, rfl, rfl⟩

/-- A resume within a resume fails, which completes both instances. -/
theorem Interpreter.life_cycle_nested_error :
    let c : Coroutine := ⟨"c", [.resume "b"], none⟩
    let d : Coroutine := ⟨"d", [.expr (.var "x")], none⟩
    let p : Program := ⟨[], [c, d], [.create "a" "c", .create "b" "d"]⟩
    let i₀ : Interpreter := ⟨⟨⟨[], [c, d]⟩, .default, none, default⟩, p.main, .initial⟩
    let i := (i₀.perform 20 .runMain).2
    ∃ z f, (Moment.begins i.main (.resume "a") i.world).Leads i.context z ∧
      resumed z.roles = ["b", "a"] ∧ z.raised? = some f ∧
      ∃ w, (∃ n, ∀ fuel, n ≤ fuel →
          i.perform fuel (.resume "a") = (.fault f, { i with world := w })) ∧
        ∀ name j, .resume name j ∈ z.roles → ∃ j', w.table.slot? name = some (.parked j') ∧
          j'.life = .completed ∧ j'.machine = none ∧ j'.resumes = j.resumes + 1 := by
  intro c d p i₀ i
  have hbuild : Interpreter.build p .default none default = .ok i₀ := build_ok_iff.2 ⟨_, rfl, rfl⟩
  have harises : i.Arises := .perform (.build trivial hbuild) (by simp) (by decide +kernel)
  have hmoment : ((Moment.begins i.main (.resume "a") i.world).after i.context 4).map
      (fun z => (resumed z.roles, z.raised?)) =
        some (["b", "a"], some (.undefinedVariable "x")) := by decide +kernel
  obtain ⟨z, hz, hat⟩ := Option.map_eq_some_iff.1 hmoment
  obtain ⟨hresumed, hraised⟩ := Prod.mk.inj hat
  have hcycle := ((life_cycle harises).2.2 (.resume "a") z ⟨4, hz⟩).2.2 _ hraised
  exact ⟨z, _, ⟨4, hz⟩, hresumed, hraised, hcycle⟩

end CoLang
