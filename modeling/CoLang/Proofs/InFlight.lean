import CoLang.Proofs.Course
import Mathlib.Data.List.Perm.Subperm
import Mathlib.Logic.Relation
/-!
# Bodies in flight and the table of instances

What a step of an operation can do to the bodies in flight and to the world is said once (`Shift`).
From this it follows that at every moment the marks in the table are those of the resumes in flight,
each of which left its own, and that the depth of calls is the number of calls in flight
(`InFlight`). It also follows that an instance stays under its name, in its slot or in flight, until
it has completed and another takes its place (`Holds`).
-/

namespace CoLang

/-! ## What a step does -/

/-- The roles of the bodies in flight, the innermost first. -/
def Moment.roles : Moment → List Role
  | .running t below _ => t.role :: below.map Waiting.role
  | _ => []

def Moment.world : Moment → World
  | .begins _ _ w => w
  | .running _ _ w => w
  | .finished _ w => w

/-- The host hands this instance in. -/
def Moment.Given (z : Moment) (i : Instance) : Prop :=
  ∃ main name w, z = .begins main (.restore name i) w

/-- What a step does to the bodies in flight and to the world, if the host hands in such instances.
-/
inductive Shift (cx : Context) (given : Instance → Prop) :
    List Role → World → List Role → World → Prop
  | stays {σ : List Role} {w : World} : Shift cx given σ w σ w
  | effect {σ : List Role} {w w' : World} {e : Effect} (he : e.apply cx w = (.ok (), w')) :
      Shift cx given σ w σ w'
  | restores {w w' : World} {name : String} {i : Instance} (hi : given i)
      (hw : w.restore cx name i = (.ok (), w')) : Shift cx given [] w [] w'
  | main {w : World} : Shift cx given [] w [.main] w
  | calls {σ : List Role} {w w' : World} {f : Function} (hw : f.enter cx w = (.ok (), w')) :
      Shift cx given σ w (.call f :: σ) (w'.record cx .call f.name f.doc none)
  | resumes {σ : List Role} {w : World} {name : String} {i : Instance} {t : Table} {m : Machine}
      (hout : w.table.checkout name = (.ok i, t)) (hbody : i.body = .ok m) :
      Shift cx given σ w (.resume name i :: σ) (World.beginResume cx { w with table := t } name i)
  | refuses {σ : List Role} {w : World} {name : String} {i : Instance} {t : Table} {f : Fault}
      (hout : w.table.checkout name = (.ok i, t)) (hbody : i.body = .error f) :
      Shift cx given σ w σ ((World.beginResume cx { w with table := t } name i).park name i)
  | closes {σ : List Role} {w : World} {role : Role} (x : Except Fault Machine) :
      Shift cx given (role :: σ) w σ (role.close x w)

section Steps

variable {cx : Context} {given : Instance → Prop} {w w' : World} {σ : List Role}

theorem Shift.of_opened {q : Request} {t : Active} (h : q.begin cx w = .opened t w') :
    Shift cx given σ w (t.role :: σ) w' := by
  cases Request.opens_of_begin h with
  | call _ hw => exact .calls hw
  | resume hout hbody => exact .resumes hout hbody

theorem Shift.of_refused {q : Request} {f : Fault} (h : q.begin cx w = .refused f w') :
    Shift cx given σ w σ w' := by
  cases q with
  | call g args =>
    simp only [Request.begin] at h
    split at h
    · cases h
      exact .stays
    · split at h
      case h_1 hw =>
        cases h
        rw [Function.atomic_enter hw]
        exact .stays
      case h_2 => cases h
  | resume name =>
    simp only [Request.begin] at h
    split at h
    case h_1 hout =>
      cases h
      rw [Table.atomic_checkout hout]
      exact .stays
    case h_2 hout =>
      split at h
      case h_1 hbody =>
        cases h
        exact .refuses hout hbody
      case h_2 => cases h

theorem Shift.of_close (role : Role) (below : List Waiting) (w : World)
    (x : Except Fault Machine) :
    Shift cx given (role :: below.map Waiting.role) w (Moment.close role below w x).roles
      (Moment.close role below w x).world := by
  cases below with
  | nil => exact .closes x
  | cons b below => exact .closes x

/-- **All that a step can do.** -/
theorem Moment.next_shift {z z' : Moment} (h : z.next cx = some z') :
    Shift cx z.Given z.roles z.world z'.roles z'.world := by
  cases z with
  | finished r w => cases h
  | begins main op w =>
    cases h
    cases op with
    | runMain => exact .main
    | create name coroutine =>
      simp only [Moment.first]
      rcases hw : w.create cx name coroutine with ⟨f | ⟨⟩, w'⟩
      · rw [World.atomic_create hw]
        exact .stays
      · exact .effect (e := .create name coroutine) hw
    | restore name i =>
      simp only [Moment.first]
      rcases hw : w.restore cx name i with ⟨f | ⟨⟩, w'⟩
      · rw [World.atomic_restore hw]
        exact .stays
      · exact .restores ⟨main, name, w, rfl⟩ hw
    | resume name =>
      simp only [Moment.first]
      cases hq : (Request.resume name).begin cx w with
      | opened t w' => exact .of_opened hq
      | refused f w' => exact .of_refused hq
  | running t below w =>
    obtain ⟨role, m, script⟩ := t
    cases script with
    | ends x =>
      rcases x with f | ⟨_ | _, m'⟩
      · cases h
        exact .of_close role below w _
      · cases h
        exact .of_close role below w _
      · cases h
        exact .stays
    | does e s =>
      simp only [Moment.next] at h
      split at h
      case h_1 he =>
        cases h
        exact .effect he
      case h_2 he =>
        cases h
        rw [Effect.atomic_apply cx e he]
        exact .stays
    | asks q k =>
      simp only [Moment.next] at h
      split at h
      case h_1 hq =>
        cases h
        exact .of_opened hq
      case h_2 hq =>
        cases h
        exact .of_refused hq

end Steps

/-! ## Marks and depth -/

/-- The name of the instance that a body in flight is of, if it is a resume. -/
def Role.resumed? : Role → Option String
  | .resume name _ => some name
  | _ => none

def Role.isCall : Role → Bool
  | .call _ => true
  | _ => false

/-- The names of the resumes in flight. -/
def resumed (σ : List Role) : List String :=
  σ.filterMap Role.resumed?

/-- The number of calls in flight. -/
def calls (σ : List Role) : Nat :=
  σ.countP Role.isCall

/-- The table and the depth of calls agree with the bodies in flight. -/
structure InFlight (cx : Context) (σ : List Role) (w : World) : Prop where
  names : w.table.slots.names.Nodup
  running : ∀ name, (∃ c, w.table.slot? name = some (.running c)) ↔ name ∈ resumed σ
  distinct : (resumed σ).Nodup
  mark : ∀ name i, .resume name i ∈ σ → w.table.slot? name = some (.running i.coroutine)
  depth : w.depth = calls σ
  limit : calls σ ≤ cx.settings.maxCallDepth

theorem resume_inj {σ : List Role} {name : String} {i j : Instance} (h : (resumed σ).Nodup)
    (hi : .resume name i ∈ σ) (hj : .resume name j ∈ σ) : i = j := by
  induction σ with
  | nil => cases hi
  | cons role σ ih =>
    -- A name that is resumed further down is not resumed at the top.
    have htop : ∀ {k k'}, role = .resume name k → .resume name k' ∉ σ := by
      rintro k k' rfl hk'
      exact (List.nodup_cons.1 h).1 (List.mem_filterMap.2 ⟨_, hk', rfl⟩)
    rcases List.mem_cons.1 hi with hi | hi <;> rcases List.mem_cons.1 hj with hj | hj
    · rw [← hi] at hj
      cases hj
      rfl
    · exact absurd hj (htop hi.symm)
    · exact absurd hi (htop hj.symm)
    · exact ih (h.sublist ((List.sublist_cons_self role σ).filterMap _)) hi hj

namespace InFlight

variable {cx : Context} {σ : List Role} {w w' : World} {name : String} {i : Instance}

/-- No more resumes are in flight than there are instances. -/
theorem length_resumed_le (h : InFlight cx σ w) : (resumed σ).length ≤ w.table.slots.length := by
  have hsub : resumed σ ⊆ w.table.slots.names := by
    intro name hname
    obtain ⟨c, hc⟩ := (h.running name).2 hname
    exact List.mem_map_of_mem (Assoc.mem_of_get? hc)
  have hle := (List.subperm_of_subset h.distinct hsub).length_le
  simpa [Assoc.names] using hle

theorem of_table (h : InFlight cx σ w) (htable : w'.table = w.table) (hdepth : w'.depth = w.depth) :
    InFlight cx σ w' := by
  refine ⟨?_, ?_, h.distinct, ?_, hdepth.trans h.depth, h.limit⟩
  · exact w'.table.sorted.nodup_names
  · rw [htable]
    exact h.running
  · rw [htable]
    exact h.mark

/-- An instance is put where no mark is, so all marks stay. -/
theorem insert (h : InFlight cx σ w) {t : Table} (hins : w.table.insert name i = (.ok (), t))
    (htable : w'.table = t) (hdepth : w'.depth = w.depth) : InFlight cx σ w' := by
  obtain ⟨hfree, rfl⟩ := Table.insert_ok hins
  have hslot : ∀ other c, w'.table.slot? other = some (.running c) ↔
      w.table.slot? other = some (.running c) := by
    intro other c
    rw [htable]
    by_cases heq : other = name
    · subst heq
      simp [Table.not_running_of_isFree hfree]
    · rw [Table.slot?_setSlot_of_ne heq]
  refine ⟨?_, ?_, h.distinct, ?_, hdepth.trans h.depth, h.limit⟩
  · exact w'.table.sorted.nodup_names
  · intro other
    simp only [hslot]
    exact h.running other
  · intro other j hj
    exact (hslot other _).2 (h.mark other j hj)

theorem call (h : InFlight cx σ w) {f : Function} (hw : f.enter cx w = (.ok (), w')) :
    InFlight cx (.call f :: σ) w' := by
  obtain ⟨hlt, rfl⟩ := Function.enter_ok hw
  have hdepth := h.depth
  refine ⟨h.names, h.running, h.distinct, ?_, ?_, ?_⟩
  · intro name i hi
    rcases List.mem_cons.1 hi with hi | hi
    · cases hi
    · exact h.mark name i hi
  · simp only [calls, List.countP_cons, Role.isCall, if_true]
    unfold calls at hdepth
    omega
  · simp only [calls, List.countP_cons, Role.isCall, if_true]
    unfold calls at hdepth
    omega

/-- Taking an instance out marks its slot, which bore no mark before. -/
theorem checkout (h : InFlight cx σ w) {t : Table} (hout : w.table.checkout name = (.ok i, t)) :
    InFlight cx (.resume name i :: σ) { w with table := t } := by
  obtain ⟨hparked, rfl⟩ := Table.checkout_ok hout
  have hnew : name ∉ resumed σ := by
    intro hmem
    obtain ⟨c, hc⟩ := (h.running name).2 hmem
    rw [hparked] at hc
    cases hc
  refine ⟨(Table.sorted _).nodup_names, ?_, ?_, ?_, ?_, ?_⟩
  · intro other
    show _ ↔ other ∈ name :: resumed σ
    by_cases heq : other = name
    · subst heq
      simp
    · rw [Table.slot?_setSlot_of_ne heq, h.running other, List.mem_cons]
      simp [heq]
  · exact List.nodup_cons.2 ⟨hnew, h.distinct⟩
  · intro other j hj
    rcases List.mem_cons.1 hj with hj | hj
    · cases hj
      exact Table.slot?_setSlot_self
    · have hmark := h.mark other j hj
      have hne : other ≠ name := by
        rintro rfl
        rw [hparked] at hmark
        cases hmark
      rw [Table.slot?_setSlot_of_ne hne]
      exact hmark
  · show w.depth = _
    rw [h.depth]
    simp [calls, Role.isCall]
  · have hlimit := h.limit
    simpa [calls, Role.isCall] using hlimit

/-- Putting an instance back removes the mark of its own resume. -/
theorem park (h : InFlight cx (.resume name i :: σ) w) (j : Instance) :
    InFlight cx σ (w.park name j) := by
  have hdistinct : name ∉ resumed σ ∧ (resumed σ).Nodup := List.nodup_cons.1 h.distinct
  refine ⟨(Table.sorted _).nodup_names, ?_, hdistinct.2, ?_, ?_, ?_⟩
  · intro other
    show (∃ c, (w.table.setSlot name _).slot? other = _) ↔ _
    by_cases heq : other = name
    · subst heq
      simp [hdistinct.1]
    · have hrunning : _ ↔ other ∈ name :: resumed σ := h.running other
      rw [Table.slot?_setSlot_of_ne heq, hrunning, List.mem_cons]
      simp [heq]
  · intro other k hk
    have hne : other ≠ name := by
      rintro rfl
      exact hdistinct.1 (List.mem_filterMap.2 ⟨_, hk, rfl⟩)
    show (w.table.setSlot name _).slot? other = _
    rw [Table.slot?_setSlot_of_ne hne]
    exact h.mark other k (List.mem_cons_of_mem _ hk)
  · have hdepth := h.depth
    simpa [calls, Role.isCall, World.park] using hdepth
  · have hlimit := h.limit
    simpa [calls, Role.isCall] using hlimit

theorem close {role : Role} (h : InFlight cx (role :: σ) w) (x : Except Fault Machine) :
    InFlight cx σ (role.close x w) := by
  cases role with
  | main =>
    refine ⟨h.names, h.running, h.distinct, fun name i hi => h.mark name i ?_, ?_, ?_⟩
    · exact List.mem_cons_of_mem _ hi
    · exact h.depth
    · exact h.limit
  | call f =>
    have hdepth := h.depth
    have hlimit := h.limit
    simp only [calls, List.countP_cons, Role.isCall, if_true] at hdepth hlimit
    refine ⟨h.names, h.running, h.distinct, fun name i hi => h.mark name i ?_, ?_, ?_⟩
    · exact List.mem_cons_of_mem _ hi
    · simp only [Role.close, World.leave, calls]
      omega
    · unfold calls
      omega
  | resume name i => exact h.park _

/-- **Every step keeps table and depth in agreement with the bodies in flight.** -/
theorem shift {given : Instance → Prop} {σ' : List Role} (h : InFlight cx σ w)
    (hs : Shift cx given σ w σ' w') : InFlight cx σ' w' := by
  cases hs with
  | stays => exact h
  | @effect _ _ _ e he =>
    cases e with
    | print line =>
      obtain ⟨-, rfl⟩ := World.print_ok he
      exact h.of_table rfl rfl
    | declare name doc =>
      cases he
      exact h.of_table (by simp) (by simp)
    | create name coroutine =>
      obtain ⟨c, t, hc, ht, rfl⟩ := World.create_ok he
      exact h.insert ht (by simp) (by simp)
  | restores hi hw =>
    obtain ⟨-, -, t, ht, rfl⟩ := World.restore_ok hw
    exact h.insert ht rfl rfl
  | main => exact ⟨h.names, h.running, h.distinct, fun name i hi => by simp at hi, h.depth, h.limit⟩
  | calls hw => exact (h.call hw).of_table (by simp) (by simp)
  | resumes hout hbody => exact (h.checkout hout).of_table (by simp) (by simp)
  | refuses hout hbody =>
    exact h.of_table (World.table_park_of_checkout hout) (World.depth_beginResume ..)
  | closes x => exact h.close x

end InFlight

/-! ## Instances under their names -/

/-- What a resume that ran its body makes of an instance: it is suspended or has completed, with one
resume more. -/
inductive Instance.Resumes : Instance → Instance → Prop
  | suspends {i : Instance} {m : Machine} (hi : i.isResumable = true) (hm : m.isSuspended = true) :
      Resumes i { i with life := .suspended, machine := some m, resumes := i.resumes + 1 }
  | completes {i : Instance} (hi : i.isResumable = true) :
      Resumes i { i with life := .completed, machine := none, resumes := i.resumes + 1 }

/-- A change of the instance under a name: it is resumed or, once it has completed, replaced by one
that is created or handed in. -/
inductive Instance.Moves (cx : Context) (given : Instance → Prop) : Instance → Instance → Prop
  | resumed {i j : Instance} (h : i.Resumes j) : Moves cx given i j
  | replaced {i j : Instance} (hi : i.life = .completed)
      (hj : given j ∨ ∃ n, ∃ c ∈ cx.decls.coroutines, j = .create (cx.identities n) c) :
      Moves cx given i j

/-- What may become of the instance under a name. -/
abbrev Instance.Leads (cx : Context) (given : Instance → Prop) : Instance → Instance → Prop :=
  Relation.ReflTransGen (Instance.Moves cx given)

theorem Instance.Leads.mono {cx : Context} {given given' : Instance → Prop} {i i' : Instance}
    (h : i.Leads cx given i') (hgiven : ∀ j, given j → given' j) : i.Leads cx given' i' := by
  refine Relation.ReflTransGen.mono (fun a b hab => ?_) _ _ h
  cases hab with
  | resumed ha => exact .resumed ha
  | replaced ha hb => exact .replaced ha (hb.imp_left (hgiven b))

/-- The instance of a name: it is in its slot, or in flight. -/
def Holds (σ : List Role) (w : World) (name : String) (i : Instance) : Prop :=
  w.table.slot? name = some (.parked i) ∨ .resume name i ∈ σ

/-- The resumes in flight run a body. -/
def Ready (σ : List Role) : Prop :=
  ∀ name i, .resume name i ∈ σ → ∃ m, i.body = .ok m

theorem Instance.isResumable_of_body {i : Instance} {m : Machine} (h : i.body = .ok m) :
    i.isResumable = true := by
  unfold Instance.body at h
  split at h
  case isTrue hi => exact hi
  case isFalse => cases h

theorem Instance.resumes_settle {i : Instance} {m : Machine} (h : i.body = .ok m)
    {ending : Ending Machine} : i.Resumes (i.settle ending).2 := by
  have hi := Instance.isResumable_of_body h
  cases ending with
  | fault f => exact .completes hi
  | outOfFuel => exact .completes hi
  | value m' =>
    simp only [Instance.settle]
    split
    case isTrue hm => exact .suspends hi hm
    case isFalse => exact .completes hi

theorem Table.completed_of_isFree {t : Table} {name : String} {i : Instance}
    (h : t.isFree name = true) (hi : t.slot? name = some (.parked i)) : i.life = .completed := by
  simpa [Table.isFree, hi] using h

section Holding

variable {cx : Context} {given : Instance → Prop} {σ σ' : List Role} {w w' : World}
  {name other : String} {i j : Instance}

theorem Ready.shift (h : Ready σ) (hs : Shift cx given σ w σ' w') : Ready σ' := by
  cases hs with
  | main =>
    intro name i hi
    simp at hi
  | calls hw =>
    intro name i hi
    rcases List.mem_cons.1 hi with hi | hi
    · cases hi
    · exact h name i hi
  | resumes hout hbody =>
    intro name i hi
    rcases List.mem_cons.1 hi with hi | hi
    · cases hi
      exact ⟨_, hbody⟩
    · exact h name i hi
  | closes x => exact fun name i hi => h name i (List.mem_cons_of_mem _ hi)
  | _ => exact h

/-- **A name has one instance at most**, in its slot or in flight. -/
theorem InFlight.holds_unique (h : InFlight cx σ w) (hi : Holds σ w name i)
    (hj : Holds σ w name j) : i = j := by
  have hboth : ∀ {i j : Instance}, w.table.slot? name = some (.parked i) →
      .resume name j ∈ σ → i = j := by
    intro i j hslot hmem
    have hmark := h.mark name j hmem
    rw [hslot] at hmark
    cases hmark
  rcases hi with hi | hi
  · rcases hj with hj | hj
    · rw [hi] at hj
      cases hj
      rfl
    · exact hboth hi hj
  · rcases hj with hj | hj
    · exact (hboth hj hi).symm
    · exact resume_inj h.distinct hi hj

theorem Holds.setSlot {s : Slot} (h : Holds σ w name i) (hne : name ≠ other)
    (htable : w'.table = w.table.setSlot other s) : Holds σ w' name i := by
  rcases h with hslot | hmem
  · left
    rw [htable, Table.slot?_setSlot_of_ne hne]
    exact hslot
  · exact .inr hmem

/-- An instance that is put into a free slot replaces one that has completed, or none. -/
theorem Holds.insert {t : Table} (h : Holds σ w name i)
    (hins : w.table.insert other j = (.ok (), t)) (htable : w'.table = t)
    (hj : given j ∨ ∃ n, ∃ c ∈ cx.decls.coroutines, j = .create (cx.identities n) c) :
    ∃ i', Holds σ w' name i' ∧ (i' = i ∨ i.Moves cx given i') := by
  obtain ⟨hfree, rfl⟩ := Table.insert_ok hins
  by_cases heq : name = other
  · subst heq
    rcases h with hslot | hmem
    · refine ⟨j, .inl ?_, .inr (.replaced (Table.completed_of_isFree hfree hslot) hj)⟩
      rw [htable]
      exact Table.slot?_setSlot_self
    · exact ⟨i, .inr hmem, .inl rfl⟩
  · exact ⟨i, h.setSlot heq htable, .inl rfl⟩

/-- **A step keeps the instance of a name**, unless it resumes it or, once it has completed,
replaces it. -/
theorem Holds.shift (hw : InFlight cx σ w) (hr : Ready σ) (hs : Shift cx given σ w σ' w')
    (h : Holds σ w name i) : ∃ i', Holds σ' w' name i' ∧ (i' = i ∨ i.Moves cx given i') := by
  have hsame : w'.table = w.table → (∀ j, .resume name j ∈ σ → .resume name j ∈ σ') →
      ∃ i', Holds σ' w' name i' ∧ (i' = i ∨ i.Moves cx given i') := by
    intro htable hsub
    refine ⟨i, ?_, .inl rfl⟩
    rcases h with hslot | hmem
    · exact .inl (by rw [htable]; exact hslot)
    · exact .inr (hsub i hmem)
  cases hs with
  | stays => exact ⟨i, h, .inl rfl⟩
  | @effect _ _ _ e he =>
    cases e with
    | print line =>
      obtain ⟨-, rfl⟩ := World.print_ok he
      exact hsame rfl fun _ => id
    | declare name doc =>
      cases he
      exact hsame (by simp) fun _ => id
    | create name coroutine =>
      obtain ⟨c, t, hc, ht, rfl⟩ := World.create_ok he
      exact h.insert ht (by simp) (.inr ⟨_, c, List.mem_of_find?_eq_some hc, rfl⟩)
  | restores hi hw' =>
    obtain ⟨-, -, t, ht, rfl⟩ := World.restore_ok hw'
    exact h.insert ht rfl (.inl hi)
  | main => exact hsame rfl fun j hj => List.mem_cons_of_mem _ hj
  | calls henter =>
    obtain ⟨-, rfl⟩ := Function.enter_ok henter
    exact hsame (by simp) fun j hj => List.mem_cons_of_mem _ hj
  | @resumes _ _ name' i' t m hout hbody =>
    obtain ⟨hparked, rfl⟩ := Table.checkout_ok hout
    refine ⟨i, ?_, .inl rfl⟩
    by_cases heq : name = name'
    · subst heq
      rw [hw.holds_unique h (.inl hparked)]
      exact .inr List.mem_cons_self
    · exact (h.setSlot heq (World.table_beginResume ..)).imp_right (List.mem_cons_of_mem _)
  | refuses hout hbody => exact hsame (World.table_park_of_checkout hout) fun _ => id
  | @closes _ _ role x =>
    rcases h with hslot | hmem
    · refine ⟨i, .inl ?_, .inl rfl⟩
      cases role with
      | main => exact hslot
      | call f => exact hslot
      | resume name' i' =>
        have hne : name ≠ name' := by
          rintro rfl
          have hmark := hw.mark name i' List.mem_cons_self
          rw [hslot] at hmark
          cases hmark
        show (w.table.setSlot name' _).slot? name = _
        rw [Table.slot?_setSlot_of_ne hne]
        exact hslot
    · rcases List.mem_cons.1 hmem with rfl | hmem
      · obtain ⟨m, hm⟩ := hr name i List.mem_cons_self
        exact ⟨_, .inl Table.slot?_setSlot_self, .inr (.resumed (Instance.resumes_settle hm))⟩
      · exact ⟨i, .inr hmem, .inl rfl⟩

end Holding

/-! ## Every moment of an operation -/

namespace Moment

/-- The instance of a name at a moment. -/
def Holds (z : Moment) (name : String) (i : Instance) : Prop :=
  CoLang.Holds z.roles z.world name i

/-- Table and depth agree with the bodies in flight, and the resumes in flight run a body. -/
structure Orderly (cx : Context) (z : Moment) : Prop where
  inFlight : InFlight cx z.roles z.world
  ready : Ready z.roles

variable {cx : Context} {z z' : Moment}

theorem Orderly.leads (h : z.Orderly cx) (hz : z.Leads cx z') : z'.Orderly cx := by
  refine hz.keeps ?_ h
  intro y y' hy hnext
  exact ⟨hy.inFlight.shift (next_shift hnext), hy.ready.shift (next_shift hnext)⟩

theorem close_ne_begins {role : Role} {below : List Waiting} {w w' : World}
    {x : Except Fault Machine} {main : Block} {op : Operation} :
    close role below w x ≠ .begins main op w' := by
  cases below <;> simp [close]

theorem next_ne_begins {main : Block} {op : Operation} {w : World} :
    z.next cx ≠ some (.begins main op w) := by
  intro h
  cases z with
  | finished r w' => cases h
  | begins main' op' w' =>
    have hfirst : first cx main' w' op' = .begins main op w := Option.some.inj h
    rcases first_cases cx main' w' op' with ⟨role, m, w₁, heq⟩ | ⟨r, w₁, -, heq⟩
    · rw [heq] at hfirst
      cases hfirst
    · rw [heq] at hfirst
      cases hfirst
  | running t below w' =>
    simp only [next] at h
    split at h
    · split at h <;> cases h
    · split at h <;> cases h
    · cases h
    · exact close_ne_begins (Option.some.inj h)
    · exact close_ne_begins (Option.some.inj h)

/-- **The instance of a name is there at every later moment**, or what has become of it. -/
theorem Holds.leads {name : String} {i : Instance} (hz : z.Orderly cx) (h : z.Leads cx z')
    (hi : z.Holds name i) : ∃ i', z'.Holds name i' ∧ i.Leads cx z.Given i' := by
  obtain ⟨n, hn⟩ := h
  induction n generalizing z i with
  | zero =>
    cases hn
    exact ⟨i, hi, .refl⟩
  | succ n ih =>
    obtain ⟨y, hy, hyz⟩ := Option.bind_eq_some_iff.1 hn
    obtain ⟨j, hj, hij⟩ := CoLang.Holds.shift hz.inFlight hz.ready (next_shift hy) hi
    obtain ⟨i', hi', hji'⟩ := ih (hz.leads (.single hy)) hj hyz
    -- Only the first moment of an operation hands an instance in.
    have hlater : j.Leads cx z.Given i' := by
      refine hji'.mono ?_
      rintro k ⟨main, name, w, rfl⟩
      exact absurd hy next_ne_begins
    refine ⟨i', hi', ?_⟩
    rcases hij with rfl | hij
    · exact hlater
    · exact hlater.head hij

/-- When the innermost resume is over, its instance takes the place of its own mark. -/
theorem Orderly.closes (h : z.Orderly cx) (hnext : z.next cx = some z') {name : String}
    {i : Instance} (hroles : z.roles = .resume name i :: z'.roles) :
    z.world.table.slot? name = some (.running i.coroutine) ∧
      ∃ i', i.Resumes i' ∧ z'.world = z.world.park name i' := by
  have hmem : .resume name i ∈ z.roles := by
    rw [hroles]
    exact List.mem_cons_self
  obtain ⟨m, hm⟩ := h.ready name i hmem
  refine ⟨h.inFlight.mark name i hmem, ?_⟩
  have hs := next_shift hnext
  rw [hroles] at hs
  generalize z'.roles = σ at hs
  generalize z'.world = w' at hs ⊢
  cases hs with
  | closes x => exact ⟨_, Instance.resumes_settle hm, rfl⟩

end Moment

/-- The interpreters of a program that a host gets to by operations that return, whatever instances
it hands in. -/
inductive Interpreter.Driven (p : Program) : Interpreter → Prop
  | build {settings : Settings} {capacity : Option Nat} {identities : Nat → Identity}
      {i : Interpreter} (h : Interpreter.build p settings capacity identities = .ok i) : Driven p i
  | perform {i : Interpreter} (h : Driven p i) {fuel : Nat} {op : Operation}
      (hret : (i.perform fuel op).1 ≠ .outOfFuel) : Driven p (i.perform fuel op).2

theorem Interpreter.leads_finished {i : Interpreter} {fuel : Nat} {op : Operation}
    (h : (i.perform fuel op).1 ≠ .outOfFuel) :
    (Moment.begins i.main op i.world).Leads i.context
      (.finished (i.perform fuel op).1 (i.perform fuel op).2.world) := by
  rw [perform_eq_result] at h ⊢
  exact Moment.leads_finished h

theorem Interpreter.Driven.orderly {p : Program} {i : Interpreter} (h : i.Driven p)
    (op : Operation) : (Moment.begins i.main op i.world).Orderly i.context := by
  suffices InFlight i.context [] i.world from ⟨this, fun name i hi => by cases hi⟩
  induction h with
  | build h =>
    obtain ⟨d, -, rfl⟩ := Interpreter.build_ok_iff.1 h
    refine
      ⟨List.nodup_nil, fun name => ⟨?_, fun hname => by cases hname⟩, List.nodup_nil, ?_, rfl, ?_⟩
    · rintro ⟨c, hc⟩
      cases hc
    · intro name j hj
      cases hj
    · exact Nat.zero_le _
  | @perform i h fuel op hret ih =>
    have hbegins : (Moment.begins i.main op i.world).Orderly i.context :=
      ⟨ih, fun name i hi => by cases hi⟩
    rw [context_perform]
    exact (hbegins.leads (leads_finished hret)).inFlight

/-- **An instance stays under its name over an operation**, or what has become of it. -/
theorem Interpreter.Driven.instance?_perform {p : Program} {i : Interpreter} (h : i.Driven p)
    {fuel : Nat} {op : Operation} (hret : (i.perform fuel op).1 ≠ .outOfFuel) {name : String}
    {inst : Instance} (hinst : i.instance? name = some inst) :
    ∃ inst', (i.perform fuel op).2.instance? name = some inst' ∧
      inst.Leads i.context (fun j => ∃ other, op = .restore other j) inst' := by
  have hslot : (Moment.begins i.main op i.world).Holds name inst :=
    .inl (Table.get?_eq_some_iff.1 hinst)
  obtain ⟨inst', hinst', hleads⟩ := hslot.leads (h.orderly op) (leads_finished hret)
  refine ⟨inst', ?_, hleads.mono ?_⟩
  · rcases hinst' with hinst' | hinst'
    · exact Table.get?_eq_some_iff.2 hinst'
    · cases hinst'
  · rintro j ⟨main, other, w, heq⟩
    cases heq
    exact ⟨other, rfl⟩

/-- **The table and the depth of calls account for what is in flight**, at every moment of every
operation, however calls and resumes nest. -/
theorem Interpreter.inFlight_at_every_moment {p : Program} {i : Interpreter} (h : i.Driven p)
    {op : Operation} {z : Moment} (hz : (Moment.begins i.main op i.world).Leads i.context z) :
    InFlight i.context z.roles z.world ∧
    (resumed z.roles).length ≤ z.world.table.slots.length ∧
    (∀ name j t, z.world.table.checkout name = (.ok j, t) →
      InFlight i.context (.resume name j :: z.roles) { z.world with table := t }) ∧
    (∀ z' name j, z.next i.context = some z' → z.roles = .resume name j :: z'.roles →
      z.world.table.slot? name = some (.running j.coroutine) ∧
        ∃ j', j.Resumes j' ∧ z'.world = z.world.park name j') ∧
    (∀ name j j', z.Holds name j → z.Holds name j' → j = j') ∧
    (∀ z' name j, z.Leads i.context z' → z.Holds name j →
      ∃ j', z'.Holds name j' ∧ j.Leads i.context z.Given j') ∧
    ∀ fuel, (i.perform fuel op).1 ≠ .outOfFuel →
      z.Leads i.context (.finished (i.perform fuel op).1 (i.perform fuel op).2.world) ∧
      (∀ name c, (i.perform fuel op).2.world.table.slot? name ≠ some (.running c)) ∧
      (i.perform fuel op).2.world.depth = i.world.depth := by
  have hbegins := h.orderly op
  have horderly := hbegins.leads hz
  refine ⟨horderly.inFlight, horderly.inFlight.length_resumed_le, fun name j t hout => ?_,
    fun z' name j hnext hroles => horderly.closes hnext hroles,
    fun name j j' hj hj' => horderly.inFlight.holds_unique hj hj',
    fun z' name j hleads hj => hj.leads horderly hleads, fun fuel hret => ?_⟩
  · exact horderly.inFlight.checkout hout
  · have hlast := leads_finished hret
    have hend := (hbegins.leads hlast).inFlight
    refine ⟨hz.finished hlast, fun name c hc => ?_, ?_⟩
    · have hmem := (hend.running name).1 ⟨c, hc⟩
      cases hmem
    · exact hend.depth.trans hbegins.inFlight.depth.symm

/-- The main body resumes an instance, which calls a function, which resumes another. -/
theorem Interpreter.inFlight_at_every_moment_nested :
    let f : Function := ⟨"f", [], none, [.resume "b"], none⟩
    let c : Coroutine := ⟨"c", [.expr (.call "f" [])], none⟩
    let d : Coroutine := ⟨"d", [.yield], none⟩
    let p : Program := ⟨[f], [c, d], [.create "a" "c", .create "b" "d", .resume "a"]⟩
    let i : Interpreter := ⟨⟨⟨[f], [c, d]⟩, .default, none, default⟩, p.main, .initial⟩
    ∃ z, (Moment.begins i.main .runMain i.world).Leads i.context z ∧
      resumed z.roles = ["b", "a"] ∧ calls z.roles = 1 ∧ InFlight i.context z.roles z.world ∧
      z.Leads i.context (.finished .ok (i.perform 20 .runMain).2.world) ∧
      ∀ name c, (i.perform 20 .runMain).2.world.table.slot? name ≠ some (.running c) := by
  intro f c d p i
  have hbuild : Interpreter.build p .default none default = .ok i := build_ok_iff.2 ⟨_, rfl, rfl⟩
  have hmoment : ((Moment.begins i.main .runMain i.world).after i.context 14).map
      (fun z => (resumed z.roles, calls z.roles)) = some (["b", "a"], 1) := by decide +kernel
  obtain ⟨z, hz, hroles⟩ := Option.map_eq_some_iff.1 hmoment
  obtain ⟨hresumed, hcalls⟩ := Prod.mk.inj hroles
  have hreply : (i.perform 20 .runMain).1 = .ok := by decide +kernel
  obtain ⟨hinFlight, -, -, -, -, -, hend⟩ := inFlight_at_every_moment (.build hbuild) ⟨14, hz⟩
  obtain ⟨hleads, hparked, -⟩ := hend 20 (by rw [hreply]; simp)
  rw [hreply] at hleads
  exact ⟨z, ⟨14, hz⟩, hresumed, hcalls, hinFlight, hleads, hparked⟩

end CoLang
