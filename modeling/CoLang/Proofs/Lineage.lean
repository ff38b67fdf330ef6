import CoLang.Proofs.Bodies
/-!
# Where bodies are

While an operation runs, a body is in flight or, between its resumes, in a slot (`Spot`). From one
moment to the next it stays where it is, or begins or ends being resumed (`Goes`). So a body can be
followed through a whole session: every body was somewhere at the moment before, unless it begins
(`Onward.origin`), and its machine is the same or has taken one step (`Onward.becomes`).
-/

namespace CoLang

/-- Where a body is: in flight, at a level counted from the outermost body, or in a slot. -/
inductive Spot where
  | flight (level : Nat)
  | parked (name : String)

/-- What a body may be found to be at the next moment. -/
inductive Machine.Becomes (m : Machine) : Machine → Prop
  | stays : Becomes m m
  | goesOn : Becomes m m.clearYield
  | advances {more : Bool} {m' : Machine} (h : m.Advances (more, m')) : Becomes m m'

/-- If nothing is asked of machines, what is kept is that steps in flight end as steps do. -/
theorem Machine.kept_true (d : Declarations) : Machine.Kept d (fun _ => True) fun _ => True where
  step _ _ := trivial
  stray _ _ := trivial
  plain _ := trivial
  clearYield _ := trivial
  call _ _ := trivial
  create _ := trivial

/-- The machine that a body begins with: that of the instance that is resumed, or a new one. -/
inductive Role.Opens (w : World) : Role → Machine → Prop
  | resume {name : String} {i : Instance} {m : Machine}
      (hslot : w.table.slot? name = some (.parked i)) (hbody : i.body = .ok m) :
      Opens w (.resume name i) m
  | start {role : Role} (hrole : ∀ name i, role ≠ .resume name i) (body : Block) (env : Env)
      (kind : BodyKind) : Opens w role (.start body env kind)

theorem Request.Opens.role {cx : Context} {w w' : World} {q : Request} {t : Active}
    (h : q.Opens cx w t w') : t.role.Opens w t.machine := by
  cases h with
  | call => exact .start (by simp [Active.start]) _ _ _
  | resume hout hbody => exact .resume (Table.checkout_ok hout).1 hbody

namespace Moment

/-- The machines of the bodies in flight, the outermost first. -/
def machines : Moment → List Machine
  | .running t below _ => (t.machine :: below.map Waiting.machine).reverse
  | _ => []

/-- The machine of the body at a spot. -/
def machine? (z : Moment) : Spot → Option Machine
  | .flight level => z.machines[level]?
  | .parked name => (z.world.table.get? name).bind Instance.machine

theorem length_machines (z : Moment) : z.machines.length = z.roles.length := by
  cases z with
  | running t below w => simp [machines, roles]
  | _ => rfl

/-- What a step does to the bodies in flight. -/
inductive Flow (z z' : Moment) : Prop
  | same (hm : z'.machines = z.machines) (hr : z'.roles = z.roles)
  | steps {ms : List Machine} {m m' : Machine} (hm : z.machines = ms ++ [m])
      (hm' : z'.machines = ms ++ [m']) (hr : z'.roles = z.roles) (h : m.Advances (true, m'))
  | opens {m : Machine} {role : Role} (hm : z'.machines = z.machines ++ [m])
      (hr : z'.roles = role :: z.roles) (h : role.Opens z.world m)
  | closes {m : Machine} {role : Role} {x : Except Fault Machine}
      (hm : z.machines = z'.machines ++ [m]) (hr : z.roles = role :: z'.roles)
      (hw : z'.world = role.close x z.world) (h : ∀ m', x = .ok m' → m.Advances (false, m'))

/-- Where a body goes in a step: it stays in flight or in its slot, or begins or ends being
resumed. -/
inductive Goes (z z' : Moment) : Spot → Spot → Prop
  | flies (level : Nat) : Goes z z' (.flight level) (.flight level)
  | rests {name : String} (h : z'.world.table.slot? name = z.world.table.slot? name) :
      Goes z z' (.parked name) (.parked name)
  | leaves {name : String} {i : Instance} (h : z'.roles = .resume name i :: z.roles) :
      Goes z z' (.parked name) (.flight z.roles.length)
  | returns {name : String} {i : Instance} (h : z.roles = .resume name i :: z'.roles) :
      Goes z z' (.flight z'.roles.length) (.parked name)

/-- The machine is that of a body that begins: a new one, or one that the host hands in. -/
def Begins (z : Moment) (m : Machine) : Prop :=
  (∃ body env kind, m = .start body env kind) ∨ ∃ i, z.Given i ∧ i.machine = some m

/-- The next moment of a session. After an operation the host may begin another. -/
inductive Onward (cx : Context) (main : Block) : Moment → Moment → Prop
  | next {z z' : Moment} (h : z.next cx = some z') : Onward cx main z z'
  | begins {r : Reply} {w : World} (op : Operation) :
      Onward cx main (.finished r w) (.begins main op w)

variable {cx : Context} {I : Machine → Prop} {Φ : Fault → Prop} {z z' : Moment}

theorem flow_close {t : Active} {below : List Waiting} {w : World} {x : Except Fault Machine}
    (h : ∀ m', x = .ok m' → t.machine.Advances (false, m')) :
    Flow (.running t below w) (close t.role below w x) := by
  cases below with
  | nil => exact .closes rfl rfl rfl h
  | cons b below => exact .closes List.reverse_cons rfl rfl h

/-- **All that a step does to the bodies in flight.** -/
theorem Keeps.flow (h : z.Keeps cx.decls I Φ) (hz : z.next cx = some z') : Flow z z' := by
  cases z with
  | finished r w => cases hz
  | begins main op w =>
    cases hz
    cases op with
    | runMain => exact .opens rfl rfl (.start (by simp [Active.start]) _ _ _)
    | create name coroutine =>
      simp only [first]
      rcases w.create cx name coroutine with ⟨f | ⟨⟩, w'⟩ <;> exact .same rfl rfl
    | restore name i =>
      simp only [first]
      rcases w.restore cx name i with ⟨f | ⟨⟩, w'⟩ <;> exact .same rfl rfl
    | resume name =>
      simp only [first]
      cases hq : (Request.resume name).begin cx w with
      | opened t w' => exact .opens rfl rfl (Request.opens_of_begin hq).role
      | refused f w' => exact .same rfl rfl
  | running t below w =>
    obtain ⟨role, m, script⟩ := t
    obtain ⟨⟨hm, hscript⟩, -, -⟩ := h
    cases script with
    | ends x =>
      rcases x with f | ⟨_ | _, m'⟩
      · cases hz
        refine flow_close (t := ⟨role, m, _⟩) fun m' hm' => ?_
        cases hm'
      · cases hz
        refine flow_close (t := ⟨role, m, _⟩) fun m'' hm'' => ?_
        cases hm''
        exact hscript
      · cases hz
        exact .steps List.reverse_cons List.reverse_cons rfl hscript
    | does e s =>
      simp only [Moment.next] at hz
      rcases he : e.apply cx w with ⟨f | ⟨⟩, w'⟩ <;> simp only [he] at hz <;> cases hz <;>
        exact .same rfl rfl
    | asks q k =>
      simp only [Moment.next] at hz
      cases hq : q.begin cx w with
      | opened inner w' =>
        simp only [hq] at hz
        cases hz
        exact .opens List.reverse_cons rfl (Request.opens_of_begin hq).role
      | refused f w' =>
        simp only [hq] at hz
        cases hz
        exact .same rfl rfl

theorem Flow.becomes_flying (h : Flow z z') {level : Nat} {m m' : Machine}
    (hm : z.machines[level]? = some m) (hm' : z'.machines[level]? = some m') : m.Becomes m' := by
  have hlt := (List.getElem?_eq_some_iff.1 hm).1
  have hlt' := (List.getElem?_eq_some_iff.1 hm').1
  cases h with
  | same hms _ =>
    rw [hms, hm] at hm'
    cases hm'
    exact .stays
  | steps hms hms' _ hadvances =>
    rw [hms] at hm
    rw [hms'] at hm'
    rw [hms, List.length_append, List.length_singleton] at hlt
    rcases Nat.lt_succ_iff_lt_or_eq.1 hlt with hlt | rfl
    · rw [List.getElem?_append_left hlt] at hm hm'
      rw [hm] at hm'
      cases hm'
      exact .stays
    · rw [List.getElem?_concat_length] at hm hm'
      cases hm
      cases hm'
      exact .advances hadvances
  | opens hms _ _ =>
    rw [hms, List.getElem?_append_left hlt, hm] at hm'
    cases hm'
    exact .stays
  | closes hms _ _ _ =>
    rw [hms, List.getElem?_append_left hlt', hm'] at hm
    cases hm
    exact .stays

theorem Flow.becomes_leaving (h : Flow z z') {name : String} {i : Instance}
    (hroles : z'.roles = .resume name i :: z.roles) {m m' : Machine}
    (hm : z.machine? (.parked name) = some m)
    (hm' : z'.machine? (.flight z.roles.length) = some m') : m.Becomes m' := by
  have hlength := congrArg List.length hroles
  rw [List.length_cons] at hlength
  cases h with
  | same _ hr =>
    rw [hr] at hlength
    omega
  | steps _ _ hr _ =>
    rw [hr] at hlength
    omega
  | closes _ hr _ _ =>
    rw [hr, List.length_cons] at hlength
    omega
  | opens hms hr hopens =>
    rw [hroles] at hr
    cases hr
    simp only [machine?, hms, ← z.length_machines, List.getElem?_concat_length] at hm'
    cases hm'
    cases hopens with
    | start hrole => exact absurd rfl (hrole name i)
    | resume hslot hbody =>
      obtain ⟨m₀, hm₀, rfl⟩ := Instance.machine_of_body hbody
      simp only [machine?, Table.get?, hslot, Option.bind_some, hm₀] at hm
      cases hm
      exact .goesOn

theorem Flow.becomes_returning (h : Flow z z') {name : String} {i : Instance}
    (hroles : z.roles = .resume name i :: z'.roles) {m m' : Machine}
    (hm : z.machine? (.flight z'.roles.length) = some m)
    (hm' : z'.machine? (.parked name) = some m') : m.Becomes m' := by
  have hlength := congrArg List.length hroles
  rw [List.length_cons] at hlength
  cases h with
  | same _ hr =>
    rw [hr] at hlength
    omega
  | steps _ _ hr _ =>
    rw [hr] at hlength
    omega
  | opens _ hr _ =>
    rw [hr, List.length_cons] at hlength
    omega
  | @closes m₀ role x hms hr hworld hadvances =>
    rw [hroles] at hr
    cases hr
    simp only [machine?, hms, ← z'.length_machines, List.getElem?_concat_length] at hm
    cases hm
    have hslot : z'.world.table.get? name = some (i.settle (.ofExcept x)).2 := by
      rw [hworld]
      exact Table.get?_eq_some_iff.2 Table.slot?_setSlot_self
    simp only [machine?, hslot, Option.bind_some] at hm'
    obtain ⟨hending, -⟩ := Instance.machine_settle hm'
    cases x with
    | error f => cases hending
    | ok m'' =>
      cases hending
      exact .advances (hadvances m' rfl)

/-- **A body is followed from one moment to the next**, wherever it goes. -/
theorem Flow.becomes (h : Flow z z') {spot spot' : Spot} (hgoes : Goes z z' spot spot')
    {m m' : Machine} (hm : z.machine? spot = some m) (hm' : z'.machine? spot' = some m') :
    m.Becomes m' := by
  cases hgoes with
  | flies level => exact h.becomes_flying hm hm'
  | leaves hroles => exact h.becomes_leaving hroles hm hm'
  | returns hroles => exact h.becomes_returning hroles hm hm'
  | rests hslot =>
    simp only [machine?, Table.get?] at hm hm'
    rw [hslot, hm] at hm'
    cases hm'
    exact .stays

theorem Flow.origin_flying (h : Flow z z') {level : Nat} {m' : Machine}
    (hm' : z'.machine? (.flight level) = some m') :
    (∃ spot m, Goes z z' spot (.flight level) ∧ z.machine? spot = some m) ∨ z.Begins m' := by
  have hlt' := (List.getElem?_eq_some_iff.1 hm').1
  have hflies : level < z.machines.length → (∃ spot m, Goes z z' spot (.flight level) ∧
      z.machine? spot = some m) ∨ z.Begins m' :=
    fun hlt => .inl ⟨.flight level, _, .flies level, List.getElem?_eq_getElem hlt⟩
  cases h with
  | same hms _ => exact hflies (hms ▸ hlt')
  | steps hms hms' _ _ =>
    rw [hms', List.length_append] at hlt'
    rw [hms, List.length_append] at hflies
    exact hflies hlt'
  | closes hms _ _ _ =>
    rw [hms, List.length_append] at hflies
    exact hflies (Nat.lt_add_right _ hlt')
  | opens hms hr hopens =>
    rw [hms, List.length_append, List.length_singleton] at hlt'
    rcases Nat.lt_succ_iff_lt_or_eq.1 hlt' with hlt | rfl
    · exact hflies hlt
    · simp only [machine?, hms, List.getElem?_concat_length, Option.some.injEq] at hm'
      subst hm'
      cases hopens with
      | start hrole body env kind => exact .inr (.inl ⟨body, env, kind, rfl⟩)
      | @resume name i m hslot hbody =>
        obtain ⟨m₀, hm₀, rfl⟩ := Instance.machine_of_body hbody
        rw [z.length_machines]
        refine .inl ⟨.parked name, m₀, .leaves hr, ?_⟩
        simp only [machine?, Table.get?, hslot, Option.bind_some, hm₀]

theorem slot_of_insert {t t' : Table} {name other : String} {i j : Instance}
    (h : t.insert other i = (.ok (), t')) (hj : t'.slot? name = some (.parked j)) :
    t'.slot? name = t.slot? name ∨ j = i := by
  obtain ⟨-, rfl⟩ := Table.insert_ok h
  by_cases heq : name = other
  · subst heq
    rw [Table.slot?_setSlot_self] at hj
    cases hj
    exact .inr rfl
  · exact .inl (Table.slot?_setSlot_of_ne heq)

/-- A slot stays as it is, takes back the instance that was resumed, or takes in another. -/
theorem slot_of_shift {given : Instance → Prop} {σ σ' : List Role} {w w' : World}
    (h : Shift cx given σ w σ' w') {name : String} {j : Instance}
    (hj : w'.table.slot? name = some (.parked j)) :
    w'.table.slot? name = w.table.slot? name ∨ (∃ i, σ = .resume name i :: σ') ∨
      (∃ id c, j = .create id c) ∨ given j := by
  cases h with
  | stays => exact .inl rfl
  | main => exact .inl rfl
  | calls hw =>
    obtain ⟨-, rfl⟩ := Function.enter_ok hw
    rw [World.table_record]
    exact .inl rfl
  | @effect _ _ _ e he =>
    cases e with
    | print line =>
      obtain ⟨-, rfl⟩ := World.print_ok he
      exact .inl rfl
    | declare other doc =>
      cases he
      rw [World.table_record]
      exact .inl rfl
    | create other coroutine =>
      obtain ⟨c, t, -, ht, rfl⟩ := World.create_ok he
      rw [World.table_record] at hj ⊢
      rcases slot_of_insert ht hj with hsame | rfl
      · exact .inl hsame
      · exact .inr (.inr (.inl ⟨_, c, rfl⟩))
  | restores hi hw =>
    obtain ⟨-, -, t, ht, rfl⟩ := World.restore_ok hw
    rcases slot_of_insert ht hj with hsame | rfl
    · exact .inl hsame
    · exact .inr (.inr (.inr hi))
  | @resumes _ _ other i t m hout hbody =>
    obtain ⟨hparked, rfl⟩ := Table.checkout_ok hout
    rw [World.table_beginResume] at hj ⊢
    by_cases heq : name = other
    · subst heq
      rw [Table.slot?_setSlot_self] at hj
      cases hj
    · exact .inl (Table.slot?_setSlot_of_ne heq)
  | refuses hout hbody =>
    rw [World.table_park_of_checkout hout]
    exact .inl rfl
  | @closes _ _ role x =>
    cases role with
    | main => exact .inl rfl
    | call f => exact .inl rfl
    | resume other i =>
      by_cases heq : name = other
      · subst heq
        exact .inr (.inl ⟨i, rfl⟩)
      · exact .inl (Table.slot?_setSlot_of_ne heq)

/-- **Every body was somewhere at the moment before, unless it begins.** -/
theorem Onward.origin {main : Block} (h : z.Onward cx main z')
    (hz : z.Keeps cx.decls (fun _ => True) fun _ => True) {spot' : Spot} {m' : Machine}
    (hm' : z'.machine? spot' = some m') :
    (∃ spot m, Goes z z' spot spot' ∧ z.machine? spot = some m) ∨ z.Begins m' := by
  cases h with
  | @begins r w op =>
    cases spot' with
    | flight level => cases hm'
    | parked name => exact .inl ⟨.parked name, m', .rests rfl, hm'⟩
  | next hnext =>
    have hflow := hz.flow hnext
    cases spot' with
    | flight level => exact hflow.origin_flying hm'
    | parked name =>
      obtain ⟨j, hj, hmachine⟩ := Option.bind_eq_some_iff.1 hm'
      rcases slot_of_shift (next_shift hnext) (Table.get?_eq_some_iff.1 hj) with
        hsame | ⟨i, hroles⟩ | ⟨id, c, rfl⟩ | hgiven
      · refine .inl ⟨.parked name, m', .rests hsame, ?_⟩
        simp only [machine?, Table.get?] at hm' ⊢
        rw [← hsame]
        exact hm'
      · have hlt : z'.roles.length < z.machines.length := by
          rw [z.length_machines, hroles]
          exact Nat.lt_succ_self _
        exact .inl ⟨.flight z'.roles.length, _, .returns hroles, List.getElem?_eq_getElem hlt⟩
      · cases hmachine
        exact .inr (.inl ⟨_, _, _, rfl⟩)
      · exact .inr (.inr ⟨j, hgiven, hmachine⟩)

theorem Onward.keeps {main : Block} (h : z.Onward cx main z')
    (hz : z.Keeps cx.decls (fun _ => True) fun _ => True) :
    z'.Keeps cx.decls (fun _ => True) fun _ => True := by
  cases h with
  | next h => exact hz.next (Machine.kept_true cx.decls) h
  | begins op => exact ⟨trivial, fun _ _ _ _ _ => trivial, hz.parks⟩

theorem Onward.becomes {main : Block} (h : z.Onward cx main z')
    (hz : z.Keeps cx.decls (fun _ => True) fun _ => True) {spot spot' : Spot}
    (hgoes : Goes z z' spot spot') {m m' : Machine} (hm : z.machine? spot = some m)
    (hm' : z'.machine? spot' = some m') : m.Becomes m' := by
  cases h with
  | next h => exact (hz.flow h).becomes hgoes hm hm'
  | @begins r w op =>
    have hflow : Flow (.finished r w) (.begins main op w) := .same rfl rfl
    exact hflow.becomes hgoes hm hm'

theorem Keeps.machine {d : Declarations} (h : z.Keeps d I Φ) {spot : Spot} {m : Machine}
    (hm : z.machine? spot = some m) : I m := by
  cases spot with
  | parked name =>
    obtain ⟨i, hi, hmachine⟩ := Option.bind_eq_some_iff.1 hm
    exact h.parks name i (Table.get?_eq_some_iff.1 hi) m hmachine
  | flight level =>
    have hmem := List.mem_of_getElem? hm
    cases z with
    | begins main op w => cases hmem
    | finished r w => cases hmem
    | running t below w =>
      simp only [machines, List.mem_reverse, List.mem_cons, List.mem_map] at hmem
      rcases hmem with rfl | ⟨b, hb, rfl⟩
      · exact h.1.machine
      · exact (h.2.1 b hb).machine

end Moment

end CoLang
