import CoLang.Proofs.Session
import CoLang.Proofs.Script
/-!
# The course of an operation

An operation of the host is followed from moment to moment. A moment shows the bodies in flight, one
above the other: the innermost with what is left of its present step, and below it those that wait
for an answer. It also shows the world. From one moment to the next (`Moment.next`) a single thing
happens: a line is printed, an event recorded or an instance created; a call or a resume begins or
is refused; a body goes on to its next step; or the innermost body is over and what waited for it
goes on.

The course ends with what the operation returns, and every operation that returns has such a course
(`Interpreter.perform_iff_finished`).
-/

namespace CoLang

/-- Why a body runs. -/
inductive Role where
  | main
  | call (f : Function)
  | resume (name : String) (inst : Instance)

/-- The innermost body in flight. -/
structure Active where
  role : Role
  /-- The machine as it was when its present step began. -/
  machine : Machine
  /-- What is left of the step. -/
  script : Script (Bool × Machine)

/-- A body in flight that waits for the answer to its request. -/
structure Waiting where
  role : Role
  machine : Machine
  next : Option Val → Script (Bool × Machine)

/-- A moment of an operation. -/
inductive Moment where
  | begins (main : Block) (op : Operation) (w : World)
  | running (active : Active) (below : List Waiting) (w : World)
  | finished (r : Reply) (w : World)

/-- A body at the beginning of a step. -/
def Active.start (cx : Context) (role : Role) (m : Machine) : Active :=
  ⟨role, m, m.script cx⟩

/-- The body fails. -/
def Active.fail (t : Active) (f : Fault) : Active :=
  { t with script := .ends (.error f) }

/-- The body goes on once its request has been answered. -/
def Waiting.wake (b : Waiting) (answer : Except Fault (Option Val)) : Active :=
  ⟨b.role, b.machine, (Script.ends answer).bind b.next⟩

namespace Role

/-- The world behind a body that is over: a call is given back, an instance is put back. -/
def close (x : Except Fault Machine) (w : World) : Role → World
  | .main => w
  | .call _ => w.leave
  | .resume name i => w.park name (i.settle (.ofExcept x)).2

/-- What the body below is told. -/
def answer (x : Except Fault Machine) : Role → Except Fault (Option Val)
  | .call f => x.bind fun m => f.result m.returned
  | _ => x.map fun _ => none

/-- What the host is told. -/
def reply (x : Except Fault Machine) : Role → Reply
  | .resume _ i => .ofEnding .progress (i.settle (.ofExcept x)).1
  | _ => .ofEnding (fun _ => .ok) (.ofExcept x)

end Role

/-- What comes of a request: a body begins, or the request is refused. -/
inductive Opening where
  | opened (active : Active) (w : World)
  | refused (f : Fault) (w : World)

/-- Begins what is asked for. -/
def Request.begin (cx : Context) (w : World) : Request → Opening
  | .call f args =>
    match f.callEnv args with
    | .error e => .refused e w
    | .ok env =>
      match f.enter cx w with
      | (.error e, w) => .refused e w
      | (.ok (), w) =>
        .opened (.start cx (.call f) (.start f.body env .function))
          (w.record cx .call f.name f.doc none)
  | .resume name =>
    match w.table.checkout name with
    | (.error e, table) => .refused e { w with table }
    | (.ok i, table) =>
      let w := World.beginResume cx { w with table } name i
      match i.body with
      | .error e => .refused e (w.park name i)
      | .ok m => .opened (.start cx (.resume name i) m) w

namespace Moment

/-- An operation that is over at once, since it only changes the world or is refused. -/
def settled : Except Fault Unit × World → Moment
  | (.ok (), w) => .finished .ok w
  | (.error f, w) => .finished (.fault f) w

/-- What is next once the innermost body is over. -/
def close (role : Role) (below : List Waiting) (w : World) (x : Except Fault Machine) : Moment :=
  match below with
  | [] => .finished (role.reply x) (role.close x w)
  | b :: below => .running (b.wake (role.answer x)) below (role.close x w)

/-- The first thing that comes of an operation. -/
def first (cx : Context) (main : Block) (w : World) : Operation → Moment
  | .runMain => .running (.start cx .main (.start main .empty .main)) [] w
  | .create name coroutine => settled (w.create cx name coroutine)
  | .restore name i => settled (w.restore cx name i)
  | .resume name =>
    match (Request.resume name).begin cx w with
    | .opened active w => .running active [] w
    | .refused f w => .finished (.fault f) w

/-- The next moment, until the operation is over. -/
def next (cx : Context) : Moment → Option Moment
  | .begins main op w => some (first cx main w op)
  | .running active below w =>
    match active.script with
    | .does e s =>
      match e.apply cx w with
      | (.ok (), w) => some (.running { active with script := s } below w)
      | (.error f, w) => some (.running (active.fail f) below w)
    | .asks q k =>
      match q.begin cx w with
      | .opened inner w => some (.running inner (⟨active.role, active.machine, k⟩ :: below) w)
      | .refused f w => some (.running (active.fail f) below w)
    | .ends (.ok (true, m)) => some (.running (.start cx active.role m) below w)
    | .ends (.ok (false, m)) => some (close active.role below w (.ok m))
    | .ends (.error f) => some (close active.role below w (.error f))
  | .finished .. => none

/-- The moment a number of steps later, if the operation is not over before. -/
def after (cx : Context) : Nat → Moment → Option Moment
  | 0, z => some z
  | n + 1, z => (z.next cx).bind (after cx n)

/-- Some moment from this one on. -/
def Leads (cx : Context) (z z' : Moment) : Prop :=
  ∃ n, z.after cx n = some z'

variable {cx : Context} {z z' z'' : Moment}

theorem after_add (m n : Nat) : z.after cx (m + n) = (z.after cx m).bind (after cx n) := by
  induction m generalizing z with
  | zero => simp [after]
  | succ m ih =>
    rw [Nat.succ_add]
    simp only [after, Option.bind_assoc]
    congr 1
    funext y
    exact ih

theorem Leads.refl (z : Moment) : z.Leads cx z :=
  ⟨0, rfl⟩

theorem Leads.trans (h : z.Leads cx z') (h' : z'.Leads cx z'') : z.Leads cx z'' := by
  obtain ⟨m, hm⟩ := h
  obtain ⟨n, hn⟩ := h'
  exact ⟨m + n, by rw [after_add, hm, Option.bind_some, hn]⟩

theorem Leads.head (h : z.next cx = some z') (h' : z'.Leads cx z'') : z.Leads cx z'' := by
  obtain ⟨n, hn⟩ := h'
  exact ⟨n + 1, by rw [after, h, Option.bind_some, hn]⟩

theorem Leads.single (h : z.next cx = some z') : z.Leads cx z' :=
  .head h (.refl z')

/-- What every step keeps holds from a moment on. -/
theorem Leads.keeps {P : Moment → Prop} (hstep : ∀ {z z'}, P z → z.next cx = some z' → P z')
    (h : z.Leads cx z') (hz : P z) : P z' := by
  obtain ⟨n, hn⟩ := h
  induction n generalizing z with
  | zero =>
    cases hn
    exact hz
  | succ n ih =>
    obtain ⟨y, hy, hyz⟩ := Option.bind_eq_some_iff.1 hn
    exact ih (hstep hz hy) hyz

/-- A course has one end, and every moment of it leads there. -/
theorem Leads.finished {r : Reply} {w : World} (h : z.Leads cx z')
    (hend : z.Leads cx (.finished r w)) : z'.Leads cx (.finished r w) := by
  obtain ⟨m, hm⟩ := h
  obtain ⟨n, hn⟩ := hend
  rcases Nat.le_total m n with hmn | hnm
  · obtain ⟨k, rfl⟩ := Nat.exists_eq_add_of_le hmn
    rw [after_add, hm, Option.bind_some] at hn
    exact ⟨k, hn⟩
  · obtain ⟨k, rfl⟩ := Nat.exists_eq_add_of_le hnm
    rw [after_add, hn, Option.bind_some] at hm
    cases k with
    | zero =>
      cases hm
      exact .refl _
    | succ k => cases hm

theorem Leads.finished_inj {r r' : Reply} {w w' : World} (h : z.Leads cx (.finished r w))
    (h' : z.Leads cx (.finished r' w')) : r = r' ∧ w = w' := by
  obtain ⟨n, hn⟩ := h.finished h'
  cases n with
  | zero =>
    cases hn
    exact ⟨rfl, rfl⟩
  | succ n => cases hn

end Moment

/-! ## Requests -/

namespace Role

/-- A run with the bracket of its role around it. -/
def around (role : Role) (x : Eval Machine) : Eval (Option Val) :=
  fun w =>
    let r := x w
    match r.ending with
    | .value m => ⟨.ofExcept (role.answer (.ok m)), role.close (.ok m) r.world⟩
    | .fault f => ⟨.ofExcept (role.answer (.error f)), role.close (.error f) r.world⟩
    | .outOfFuel => ⟨.outOfFuel, r.world⟩

theorem around_of_returned {role : Role} {x : Eval Machine} {w w' : World}
    {y : Except Fault Machine} (h : x w = ⟨.ofExcept y, w'⟩) :
    role.around x w = ⟨.ofExcept (role.answer y), role.close y w'⟩ := by
  unfold around
  rw [h]
  cases y <;> rfl

end Role

theorem Eval.ofExcept_of_returned {α : Type} {x : Eval α} {w : World} (h : (x w).Returned) :
    ∃ y, x w = ⟨.ofExcept y, (x w).world⟩ := by
  rcases hx : x w with ⟨a | f | _, w'⟩
  · exact ⟨.ok a, rfl⟩
  · exact ⟨.error f, rfl⟩
  · rw [hx] at h
    exact absurd h Outcome.not_returned

theorem Outcome.ofExcept_inj {α : Type} {w w' : World} (x y : Except Fault α)
    (h : (⟨.ofExcept x, w⟩ : Outcome α) = ⟨.ofExcept y, w'⟩) : x = y ∧ w = w' := by
  cases x <;> cases y <;> cases h <;> exact ⟨rfl, rfl⟩

/-- The ways in which a request comes to begin a body. -/
inductive Request.Opens (cx : Context) (w : World) : Request → Active → World → Prop
  | call {f : Function} {args : List Val} {env : Env} {w' : World} (henv : f.callEnv args = .ok env)
      (hw : f.enter cx w = (.ok (), w')) :
      Opens cx w (.call f args) (.start cx (.call f) (.start f.body env .function))
        (w'.record cx .call f.name f.doc none)
  | resume {name : String} {i : Instance} {table : Table} {m : Machine}
      (hout : w.table.checkout name = (.ok i, table)) (hbody : i.body = .ok m) :
      Opens cx w (.resume name) (.start cx (.resume name i) m)
        (World.beginResume cx { w with table } name i)

theorem Request.opens_of_begin {cx : Context} {q : Request} {w w' : World} {t : Active}
    (h : q.begin cx w = .opened t w') : q.Opens cx w t w' := by
  cases q with
  | call f args =>
    simp only [Request.begin] at h
    split at h
    case h_1 => cases h
    case h_2 henv =>
      split at h
      case h_1 => cases h
      case h_2 hw =>
        cases h
        exact .call henv hw
  | resume name =>
    simp only [Request.begin] at h
    split at h
    case h_1 => cases h
    case h_2 hout =>
      split at h
      case h_1 => cases h
      case h_2 hbody =>
        cases h
        exact .resume hout hbody

/-- What begins is at the beginning of a step. -/
theorem Request.active_of_begin {cx : Context} {q : Request} {w w' : World} {t : Active}
    (h : q.begin cx w = .opened t w') : t = .start cx t.role t.machine := by
  cases opens_of_begin h with
  | call => rfl
  | resume => rfl

/-- **A request is answered by what begins**: its body is run between the brackets of its role. -/
theorem services_answer (cx : Context) (n : Nat) (q : Request) (w : World) :
    (services cx (n + 1)).answer q w =
      match q.begin cx w with
      | .refused f w => ⟨.fault f, w⟩
      | .opened t w => t.role.around (t.machine.runs cx (services cx n) n) w := by
  cases q with
  | call f args =>
    show f.call cx (services cx n) n args w = _
    rw [Function.call_eq]
    cases henv : f.callEnv args with
    | error e =>
      simp only [Request.begin, henv]
      rfl
    | ok env =>
      rw [Eval.ofExcept_ok_bind, Function.within_apply]
      rcases henter : f.enter cx w with ⟨e | ⟨⟩, w₁⟩
      · simp only [Request.begin, henv, henter, Function.atomic_enter henter]
      · simp only [Request.begin, henv, henter, Eval.leaving, Eval.bind_apply, Active.start,
          Role.around]
        rcases (Machine.start f.body env .function).runs cx (services cx n) n
          (w₁.record cx .call f.name f.doc none) with ⟨m | e | _, w₂⟩
        · simp only [Eval.ofExcept, Role.answer, Role.close, Except.bind]
          cases f.result m.returned <;> rfl
        · rfl
        · rfl
  | resume name =>
    show (World.resume cx (services cx n) n name >>= fun _ => Pure.pure none) w = _
    rw [Eval.bind_apply, World.resume_eq]
    rcases hout : w.table.checkout name with ⟨e | i, table⟩
    · simp only [Request.begin, hout, Table.atomic_checkout hout]
    · cases hbody : i.body with
      | error e => simp only [Request.begin, hout, hbody]
      | ok m =>
        simp only [Request.begin, hout, hbody, Active.start, Role.around]
        rcases m.runs cx (services cx n) n (World.beginResume cx { w with table } name i) with
          ⟨m' | e | _, w₂⟩
        · simp only [Instance.settle, Role.answer, Role.close, Ending.ofExcept]
          cases m'.isSuspended <;> rfl
        · rfl
        · rfl

/-! ## From computations to courses -/

/-- The rest of a step and all the steps behind it. -/
def Script.finish (cx : Context) (sv : Services) (fuel : Nat) (s : Script (Bool × Machine)) :
    Eval Machine := do
  let (more, m) ← s.eval cx sv
  if more then m.runs cx sv fuel else return m

theorem Machine.runs_eq_finish (cx : Context) (sv : Services) (fuel : Nat) (m : Machine) :
    m.runs cx sv (fuel + 1) = (m.script cx).finish cx sv fuel := by
  unfold Script.finish
  rw [Machine.runs_succ, Machine.eval_script]

/-- The course follows what services answer. -/
structure Services.Followed (cx : Context) (sv : Services) : Prop where
  answer : ∀ {q : Request} {w w' : World} {y : Except Fault (Option Val)},
    sv.answer q w = ⟨.ofExcept y, w'⟩ →
    ∀ (role : Role) (m : Machine) (k : Option Val → Script (Bool × Machine)) (below : List Waiting),
      (Moment.running ⟨role, m, .asks q k⟩ below w).Leads cx
        (.running (Waiting.wake ⟨role, m, k⟩ y) below w')

namespace Services.Followed

variable {cx : Context} {sv : Services} {w w' : World}

theorem eval (h : sv.Followed cx) {s : Script (Bool × Machine)} {y : Except Fault (Bool × Machine)}
    (hs : s.eval cx sv w = ⟨.ofExcept y, w'⟩) (role : Role) (m : Machine) (below : List Waiting) :
    (Moment.running ⟨role, m, s⟩ below w).Leads cx (.running ⟨role, m, .ends y⟩ below w') := by
  induction s generalizing w with
  | ends x =>
    obtain ⟨rfl, rfl⟩ := Outcome.ofExcept_inj x y hs
    exact .refl _
  | does e s ih =>
    rw [Script.eval_does, Eval.bind_apply] at hs
    simp only [Eval.change] at hs
    rcases he : e.apply cx w with ⟨f | ⟨⟩, w₁⟩
    · simp only [he] at hs
      obtain ⟨rfl, rfl⟩ := Outcome.ofExcept_inj (.error f) y hs
      exact .single (by simp only [Moment.next, he, Active.fail])
    · simp only [he] at hs
      exact .head (by simp only [Moment.next, he]) (ih hs)
  | asks q k ih =>
    rw [Script.eval_asks] at hs
    have hreturned : (sv.answer q w).Returned := by
      intro ho
      rw [Eval.bind_apply, ho] at hs
      cases y <;> cases hs
    obtain ⟨v, hv⟩ := Eval.ofExcept_of_returned hreturned
    refine (h.answer hv role m k below).trans ?_
    cases v with
    | ok v =>
      rw [Eval.bind_of_value hv] at hs
      exact ih v hs
    | error f =>
      rw [Eval.bind_of_fault hv] at hs
      obtain ⟨rfl, rfl⟩ := Outcome.ofExcept_inj (.error f) y hs
      exact .refl _

theorem runs (h : sv.Followed cx) {fuel : Nat} {m : Machine} {x : Except Fault Machine}
    (hm : m.runs cx sv fuel w = ⟨.ofExcept x, w'⟩) (role : Role) (below : List Waiting) :
    (Moment.running (.start cx role m) below w).Leads cx (.close role below w' x) := by
  induction fuel generalizing m w with
  | zero => cases x <;> cases hm
  | succ fuel ih =>
    rw [Machine.runs_succ] at hm
    have hreturned : (m.advance cx sv w).Returned := by
      intro ho
      rw [Eval.bind_apply, ho] at hm
      cases x <;> cases hm
    obtain ⟨y, hy⟩ := Eval.ofExcept_of_returned hreturned
    refine (h.eval (by rw [Machine.eval_script]; exact hy) role m below).trans ?_
    cases y with
    | error f =>
      rw [Eval.bind_of_fault hy] at hm
      obtain ⟨rfl, rfl⟩ := Outcome.ofExcept_inj (.error f) x hm
      exact .single rfl
    | ok r =>
      obtain ⟨more, m'⟩ := r
      rw [Eval.bind_of_value hy] at hm
      cases more with
      | true => exact .head rfl (ih hm)
      | false =>
        obtain ⟨rfl, rfl⟩ := Outcome.ofExcept_inj (.ok m') x hm
        exact .single rfl

end Services.Followed

/-- **The course of a program follows its services**, however deep they nest. -/
theorem services_followed (cx : Context) (n : Nat) : (services cx n).Followed cx := by
  induction n with
  | zero =>
    constructor
    intro q w w' y hy
    cases q <;> cases y <;> cases hy
  | succ n ih =>
    constructor
    intro q w w' y hy role m k below
    rw [services_answer] at hy
    cases hbegin : q.begin cx w with
    | refused f w₁ =>
      simp only [hbegin] at hy
      obtain ⟨rfl, rfl⟩ := Outcome.ofExcept_inj (.error f) y hy
      exact .single (by simp only [Moment.next, hbegin]; rfl)
    | opened inner w₁ =>
      simp only [hbegin] at hy
      have hreturned : (inner.machine.runs cx (services cx n) n w₁).Returned := by
        intro ho
        simp only [Role.around, ho] at hy
        cases y <;> cases hy
      obtain ⟨x, hx⟩ := Eval.ofExcept_of_returned hreturned
      rw [Role.around_of_returned hx] at hy
      obtain ⟨rfl, rfl⟩ := Outcome.ofExcept_inj _ _ hy
      have hnext : (Moment.running ⟨role, m, .asks q k⟩ below w).next cx =
          some (.running inner (⟨role, m, k⟩ :: below) w₁) := by
        simp only [Moment.next, hbegin]
      refine .head hnext ?_
      rw [Request.active_of_begin hbegin]
      exact ih.runs hx inner.role (⟨role, m, k⟩ :: below)

/-! ## From courses to computations -/

/-- The rest of a step and all steps behind it come out like this, with enough fuel. -/
def Script.Finishes (cx : Context) (s : Script (Bool × Machine)) (w : World)
    (x : Except Fault Machine) (w' : World) : Prop :=
  ∃ n, ∀ n' fuel, n ≤ n' → n ≤ fuel → s.finish cx (services cx n') fuel w = ⟨.ofExcept x, w'⟩

namespace Script.Finishes

variable {cx : Context} {w w₁ w₂ : World} {x : Except Fault Machine}

theorem error (cx : Context) (f : Fault) (w : World) :
    (Script.ends (.error f)).Finishes cx w (.error f) w :=
  ⟨0, fun _ _ _ _ => rfl⟩

theorem stop (cx : Context) (m : Machine) (w : World) :
    (Script.ends (.ok (false, m))).Finishes cx w (.ok m) w :=
  ⟨0, fun _ _ _ _ => rfl⟩

theorem step {m : Machine} (h : (m.script cx).Finishes cx w x w₁) :
    (Script.ends (.ok (true, m))).Finishes cx w x w₁ := by
  obtain ⟨n, hn⟩ := h
  refine ⟨n + 1, fun n' fuel hn' hfuel => ?_⟩
  obtain ⟨k, rfl⟩ : ∃ k, fuel = k + 1 := ⟨fuel - 1, by omega⟩
  show m.runs cx (services cx n') (k + 1) w = _
  rw [Machine.runs_eq_finish]
  exact hn n' k (by omega) (by omega)

theorem does {e : Effect} {s : Script (Bool × Machine)} (he : e.apply cx w = (.ok (), w₁))
    (h : s.Finishes cx w₁ x w₂) : (Script.does e s).Finishes cx w x w₂ := by
  obtain ⟨n, hn⟩ := h
  refine ⟨n, fun n' fuel hn' hfuel => ?_⟩
  rw [← hn n' fuel hn' hfuel]
  unfold Script.finish
  rw [Script.eval_does, Eval.bind_assoc]
  have hchange : Eval.change (e.apply cx) w = ⟨.value (), w₁⟩ := by
    simp only [Eval.change, he, Ending.ofExcept]
  exact Eval.bind_of_value hchange

theorem does_refused {e : Effect} {f : Fault} (s : Script (Bool × Machine))
    (he : e.apply cx w = (.error f, w₁)) : (Script.does e s).Finishes cx w (.error f) w₁ := by
  refine ⟨0, fun n' fuel _ _ => ?_⟩
  unfold Script.finish
  rw [Script.eval_does, Eval.bind_assoc]
  exact Eval.bind_of_fault (by simp only [Eval.change, he, Ending.ofExcept])

theorem asks_refused {q : Request} {f : Fault} (k : Option Val → Script (Bool × Machine))
    (hq : q.begin cx w = .refused f w₁) : (Script.asks q k).Finishes cx w (.error f) w₁ := by
  refine ⟨1, fun n' fuel hn' _ => ?_⟩
  obtain ⟨n, rfl⟩ : ∃ n, n' = n + 1 := ⟨n' - 1, by omega⟩
  unfold Script.finish
  rw [Script.eval_asks, Eval.bind_assoc]
  refine Eval.bind_of_fault ?_
  rw [services_answer]
  simp only [hq]

/-- A body waits for another to be run to its end, and then goes on. -/
theorem asks {q : Request} {k : Option Val → Script (Bool × Machine)} {t : Active}
    {y : Except Fault Machine} {w₃ : World} (hq : q.begin cx w = .opened t w₁)
    (ht : t.script.Finishes cx w₁ y w₂)
    (h : ((Script.ends (t.role.answer y)).bind k).Finishes cx (t.role.close y w₂) x w₃) :
    (Script.asks q k).Finishes cx w x w₃ := by
  obtain ⟨n₁, hn₁⟩ := ht
  obtain ⟨n₂, hn₂⟩ := h
  refine ⟨max (n₁ + 2) n₂, fun n' fuel hn' hfuel => ?_⟩
  obtain ⟨n, rfl⟩ : ∃ n, n' = n + 2 := ⟨n' - 2, by omega⟩
  have hscript : t.script = t.machine.script cx := by
    rw [Request.active_of_begin hq]
    rfl
  have hruns : t.machine.runs cx (services cx (n + 1)) (n + 1) w₁ = ⟨.ofExcept y, w₂⟩ := by
    rw [Machine.runs_eq_finish, ← hscript]
    exact hn₁ (n + 1) n (by omega) (by omega)
  have hanswer : (services cx (n + 2)).answer q w =
      ⟨.ofExcept (t.role.answer y), t.role.close y w₂⟩ := by
    rw [services_answer]
    simp only [hq]
    exact Role.around_of_returned hruns
  rw [← hn₂ (n + 2) fuel (by omega) (by omega)]
  unfold Script.finish
  rw [Script.eval_asks, Eval.bind_assoc, Eval.bind_apply, hanswer]
  cases t.role.answer y <;> rfl

end Script.Finishes

/-- A body that fails is over in one step. -/
theorem Moment.after_fail {cx : Context} {n : Nat} {t : Active} {f : Fault} {below : List Waiting}
    {w w' : World} {r : Reply}
    (h : (Moment.running (t.fail f) below w).after cx n = some (.finished r w')) :
    ∃ n', n' < n ∧
      (Moment.close t.role below w (.error f)).after cx n' = some (.finished r w') := by
  cases n with
  | zero => cases h
  | succ n => exact ⟨n, Nat.lt_succ_self n, h⟩

/-- **A course that ends is that of a computation that returns.** The innermost body is run to its
end, and the rest of the course is what follows. -/
theorem Moment.finishes_of_finished {cx : Context} {n : Nat} {t : Active} {below : List Waiting}
    {w w' : World} {r : Reply} (h : (Moment.running t below w).after cx n = some (.finished r w')) :
    ∃ x w₁ n', t.script.Finishes cx w x w₁ ∧ n' < n ∧
      (Moment.close t.role below w₁ x).after cx n' = some (.finished r w') := by
  induction n using Nat.strongRecOn generalizing t below w with
  | _ n ih =>
    cases n with
    | zero => cases h
    | succ n =>
      obtain ⟨z, hz, hrest⟩ := Option.bind_eq_some_iff.1 h
      obtain ⟨role, m, script⟩ := t
      cases script with
      | ends y =>
        rcases y with f | ⟨_ | _, m'⟩
        · cases hz
          exact ⟨.error f, w, n, .error cx f w, by omega, hrest⟩
        · cases hz
          exact ⟨.ok m', w, n, .stop cx m' w, by omega, hrest⟩
        · cases hz
          obtain ⟨x, w₁, n', hfin, hn', hafter⟩ := ih n (by omega) hrest
          exact ⟨x, w₁, n', hfin.step, by omega, hafter⟩
      | does e s =>
        simp only [Moment.next] at hz
        rcases he : e.apply cx w with ⟨f | ⟨⟩, w₁⟩
        · simp only [he] at hz
          cases hz
          obtain ⟨n', hn', hafter⟩ := Moment.after_fail hrest
          exact ⟨.error f, w₁, n', .does_refused s he, by omega, hafter⟩
        · simp only [he] at hz
          cases hz
          obtain ⟨x, w₂, n', hfin, hn', hafter⟩ := ih n (by omega) hrest
          exact ⟨x, w₂, n', .does he hfin, by omega, hafter⟩
      | asks q k =>
        simp only [Moment.next] at hz
        cases hq : q.begin cx w with
        | refused f w₁ =>
          simp only [hq] at hz
          cases hz
          obtain ⟨n', hn', hafter⟩ := Moment.after_fail hrest
          exact ⟨.error f, w₁, n', .asks_refused k hq, by omega, hafter⟩
        | opened inner w₁ =>
          simp only [hq] at hz
          cases hz
          obtain ⟨y, w₂, n₁, hinner, hn₁, hclose⟩ := ih n (by omega) hrest
          obtain ⟨x, w₃, n₂, hfin, hn₂, hafter⟩ := ih n₁ (by omega) hclose
          exact ⟨x, w₃, n₂, .asks hq hinner hfin, by omega, hafter⟩

/-! ## Operations -/

theorem Role.reply_ne_outOfFuel (role : Role) (x : Except Fault Machine) :
    role.reply x ≠ .outOfFuel := by
  cases role with
  | resume name i =>
    cases x with
    | error f => simp [Role.reply, Ending.ofExcept, Instance.settle, Reply.ofEnding]
    | ok m =>
      simp only [Role.reply, Ending.ofExcept, Instance.settle]
      cases m.isSuspended <;> simp [Reply.ofEnding]
  | _ => cases x <;> simp [Role.reply, Ending.ofExcept, Reply.ofEnding]

/-- The reply to an operation and the world it leaves. -/
def Operation.result (cx : Context) (main : Block) (fuel : Nat) (op : Operation) (w : World) :
    Reply × World :=
  (.ofEnding id (op.eval cx main fuel w).ending, (op.eval cx main fuel w).world)

/-- What the host is told of a run, and the world behind it. -/
def Role.told (role : Role) (r : Outcome Machine) : Reply × World :=
  match r.ending with
  | .value m => (role.reply (.ok m), role.close (.ok m) r.world)
  | .fault f => (role.reply (.error f), role.close (.error f) r.world)
  | .outOfFuel => (.outOfFuel, r.world)

theorem Role.told_ofExcept (role : Role) (x : Except Fault Machine) (w : World) :
    role.told ⟨.ofExcept x, w⟩ = (role.reply x, role.close x w) := by
  cases x <;> rfl

/-- What an operation comes to if this is the first thing that comes of it. -/
def Moment.result (cx : Context) (fuel : Nat) : Moment → Reply × World
  | .running t _ w => t.role.told (t.machine.runs cx (services cx fuel) fuel w)
  | .finished r w => (r, w)
  | .begins _ _ w => (.outOfFuel, w)

theorem Operation.result_eq (cx : Context) (main : Block) (fuel : Nat) (op : Operation)
    (w : World) : op.result cx main fuel w = (Moment.first cx main w op).result cx fuel := by
  unfold Operation.result
  cases op with
  | runMain =>
    simp only [Operation.eval, Eval.bind_apply, Moment.first, Moment.result, Active.start]
    rcases (Machine.start main .empty .main).runs cx (services cx fuel) fuel w with ⟨m | f | _, w'⟩
      <;> rfl
  | create name coroutine =>
    simp only [Operation.eval, Eval.bind_apply, Eval.change, Moment.first]
    rcases w.create cx name coroutine with ⟨f | -, w'⟩ <;> rfl
  | restore name i =>
    simp only [Operation.eval, Eval.bind_apply, Eval.change, Moment.first]
    rcases w.restore cx name i with ⟨f | -, w'⟩ <;> rfl
  | resume name =>
    simp only [Operation.eval, Eval.bind_apply, World.resume_eq, Moment.first, Request.begin]
    rcases hout : w.table.checkout name with ⟨e | i, table⟩
    · simp only [Table.atomic_checkout hout]
      rfl
    · dsimp only
      cases i.body with
      | error e => rfl
      | ok m =>
        simp only [Moment.result, Active.start, Role.told]
        rcases m.runs cx (services cx fuel) fuel (World.beginResume cx { w with table } name i) with
          ⟨m' | f | _, w'⟩
        · simp only [Instance.settle, Role.reply, Role.close, Ending.ofExcept]
          cases m'.isSuspended <;> rfl
        · rfl
        · rfl

/-- An operation runs a body, which is alone in flight and at the beginning of a step, or it is over
at once. -/
theorem Moment.first_cases (cx : Context) (main : Block) (w : World) (op : Operation) :
    (∃ role m w', first cx main w op = .running (.start cx role m) [] w') ∨
      ∃ r w', r ≠ .outOfFuel ∧ first cx main w op = .finished r w' := by
  have hsettled : ∀ x, ∃ r w', r ≠ .outOfFuel ∧ settled x = .finished r w' := by
    rintro ⟨f | ⟨⟩, w'⟩
    · exact ⟨.fault f, w', by simp, rfl⟩
    · exact ⟨.ok, w', by simp, rfl⟩
  cases op with
  | runMain => exact .inl ⟨_, _, _, rfl⟩
  | create name coroutine => exact .inr (hsettled _)
  | restore name i => exact .inr (hsettled _)
  | resume name =>
    cases hq : (Request.resume name).begin cx w with
    | opened t w' =>
      refine .inl ⟨t.role, t.machine, w', ?_⟩
      rw [← Request.active_of_begin hq]
      simp only [first, hq]
    | refused f w' => exact .inr ⟨.fault f, w', by simp, by simp only [first, hq]⟩

/-- An operation that returns has a course that ends with what it returns. -/
theorem Moment.leads_finished {cx : Context} {main : Block} {fuel : Nat} {op : Operation}
    {w : World} (h : (op.result cx main fuel w).1 ≠ .outOfFuel) :
    (Moment.begins main op w).Leads cx
      (.finished (op.result cx main fuel w).1 (op.result cx main fuel w).2) := by
  rw [Operation.result_eq] at h ⊢
  refine .head rfl ?_
  rcases first_cases cx main w op with ⟨role, m, w₁, hfirst⟩ | ⟨r, w', -, hfirst⟩
  · rw [hfirst] at h ⊢
    have hreturned : (m.runs cx (services cx fuel) fuel w₁).Returned := by
      intro ho
      simp only [Moment.result, Active.start, Role.told, ho] at h
      exact h rfl
    obtain ⟨x, hx⟩ := Eval.ofExcept_of_returned hreturned
    simp only [Moment.result, Active.start]
    rw [hx, Role.told_ofExcept]
    exact (services_followed cx fuel).runs hx role []
  · rw [hfirst]
    exact .refl _

/-- An operation whose course ends returns, with enough fuel. -/
theorem Moment.result_of_leads_finished {cx : Context} {main : Block} {op : Operation}
    {w w' : World} {r : Reply} (h : (Moment.begins main op w).Leads cx (.finished r w')) :
    r ≠ .outOfFuel ∧ ∃ n, ∀ fuel, n ≤ fuel → op.result cx main fuel w = (r, w') := by
  have hfirst : (first cx main w op).Leads cx (.finished r w') :=
    Leads.finished (.single rfl) h
  simp only [Operation.result_eq]
  rcases first_cases cx main w op with ⟨role, m, w₁, heq⟩ | ⟨r', w₁, hr', heq⟩
  · rw [heq] at hfirst ⊢
    obtain ⟨n, hn⟩ := hfirst
    obtain ⟨x, w₂, n', ⟨k, hk⟩, -, hend⟩ := finishes_of_finished hn
    obtain ⟨rfl, rfl⟩ : role.reply x = r ∧ role.close x w₂ = w' :=
      Leads.finished_inj (.refl _) ⟨n', hend⟩
    refine ⟨Role.reply_ne_outOfFuel _ _, k + 1, fun fuel hfuel => ?_⟩
    obtain ⟨j, rfl⟩ : ∃ j, fuel = j + 1 := ⟨fuel - 1, by omega⟩
    have hruns : m.runs cx (services cx (j + 1)) (j + 1) w₁ = ⟨.ofExcept x, w₂⟩ := by
      rw [Machine.runs_eq_finish]
      exact hk (j + 1) j (by omega) (by omega)
    simp only [Moment.result, Active.start]
    rw [hruns, Role.told_ofExcept]
  · rw [heq] at hfirst ⊢
    obtain ⟨rfl, rfl⟩ := Leads.finished_inj (.refl _) hfirst
    exact ⟨hr', 0, fun _ _ => rfl⟩

theorem Interpreter.perform_eq_result (i : Interpreter) (fuel : Nat) (op : Operation) :
    i.perform fuel op = ((op.result i.context i.main fuel i.world).1,
      { i with world := (op.result i.context i.main fuel i.world).2 }) :=
  Interpreter.perform_eq i fuel op

/-- **The course of an operation ends with what the operation returns**, and it ends if the
operation returns. -/
theorem Interpreter.perform_iff_finished {i : Interpreter} {op : Operation} {r : Reply}
    {w : World} :
    (Moment.begins i.main op i.world).Leads i.context (.finished r w) ↔
      r ≠ .outOfFuel ∧ ∃ fuel, i.perform fuel op = (r, { i with world := w }) := by
  constructor
  · intro h
    obtain ⟨hr, n, hn⟩ := Moment.result_of_leads_finished h
    refine ⟨hr, n, ?_⟩
    rw [perform_eq_result, hn n (Nat.le_refl n)]
  · rintro ⟨hr, fuel, hfuel⟩
    rw [perform_eq_result, Prod.mk.injEq, Interpreter.mk.injEq] at hfuel
    obtain ⟨hreply, -, -, hworld⟩ := hfuel
    rw [← hreply, ← hworld]
    exact Moment.leads_finished (by rw [hreply]; exact hr)

end CoLang
