import CoLang.Proofs.LifeCycle
/-!
# What holds of every body

An operation may have many bodies in flight at once, and more of them rest in the table. A property
of machines that bodies begin with, and that every step (`Machine.Advances`) and the end of a pause
keep, is had by every machine, in flight or in the table, at every moment of an operation
(`Moment.Keeps.leads`). The faults that operations reply with are known along with it.
-/

namespace CoLang

/-! ## All machines at a moment -/

/-- Bodies begin with a property, and steps and the ends of pauses keep it. Where it holds, steps
fail only with faults of another. -/
structure Machine.Kept (d : Declarations) (I : Machine → Prop) (Φ : Fault → Prop) : Prop where
  step : ∀ {m r}, I m → m.Advances r → I r.2
  stray : ∀ {m f}, I m → m.Strays f → Φ f
  plain : ∀ {f}, f.kind ≠ .controlFlow → Φ f
  clearYield : ∀ {m}, I m → I m.clearYield
  call : ∀ {f args env}, f ∈ d.functions → f.callEnv args = .ok env →
    I (.start f.body env .function)
  create : ∀ {c}, c ∈ d.coroutines → I (.start c.body .empty .coroutine)

/-- The machine of the instance, if there is one, has a property. -/
def Instance.Has (I : Machine → Prop) (i : Instance) : Prop :=
  ∀ m, i.machine = some m → I m

/-- The machine of the innermost body has the property, and its step ends accordingly. -/
structure Active.Keeps (d : Declarations) (I : Machine → Prop) (Φ : Fault → Prop) (t : Active) :
    Prop where
  machine : I t.machine
  script : t.script.Ends (t.machine.Asks d) t.machine.Advances Φ

structure Waiting.Keeps (d : Declarations) (I : Machine → Prop) (Φ : Fault → Prop) (b : Waiting) :
    Prop where
  machine : I b.machine
  next : ∀ v, (b.next v).Ends (b.machine.Asks d) b.machine.Advances Φ

/-- All machines have the property, in flight and in the table, and those that the host adds. -/
def Moment.Keeps (d : Declarations) (I : Machine → Prop) (Φ : Fault → Prop) : Moment → Prop
  | .begins main op w =>
    I (.start main .empty .main) ∧ (∀ name i, op = .restore name i → i.Has I) ∧
      w.Parks (Instance.Has I)
  | .running t below w =>
    t.Keeps d I Φ ∧ (∀ b ∈ below, b.Keeps d I Φ) ∧ w.Parks (Instance.Has I)
  | .finished r w => (∀ f, r = .fault f → Φ f) ∧ w.Parks (Instance.Has I)

section Keeps

variable {cx : Context} {I : Machine → Prop} {Φ : Fault → Prop} {w w' : World}

theorem Active.keeps_start (hk : Machine.Kept cx.decls I Φ) {m : Machine} (hm : I m)
    (role : Role) : (Active.start cx role m).Keeps cx.decls I Φ := by
  refine ⟨hm, (m.ends_script cx).mono (fun _ => id) (fun _ => id) ?_⟩
  rintro f (hf | hf)
  · exact hk.plain hf
  · exact hk.stray hm hf

theorem Waiting.Keeps.wake {b : Waiting} (h : b.Keeps cx.decls I Φ)
    {answer : Except Fault (Option Val)} (hf : ∀ f, answer = .error f → Φ f) :
    (b.wake answer).Keeps cx.decls I Φ := by
  refine ⟨h.machine, ?_⟩
  cases answer with
  | ok v => exact h.next v
  | error f => exact hf f rfl

theorem Machine.Kept.has_create (hk : Machine.Kept cx.decls I Φ) :
    ∀ id, ∀ c ∈ cx.decls.coroutines, (Instance.create id c).Has I := by
  intro id c hc m hm
  cases hm
  exact hk.create hc

/-- What changes no slot, or adds an instance with the property, keeps the table in order. -/
theorem World.Parks.effect {P : Instance → Prop}
    (hcreate : ∀ id, ∀ c ∈ cx.decls.coroutines, P (.create id c)) (h : w.Parks P) {e : Effect}
    (he : e.apply cx w = (.ok (), w')) : w'.Parks P := by
  cases e with
  | print line =>
    obtain ⟨-, rfl⟩ := World.print_ok he
    exact h.of_table rfl
  | declare name doc =>
    cases he
    exact h.of_table (by simp)
  | create name coroutine =>
    obtain ⟨c, t, hc, ht, rfl⟩ := World.create_ok he
    exact h.insert (hcreate _ c (List.mem_of_find?_eq_some hc)) ht (by simp)

theorem World.Parks.close (h : w.Parks (Instance.Has I)) (role : Role) {x : Except Fault Machine}
    (hx : ∀ m, x = .ok m → I m) : (role.close x w).Parks (Instance.Has I) := by
  cases role with
  | main => exact h
  | call f => exact h.of_table rfl
  | resume name i =>
    refine h.setSlot (fun j hj m hm => ?_) rfl
    cases hj
    obtain ⟨hending, -⟩ := Instance.machine_settle hm
    cases x with
    | error f => cases hending
    | ok m' =>
      cases hending
      exact hx _ rfl

/-- A body that begins has the property, and a request is refused with such a fault. -/
def Opening.Keeps (d : Declarations) (I : Machine → Prop) (Φ : Fault → Prop) : Opening → Prop
  | .opened t w => t.Keeps d I Φ ∧ w.Parks (Instance.Has I)
  | .refused f w => Φ f ∧ w.Parks (Instance.Has I)

theorem Request.keeps_begin (hk : Machine.Kept cx.decls I Φ) (h : w.Parks (Instance.Has I))
    {q : Request} {resumes : String → Prop}
    (hq : q.Among cx.decls resumes) : (q.begin cx w).Keeps cx.decls I Φ := by
  cases q with
  | call f args =>
    have hplainEnv := f.plain_callEnv args
    have hplainEnter := f.plain_enter cx w
    simp only [Request.begin]
    cases henv : f.callEnv args with
    | error e => exact ⟨hk.plain (hplainEnv e henv), h⟩
    | ok env =>
      rcases henter : f.enter cx w with ⟨e | ⟨⟩, w₁⟩
      · rw [henter] at hplainEnter
        rw [Function.atomic_enter henter]
        exact ⟨hk.plain (hplainEnter e rfl), h⟩
      · obtain ⟨-, rfl⟩ := Function.enter_ok henter
        refine ⟨Active.keeps_start hk (hk.call hq henv) _, h.of_table ?_⟩
        rw [World.table_record]
  | resume name =>
    have hplainOut := w.table.plain_checkout name
    simp only [Request.begin]
    rcases hout : w.table.checkout name with ⟨e | i, table⟩
    · rw [hout] at hplainOut
      rw [Table.atomic_checkout hout]
      exact ⟨hk.plain (hplainOut e rfl), h⟩
    · obtain ⟨hparked, rfl⟩ := Table.checkout_ok hout
      have hi := h name i hparked
      have htaken : (World.beginResume cx
          { w with table := w.table.setSlot name (.running i.coroutine) } name i).Parks
            (Instance.Has I) := by
        refine h.setSlot ?_ (World.table_beginResume _ _ _ _)
        intro j hj
        cases hj
      have hplainBody := i.plain_body
      simp only
      cases hbody : i.body with
      | error e =>
        refine ⟨hk.plain (hplainBody e hbody), htaken.setSlot (fun j hj => ?_) rfl⟩
        cases hj
        exact hi
      | ok m =>
        obtain ⟨m₀, hm₀, rfl⟩ := Instance.machine_of_body hbody
        exact ⟨Active.keeps_start hk (hk.clearYield (hi m₀ hm₀)) _, htaken⟩

theorem Role.plain_answer (role : Role) (m : Machine) : Plain (role.answer (.ok m)) := by
  cases role with
  | call f => exact f.plain_result _
  | _ => exact plain_ok _

theorem Role.reply_ok_ne_fault (role : Role) (m : Machine) (f : Fault) :
    role.reply (.ok m) ≠ .fault f := by
  cases role with
  | resume name i =>
    simp only [Role.reply, Ending.ofExcept, Instance.settle]
    cases m.isSuspended <;> simp [Reply.ofEnding]
  | _ => simp [Role.reply, Ending.ofExcept, Reply.ofEnding]

namespace Moment

theorem keeps_close (hk : Machine.Kept cx.decls I Φ) {role : Role} {below : List Waiting}
    (hbelow : ∀ b ∈ below, b.Keeps cx.decls I Φ) (h : w.Parks (Instance.Has I))
    {x : Except Fault Machine} (hx : ∀ m, x = .ok m → I m) (hf : ∀ f, x = .error f → Φ f) :
    (close role below w x).Keeps cx.decls I Φ := by
  have hparks := h.close role hx
  -- Whoever waits for the body is told of its fault, or of a result that may be refused.
  have hanswer : ∀ f, role.answer x = .error f → Φ f := by
    intro f hanswer
    cases x with
    | ok m => exact hk.plain (role.plain_answer m f hanswer)
    | error g =>
      rw [Role.answer_error] at hanswer
      cases hanswer
      exact hf _ rfl
  have hreply : ∀ f, role.reply x = .fault f → Φ f := by
    intro f hreply
    cases x with
    | ok m => exact absurd hreply (role.reply_ok_ne_fault m f)
    | error g =>
      rw [Role.reply_error] at hreply
      cases hreply
      exact hf _ rfl
  cases below with
  | nil => exact ⟨hreply, hparks⟩
  | cons b below =>
    exact ⟨(hbelow b List.mem_cons_self).wake hanswer,
      fun b' hb' => hbelow b' (List.mem_cons_of_mem _ hb'), hparks⟩

theorem keeps_settled (hk : Machine.Kept cx.decls I Φ) (h : w.Parks (Instance.Has I))
    {change : World → Except Fault Unit × World} (hatomic : Atomic change)
    (hok : ∀ w', change w = (.ok (), w') → w'.Parks (Instance.Has I)) (hf : Plain (change w).1) :
    (settled (change w)).Keeps cx.decls I Φ := by
  rcases hw : change w with ⟨f | ⟨⟩, w'⟩
  · rw [hw] at hf
    rw [hatomic hw]
    refine ⟨fun g hg => ?_, h⟩
    cases hg
    exact hk.plain (hf _ rfl)
  · refine ⟨fun f hr => ?_, hok w' hw⟩
    cases hr

theorem keeps_first (hk : Machine.Kept cx.decls I Φ) {main : Block} {op : Operation}
    (h : (Moment.begins main op w).Keeps cx.decls I Φ) :
    (first cx main w op).Keeps cx.decls I Φ := by
  obtain ⟨hmain, hop, hparks⟩ := h
  cases op with
  | runMain => exact ⟨Active.keeps_start hk hmain .main, List.forall_mem_nil _, hparks⟩
  | create name coroutine =>
    refine keeps_settled hk hparks World.atomic_create (fun w' hw' => ?_)
      (w.plain_create cx name coroutine)
    have he : (Effect.create name coroutine).apply cx w = (.ok (), w') := hw'
    exact hparks.effect hk.has_create he
  | restore name i =>
    refine keeps_settled hk hparks World.atomic_restore (fun w' hw' => ?_)
      (w.plain_restore cx name i)
    obtain ⟨-, -, t, ht, rfl⟩ := World.restore_ok hw'
    exact hparks.insert (hop name i rfl) ht rfl
  | resume name =>
    have hq : (Request.resume name).Among cx.decls fun _ => True := trivial
    have hbegin := Request.keeps_begin hk hparks hq
    simp only [first]
    cases hb : (Request.resume name).begin cx w with
    | opened t w' =>
      rw [hb] at hbegin
      exact ⟨hbegin.1, List.forall_mem_nil _, hbegin.2⟩
    | refused f w' =>
      rw [hb] at hbegin
      refine ⟨fun g hg => ?_, hbegin.2⟩
      cases hg
      exact hbegin.1

/-- **A step keeps what steps of machines keep**, of all machines at once. -/
theorem Keeps.next (hk : Machine.Kept cx.decls I Φ) {z z' : Moment}
    (h : z.Keeps cx.decls I Φ) (hz : z.next cx = some z') : z'.Keeps cx.decls I Φ := by
  cases z with
  | finished r w => cases hz
  | begins main op w =>
    cases hz
    exact keeps_first hk h
  | running t below w =>
    obtain ⟨role, m, script⟩ := t
    obtain ⟨⟨hm, hscript⟩, hbelow, hparks⟩ := h
    cases script with
    | ends x =>
      rcases x with f | ⟨_ | _, m'⟩
      · cases hz
        refine keeps_close hk hbelow hparks (fun m'' hm'' => ?_) fun g hg => ?_
        · cases hm''
        · cases hg
          exact hscript
      · cases hz
        refine keeps_close hk hbelow hparks (fun m'' hm'' => ?_) fun g hg => ?_
        · cases hm''
          exact hk.step hm hscript
        · cases hg
      · cases hz
        exact ⟨Active.keeps_start hk (hk.step hm hscript) role, hbelow, hparks⟩
    | does e s =>
      have hplain := e.plain_apply cx w
      simp only [Moment.next] at hz
      rcases he : e.apply cx w with ⟨f | ⟨⟩, w'⟩
      · simp only [he] at hz hplain
        cases hz
        rw [Effect.atomic_apply cx e he]
        exact ⟨⟨hm, hk.plain (hplain f rfl)⟩, hbelow, hparks⟩
      · simp only [he] at hz
        cases hz
        exact ⟨⟨hm, hscript⟩, hbelow, hparks.effect hk.has_create he⟩
    | asks q k =>
      have hbegin := Request.keeps_begin hk hparks hscript.1
      simp only [Moment.next] at hz
      cases hb : q.begin cx w with
      | opened inner w' =>
        simp only [hb] at hz
        cases hz
        rw [hb] at hbegin
        exact ⟨hbegin.1, List.forall_mem_cons.2 ⟨⟨hm, hscript.2⟩, hbelow⟩, hbegin.2⟩
      | refused f w' =>
        simp only [hb] at hz
        cases hz
        rw [hb] at hbegin
        exact ⟨⟨hm, hbegin.1⟩, hbelow, hbegin.2⟩

/-- **What steps of machines keep holds of all machines at every later moment.** -/
theorem Keeps.leads (hk : Machine.Kept cx.decls I Φ) {z z' : Moment}
    (h : z.Keeps cx.decls I Φ) (hz : z.Leads cx z') : z'.Keeps cx.decls I Φ := by
  refine hz.keeps ?_ h
  intro y y' hy hnext
  exact hy.next hk hnext

theorem Keeps.parks {d : Declarations} {z : Moment} (h : z.Keeps d I Φ) :
    z.world.Parks (Instance.Has I) := by
  cases z with
  | begins main op w => exact h.2.2
  | running t below w => exact h.2.2
  | finished r w => exact h.2

end Moment

/-- A step that is served by the program fails only with such faults, wherever they come from. -/
theorem Machine.Kept.fault_of_advance (hk : Machine.Kept cx.decls I Φ) {m : Machine} (hm : I m)
    (hw : w.Parks (Instance.Has I)) {n : Nat} {f : Fault}
    (hf : (m.advance cx (services cx n) w).ending = .fault f) : Φ f := by
  have heval : (m.script cx).eval cx (services cx n) w =
      ⟨.ofExcept (.error f), (m.advance cx (services cx n) w).world⟩ := by
    rw [Machine.eval_script]
    exact congrArg (Outcome.mk · _) hf
  have hstart : (Moment.running (.start cx .main m) [] w).Keeps cx.decls I Φ :=
    ⟨Active.keeps_start hk hm .main, List.forall_mem_nil _, hw⟩
  have hend := hstart.leads hk ((services_followed cx n).eval heval .main m [])
  exact hend.1.script

end Keeps

/-! ## All machines in a session -/

/-- What the operation restores, if anything, was taken from an interpreter of such a program. -/
def Operation.Captured (P : Program → Prop) (op : Operation) : Prop :=
  ∀ name inst, op = .restore name inst →
    ∃ i name', Interpreter.ArisesFrom P i ∧ i.instance? name' = some inst

theorem Operation.captured_of_ne {P : Program → Prop} {op : Operation}
    (h : ∀ name inst, op ≠ .restore name inst) : op.Captured P :=
  fun name inst heq => absurd heq (h name inst)

namespace Interpreter.ArisesFrom

variable {P : Program → Prop} {i : Interpreter}

section Session

variable {I : Machine → Prop} {Φ : Fault → Prop}
  (hP : ∀ p, P p → Machine.Kept ⟨p.functions, p.coroutines⟩ I Φ ∧ I (.start p.main .empty .main))

include hP

theorem keeps_of_parks (h : i.ArisesFrom P) {op : Operation}
    (hop : ∀ name inst, op = .restore name inst → inst.Has I)
    (hw : i.world.Parks (Instance.Has I)) {z : Moment}
    (hz : (Moment.begins i.main op i.world).Leads i.context z) :
    z.Keeps i.context.decls I Φ := by
  obtain ⟨p, hp, hbuild, hmain⟩ := h.program
  have hdecls := Declarations.eq_of_build hbuild
  obtain ⟨hkept, hstart⟩ := hP p hp
  rw [← hdecls] at hkept
  rw [← hmain] at hstart
  have hbegins : (Moment.begins i.main op i.world).Keeps i.context.decls I Φ :=
    ⟨hstart, hop, hw⟩
  exact hbegins.leads hkept hz

theorem parks (h : i.ArisesFrom P) : i.world.Parks (Instance.Has I) :=
  h.parks_of_perform fun hi hw hop hret => (hi.keeps_of_parks hP hop hw (leads_finished hret)).parks

/-- **What steps of machines keep holds at every moment of every session.** -/
theorem keeps (h : i.ArisesFrom P) {op : Operation} (hop : op.Captured P) {z : Moment}
    (hz : (Moment.begins i.main op i.world).Leads i.context z) :
    z.Keeps i.context.decls I Φ := by
  refine keeps_of_parks hP h (fun name inst heq => ?_) (h.parks hP) hz
  obtain ⟨i', name', hi', hinst⟩ := hop name inst heq
  exact hi'.parks hP name' inst (Table.get?_eq_some_iff.1 hinst)

/-- An operation fails only with the faults that steps of machines fail with. -/
theorem fault_of_perform (h : i.ArisesFrom P) {op : Operation} (hop : op.Captured P) {fuel : Nat}
    {f : Fault} (hf : (i.perform fuel op).1 = .fault f) : Φ f := by
  have hret : (i.perform fuel op).1 ≠ .outOfFuel := by
    rw [hf]
    simp
  exact (h.keeps hP hop (leads_finished hret)).1 f hf

end Session

end Interpreter.ArisesFrom

end CoLang
