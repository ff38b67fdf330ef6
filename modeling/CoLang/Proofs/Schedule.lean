import CoLang.Proofs.Inheritance
import CoLang.Proofs.Parked
/-!
# Schedules

Where no function or coroutine creates or resumes instances, an instance cannot tell what a host
does with the others. A host may resume instances in any order and any number
(`Interpreter.follow`). What it sees of one of them, and what that one is in the end, depends only
on how often that one was resumed (`Interpreter.follow_independent`).

Such bodies leave the table of instances alone, and what they do depends on the world only through
the depth of calls (`Link.apart`).
-/

namespace CoLang

/-- Whether a statement neither creates nor resumes an instance. -/
def Stmt.isolated : Stmt → Bool
  | .create .. => false
  | .resume _ => false
  | _ => true

/-- Nothing that stands in a body creates or resumes an instance. -/
def Block.Isolated (body : Block) : Prop :=
  ∀ s ∈ body, s.all Stmt.isolated = true

/-! ## Worlds apart -/

/-- Two computations end the same and print the same, each in its world, and leave the tables. -/
structure Outcome.Apart {α : Type} (w v : World) (o o' : Outcome α) : Prop where
  ending : o.ending = o'.ending
  depth : o.world.depth = o'.world.depth
  table : o.world.table = w.table
  table' : o'.world.table = v.table
  lines : ∃ ls, o.world.lines.toList = w.lines.toList ++ ls ∧
    o'.world.lines.toList = v.lines.toList ++ ls

namespace Link

/-- In worlds where as many calls are under way a computation does the same. -/
def apart : Link Empty where
  holds x _ := ∀ w v, w.depth = v.depth → Outcome.Apart w v (x w) (x v)
  ofExcept x := fun w v h => ⟨rfl, h, rfl, rfl, [], by simp [Eval.ofExcept]⟩
  bind := by
    intro α β x xs f fs hx hf w v h
    obtain ⟨hending, hdepth, htable, htable', ls, hls, hls'⟩ := hx w v h
    rw [Eval.bind_apply, Eval.bind_apply, ← hending]
    cases (x w).ending with
    | fault e => exact ⟨rfl, hdepth, htable, htable', ls, hls, hls'⟩
    | outOfFuel => exact ⟨rfl, hdepth, htable, htable', ls, hls, hls'⟩
    | value a =>
      obtain ⟨hending₂, hdepth₂, htable₂, htable₂', ls₂, hls₂, hls₂'⟩ := hf a _ _ hdepth
      refine ⟨hending₂, hdepth₂, htable₂.trans htable, htable₂'.trans htable', ls ++ ls₂, ?_, ?_⟩
      · rw [hls₂, hls, List.append_assoc]
      · rw [hls₂', hls', List.append_assoc]

theorem apart_update {f : World → World} {xs : Empty → Eval Unit}
    (htable : ∀ w, (f w).table = w.table) (hdepth : ∀ w, (f w).depth = w.depth)
    (hlines : ∀ w, (f w).lines = w.lines) : apart.holds (.update f) xs := by
  intro w v h
  refine ⟨rfl, ?_, htable w, htable v, [], ?_, ?_⟩
  · show (f w).depth = (f v).depth
    rw [hdepth, hdepth, h]
  · simp [Eval.update, hlines]
  · simp [Eval.update, hlines]

end Link

theorem Link.apart_leaving {α : Type} {x : Eval α} {xs : Empty → Eval α} (h : apart.holds x xs) :
    apart.holds x.leaving fun i => (xs i).leaving := by
  intro w v hdepth
  obtain ⟨hending, hdepth', htable, htable', ls, hls, hls'⟩ := h w v hdepth
  simp only [Eval.leaving, ← hending]
  cases hx : (x w).ending with
  | outOfFuel => exact ⟨hending, hdepth', htable, htable', ls, hls, hls'⟩
  | value a =>
    exact ⟨rfl, by simp only [World.leave, hdepth'], htable, htable', ls, hls, hls'⟩
  | fault e =>
    exact ⟨rfl, by simp only [World.leave, hdepth'], htable, htable', ls, hls, hls'⟩

/-- **Bodies that neither create nor resume instances keep worlds apart.** -/
theorem Link.apart_keeps {cx : Context} (hsink : cx.capacity = none)
    (hfunctions : ∀ f ∈ cx.decls.functions, Block.Isolated f.body) :
    apart.KeepsOn (fun s => s.all Stmt.isolated = true) cx Empty.elim where
  decls e := e.elim
  functions := hfunctions
  exhausted := fun w v h => ⟨rfl, h, rfl, rfl, [], by simp [Eval.exhausted]⟩
  print line := by
    intro w v h
    simp only [Eval.change, World.print, Context.takesLine, hsink, if_true]
    exact ⟨rfl, h, rfl, rfl, [line], by simp⟩
  declare name doc := apart_update (fun _ => by simp) (fun _ => by simp) fun _ => by simp
  create name coroutine h := by cases h
  within f := by
    intro α x xs hx
    refine apart.bind ?_ fun _ =>
      apart.bind (apart_update (fun _ => by simp) (fun _ => by simp) fun _ => by simp) fun _ =>
        apart_leaving hx
    intro w v h
    simp only [Eval.change, Function.enter, ← h]
    by_cases hdepth : w.depth < cx.settings.maxCallDepth
    · simp only [hdepth, if_true]
      exact ⟨rfl, rfl, rfl, rfl, [], by simp⟩
    · simp only [hdepth, if_false]
      exact ⟨rfl, h, rfl, rfl, [], by simp⟩
  resume _ name h := by cases h

/-! ## A resume -/

/-- What a resume does to the instance of its name and shows the host, in two worlds, while the
other instances stay as they are. -/
structure Outcome.Beside (name : String) (w v : World) (o o' : Outcome Progress) : Prop where
  ending : o.ending = o'.ending
  slot? : o.world.table.slot? name = o'.world.table.slot? name
  others : ∀ other, other ≠ name → o.world.table.slot? other = w.table.slot? other
  lines : ∃ ls, o.world.lines.toList = w.lines.toList ++ ls ∧
    o'.world.lines.toList = v.lines.toList ++ ls

/-- The machine of the instance runs a body that neither creates nor resumes instances. -/
def Instance.Isolated (i : Instance) : Prop :=
  i.Runs fun _ body => Block.Isolated body

theorem World.resume_beside {cx : Context} (hsink : cx.capacity = none)
    (hfunctions : ∀ f ∈ cx.decls.functions, Block.Isolated f.body) {w v : World} {name : String}
    (hdepth : w.depth = v.depth) (hslot : w.table.slot? name = v.table.slot? name)
    (hparks : w.Parks Instance.Isolated) (fuel : Nat) :
    Outcome.Beside name w v (World.resume cx (services cx fuel) fuel name w)
      (World.resume cx (services cx fuel) fuel name v) := by
  have hrefused : ∀ e : Fault, Outcome.Beside name w v ⟨.fault e, w⟩ ⟨.fault e, v⟩ :=
    fun e => ⟨rfl, hslot, fun _ _ => rfl, [], by simp⟩
  simp only [World.resume_eq]
  cases hs : w.table.slot? name with
  | none =>
    have hs' : v.table.slot? name = none := hslot.symm.trans hs
    rw [Table.checkout_of_none hs, Table.checkout_of_none hs']
    exact hrefused _
  | some s =>
    have hs' : v.table.slot? name = some s := hslot.symm.trans hs
    cases s with
    | running c =>
      rw [Table.checkout_of_running hs, Table.checkout_of_running hs']
      exact hrefused _
    | parked i =>
      simp only [Table.checkout_of_parked hs, Table.checkout_of_parked hs']
      cases hbody : i.body with
      | error e =>
        refine ⟨rfl, ?_, fun other hne => ?_, [], ?_, ?_⟩
        · simp [World.park, Table.checkin]
        · rw [World.table_park_of_checkout (Table.checkout_of_parked hs)]
        · simp [World.park]
        · simp [World.park]
      | ok m =>
        obtain ⟨m₀, hm₀, rfl⟩ := Instance.machine_of_body hbody
        obtain ⟨body, hisolated, hsound⟩ := hparks name i hs m₀ hm₀
        have hkeeps := Link.apart_keeps hsink hfunctions
        have hruns := Link.runsOn (hkeeps.services (hereditary_all _) fuel) hkeeps.exhausted
          (hereditary_all _) hisolated fuel hsound.clearYield
        -- The worlds in which the body runs.
        obtain ⟨w₁, hw₁⟩ : ∃ w₁, w₁ = World.beginResume cx
          { w with table := w.table.setSlot name (.running i.coroutine) } name i := ⟨_, rfl⟩
        obtain ⟨v₁, hv₁⟩ : ∃ v₁, v₁ = World.beginResume cx
          { v with table := v.table.setSlot name (.running i.coroutine) } name i := ⟨_, rfl⟩
        obtain ⟨hending, -, htable, htable', ls, hls, hls'⟩ :=
          hruns w₁ v₁ (by simp [hw₁, hv₁, hdepth])
        have hothers : ∀ other, other ≠ name →
            (m₀.clearYield.runs cx (services cx fuel) fuel w₁).world.table.slot? other =
              w.table.slot? other := by
          intro other hne
          rw [htable, hw₁, World.table_beginResume, Table.slot?_setSlot_of_ne hne]
        rw [hw₁, World.lines_beginResume, ← hw₁] at hls
        rw [hv₁, World.lines_beginResume, ← hv₁] at hls'
        simp only [← hw₁, ← hv₁, ← hending]
        have hparked : ∀ (ending : Ending Progress) (j : Instance), Outcome.Beside name w v
            ⟨ending, (m₀.clearYield.runs cx (services cx fuel) fuel w₁).world.park name j⟩
            ⟨ending, (m₀.clearYield.runs cx (services cx fuel) fuel v₁).world.park name j⟩ := by
          intro ending j
          refine ⟨rfl, ?_, fun other hne => ?_, ls, hls, hls'⟩
          · simp [World.park, Table.checkin]
          · rw [World.park, Table.checkin, Table.slot?_setSlot_of_ne hne]
            exact hothers other hne
        cases (m₀.clearYield.runs cx (services cx fuel) fuel w₁).ending with
        | value m' => exact hparked _ _
        | fault e => exact hparked _ _
        | outOfFuel =>
          refine ⟨rfl, ?_, hothers, ls, hls, hls'⟩
          rw [htable, htable', hw₁, hv₁]
          simp

/-! ## Following a schedule -/

/-- What a host sees of a resume: whose it is, the reply, and the lines printed meanwhile. -/
structure Turn where
  name : String
  reply : Reply
  lines : List String
deriving DecidableEq

/-- No function or coroutine creates or resumes instances. -/
structure Program.Isolated (p : Program) : Prop where
  functions : ∀ f ∈ p.functions, Block.Isolated f.body
  coroutines : ∀ c ∈ p.coroutines, Block.Isolated c.body

namespace Interpreter

/-- Resumes instances one after another, each with fuel for its run. -/
def follow (i : Interpreter) : List (Nat × String) → List Turn × Interpreter
  | [] => ([], i)
  | (fuel, name) :: rest =>
    let r := i.perform fuel (.resume name)
    let later := r.2.follow rest
    (⟨name, r.1, r.2.world.lines.toList.drop i.world.lines.size⟩ :: later.1, later.2)

variable {p : Program} {i i' : Interpreter} {a : String}

theorem follow_cons (i : Interpreter) (fuel : Nat) (name : String) (rest : List (Nat × String)) :
    i.follow ((fuel, name) :: rest) =
      (⟨name, (i.perform fuel (.resume name)).1,
          (i.perform fuel (.resume name)).2.world.lines.toList.drop i.world.lines.size⟩ ::
        ((i.perform fuel (.resume name)).2.follow rest).1,
      ((i.perform fuel (.resume name)).2.follow rest).2) := rfl

theorem perform_resume_eq (i : Interpreter) (fuel : Nat) (name : String) :
    i.perform fuel (.resume name) =
      let r := World.resume i.context (CoLang.services i.context fuel) fuel name i.world
      (.ofEnding .progress r.ending, { i with world := r.world }) := rfl

theorem Reachable.isolated (h : Reachable p i) (hp : p.Isolated) :
    i.world.Parks Instance.Isolated := by
  refine h.parks fun cx hcx => ?_
  have hbelongs : ∀ {name c}, cx.decls.coroutine? name = some c → Block.Isolated c.body := by
    intro name c hc
    have hmem := List.mem_of_find?_eq_some hc
    rw [hcx] at hmem
    exact hp.coroutines c hmem
  exact Instance.runs_kept (fun _ body => Block.Isolated body) hbelongs

/-- At rest the slot of a name is what the host can get of it. -/
theorem AtRest.slot?_eq (h : i.AtRest) (h' : i'.AtRest) (ha : i.instance? a = i'.instance? a) :
    i.world.table.slot? a = i'.world.table.slot? a := by
  have hslot : ∀ {i : Interpreter}, i.AtRest →
      i.world.table.slot? a = (i.instance? a).map Slot.parked := by
    intro i hi
    unfold instance? Table.get?
    cases hs : i.world.table.slot? a with
    | none => rfl
    | some s =>
      cases s with
      | parked inst => rfl
      | running c => exact absurd hs (hi.parked a c)
  rw [hslot h, hslot h', ha]

/-- **A resume shows the same wherever the instance is the same**, and leaves the other instances as
they are. -/
theorem Reachable.perform_resume (hp : p.Isolated) (h : Reachable p i) (h' : Reachable p i')
    (hcx : i.context = i'.context) (hsink : i.context.capacity = none) (fuel : Nat)
    (ha : i.instance? a = i'.instance? a) :
    (i.perform fuel (.resume a)).1 = (i'.perform fuel (.resume a)).1 ∧
      (i.perform fuel (.resume a)).2.world.lines.toList.drop i.world.lines.size =
        (i'.perform fuel (.resume a)).2.world.lines.toList.drop i'.world.lines.size ∧
      (i.perform fuel (.resume a)).2.instance? a = (i'.perform fuel (.resume a)).2.instance? a ∧
      ∀ b, b ≠ a → (i.perform fuel (.resume a)).2.instance? b = i.instance? b := by
  have hfunctions : ∀ f ∈ i.context.decls.functions, Block.Isolated f.body := by
    rw [Declarations.eq_of_build h.program.1]
    exact hp.functions
  have hdepth : i.world.depth = i'.world.depth := by
    rw [h.atRest.depth, h'.atRest.depth]
  obtain ⟨hending, hslot, hothers, ls, hls, hls'⟩ := World.resume_beside hsink hfunctions hdepth
    (h.atRest.slot?_eq h'.atRest ha) (h.isolated hp) fuel
  rw [hcx] at hls'
  simp only [perform_resume_eq, instance?, Table.get?]
  refine ⟨?_, ?_, ?_, fun b hb => ?_⟩
  · rw [hending, hcx]
  · rw [hls, hls']
    simp
  · rw [hslot, hcx]
  · rw [hothers b hb]

/-- **What is seen of one instance is what would be seen if no other were resumed.** -/
theorem follow_alone (hp : p.Isolated) (h : Reachable p i) (h' : Reachable p i')
    (hcx : i.context = i'.context) (hsink : i.context.capacity = none)
    (ha : i.instance? a = i'.instance? a) {s : List (Nat × String)}
    (hs : ∀ t ∈ (i.follow s).1, t.reply ≠ .outOfFuel) :
    (i.follow s).1.filter (·.name = a) = (i'.follow (s.filter (·.2 = a))).1 ∧
      (i.follow s).2.instance? a = (i'.follow (s.filter (·.2 = a))).2.instance? a := by
  induction s generalizing i i' with
  | nil => exact ⟨rfl, ha⟩
  | cons step rest ih =>
    obtain ⟨fuel, name⟩ := step
    rw [follow_cons] at hs ⊢
    have hreply : (i.perform fuel (.resume name)).1 ≠ .outOfFuel :=
      hs _ List.mem_cons_self
    have hrest := fun t ht => hs t (List.mem_cons_of_mem _ ht)
    have hreach : Reachable p (i.perform fuel (.resume name)).2 := h.perform (by simp) hreply
    by_cases heq : name = a
    · subst heq
      obtain ⟨hsame, hlines, hinst, -⟩ := h.perform_resume hp h' hcx hsink fuel ha
      have hreach' : Reachable p (i'.perform fuel (.resume name)).2 :=
        h'.perform (by simp) (by rw [← hsame]; exact hreply)
      obtain ⟨hturns, hlast⟩ := ih hreach hreach' (by rw [context_perform, context_perform, hcx])
        (by rw [context_perform, hsink]) hinst hrest
      simp only [List.filter_cons, decide_true, if_true, follow_cons]
      exact ⟨by rw [hturns, hsame, hlines], hlast⟩
    · obtain ⟨-, -, -, hothers⟩ := h.perform_resume hp h rfl hsink fuel rfl
      obtain ⟨hturns, hlast⟩ := ih hreach h' (by rw [context_perform, hcx])
        (by rw [context_perform, hsink]) ((hothers a (Ne.symm heq)).trans ha) hrest
      simp only [List.filter_cons, heq, decide_false, Bool.false_eq_true, if_false]
      exact ⟨hturns, hlast⟩

/-- The fuel that a resume returned with makes no difference. -/
theorem perform_resume_fuel {fuel fuel' : Nat} (h : (i.perform fuel (.resume a)).1 ≠ .outOfFuel)
    (h' : (i.perform fuel' (.resume a)).1 ≠ .outOfFuel) :
    i.perform fuel (.resume a) = i.perform fuel' (.resume a) := by
  have hbelow : ∀ {n n' : Nat}, (i.perform n (.resume a)).1 ≠ .outOfFuel → n ≤ n' →
      i.perform n (.resume a) = i.perform n' (.resume a) := by
    intro n n' hn hle
    have hreturned :
        (World.resume i.context (CoLang.services i.context n) n a i.world).Returned := by
      intro ho
      simp only [perform_resume_eq, ho] at hn
      exact hn rfl
    have hsame := (services_below i.context (Nat.succ_le_succ hle)).resume a i.world hreturned
    rw [perform_resume_eq, perform_resume_eq]
    exact congrArg (fun r : Outcome Progress =>
      (Reply.ofEnding .progress r.ending, { i with world := r.world })) hsame.symm
  rcases Nat.le_total fuel fuel' with hle | hle
  · exact hbelow h hle
  · exact (hbelow h' hle).symm

/-- Resumes of one instance only are as many as they are, whatever their fuel. -/
theorem follow_fuel {s s' : List (Nat × String)} (hlength : s.length = s'.length)
    (hnames : ∀ step ∈ s, step.2 = a) (hnames' : ∀ step ∈ s', step.2 = a)
    (hs : ∀ t ∈ (i.follow s).1, t.reply ≠ .outOfFuel)
    (hs' : ∀ t ∈ (i.follow s').1, t.reply ≠ .outOfFuel) : i.follow s = i.follow s' := by
  induction s generalizing i s' with
  | nil =>
    cases s' with
    | nil => rfl
    | cons step rest => cases hlength
  | cons step rest ih =>
    cases s' with
    | nil => cases hlength
    | cons step' rest' =>
      obtain ⟨fuel, name⟩ := step
      obtain ⟨fuel', name'⟩ := step'
      obtain rfl : name = a := hnames _ List.mem_cons_self
      obtain rfl : name' = name := hnames' _ List.mem_cons_self
      rw [follow_cons] at hs hs' ⊢
      rw [follow_cons]
      have hfuel : i.perform fuel (.resume name') = i.perform fuel' (.resume name') :=
        perform_resume_fuel (hs _ List.mem_cons_self) (hs' _ List.mem_cons_self)
      rw [hfuel] at hs ⊢
      have hrest := ih (Nat.succ.inj hlength) (fun t ht => hnames t (List.mem_cons_of_mem _ ht))
        (fun t ht => hnames' t (List.mem_cons_of_mem _ ht))
        (fun t ht => hs t (List.mem_cons_of_mem _ ht))
        (fun t ht => hs' t (List.mem_cons_of_mem _ ht))
      rw [hrest]

/-- Following a schedule leads to an interpreter of the program. -/
theorem Reachable.follow (h : Reachable p i) {s : List (Nat × String)}
    (hs : ∀ t ∈ (i.follow s).1, t.reply ≠ .outOfFuel) :
    Reachable p (i.follow s).2 ∧ (i.follow s).2.context = i.context := by
  induction s generalizing i with
  | nil => exact ⟨h, rfl⟩
  | cons step rest ih =>
    obtain ⟨fuel, name⟩ := step
    rw [follow_cons] at hs ⊢
    obtain ⟨hreach, hcx⟩ := ih (h.perform (by simp) (hs _ List.mem_cons_self))
      fun t ht => hs t (List.mem_cons_of_mem _ ht)
    exact ⟨hreach, hcx.trans (context_perform _ _ _)⟩

/-- **Schedule independence.** In a program whose functions and coroutines neither create nor resume
instances, what a host sees of an instance, what the instance is in the end and how its next resume
comes out depend only on how often it was resumed, whatever happened to the others. -/
theorem follow_independent (hp : p.Isolated) (h : Reachable p i)
    (hsink : i.context.capacity = none) {s s' : List (Nat × String)}
    (hcount : s.countP (·.2 = a) = s'.countP (·.2 = a))
    (hs : ∀ t ∈ (i.follow s).1, t.reply ≠ .outOfFuel)
    (hs' : ∀ t ∈ (i.follow s').1, t.reply ≠ .outOfFuel) :
    (i.follow s).1.filter (·.name = a) = (i.follow s').1.filter (·.name = a) ∧
      (i.follow s).2.instance? a = (i.follow s').2.instance? a ∧
      ∀ fuel, ((i.follow s).2.perform fuel (.resume a)).1 =
        ((i.follow s').2.perform fuel (.resume a)).1 := by
  obtain ⟨hturns, hlast⟩ := follow_alone hp h h rfl hsink rfl hs
  obtain ⟨hturns', hlast'⟩ := follow_alone hp h h rfl hsink rfl hs'
  have hnames : ∀ {s : List (Nat × String)}, ∀ step ∈ s.filter (·.2 = a), step.2 = a := by
    intro s step hstep
    simpa using (List.mem_filter.1 hstep).2
  have halone : i.follow (s.filter (·.2 = a)) = i.follow (s'.filter (·.2 = a)) := by
    refine follow_fuel ?_ hnames hnames ?_ ?_
    · rw [← List.countP_eq_length_filter, ← List.countP_eq_length_filter]
      exact hcount
    · rw [← hturns]
      exact fun t ht => hs t (List.mem_filter.1 ht).1
    · rw [← hturns']
      exact fun t ht => hs' t (List.mem_filter.1 ht).1
  have hinst : (i.follow s).2.instance? a = (i.follow s').2.instance? a := by
    rw [hlast, hlast', halone]
  obtain ⟨hreach, hcx⟩ := h.follow hs
  obtain ⟨hreach', hcx'⟩ := h.follow hs'
  refine ⟨by rw [hturns, hturns', halone], hinst, fun fuel => ?_⟩
  exact (hreach.perform_resume hp hreach' (hcx.trans hcx'.symm) (by rw [hcx]; exact hsink) fuel
    hinst).1

/-- One instance prints on both sides of a yield, the other fails in a call. -/
theorem follow_independent_beside_error :
    let f : Function := ⟨"f", [], none, [.expr (.var "y")], none⟩
    let c : Coroutine :=
      ⟨"c", [.expr (.call "print" [.lit (.int 0)]), .yield, .expr (.call "print" [.lit (.int 1)])],
        none⟩
    let d : Coroutine := ⟨"d", [.yield, .expr (.call "f" [])], none⟩
    let p : Program := ⟨[f], [c, d], [.create "a" "c", .create "b" "d"]⟩
    let i₀ : Interpreter := ⟨⟨⟨[f], [c, d]⟩, .default, none, default⟩, p.main, .initial⟩
    let i := (i₀.perform 20 .runMain).2
    let s := [(20, "a"), (20, "b"), (20, "b"), (20, "b"), (20, "a")]
    let s' := [(20, "b"), (30, "a"), (30, "a")]
    ((i.follow s).1.map Turn.reply = [.progress .suspended, .progress .suspended,
        .fault (.undefinedVariable "y"), .fault (.notResumable "d" .completed),
        .progress .completed] ∧
      (i.follow s).1.map Turn.lines = [["0"], [], [], [], ["1"]]) ∧
      (i.follow s).1.filter (·.name = "a") = (i.follow s').1.filter (·.name = "a") ∧
      (i.follow s).2.instance? "a" = (i.follow s').2.instance? "a" ∧
      ∀ fuel, ((i.follow s).2.perform fuel (.resume "a")).1 =
        ((i.follow s').2.perform fuel (.resume "a")).1 := by
  intro f c d p i₀ i s s'
  have hbuild : Interpreter.build p .default none default = .ok i₀ := build_ok_iff.2 ⟨_, rfl, rfl⟩
  have hreach : Reachable p i := .perform (Reachable.build hbuild) (by simp) (by decide +kernel)
  have hsink : i.context.capacity = none := by rw [context_perform]
  have hisolated : p.Isolated := by
    constructor
    · simp [p, f, Block.Isolated, Stmt.all, Stmt.isolated]
    · simp [p, c, d, Block.Isolated, Stmt.all, Stmt.isolated]
  have hs : (i.follow s).1.all (fun t => t.reply ≠ .outOfFuel) = true := by decide +kernel
  have hs' : (i.follow s').1.all (fun t => t.reply ≠ .outOfFuel) = true := by decide +kernel
  refine ⟨⟨by decide +kernel, by decide +kernel⟩, ?_⟩
  exact follow_independent hisolated hreach hsink (by decide)
    (fun t ht => by simpa using List.all_eq_true.1 hs t ht)
    (fun t ht => by simpa using List.all_eq_true.1 hs' t ht)

end Interpreter

end CoLang
