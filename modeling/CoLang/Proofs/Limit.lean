import CoLang.Proofs.Session
/-!
# The limit on calls

A fault cannot be caught, and a call that is refused leaves nothing behind. So a run that stays
below a limit on the depth of calls is the same under every higher limit, and a run that comes up
against it has printed and recorded no more than the beginning of what a higher limit lets happen
(`Interpreter.limit_cuts_short`).

The comparison behind this is a link (`Link.cutShort`), which holds whatever the reason is for which
one program refuses what another lets pass, as long as a refusal is told by its kind.
-/

namespace CoLang

/-! ## Worlds that grow -/

namespace World

/-- Lines may have been printed and events recorded since, and none of the earlier ones is gone. -/
structure Grows (w w' : World) : Prop where
  lines : w.lines.toList <+: w'.lines.toList
  events : w.events.toList <+: w'.events.toList

variable {cx : Context} {w w' w'' : World}

theorem Grows.refl (w : World) : w.Grows w :=
  ⟨List.prefix_refl _, List.prefix_refl _⟩

theorem Grows.trans (h : w.Grows w') (h' : w'.Grows w'') : w.Grows w'' :=
  ⟨h.lines.trans h'.lines, h.events.trans h'.events⟩

/-- Nothing else about a world matters. -/
theorem Grows.of_eq (h : w.Grows w') (hlines : w''.lines = w'.lines)
    (hevents : w''.events = w'.events) : w.Grows w'' := by
  constructor
  · rw [hlines]
    exact h.lines
  · rw [hevents]
    exact h.events

theorem grows_record (cx : Context) (w : World) (action : Action) (name : String)
    (doc : Option Doc) (instanceName : Option String) :
    w.Grows (w.record cx action name doc instanceName) := by
  unfold record
  split
  · split
    · refine ⟨List.prefix_refl _, ?_⟩
      rw [Array.toList_push]
      exact List.prefix_append _ _
    · exact .refl w
  · exact .refl w

theorem grows_beginResume (cx : Context) (w : World) (name : String) (i : Instance) :
    w.Grows (World.beginResume cx w name i) := by
  unfold beginResume
  split
  · exact grows_record ..
  · exact .refl w

theorem grows_print {line : String} (h : w.print cx line = (.ok (), w')) : w.Grows w' := by
  obtain ⟨-, rfl⟩ := World.print_ok h
  refine ⟨?_, List.prefix_refl _⟩
  rw [Array.toList_push]
  exact List.prefix_append _ _

theorem grows_create {name coroutine : String} (h : w.create cx name coroutine = (.ok (), w')) :
    w.Grows w' := by
  obtain ⟨c, t, -, -, rfl⟩ := World.create_ok h
  have hgrows := grows_record cx { w with table := t, created := w.created + 1 } .create c.name
    c.doc (some name)
  exact ⟨hgrows.lines, hgrows.events⟩

theorem grows_restore {name : String} {i : Instance} (h : w.restore cx name i = (.ok (), w')) :
    w.Grows w' := by
  obtain ⟨-, -, t, -, rfl⟩ := World.restore_ok h
  exact (Grows.refl w).of_eq rfl rfl

theorem grows_enter {f : Function} (h : f.enter cx w = (.ok (), w')) : w.Grows w' := by
  obtain ⟨-, rfl⟩ := Function.enter_ok h
  exact (Grows.refl w).of_eq rfl rfl

/-! ## What depends on the trace being kept -/

variable {cx' : Context}

theorem record_congr (h : cx'.settings.traceProcess = cx.settings.traceProcess) (w : World)
    (action : Action) (name : String) (doc : Option Doc) (instanceName : Option String) :
    w.record cx' action name doc instanceName = w.record cx action name doc instanceName := by
  unfold record
  rw [h]

theorem beginResume_congr (hdecls : cx'.decls = cx.decls)
    (h : cx'.settings.traceProcess = cx.settings.traceProcess) (w : World) (name : String)
    (i : Instance) : World.beginResume cx' w name i = World.beginResume cx w name i := by
  unfold beginResume
  rw [hdecls, record_congr h]

theorem create_congr (hdecls : cx'.decls = cx.decls)
    (h : cx'.settings.traceProcess = cx.settings.traceProcess)
    (hids : cx'.identities = cx.identities) (name coroutine : String) (w : World) :
    w.create cx' name coroutine = w.create cx name coroutine := by
  unfold World.create
  rw [hdecls, hids]
  split
  · rfl
  · simp only [record_congr h]

end World

/-- Whatever the second half of a computation does, it does behind the first. -/
theorem Eval.grows_bind {α β : Type} {x : Eval α} {f : α → Eval β}
    (hf : ∀ a (w : World), w.Grows (f a w).world) (w : World) :
    (x w).world.Grows ((x >>= f) w).world := by
  rcases hx : x w with ⟨a | e | _, w₁⟩
  · rw [Eval.bind_of_value hx]
    exact hf a w₁
  · rw [Eval.bind_of_fault hx]
    exact .refl w₁
  · rw [Eval.bind_of_outOfFuel hx]
    exact .refl w₁

/-! ## Runs that are cut short -/

/-- The second computation does what the first does, unless the first fails with such a fault. Then
the second has at least printed and recorded what the first has. -/
def Outcome.CutShort {α : Type} (kind : FaultKind) (o o' : Outcome α) : Prop :=
  o' = o ∨ (∃ f, o.ending = .fault f ∧ f.kind = kind) ∧ o.world.Grows o'.world

/-- The second computation only adds to the lines and the events, and where the first returns it is
cut short at most by such a fault. -/
def Eval.CutShort {α : Type} (kind : FaultKind) (x y : Eval α) : Prop :=
  ∀ w, w.Grows (y w).world ∧ ((x w).Returned → Outcome.CutShort kind (x w) (y w))

namespace Eval.CutShort

variable {α β : Type} {kind : FaultKind}

theorem refl {x : Eval α} (h : ∀ w : World, w.Grows (x w).world) : x.CutShort kind x :=
  fun w => ⟨h w, fun _ => .inl rfl⟩

theorem bind {x y : Eval α} {f g : α → Eval β} (hx : x.CutShort kind y)
    (hf : ∀ a, (f a).CutShort kind (g a)) : (x >>= f).CutShort kind (y >>= g) := by
  intro w
  obtain ⟨hgrows, hcut⟩ := hx w
  have hbehind : (y w).world.Grows ((y >>= g) w).world :=
    Eval.grows_bind (fun a w₁ => (hf a w₁).1) w
  refine ⟨hgrows.trans hbehind, ?_⟩
  intro hret
  rcases hxw : x w with ⟨a | e | _, w₁⟩
  · rw [Eval.bind_of_value hxw] at hret ⊢
    have hsame : y w = ⟨.value a, w₁⟩ := by
      rcases hcut (by rw [hxw]; exact Outcome.returned_value) with h | ⟨⟨f, hf, -⟩, -⟩
      · rw [h, hxw]
      · rw [hxw] at hf
        cases hf
    rw [Eval.bind_of_value hsame]
    exact (hf a w₁).2 hret
  · rw [Eval.bind_of_fault hxw]
    rcases hcut (by rw [hxw]; exact Outcome.returned_fault) with h | ⟨⟨f, hf, hkind⟩, hmore⟩
    · left
      exact Eval.bind_of_fault (h.trans hxw)
    · right
      rw [hxw] at hf hmore
      cases hf
      exact ⟨⟨e, rfl, hkind⟩, hmore.trans hbehind⟩
  · rw [Eval.bind_of_outOfFuel hxw] at hret
    exact absurd hret Outcome.not_returned

/-- A change that the first program refuses with such a fault may be let pass by the second. -/
theorem change {f g : World → Except Fault Unit × World} (hf : Atomic f) (hg : Atomic g)
    (hgrows : ∀ {w w'}, g w = (.ok (), w') → w.Grows w')
    (h : ∀ w, g w = f w ∨ ∃ e, (f w).1 = .error e ∧ e.kind = kind) :
    (Eval.change f).CutShort kind (Eval.change g) := by
  intro w
  have hgrown : w.Grows (Eval.change g w).world := by
    rw [Eval.change_apply hg]
    rcases hw : g w with ⟨e | ⟨⟩, w'⟩
    · exact .refl w
    · exact hgrows hw
  refine ⟨hgrown, fun _ => ?_⟩
  rcases h w with hsame | ⟨e, he, hkind⟩
  · left
    simp only [Eval.change, hsame]
  · right
    have hrefused : Eval.change f w = ⟨.fault e, w⟩ := by
      have hw : f w = (.error e, (f w).2) := Prod.ext he rfl
      rw [Eval.change_apply hf, hw]
    rw [hrefused]
    exact ⟨⟨e, rfl, hkind⟩, hgrown⟩

theorem leaving {x y : Eval α} (h : x.CutShort kind y) : x.leaving.CutShort kind y.leaving := by
  intro w
  obtain ⟨hgrows, hcut⟩ := h w
  -- Giving the call back touches neither lines nor events.
  have hleft : ∀ {w₁ : World}, w₁.Grows (y w).world → w₁.Grows (y.leaving w).world := by
    intro w₁ hw₁
    simp only [Eval.leaving]
    split
    · exact hw₁
    · exact hw₁.of_eq rfl rfl
  refine ⟨hleft hgrows, ?_⟩
  intro hret
  have hx := Eval.returned_of_leaving hret
  rw [Eval.leaving_of_returned hx]
  rcases hcut hx with hsame | ⟨hfault, hmore⟩
  · left
    rw [Eval.leaving_of_returned (hsame ▸ hx), hsame]
  · right
    exact ⟨hfault, hleft ⟨hmore.lines, hmore.events⟩⟩

section Programs

variable {cx cx' : Context} (hdecls : cx'.decls = cx.decls)
  (htrace : cx'.settings.traceProcess = cx.settings.traceProcess)

include htrace in
theorem record (action : Action) (name : String) (doc : Option Doc) :
    (Eval.update fun w => w.record cx action name doc none).CutShort kind
      (.update fun w => w.record cx' action name doc none) := by
  simp only [World.record_congr htrace]
  exact refl fun w => World.grows_record ..

include hdecls htrace in
/-- A resume is cut short where the run in it is. -/
theorem resume {sv sv' : Services} {fuel fuel' : Nat}
    (hruns : ∀ m : Machine, (m.runs cx sv fuel).CutShort kind (m.runs cx' sv' fuel'))
    (name : String) :
    (World.resume cx sv fuel name).CutShort kind (World.resume cx' sv' fuel' name) := by
  intro w
  simp only [World.resume_eq, World.beginResume_congr hdecls htrace]
  rcases w.table.checkout name with ⟨e | i, table⟩
  · exact ⟨.refl w, fun _ => .inl rfl⟩
  · -- The world in which the body runs, with the instance out of the table.
    obtain ⟨w₁, hw₁⟩ : ∃ w₁, w₁ = World.beginResume cx { w with table } name i := ⟨_, rfl⟩
    have hbegun : w.Grows w₁ := by
      have hgrows := World.grows_beginResume cx { w with table } name i
      rw [← hw₁] at hgrows
      exact ⟨hgrows.lines, hgrows.events⟩
    simp only [← hw₁]
    rcases i.body with e | m
    · exact ⟨hbegun.of_eq rfl rfl, fun _ => .inl rfl⟩
    · obtain ⟨hgrows, hcut⟩ := hruns m w₁
      simp only
      generalize m.runs cx sv fuel w₁ = r at hcut ⊢
      generalize m.runs cx' sv' fuel' w₁ = r' at hgrows hcut ⊢
      -- Putting the instance back touches neither lines nor events.
      constructor
      · split
        · exact hbegun.trans hgrows
        · exact (hbegun.trans hgrows).of_eq rfl rfl
      · intro hret
        have hreturned : r.Returned := by
          intro ho
          simp only [ho] at hret
          exact hret rfl
        rcases hcut hreturned with rfl | ⟨⟨f, hf, hkind⟩, hmore⟩
        · exact .inl rfl
        · right
          simp only [hf]
          refine ⟨⟨f, rfl, hkind⟩, ?_⟩
          have hparked : (r.world.park name (i.settle (.fault f)).2).Grows r'.world :=
            ⟨hmore.lines, hmore.events⟩
          split
          · exact hparked
          · exact hparked.of_eq rfl rfl

end Programs

end Eval.CutShort

namespace Link

/-- A computation is cut short, compared with each of a family, at most by such a fault. -/
def cutShort (ι : Type) (kind : FaultKind) : Link ι where
  holds x xs := ∀ i, x.CutShort kind (xs i)
  ofExcept _ := fun _ => .refl .refl
  bind hx hf := fun i => (hx i).bind fun a => hf a i

/-- **Calls and resumes are cut short where lines or calls are refused.** -/
theorem cutShort_keeps {ι : Type} {kind : FaultKind} {cx : Context} {cxs : ι → Context}
    (hdecls : ∀ i, (cxs i).decls = cx.decls)
    (htrace : ∀ i, (cxs i).settings.traceProcess = cx.settings.traceProcess)
    (hids : ∀ i, (cxs i).identities = cx.identities)
    (hprint : ∀ i line w, World.print (cxs i) line w = World.print cx line w ∨
      ∃ e, (World.print cx line w).1 = .error e ∧ e.kind = kind)
    (henter : ∀ i (f : Function) w, f.enter (cxs i) w = f.enter cx w ∨
      ∃ e, (f.enter cx w).1 = .error e ∧ e.kind = kind) :
    (cutShort ι kind).Keeps cx cxs where
  decls := hdecls
  exhausted := fun _ => .refl .refl
  print line := fun i => .change World.atomic_print World.atomic_print World.grows_print fun w =>
    hprint i line w
  declare name doc := fun i => .record (htrace i) .declare name doc
  create name coroutine := fun i =>
    .change World.atomic_create World.atomic_create World.grows_create fun w =>
      .inl (World.create_congr (hdecls i) (htrace i) (hids i) name coroutine w)
  within f := by
    intro α x xs hx i
    have henters := Eval.CutShort.change Function.atomic_enter Function.atomic_enter
      World.grows_enter fun w => henter i f w
    apply Eval.CutShort.bind henters
    intro _
    apply Eval.CutShort.bind (.record (htrace i) .call f.name f.doc)
    intro _
    exact (hx i).leaving
  resume := by
    intro sv svs fuel fuels hruns name i
    exact .resume (hdecls i) (htrace i) (fun m => hruns m i) name

end Link

/-! ## Higher limits -/

/-- The context with another limit on the depth of calls. -/
def Context.withLimit (cx : Context) (limit : Nat) : Context :=
  { cx with settings := { cx.settings with maxCallDepth := limit } }

theorem Function.enter_withLimit (cx : Context) {limit limit' : Nat} (h : limit ≤ limit')
    (f : Function) (w : World) :
    f.enter (cx.withLimit limit') w = f.enter (cx.withLimit limit) w ∨
      ∃ e, (f.enter (cx.withLimit limit) w).1 = .error e ∧ e.kind = .recursionLimit := by
  by_cases hdepth : w.depth < limit
  · left
    have hdepth' : w.depth < limit' := by omega
    simp only [Function.enter, Context.withLimit, hdepth, hdepth', if_true]
  · right
    simp only [Function.enter, Context.withLimit, hdepth, if_false]
    exact ⟨_, rfl, rfl⟩

/-- An operation under a limit is cut short at most by the limit. -/
theorem Operation.cutShort_withLimit (cx : Context) {limit limit' : Nat} (h : limit ≤ limit')
    (main : Block) (fuel : Nat) (op : Operation) :
    (Link.cutShort Unit .recursionLimit).holds (op.eval (cx.withLimit limit) main fuel)
      fun _ => op.eval (cx.withLimit limit') main fuel := by
  have hkeeps : (Link.cutShort Unit .recursionLimit).Keeps (cx.withLimit limit)
      fun _ => cx.withLimit limit' :=
    Link.cutShort_keeps (fun _ => rfl) (fun _ => rfl) (fun _ => rfl) (fun _ _ _ => .inl rfl)
      fun _ f w => Function.enter_withLimit cx h f w
  apply hkeeps.operation main fuel
  intro name inst _ _
  exact .change World.atomic_restore World.atomic_restore World.grows_restore fun w => .inl rfl

theorem Operation.eval_below (cx : Context) (main : Block) (op : Operation) {fuel fuel' : Nat}
    (h : fuel ≤ fuel') : (op.eval cx main fuel).Below (op.eval cx main fuel') := by
  apply Link.settling_const.1
  cases op with
  | runMain =>
    refine Link.settling.bind (Link.settling_const.2 ?_) fun _ => Link.settling_refl _
    exact Machine.runs_below cx _ (services_below cx h) h
  | resume name =>
    refine Link.settling.bind (Link.settling_const.2 ?_) fun _ => Link.settling_refl _
    exact (services_below cx (Nat.succ_le_succ h)).resume name
  | create name coroutine => exact Link.settling_refl _
  | restore name inst => exact Link.settling_refl _

namespace Interpreter

/-- The interpreter with another limit on the depth of calls. -/
def withLimit (i : Interpreter) (limit : Nat) : Interpreter :=
  { i with context := i.context.withLimit limit }

theorem perform_withLimit (i : Interpreter) (limit fuel : Nat) (op : Operation) :
    (i.withLimit limit).perform fuel op =
      let r := op.eval (i.context.withLimit limit) i.main fuel i.world
      (.ofEnding id r.ending, { i.withLimit limit with world := r.world }) :=
  perform_eq (i.withLimit limit) fuel op

/-- **The limit on calls only cuts runs short.** Let an operation return under a limit. If it does
not fail because of the limit, it returns the same under a higher limit, and the world behind it is
the same: the lines, the trace, the instances and the depth of calls. If it does, the lines printed
and the events recorded are the first of those under the higher limit, whether or not the operation
ever returns there. -/
theorem limit_cuts_short (i : Interpreter) {limit limit' : Nat} (hlimit : limit ≤ limit')
    {fuel : Nat} {op : Operation} {reply : Reply} {w : World}
    (h : (i.withLimit limit).perform fuel op = (reply, { i.withLimit limit with world := w }))
    (hret : reply ≠ .outOfFuel) :
    ((∀ f, reply = .fault f → f.kind ≠ .recursionLimit) → ∀ fuel', fuel ≤ fuel' →
      (i.withLimit limit').perform fuel' op = (reply, { i.withLimit limit' with world := w })) ∧
    ∀ f, reply = .fault f → f.kind = .recursionLimit → ∀ fuel', fuel ≤ fuel' →
      w.lines.toList <+: ((i.withLimit limit').perform fuel' op).2.world.lines.toList ∧
        w.events.toList <+: ((i.withLimit limit').perform fuel' op).2.world.events.toList := by
  rw [perform_withLimit, Prod.mk.injEq, Interpreter.mk.injEq] at h
  obtain ⟨hreply, -, -, hworld⟩ := h
  -- With more fuel the operation returns the same under the lower limit, so the runs are compared
  -- with the same fuel.
  have hcut : ∀ fuel', fuel ≤ fuel' → ∃ ending, reply = .ofEnding id ending ∧
      Outcome.CutShort .recursionLimit ⟨ending, w⟩
        (op.eval (i.context.withLimit limit') i.main fuel' i.world) := by
    intro fuel' hfuel
    have hreturned : (op.eval (i.context.withLimit limit) i.main fuel i.world).Returned := by
      intro ho
      apply hret
      rw [← hreply, ho]
      rfl
    have hsame := op.eval_below (i.context.withLimit limit) i.main hfuel i.world hreturned
    refine ⟨_, hreply.symm, ?_⟩
    rw [← hworld, ← hsame]
    exact (op.cutShort_withLimit i.context hlimit i.main fuel' () i.world).2
      (by rw [hsame]; exact hreturned)
  constructor
  · intro hkind fuel' hfuel
    obtain ⟨ending, rfl, hsame | ⟨⟨f, rfl, hf⟩, -⟩⟩ := hcut fuel' hfuel
    · rw [perform_withLimit, hsame]
    · exact absurd hf (hkind f rfl)
  · intro f hf hkind fuel' hfuel
    rw [perform_withLimit]
    obtain ⟨ending, -, hsame | ⟨-, hgrows⟩⟩ := hcut fuel' hfuel
    · rw [hsame]
      exact ⟨List.prefix_refl _, List.prefix_refl _⟩
    · exact ⟨hgrows.lines, hgrows.events⟩

/-- A function that prints and calls itself, in an instance that the main body resumes. -/
theorem limit_cuts_short_recursive :
    let f : Function := ⟨"f", [], none,
      [.expr (.call "print" [.lit (.int 0)]), .expr (.call "f" [])], some ["@process again"]⟩
    let c : Coroutine := ⟨"c", [.expr (.call "f" [])], none⟩
    let i : Interpreter :=
      ⟨⟨⟨[f], [c]⟩, .default, none, default⟩, [.create "a" "c", .resume "a"], .initial⟩
    let r := (i.withLimit 2).perform 30 .runMain
    let r' := (i.withLimit 5).perform 40 .runMain
    (r.1 = .fault (.tooDeep "f" 2) ∧ r.2.world.lines = #["0", "0"] ∧ r.2.world.events.size = 2 ∧
      r'.2.world.lines.size = 5) ∧
    ∀ fuel', 30 ≤ fuel' →
      r.2.world.lines.toList <+: ((i.withLimit 5).perform fuel' .runMain).2.world.lines.toList ∧
        r.2.world.events.toList <+:
          ((i.withLimit 5).perform fuel' .runMain).2.world.events.toList := by
  intro f c i r r'
  have hreply : r.1 = .fault (.tooDeep "f" 2) := by decide +kernel
  refine ⟨⟨hreply, by decide +kernel, by decide +kernel, by decide +kernel⟩, ?_⟩
  have hr : (i.withLimit 2).perform 30 .runMain =
      (r.1, { i.withLimit 2 with world := r.2.world }) := by simp only [r, perform_withLimit]
  exact (limit_cuts_short i (by decide) hr (by rw [hreply]; simp)).2 _ hreply rfl

end Interpreter

end CoLang
