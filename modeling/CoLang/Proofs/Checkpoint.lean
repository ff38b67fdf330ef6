import CoLang.Proofs.Session
import CoLang.Proofs.Wire.Machine
/-!
# Checkpoint and restart

The instances of an interpreter, written down one by one (`Interpreter.checkpoint`), are all that a
new interpreter of the same program needs to carry on in its place. It takes them back in any order
(`Interpreter.restoreAll`), and from then on a host cannot tell the two apart, whatever it does
next: it gets the same replies, the same lines and the same stages of life, and the same events but
for their numbers (`Interpreter.observe_restored`).

Two worlds are alike (`World.Alike`) if they hold the same instances and calls, and what one has
printed and recorded is what the other has, behind what was there before. Instances that are created
later get other identities. Neither these nor anything else in a world decides what a body does, so
likeness is a link that calls and resumes keep (`Link.alike_keeps`).
-/

namespace CoLang

/-- An event as it is numbered in a trace that began earlier. -/
def Event.shift (n : Nat) (e : Event) : Event := { e with seq := e.seq + n }

/-! ## Worlds that are alike -/

/-- What a resume comes to does not depend on the identity of the instance, which stays. -/
theorem Instance.settle_id (i : Instance) (id : Identity) (ending : Ending Machine) :
    ({ i with id } : Instance).settle ending =
      ((i.settle ending).1, { (i.settle ending).2 with id }) := by
  cases ending with
  | value m =>
    simp only [Instance.settle]
    split <;> rfl
  | _ => rfl

/-- Two slots hold the same, apart from the identity of an instance. -/
inductive Slot.Alike : Option Slot → Option Slot → Prop
  | none : Alike none none
  | parked (i : Instance) (id : Identity) : Alike (some (.parked i)) (some (.parked { i with id }))
  | running (coroutine : String) : Alike (some (.running coroutine)) (some (.running coroutine))

theorem Slot.Alike.refl (s : Option Slot) : Slot.Alike s s := by
  rcases s with - | (i | coroutine)
  · exact .none
  · exact .parked i i.id
  · exact .running coroutine

/-- Both worlds hold the same apart from identities, and the first has behind the lines and events
of `base` those of the second. -/
structure World.Alike (base w w' : World) : Prop where
  slot? : ∀ name, Slot.Alike (w.table.slot? name) (w'.table.slot? name)
  depth : w.depth = w'.depth
  lines : w.lines.toList = base.lines.toList ++ w'.lines.toList
  events : w.events.toList =
    base.events.toList ++ w'.events.toList.map (Event.shift base.events.size)

namespace World.Alike

variable {base w w' : World} {cx : Context} {ids : Nat → Identity} {name : String}

theorem size_lines (h : base.Alike w w') :
    w.lines.size = base.lines.toList.length + w'.lines.size := by
  simpa using congrArg List.length h.lines

theorem size_events (h : base.Alike w w') :
    w.events.size = base.events.toList.length + w'.events.size := by
  simpa using congrArg List.length h.events

theorem life? (h : base.Alike w w') (name : String) : w.table.life? name = w'.table.life? name := by
  have hs := h.slot? name
  unfold Table.life?
  generalize w.table.slot? name = s, w'.table.slot? name = s' at hs ⊢
  cases hs <;> rfl

theorem isFree (h : base.Alike w w') (name : String) :
    w.table.isFree name = w'.table.isFree name := by
  have hs := h.slot? name
  unfold Table.isFree
  generalize w.table.slot? name = s, w'.table.slot? name = s' at hs ⊢
  cases hs <;> rfl

theorem setSlot (h : base.Alike w w') (name : String) {s s' : Slot}
    (hs : Slot.Alike (some s) (some s')) :
    base.Alike { w with table := w.table.setSlot name s }
      { w' with table := w'.table.setSlot name s' } where
  slot? := by
    intro other
    by_cases heq : other = name
    · subst heq
      simpa using hs
    · simpa only [Table.slot?_setSlot_of_ne heq] using h.slot? other
  depth := h.depth
  lines := h.lines
  events := h.events

theorem count (h : base.Alike w w') (n n' : Nat) :
    base.Alike { w with created := n } { w' with created := n' } :=
  ⟨h.slot?, h.depth, h.lines, h.events⟩

theorem record (h : base.Alike w w') (action : Action) (doc : Option Doc)
    (instanceName : Option String) :
    base.Alike (w.record cx action name doc instanceName)
      (w'.record { cx with identities := ids } action name doc instanceName) := by
  unfold World.record
  cases doc.bind Doc.processNote? with
  | none => exact h
  | some note =>
    cases cx.settings.traceProcess with
    | false => exact h
    | true =>
      refine ⟨h.slot?, h.depth, h.lines, ?_⟩
      simp [h.events, h.size_events, Event.shift, Nat.add_comm]

theorem beginResume (h : base.Alike w w') (cx : Context) (ids : Nat → Identity) (name : String)
    (i : Instance) (id : Identity) :
    base.Alike (World.beginResume cx w name i)
      (World.beginResume { cx with identities := ids } w' name { i with id }) := by
  unfold World.beginResume
  show base.Alike _ (if i.isResumable = true then _ else _)
  split
  · exact h.record _ _ _
  · exact h

theorem leave (h : base.Alike w w') : base.Alike w.leave w'.leave :=
  ⟨h.slot?, by simp [World.leave, h.depth], h.lines, h.events⟩

theorem park (h : base.Alike w w') (i : Instance) (id : Identity) :
    base.Alike (w.park name i) (w'.park name { i with id }) :=
  h.setSlot name (.parked i id)

theorem print (h : base.Alike w w') (line : String) :
    base.Alike { w with lines := w.lines.push line } { w' with lines := w'.lines.push line } :=
  ⟨h.slot?, h.depth, by simp [h.lines], h.events⟩

end World.Alike

/-- Two changes that may be refused get the same answer and lead to worlds that are alike. -/
def World.AlikeChange (base : World) (r r' : Except Fault Unit × World) : Prop :=
  r.1 = r'.1 ∧ base.Alike r.2 r'.2

namespace World.Alike

variable {base w w' : World} {cx : Context} {ids : Nat → Identity} {name : String}

/-- An insertion is refused in both worlds or in none. -/
theorem insert (h : base.Alike w w') (name : String) (i : Instance) (id : Identity) :
    (∃ e, w.table.insert name i = (.error e, w.table) ∧
        w'.table.insert name { i with id } = (.error e, w'.table)) ∨
      w.table.insert name i = (.ok (), w.table.setSlot name (.parked i)) ∧
        w'.table.insert name { i with id } =
          (.ok (), w'.table.setSlot name (.parked { i with id })) := by
  simp only [Table.insert, h.isFree]
  cases w'.table.isFree name with
  | true => exact .inr ⟨rfl, rfl⟩
  | false => exact .inl ⟨_, rfl, rfl⟩

theorem create (h : base.Alike w w') (coroutine : String) :
    base.AlikeChange (w.create cx name coroutine)
      (w'.create { cx with identities := ids } name coroutine) := by
  unfold World.create
  cases cx.decls.coroutine? coroutine with
  | none => exact ⟨rfl, h⟩
  | some c =>
    rcases h.insert name (.create (cx.identities w.created) c) (ids w'.created) with
      ⟨e, hw, hw'⟩ | ⟨hw, hw'⟩
    · have hw' : w'.table.insert name (.create (ids w'.created) c) = _ := hw'
      simp only [hw, hw']
      exact ⟨rfl, h⟩
    · have hw' : w'.table.insert name (.create (ids w'.created) c) = _ := hw'
      simp only [hw, hw']
      exact ⟨rfl, ((h.setSlot name (.parked _ _)).count _ _).record _ _ _⟩

theorem restore (h : base.Alike w w') (i : Instance) :
    base.AlikeChange (w.restore cx name i)
      (w'.restore { cx with identities := ids } name i) := by
  unfold World.restore
  split
  · exact ⟨rfl, h⟩
  · split
    · exact ⟨rfl, h⟩
    · rcases h.insert name i i.id with ⟨e, hw, hw'⟩ | ⟨hw, hw'⟩
      · simp only [hw, hw']
        exact ⟨rfl, h⟩
      · simp only [hw, hw']
        exact ⟨rfl, h.setSlot name (.parked i i.id)⟩

end World.Alike

namespace Link

variable {base : World}

/-- In worlds that are alike, both computations end alike and leave worlds that are alike. -/
def alike (base : World) : Link Unit where
  holds x xs := ∀ w w', base.Alike w w' →
    (x w).ending = (xs () w').ending ∧ base.Alike (x w).world (xs () w').world
  ofExcept x := fun w w' h => ⟨rfl, h⟩
  bind := by
    intro α β x xs f fs hx hf w w' h
    obtain ⟨hending, hworld⟩ := hx w w' h
    show ((x >>= f) w).ending = ((xs () >>= fs ()) w').ending ∧
      base.Alike ((x >>= f) w).world ((xs () >>= fs ()) w').world
    simp only [Eval.bind_apply, ← hending]
    cases (x w).ending with
    | value a => exact hf a _ _ hworld
    | fault e => exact ⟨rfl, hworld⟩
    | outOfFuel => exact ⟨rfl, hworld⟩

theorem alike_change {f f' : World → Except Fault Unit × World}
    (h : ∀ {w w'}, base.Alike w w' → base.AlikeChange (f w) (f' w')) :
    (alike base).holds (.change f) fun _ => .change f' := by
  intro w w' hw
  obtain ⟨hanswer, hworld⟩ := h hw
  exact ⟨congrArg Ending.ofExcept hanswer, hworld⟩

theorem alike_leaving {α : Type} {x : Eval α} {xs : Unit → Eval α} (h : (alike base).holds x xs) :
    (alike base).holds x.leaving fun i => (xs i).leaving := by
  intro w w' hw
  obtain ⟨hending, hworld⟩ := h w w' hw
  simp only [Eval.leaving, ← hending]
  cases hx : (x w).ending with
  | value a => exact ⟨rfl, hworld.leave⟩
  | fault e => exact ⟨rfl, hworld.leave⟩
  | outOfFuel => exact ⟨by rw [hx, ← hending, hx], hworld⟩

/-- **Calls and resumes keep worlds alike**, as long as nothing printed is refused. -/
theorem alike_keeps {cx : Context} (hsink : cx.capacity = none) (base : World)
    (ids : Nat → Identity) : (alike base).Keeps cx fun _ => { cx with identities := ids } where
  decls _ := rfl
  exhausted := fun w w' h => ⟨rfl, h⟩
  print line := by
    refine alike_change fun {w w'} h => ?_
    simp only [World.print, Context.takesLine, hsink, if_true]
    exact ⟨rfl, h.print line⟩
  declare name doc := fun w w' h => ⟨rfl, h.record _ _ _⟩
  create name coroutine := alike_change fun h => h.create coroutine
  within f α x xs hx := by
    refine (alike base).bind (alike_change fun {w w'} h => ?_) fun _ =>
      (alike base).bind (fun w w' h => ⟨rfl, h.record _ _ _⟩) fun _ => alike_leaving hx
    simp only [Function.enter, h.depth]
    split
    · exact ⟨rfl, h.slot?, rfl, h.lines, h.events⟩
    · exact ⟨rfl, h⟩
  resume := by
    intro sv svs fuel fuels hruns name w w' h
    -- Both tables have the same slot, so the case is the same on both sides.
    have hs := h.slot? name
    generalize hslot : w.table.slot? name = s, hslot' : w'.table.slot? name = s' at hs
    simp only [World.resume_eq]
    cases hs with
    | none =>
      rw [Table.checkout_of_none hslot, Table.checkout_of_none hslot']
      exact ⟨rfl, h⟩
    | running coroutine =>
      rw [Table.checkout_of_running hslot, Table.checkout_of_running hslot']
      exact ⟨rfl, h⟩
    | parked i id =>
      rw [Table.checkout_of_parked hslot, Table.checkout_of_parked hslot']
      have hbody : ({ i with id } : Instance).body = i.body := rfl
      have hbegun := (h.setSlot name (.running i.coroutine)).beginResume cx ids name i id
      simp only [hbody]
      rcases i.body with e | m
      · exact ⟨rfl, hbegun.park i id⟩
      · obtain ⟨hending, hworld⟩ := hruns m _ _ hbegun
        simp only at hworld
        simp only [← hending]
        generalize m.runs cx sv fuel _ = r at hworld ⊢
        generalize m.runs _ (svs ()) (fuels ()) _ = r' at hworld ⊢
        cases r.ending with
        | outOfFuel => exact ⟨rfl, hworld⟩
        | _ =>
          simp only [Instance.settle_id, true_and]
          exact hworld.park _ id

theorem alike_operation {cx : Context} (hsink : cx.capacity = none) (base : World)
    (ids : Nat → Identity) (main : Block) (fuel : Nat) (op : Operation) :
    (alike base).holds (op.eval cx main fuel)
      fun _ => op.eval { cx with identities := ids } main fuel :=
  (alike_keeps hsink base ids).operation main fuel
    fun _ inst _ => alike_change fun h => h.restore inst

end Link

/-! ## What a host observes -/

/-- What an operation shows: its reply, the lines printed and the events recorded meanwhile, and the
stages of life of the instances behind it. -/
structure Observation where
  reply : Reply
  lines : List String
  events : List Event
  life? : String → Option Life

/-- The same observation in a trace that began earlier. -/
def Observation.shift (n : Nat) (o : Observation) : Observation :=
  { o with events := o.events.map (Event.shift n) }

namespace Interpreter

/-- What a host observes of some operations, one after another, each with fuel for its runs. -/
def observe (i : Interpreter) : List (Nat × Operation) → List Observation
  | [] => []
  | (fuel, op) :: rest =>
    let (reply, i') := i.perform fuel op
    { reply
      lines := i'.world.lines.toList.drop i.world.lines.size
      events := i'.world.events.toList.drop i.world.events.size
      life? := i'.life? } :: observe i' rest

/-- Interpreters of one program whose worlds are alike show the same. -/
theorem observe_alike {cx : Context} (hsink : cx.capacity = none) {main : Block} {base : World}
    (ids : Nat → Identity) (ops : List (Nat × Operation)) {w w' : World} (h : base.Alike w w') :
    observe ⟨cx, main, w⟩ ops =
      (observe ⟨{ cx with identities := ids }, main, w'⟩ ops).map
        (Observation.shift base.events.size) := by
  induction ops generalizing w w' with
  | nil => rfl
  | cons step rest ih =>
    obtain ⟨fuel, op⟩ := step
    obtain ⟨hending, hworld⟩ := Link.alike_operation hsink base ids main fuel op w w' h
    simp only [observe, perform_eq, List.map_cons, List.cons.injEq]
    refine ⟨?_, ih hworld⟩
    simp only [Observation.shift, Observation.mk.injEq]
    refine ⟨by rw [hending], ?_, ?_, funext hworld.life?⟩
    · rw [hworld.lines, h.size_lines, List.drop_length_add_append]
    · rw [hworld.events, h.size_events, List.drop_length_add_append, List.map_drop]

end Interpreter

/-! ## Writing instances down and taking them back -/

/-- The instances that are not out, by name. -/
def Table.instances (t : Table) : Assoc Instance :=
  t.slots.filterMap fun entry =>
    match entry.2 with
    | .parked i => some (entry.1, i)
    | .running _ => none

namespace Interpreter

/-- Every instance in JSON, by name. -/
def checkpoint (ids : Identity.Format) (i : Interpreter) : List (String × Json) :=
  i.world.table.instances.map fun entry => (entry.1, entry.2.encode ids)

/-- Reads instances and restores each under its name. -/
def restoreAll (ids : Identity.Format) (i : Interpreter) : List (String × Json) → Option Interpreter
  | [] => some i
  | (name, j) :: rest => do
    let inst ← Instance.decode ids (.value j) j
    match i.restore name inst with
    | (.ok (), i) => restoreAll ids i rest
    | (.error _, _) => none

end Interpreter

theorem Assoc.get?_of_mem {α : Type} {t : Assoc α} (h : t.names.Nodup) {name : String} {a : α}
    (hmem : (name, a) ∈ t) : t.get? name = some a := by
  induction t with
  | nil => cases hmem
  | cons entry rest ih =>
    obtain ⟨n, b⟩ := entry
    simp only [Assoc.names, List.map_cons, List.nodup_cons] at h
    rcases List.mem_cons.1 hmem with heq | hmem
    · cases heq
      simp [Assoc.get?]
    · have hne : ¬n = name := by
        rintro rfl
        exact h.1 (List.mem_map_of_mem hmem)
      simp only [Assoc.get?, hne, if_false]
      exact ih h.2 hmem

namespace Table

variable {t : Table} {name : String} {i : Instance}

theorem mem_instances : (name, i) ∈ t.instances ↔ (name, .parked i) ∈ t.slots := by
  simp only [instances, List.mem_filterMap]
  constructor
  · rintro ⟨⟨n, s⟩, hmem, heq⟩
    cases s with
    | parked j =>
      cases heq
      exact hmem
    | running c => cases heq
  · intro hmem
    exact ⟨_, hmem, rfl⟩

theorem sorted_instances (t : Table) : t.instances.Sorted := by
  refine List.Pairwise.filterMap _ (fun e e' hlt => ?_) t.sorted
  obtain ⟨n, s⟩ := e
  obtain ⟨n', s'⟩ := e'
  cases s with
  | running c => simp
  | parked i =>
    cases s' with
    | running c => simp
    | parked i' => simpa using hlt

end Table

theorem World.restore_of_free {cx : Context} {w : World} {name : String} {i : Instance}
    (hi : i.AtRest cx.decls) (hfree : w.table.slot? name = none) :
    w.restore cx name i = (.ok (), { w with table := w.table.setSlot name (.parked i) }) := by
  have hdeclared : (cx.decls.coroutine? i.coroutine).isNone = false := by
    simpa using hi.declared
  simp [World.restore, hdeclared, hi.life, Table.insert, Table.isFree, hfree]

/-- Instances that are read as those of a table, under names that are free, are all restored. The
new table then has the slots of that table under their names. -/
theorem Interpreter.restoreAll_ok (ids : Identity.Format) (cx : Context) (main : Block) {t : Table}
    {saved : List (String × Json)}
    (hsaved : ∀ entry ∈ saved, ∃ inst, Instance.decode ids (.value entry.2) entry.2 = some inst ∧
      inst.AtRest cx.decls ∧ t.slot? entry.1 = some (.parked inst))
    (hnodup : (saved.map Prod.fst).Nodup) (w : World)
    (hfree : ∀ entry ∈ saved, w.table.slot? entry.1 = none) :
    ∃ t', restoreAll ids ⟨cx, main, w⟩ saved = some ⟨cx, main, { w with table := t' }⟩ ∧
      ∀ name, t'.slot? name =
        if name ∈ saved.map Prod.fst then t.slot? name else w.table.slot? name := by
  induction saved generalizing w with
  | nil => exact ⟨w.table, rfl, fun name => by simp⟩
  | cons entry rest ih =>
    obtain ⟨name, j⟩ := entry
    obtain ⟨inst, hdecode, hinst, hslot⟩ := hsaved _ List.mem_cons_self
    obtain ⟨hnew, hnodup⟩ : name ∉ rest.map Prod.fst ∧ (rest.map Prod.fst).Nodup :=
      List.nodup_cons.1 hnodup
    have hrestore := World.restore_of_free hinst (hfree _ List.mem_cons_self)
    -- The names still to come are other ones, so they stay free.
    have hfree' : ∀ e ∈ rest, (w.table.setSlot name (.parked inst)).slot? e.1 = none := by
      intro e he
      have hne : e.1 ≠ name := by
        intro heq
        rw [← heq] at hnew
        exact hnew (List.mem_map_of_mem he)
      rw [Table.slot?_setSlot_of_ne hne]
      exact hfree e (List.mem_cons_of_mem _ he)
    obtain ⟨t', ht', hslots⟩ :=
      ih (fun e he => hsaved e (List.mem_cons_of_mem _ he)) hnodup
        { w with table := w.table.setSlot name (.parked inst) } hfree'
    refine ⟨t', ?_, fun other => ?_⟩
    · rw [← ht']
      simp only [restoreAll, hdecode, Option.bind_eq_bind, Option.bind_some, Interpreter.restore,
        hrestore]
    · rw [hslots other]
      by_cases hother : other = name
      · subst hother
        simp only [hnew, if_false, List.map_cons, List.mem_cons, true_or, if_true]
        rw [Table.slot?_setSlot_self]
        exact hslot.symm
      · simp only [List.map_cons, List.mem_cons, hother, false_or]
        rw [Table.slot?_setSlot_of_ne hother]

/-- The variables of a machine and the syntax in its frames hold no float that JSON cannot hold. -/
def Machine.HoldsFinite (m : Machine) : Prop :=
  m.env.isFinite = true ∧ m.frames.all Frame.isFinite = true

/-- What an instance at rest is about to do can always be written. -/
theorem Instance.AtRest.isFinite {d : Declarations} {i : Instance} (h : i.AtRest d)
    (hfinite : ∀ m, i.machine = some m → m.HoldsFinite) : i.isFinite = true := by
  unfold Instance.isFinite
  cases hm : i.machine with
  | none => rfl
  | some m =>
    obtain ⟨henv, hframes⟩ := hfinite m hm
    have hcontrol : m.control.isFinite = true := by
      rcases h.control m hm with hc | hc <;> rw [hc] <;> rfl
    simp [Machine.isFinite, henv, hframes, hcontrol]

namespace Interpreter

/-- Each entry of a checkpoint is read as the instance of its name. -/
theorem AtRest.decode_checkpoint {ids : Identity.Format} {i : Interpreter} (h : i.AtRest)
    (hfinite : ∀ name inst m, i.instance? name = some inst → inst.machine = some m →
      m.HoldsFinite)
    {entry : String × Json} (hentry : entry ∈ i.checkpoint ids) :
    ∃ inst, Instance.decode ids (.value entry.2) entry.2 = some inst ∧
      inst.AtRest i.context.decls ∧ i.world.table.slot? entry.1 = some (.parked inst) := by
  obtain ⟨⟨name, inst⟩, hinst, rfl⟩ := List.mem_map.1 hentry
  have hslot : i.world.table.slot? name = some (.parked inst) :=
    Assoc.get?_of_mem i.world.table.sorted.nodup_names (Table.mem_instances.1 hinst)
  have hatRest := h.orderly name inst hslot
  have hisFinite : inst.isFinite = true :=
    hatRest.isFinite fun m hm => hfinite name inst m (Table.get?_eq_some_iff.2 hslot) hm
  exact ⟨inst, (Instance.carries ids hisFinite).value, hatRest, hslot⟩

theorem map_fst_checkpoint (ids : Identity.Format) (i : Interpreter) :
    (i.checkpoint ids).map Prod.fst = i.world.table.instances.names := by
  simp only [checkpoint, Assoc.names, List.map_map]
  rfl

/-- What is at rest has all its slots in its checkpoint. -/
theorem AtRest.mem_checkpoint {ids : Identity.Format} {i : Interpreter} (h : i.AtRest)
    {name : String} {s : Slot} (hs : i.world.table.slot? name = some s) :
    name ∈ (i.checkpoint ids).map Prod.fst := by
  rw [map_fst_checkpoint]
  cases s with
  | running c => exact absurd hs (h.parked name c)
  | parked inst => exact List.mem_map_of_mem (Table.mem_instances.2 (Assoc.mem_of_get? hs))

/-- An interpreter that takes a checkpoint back gets the slots of the one that wrote it. -/
theorem AtRest.restoreAll {ids : Identity.Format} {i : Interpreter} (h : i.AtRest)
    (hfinite : ∀ name inst m, i.instance? name = some inst → inst.machine = some m →
      m.HoldsFinite)
    {saved : List (String × Json)} (hsaved : saved.Perm (i.checkpoint ids)) (cx : Context)
    (hcx : cx.decls = i.context.decls) :
    ∃ t, Interpreter.restoreAll ids ⟨cx, i.main, .initial⟩ saved =
        some ⟨cx, i.main, { World.initial with table := t }⟩ ∧
      ∀ name, t.slot? name = i.world.table.slot? name := by
  have hnames : ∀ name, name ∈ saved.map Prod.fst ↔ name ∈ (i.checkpoint ids).map Prod.fst :=
    fun name => (hsaved.map Prod.fst).mem_iff
  have hnodup : (saved.map Prod.fst).Nodup := by
    rw [(hsaved.map Prod.fst).nodup_iff, map_fst_checkpoint]
    exact (Table.sorted_instances i.world.table).nodup_names
  obtain ⟨t, ht, hslots⟩ := restoreAll_ok ids cx i.main
    (fun entry hentry => hcx ▸ h.decode_checkpoint hfinite (hsaved.mem_iff.1 hentry)) hnodup
    .initial fun _ _ => rfl
  refine ⟨t, ht, fun name => ?_⟩
  rw [hslots]
  cases hs : i.world.table.slot? name with
  | none => exact ite_id _
  | some s => rw [if_pos ((hnames name).2 (h.mem_checkpoint hs))]

/-- **A checkpoint is all that a restart needs.** The instances of a reachable interpreter, whose
floats are finite, are written down, read again and restored in any order by a new interpreter of
the same program, which has identities of its own to give out. All restores succeed, the instances
are the same and at the same stage of life, and whatever a host does from then on, the two show the
same. -/
theorem observe_restored {p : Program} {i : Interpreter} (hreach : Reachable p i)
    (hsink : i.context.capacity = none)
    (hfinite : ∀ name inst m, i.instance? name = some inst → inst.machine = some m →
      m.HoldsFinite)
    (ids : Identity.Format) {saved : List (String × Json)} (hsaved : saved.Perm (i.checkpoint ids))
    (identities : Nat → Identity) :
    ∃ i₀ j, Interpreter.build p i.context.settings none identities = .ok i₀ ∧
      i₀.restoreAll ids saved = some j ∧ (∀ name, j.instance? name = i.instance? name) ∧
      (∀ name, j.life? name = i.life? name) ∧
      ∀ ops, i.observe ops = (j.observe ops).map (Observation.shift i.world.events.size) := by
  obtain ⟨hdecls, hmain⟩ := hreach.program
  obtain ⟨t, ht, hslots⟩ :=
    hreach.atRest.restoreAll hfinite hsaved { i.context with identities } rfl
  have halike : i.world.Alike i.world { World.initial with table := t } :=
    ⟨fun name => hslots name ▸ .refl _, hreach.atRest.depth, by simp [World.initial],
      by simp [World.initial]⟩
  refine ⟨⟨{ i.context with identities }, i.main, .initial⟩, _, ?_, ht, fun name => ?_,
    fun name => (halike.life? name).symm, fun ops => observe_alike hsink identities ops halike⟩
  · rw [build_ok_iff, ← hsink, ← hmain]
    exact ⟨i.context.decls, hdecls, rfl⟩
  · simp only [instance?, Table.get?, hslots]

/-- The main body leaves an instance that stopped at a yield, with a float in its variable. -/
theorem observe_restored_suspended :
    let c : Coroutine :=
      { name := "c"
        body := [.varDecl "x" .float (some (.lit (.float 0.5))) none, .yield,
          .expr (.call "print" [.var "x"])]
        doc := some ["@process job"] }
    let p : Program := ⟨[], [c], [.create "i" "c", .resume "i"]⟩
    let i := (perform ⟨⟨⟨[], [c]⟩, .default, none, default⟩, p.main, .initial⟩ 20 .runMain).2
    (i.life? "i" = some .suspended ∧ i.world.events.size = 2) ∧
      ∃ i₀ j, Interpreter.build p i.context.settings none (fun n => ⟨n⟩) = .ok i₀ ∧
        i₀.restoreAll .hyphenated (i.checkpoint .hyphenated) = some j ∧
        (∀ name, j.instance? name = i.instance? name) ∧ (∀ name, j.life? name = i.life? name) ∧
        ∀ ops, i.observe ops = (j.observe ops).map (Observation.shift i.world.events.size) := by
  intro c p i
  have hbuild : Interpreter.build p .default none default =
      .ok ⟨⟨⟨[], [c]⟩, .default, none, default⟩, p.main, .initial⟩ :=
    build_ok_iff.2 ⟨⟨[], [c]⟩, rfl, rfl⟩
  have hreach : Reachable p i := .perform (Reachable.build hbuild) (by simp) (by decide +kernel)
  have hinstances : i.world.table.instances.all (fun entry => entry.2.isFinite) = true := by
    decide +kernel
  have hsink : i.context.capacity = none := by rw [context_perform]
  refine ⟨⟨by decide +kernel, by decide +kernel⟩, observe_restored hreach hsink ?_ .hyphenated
    (.refl _) _⟩
  intro name inst m hinst hm
  have hmem := Assoc.mem_of_get? (Table.get?_eq_some_iff.1 hinst)
  have hfinite := List.all_eq_true.1 hinstances _ (Table.mem_instances.2 hmem)
  simp only [Instance.isFinite, hm, Option.all_some, Machine.isFinite, Bool.and_eq_true] at hfinite
  exact ⟨hfinite.1.2, hfinite.1.1⟩

end Interpreter

end CoLang
