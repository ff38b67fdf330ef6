import CoLang.Proofs.Failures
import CoLang.Proofs.Notes
/-!
# The trace as a chronicle

Where a trace is kept it tells of every instance of a marked coroutine how it came to be and how
often it was resumed: the last create of its name is of its coroutine, and the events of its name
since then are its resumes, as many as it counts (`Interpreter.trace_agrees`).

The events are recorded apart from the table, a resume before its body runs and the instance counts
it only afterwards. So while the resume is in flight the trace is one ahead of the count
(`Chronicle`). That a resume which is refused leaves no event hangs on no instance being hollow.
-/

namespace CoLang

/-! ## What the trace tells of a name -/

/-- The last create of a name is of this coroutine, and the events of the name since then are so
many resumes of it. -/
def Told (events : Array Event) (name coroutine : String) (n : Nat) : Prop :=
  ∃ (before : List Event) (e : Event) (after : List Event), events.toList = before ++ e :: after ∧
    e.action = .create ∧ e.instanceName = some name ∧ e.name = coroutine ∧
    (∀ e' ∈ after, e'.instanceName = some name → e'.action = .resume ∧ e'.name = coroutine) ∧
    after.countP (fun e' => e'.action = .resume && e'.instanceName = some name) = n

/-- The events are numbered from zero. -/
def Numbered (events : Array Event) : Prop :=
  ∀ (k : Nat) (e : Event), events[k]? = some e → e.seq = k

section Told

variable {events : Array Event} {name coroutine : String} {n : Nat} {e : Event}

theorem told_create (events : Array Event) (haction : e.action = .create)
    (hinstance : e.instanceName = some name) : Told (events.push e) name e.name 0 :=
  ⟨events.toList, e, [], Array.toList_push, haction, hinstance, rfl, by simp, by simp⟩

/-- Events of other names do not matter. -/
theorem Told.other (h : Told events name coroutine n) (he : e.instanceName ≠ some name) :
    Told (events.push e) name coroutine n := by
  obtain ⟨before, e₀, after, hevents, haction, hinstance, hname, hafter, hcount⟩ := h
  refine ⟨before, e₀, after ++ [e], by simp [hevents], haction, hinstance, hname, ?_, ?_⟩
  · intro e' he' hname'
    rcases List.mem_append.1 he' with he' | he'
    · exact hafter e' he' hname'
    · rw [List.mem_singleton.1 he'] at hname'
      exact absurd hname' he
  · simp [List.countP_append, hcount, he]

theorem Told.resume (h : Told events name coroutine n) (haction : e.action = .resume)
    (hinstance : e.instanceName = some name) (hname : e.name = coroutine) :
    Told (events.push e) name coroutine (n + 1) := by
  obtain ⟨before, e₀, after, hevents, haction₀, hinstance₀, hname₀, hafter, hcount⟩ := h
  refine ⟨before, e₀, after ++ [e], by simp [hevents], haction₀, hinstance₀, hname₀, ?_, ?_⟩
  · intro e' he' hname'
    rcases List.mem_append.1 he' with he' | he'
    · exact hafter e' he' hname'
    · rw [List.mem_singleton.1 he']
      exact ⟨haction, hname⟩
  · simp [List.countP_append, hcount, haction, hinstance]

theorem Numbered.push (h : Numbered events) (he : e.seq = events.size) :
    Numbered (events.push e) := by
  intro k e' he'
  rw [Array.getElem?_push] at he'
  split at he'
  case isTrue hk =>
    cases he'
    rw [he, hk]
  case isFalse => exact h k e' he'

end Told

/-! ## Events -/

/-- Whether a coroutine is marked as a step of the process. -/
def Declarations.isProcess (d : Declarations) (coroutine : String) : Bool :=
  ((d.coroutine? coroutine).bind (·.doc)).any Doc.isProcess

theorem Numbered.record {cx : Context} {w : World} {action : Action} {declared : String}
    {doc : Option Doc} {instanceName : Option String} (h : Numbered w.events) :
    Numbered (w.record cx action declared doc instanceName).events := by
  unfold World.record
  split
  · split
    · exact h.push rfl
    · exact h
  · exact h

theorem Numbered.beginResume {cx : Context} {w : World} {name : String} {i : Instance}
    (h : Numbered w.events) : Numbered (World.beginResume cx w name i).events := by
  unfold World.beginResume
  split
  · exact h.record
  · exact h

/-- **Every step leaves the events numbered**, whether or not they are recorded. -/
theorem Numbered.shift {cx : Context} {given : Instance → Prop} {σ σ' : List Role} {w w' : World}
    (h : Numbered w.events) (hs : Shift cx given σ w σ' w') : Numbered w'.events := by
  cases hs with
  | @effect _ _ _ e he =>
    cases e with
    | print line =>
      obtain ⟨-, rfl⟩ := World.print_ok he
      exact h
    | declare name doc =>
      cases he
      exact h.record
    | create name coroutine =>
      obtain ⟨c, t, -, -, rfl⟩ := World.create_ok he
      exact Numbered.record h
  | restores hi hw =>
    obtain ⟨-, -, t, -, rfl⟩ := World.restore_ok hw
    exact h
  | calls hw =>
    obtain ⟨-, rfl⟩ := Function.enter_ok hw
    exact Numbered.record h
  | resumes hout hbody => exact Numbered.beginResume h
  | refuses hout hbody => exact Numbered.beginResume h
  | @closes _ _ role x => cases role <;> exact h
  | _ => exact h

section Events

variable {cx : Context} (htrace : cx.settings.traceProcess = true) {w : World} {action : Action}
  {declared : String} {doc : Option Doc} {instanceName : Option String} {name coroutine : String}
  {n : Nat}

include htrace

/-- An event is recorded of a marked declaration and of no other. -/
theorem World.events_record (w : World) (action : Action) (declared : String) (doc : Option Doc)
    (instanceName : Option String) :
    doc.any Doc.isProcess = false ∧
        (w.record cx action declared doc instanceName).events = w.events ∨
      doc.any Doc.isProcess = true ∧ ∃ note,
        (w.record cx action declared doc instanceName).events =
          w.events.push ⟨w.events.size, action, declared, note, instanceName⟩ := by
  unfold World.record
  cases doc with
  | none => exact .inl ⟨rfl, rfl⟩
  | some doc =>
    have hmarked := Doc.isSome_processNote? doc
    simp only [Option.any_some, Option.bind_some, ← hmarked, htrace, if_true]
    cases doc.processNote? with
    | none => exact .inl ⟨rfl, rfl⟩
    | some note => exact .inr ⟨rfl, note, rfl⟩

theorem Told.record_of_ne (h : Told w.events name coroutine n) (hne : instanceName ≠ some name) :
    Told (w.record cx action declared doc instanceName).events name coroutine n := by
  rcases World.events_record htrace w action declared doc instanceName with
    ⟨-, hevents⟩ | ⟨-, note, hevents⟩
  · rw [hevents]
    exact h
  · rw [hevents]
    exact h.other hne

theorem told_record_create (w : World) (name : String) (hdoc : doc.any Doc.isProcess = true) :
    Told (w.record cx .create declared doc (some name)).events name declared 0 := by
  rcases World.events_record htrace w .create declared doc (some name) with
    ⟨hdoc', -⟩ | ⟨-, note, hevents⟩
  · rw [hdoc] at hdoc'
    cases hdoc'
  · rw [hevents]
    exact told_create w.events rfl rfl

theorem Told.record_resume (h : Told w.events name declared n)
    (hdoc : doc.any Doc.isProcess = true) :
    Told (w.record cx .resume declared doc (some name)).events name declared (n + 1) := by
  rcases World.events_record htrace w .resume declared doc (some name) with
    ⟨hdoc', -⟩ | ⟨-, note, hevents⟩
  · rw [hdoc] at hdoc'
    cases hdoc'
  · rw [hevents]
    exact h.resume rfl rfl rfl

end Events

/-! ## Trace and table, step by step -/

/-- The trace tells of the instance, if its coroutine is marked, as many resumes as it counts itself
and those that it has yet to count. -/
def Counts (cx : Context) (events : Array Event) (name : String) (i : Instance)
    (pending : UInt64) : Prop :=
  cx.decls.isProcess i.coroutine = true →
    ∃ n, Told events name i.coroutine n ∧ i.resumes + pending = .ofNat n

/-- Trace and table agree. Of an instance that is being resumed the trace tells one resume more. -/
structure Chronicle (cx : Context) (σ : List Role) (w : World) : Prop where
  numbered : Numbered w.events
  parked : ∀ name i, w.table.slot? name = some (.parked i) →
    i.isHollow = false ∧ Counts cx w.events name i 0
  resumed : ∀ name i, .resume name i ∈ σ → Counts cx w.events name i 1

/-- An event that is of an instance is of a create that was accepted or of a resume that has begun.
-/
def Accepted (σ : List Role) (w : World) (σ' : List Role) (w' : World) (e : Event) : Prop :=
  ∀ name, e.instanceName = some name →
    (e.action = .create ∧ ∃ id c, c.name = e.name ∧
      w.table.insert name (.create id c) = (.ok (), w'.table)) ∨
    (e.action = .resume ∧ ∃ i, i.coroutine = e.name ∧ σ' = .resume name i :: σ)

theorem Counts.record_of_ne {cx : Context} (htrace : cx.settings.traceProcess = true) {w : World}
    {name declared : String} {i : Instance} {pending : UInt64} {action : Action} {doc : Option Doc}
    {instanceName : Option String} (h : Counts cx w.events name i pending)
    (hne : instanceName ≠ some name) :
    Counts cx (w.record cx action declared doc instanceName).events name i pending := by
  intro hmarked
  obtain ⟨n, htold, hcount⟩ := h hmarked
  exact ⟨n, htold.record_of_ne htrace hne, hcount⟩

theorem World.beginResume_of_body {cx : Context} {w : World} {name : String} {i : Instance}
    {m : Machine} (h : i.body = .ok m) :
    World.beginResume cx w name i = w.record cx .resume i.coroutine
      ((cx.decls.coroutine? i.coroutine).bind (·.doc)) (some name) := by
  simp [World.beginResume, Instance.isResumable_of_body h]

/-- A resume that is refused leaves the world as it was, unless the instance is hollow. -/
theorem World.eq_of_refused {cx : Context} {w : World} {name : String} {i : Instance} {t : Table}
    {f : Fault} (hout : w.table.checkout name = (.ok i, t)) (hbody : i.body = .error f)
    (hsound : i.isHollow = false) :
    (World.beginResume cx { w with table := t } name i).park name i = w := by
  have hresumable := Instance.not_resumable_of_body_error hbody hsound
  obtain ⟨hslot, rfl⟩ := Table.checkout_ok hout
  have hbegin : ∀ w₁, World.beginResume cx w₁ name i = w₁ := by
    intro w₁
    simp [World.beginResume, hresumable]
  rw [hbegin, World.park, Table.checkin, Table.setSlot_setSlot, Table.setSlot_of_slot? hslot]

namespace Chronicle

variable {cx : Context} {given : Instance → Prop} {σ σ' : List Role} {w w' : World}
  {name : String} {i : Instance} {t : Table}

theorem of_eq (h : Chronicle cx σ w) (htable : w'.table = w.table) (hevents : w'.events = w.events)
    (hroles : ∀ name i, .resume name i ∈ σ' → .resume name i ∈ σ) : Chronicle cx σ' w' := by
  constructor
  · rw [hevents]
    exact h.numbered
  · rw [htable, hevents]
    exact h.parked
  · rw [hevents]
    intro name i hi
    exact h.resumed name i (hroles name i hi)

/-- Events that are of no instance do not matter. -/
theorem record (h : Chronicle cx σ w) (htrace : cx.settings.traceProcess = true) (action : Action)
    (declared : String) (doc : Option Doc) :
    Chronicle cx σ (w.record cx action declared doc none) := by
  refine ⟨h.numbered.record, ?_, ?_⟩
  · rw [World.table_record]
    intro name i hi
    obtain ⟨hsound, hcounts⟩ := h.parked name i hi
    exact ⟨hsound, hcounts.record_of_ne htrace (by simp)⟩
  · intro name i hi
    exact (h.resumed name i hi).record_of_ne htrace (by simp)

theorem create (h : Chronicle cx σ w) (hw : InFlight cx σ w)
    (htrace : cx.settings.traceProcess = true) {id : Identity} {c : Coroutine} {created : Nat}
    (hc : cx.decls.coroutine? c.name = some c)
    (hins : w.table.insert name (.create id c) = (.ok (), t)) :
    Chronicle cx σ ({ w with table := t, created }.record cx .create c.name c.doc (some name)) := by
  obtain ⟨hfree, rfl⟩ := Table.insert_ok hins
  refine ⟨Numbered.record h.numbered, ?_, ?_⟩
  · intro other i hi
    rw [World.table_record] at hi
    rcases Table.parked_of_setSlot hi with ⟨rfl, hnew⟩ | ⟨hne, hold⟩
    · cases hnew
      refine ⟨Instance.isHollow_create id c, fun hmarked => ⟨0, ?_, rfl⟩⟩
      apply told_record_create htrace
      simpa [Declarations.isProcess, Instance.create, hc] using hmarked
    · obtain ⟨hsound, hcounts⟩ := h.parked other i hold
      exact ⟨hsound, Counts.record_of_ne htrace hcounts (by simpa using Ne.symm hne)⟩
  · intro other i hi
    -- The name is free, so nothing of it is in flight.
    have hne : other ≠ name := by
      rintro rfl
      exact Table.not_running_of_isFree hfree _ (hw.mark other i hi)
    exact Counts.record_of_ne htrace (h.resumed other i hi) (by simpa using hne.symm)

theorem resume (h : Chronicle cx σ w) (hw : InFlight cx σ w)
    (htrace : cx.settings.traceProcess = true) {m : Machine}
    (hout : w.table.checkout name = (.ok i, t)) (hbody : i.body = .ok m) :
    Chronicle cx (.resume name i :: σ) (World.beginResume cx { w with table := t } name i) := by
  obtain ⟨hslot, rfl⟩ := Table.checkout_ok hout
  rw [World.beginResume_of_body hbody]
  refine ⟨Numbered.record h.numbered, ?_, ?_⟩
  · intro other j hj
    rw [World.table_record] at hj
    rcases Table.parked_of_setSlot hj with ⟨-, hmark⟩ | ⟨hne, hold⟩
    · cases hmark
    · obtain ⟨hsound, hcounts⟩ := h.parked other j hold
      exact ⟨hsound, Counts.record_of_ne htrace hcounts (by simpa using Ne.symm hne)⟩
  · intro other j hmem
    rcases List.mem_cons.1 hmem with heq | hj
    · cases heq
      intro hmarked
      obtain ⟨n, htold, hcount⟩ := (h.parked name i hslot).2 hmarked
      refine ⟨n + 1, Told.record_resume htrace htold hmarked, ?_⟩
      rw [UInt64.add_zero] at hcount
      rw [hcount, UInt64.ofNat_add]
      rfl
    · -- What is in flight is out of its slot, so it is of another name.
      have hne : other ≠ name := by
        rintro rfl
        have hmark := hw.mark other j hj
        rw [hslot] at hmark
        cases hmark
      exact Counts.record_of_ne htrace (h.resumed other j hj) (by simpa using hne.symm)

theorem park (h : Chronicle cx (.resume name i :: σ) w) {j : Instance} (hj : i.Resumes j) :
    Chronicle cx σ (w.park name j) := by
  have hcoroutine : j.coroutine = i.coroutine := by cases hj <;> rfl
  have hresumes : j.resumes = i.resumes + 1 := by cases hj <;> rfl
  refine ⟨h.numbered, ?_, fun other k hk => h.resumed other k (List.mem_cons_of_mem _ hk)⟩
  intro other k hk
  rcases Table.parked_of_setSlot hk with ⟨rfl, hnew⟩ | ⟨-, hold⟩
  · cases hnew
    refine ⟨hj.not_hollow, ?_⟩
    unfold Counts
    rw [hcoroutine, hresumes, UInt64.add_zero]
    exact h.resumed other i List.mem_cons_self
  · exact h.parked other k hold

/-- **A step keeps trace and table in agreement**, as long as no instance is handed in. -/
theorem shift (h : Chronicle cx σ w) (hw : InFlight cx σ w) (hr : Ready σ)
    (htrace : cx.settings.traceProcess = true) (hgiven : ∀ i, ¬given i)
    (hs : Shift cx given σ w σ' w') : Chronicle cx σ' w' := by
  cases hs with
  | stays => exact h
  | @effect _ _ _ e he =>
    cases e with
    | print line =>
      obtain ⟨-, rfl⟩ := World.print_ok he
      exact h.of_eq rfl rfl fun _ _ => id
    | declare name doc =>
      cases he
      exact h.record htrace ..
    | create name coroutine =>
      obtain ⟨c, t, hc, ht, rfl⟩ := World.create_ok he
      rw [← Declarations.name_of_coroutine? hc] at hc
      exact h.create hw htrace hc ht
  | restores hi hw' => exact absurd hi (hgiven _)
  | main => exact h.of_eq rfl rfl fun name i hi => by simp at hi
  | @calls _ _ w₁ f hw' =>
    obtain ⟨-, rfl⟩ := Function.enter_ok hw'
    have hentered : Chronicle cx (.call f :: σ) { w with depth := w.depth + 1 } :=
      h.of_eq rfl rfl fun name i hi => by simpa using hi
    exact hentered.record htrace ..
  | resumes hout hbody => exact h.resume hw htrace hout hbody
  | @refuses _ _ name i t f hout hbody =>
    rw [World.eq_of_refused hout hbody (h.parked name i (Table.checkout_ok hout).1).1]
    exact h
  | @closes _ _ role x =>
    cases role with
    | main => exact h.of_eq rfl rfl fun name i hi => List.mem_cons_of_mem _ hi
    | call f => exact h.of_eq rfl rfl fun name i hi => List.mem_cons_of_mem _ hi
    | resume name i =>
      obtain ⟨m, hm⟩ := hr name i List.mem_cons_self
      exact h.park (Instance.resumes_settle hm)

/-- **What is refused leaves no event**: a step adds one event at most, and only of what has
happened. -/
theorem event_of_shift (h : Chronicle cx σ w) (htrace : cx.settings.traceProcess = true)
    (hs : Shift cx given σ w σ' w') :
    w'.events = w.events ∨ ∃ e, w'.events = w.events.push e ∧ Accepted σ w σ' w' e := by
  -- An event is recorded or not, and if so it has to be accounted for.
  have hrecord : ∀ {w₁ : World} {action declared doc instanceName},
      w' = w₁.record cx action declared doc instanceName → w₁.events = w.events →
      (∀ note, Accepted σ w σ' w' ⟨w₁.events.size, action, declared, note, instanceName⟩) →
      w'.events = w.events ∨ ∃ e, w'.events = w.events.push e ∧ Accepted σ w σ' w' e := by
    intro w₁ action declared doc instanceName heq hevents₁ haccepted
    rcases World.events_record htrace w₁ action declared doc instanceName with
      ⟨-, hevents⟩ | ⟨-, note, hevents⟩
    · left
      rw [heq, hevents, hevents₁]
    · right
      refine ⟨_, ?_, haccepted note⟩
      rw [heq, hevents, hevents₁]
  cases hs with
  | stays => exact .inl rfl
  | @effect _ _ _ e he =>
    cases e with
    | print line =>
      obtain ⟨-, rfl⟩ := World.print_ok he
      exact .inl rfl
    | declare name doc =>
      cases he
      exact hrecord rfl rfl fun note name hname => by cases hname
    | create name coroutine =>
      obtain ⟨c, t, hc, ht, rfl⟩ := World.create_ok he
      refine hrecord rfl rfl fun note other hother => ?_
      cases hother
      exact .inl ⟨rfl, _, c, rfl, by rw [World.table_record]; exact ht⟩
  | restores hi hw' =>
    obtain ⟨-, -, t, -, rfl⟩ := World.restore_ok hw'
    exact .inl rfl
  | main => exact .inl rfl
  | @calls _ _ w₁ f hw' =>
    obtain ⟨-, rfl⟩ := Function.enter_ok hw'
    exact hrecord rfl rfl fun note name hname => by cases hname
  | @resumes _ _ name i t m hout hbody =>
    refine hrecord (World.beginResume_of_body hbody) rfl fun note other hother => ?_
    cases hother
    exact .inr ⟨rfl, i, rfl, rfl⟩
  | @refuses _ _ name i t f hout hbody =>
    rw [World.eq_of_refused hout hbody (h.parked name i (Table.checkout_ok hout).1).1]
    exact .inl rfl
  | @closes _ _ role x => cases role <;> exact .inl rfl

end Chronicle

/-! ## Every moment of a session -/

namespace Moment

variable {cx : Context} {z z' : Moment}

/-- Trace and table agree at every later moment, unless an instance is handed in. -/
theorem chronicle_leads (hz : z.Orderly cx) (htrace : cx.settings.traceProcess = true)
    (hgiven : ∀ i, ¬z.Given i) (h : Chronicle cx z.roles z.world) (hleads : z.Leads cx z') :
    Chronicle cx z'.roles z'.world := by
  have hkept : z'.Orderly cx ∧ (∀ i, ¬z'.Given i) ∧ Chronicle cx z'.roles z'.world := by
    refine hleads.keeps (P := fun z => z.Orderly cx ∧ (∀ i, ¬z.Given i) ∧
      Chronicle cx z.roles z.world) ?_ ⟨hz, hgiven, h⟩
    rintro y y' ⟨hy, hgiven, h⟩ hnext
    refine ⟨hy.leads (.single hnext), ?_, ?_⟩
    · rintro i ⟨main, name, w, rfl⟩
      exact next_ne_begins hnext
    · exact h.shift hy.inFlight hy.ready htrace hgiven (next_shift hnext)
  exact hkept.2.2

end Moment

namespace Interpreter

variable {p : Program} {settings : Settings} {capacity : Option Nat}
  {identities : Nat → Identity} {i₀ i : Interpreter}

theorem not_given_begins {op : Operation} (hop : ∀ name inst, op ≠ .restore name inst)
    (inst : Instance) : ¬(Moment.begins i.main op i.world).Given inst := by
  rintro ⟨main, name, w, heq⟩
  cases heq
  exact hop name inst rfl

theorem Later.chronicle (hbuild : build p settings capacity identities = .ok i₀)
    (htrace : settings.traceProcess = true) (h : i₀.Later (fun _ => False) i) :
    Chronicle i.context [] i.world := by
  have hdriven : i₀.Driven p := .build hbuild
  have htraced : i₀.context.settings.traceProcess = true := by
    obtain ⟨d, -, rfl⟩ := build_ok_iff.1 hbuild
    exact htrace
  induction h with
  | refl =>
    obtain ⟨d, -, rfl⟩ := build_ok_iff.1 hbuild
    refine ⟨fun k e he => by simp [World.initial] at he, fun name inst hinst => ?_,
      fun name inst hinst => ?_⟩
    · cases hinst
    · cases hinst
  | @perform j hj fuel op hop hret ih =>
    rw [context_perform]
    refine Moment.chronicle_leads ((hdriven.later hj).orderly op) ?_ ?_ ih (leads_finished hret)
    · rw [hj.context]
      exact htraced
    · exact not_given_begins fun name inst heq => hop name inst heq

/-- **Trace and table agree.** Let a program be run with the trace kept and without instances being
handed in. Between operations the events are numbered from zero. For every instance of a marked
coroutine the trace holds a create of its name and coroutine, all events of the name since then are
resumes of the coroutine, and there are as many as the instance counts, in a word. Whatever an
operation goes on to do, an event of an instance is added only when a create has been accepted or a
resume has begun. -/
theorem trace_agrees (hbuild : build p settings capacity identities = .ok i₀)
    (htrace : settings.traceProcess = true) (h : i₀.Later (fun _ => False) i) :
    (∀ (k : Nat) (e : Event), i.world.events[k]? = some e → e.seq = k) ∧
    (∀ name inst, i.instance? name = some inst →
      i.context.decls.isProcess inst.coroutine = true →
      ∃ (before : List Event) (e : Event) (after : List Event) (n : Nat),
        i.world.events.toList = before ++ e :: after ∧
        e.action = .create ∧ e.instanceName = some name ∧ e.name = inst.coroutine ∧
        (∀ e' ∈ after, e'.instanceName = some name →
          e'.action = .resume ∧ e'.name = inst.coroutine) ∧
        after.countP (fun e' => e'.action = .resume && e'.instanceName = some name) = n ∧
        inst.resumes = .ofNat n ∧ (n < 2 ^ 64 → inst.resumes.toNat = n)) ∧
    ∀ op z z', (∀ name inst, op ≠ .restore name inst) →
      (Moment.begins i.main op i.world).Leads i.context z → z.next i.context = some z' →
      z'.world.events = z.world.events ∨
        ∃ e, z'.world.events = z.world.events.push e ∧
          Accepted z.roles z.world z'.roles z'.world e := by
  have hchronicle := h.chronicle hbuild htrace
  refine ⟨hchronicle.numbered, fun name inst hinst hmarked => ?_, fun op z z' hop hz hnext => ?_⟩
  · obtain ⟨-, hcounts⟩ := hchronicle.parked name inst (Table.get?_eq_some_iff.1 hinst)
    obtain ⟨n, ⟨before, e, after, hevents, haction, hname, hcoroutine, hafter, hn⟩, hresumes⟩ :=
      hcounts hmarked
    rw [UInt64.add_zero] at hresumes
    refine ⟨before, e, after, n, hevents, haction, hname, hcoroutine, hafter, hn, hresumes,
      fun hlt => ?_⟩
    rw [hresumes, UInt64.toNat_ofNat', Nat.mod_eq_of_lt hlt]
  · have hdriven : i.Driven p := (Driven.build hbuild).later h
    have htraced : i.context.settings.traceProcess = true := by
      rw [h.context]
      obtain ⟨d, -, rfl⟩ := build_ok_iff.1 hbuild
      exact htrace
    have hthere := Moment.chronicle_leads (hdriven.orderly op) htraced (not_given_begins hop)
      hchronicle hz
    exact hthere.event_of_shift htraced (Moment.next_shift hnext)

/-- An instance that is created again after it has completed. The last create is refused. -/
theorem trace_agrees_created_again :
    let c : Coroutine := ⟨"c", [.yield], some ["@process work"]⟩
    let p : Program := ⟨[], [c], [.create "a" "c", .resume "a", .resume "a", .create "a" "c",
      .resume "a", .create "a" "c"]⟩
    let i₀ : Interpreter := ⟨⟨⟨[], [c]⟩, .default, none, default⟩, p.main, .initial⟩
    let r := i₀.perform 20 .runMain
    r.1 = .fault (.duplicateInstance "a") ∧
      r.2.world.events.toList.map Event.action = [.create, .resume, .resume, .create, .resume] ∧
      ∃ (inst : Instance) (before : List Event) (e : Event) (after : List Event),
        r.2.instance? "a" = some inst ∧
        r.2.context.decls.isProcess inst.coroutine = true ∧
        r.2.world.events.toList = before ++ e :: after ∧ e.action = .create ∧
        inst.resumes = .ofNat (after.countP fun e' =>
          e'.action = .resume && e'.instanceName = some "a") := by
  intro c p i₀ r
  have hbuild : build p .default none default = .ok i₀ := build_ok_iff.2 ⟨_, rfl, rfl⟩
  have hreply : r.1 = .fault (.duplicateInstance "a") := by decide +kernel
  have hlater : i₀.Later (fun _ => False) r.2 := .perform .refl (by simp) (by
    show r.1 ≠ _
    rw [hreply]
    simp)
  have hinst : (r.2.instance? "a").any (fun inst =>
      r.2.context.decls.isProcess inst.coroutine) = true := by decide +kernel
  obtain ⟨inst, hinst, hmarked⟩ := (Option.any_eq_true _ _).1 hinst
  obtain ⟨before, e, after, n, hevents, haction, -, -, -, rfl, hresumes, -⟩ :=
    (trace_agrees hbuild rfl hlater).2.1 "a" inst hinst hmarked
  exact ⟨hreply, by decide +kernel, inst, before, e, after, hinst, hmarked, hevents, haction,
    hresumes⟩

end Interpreter

end CoLang
