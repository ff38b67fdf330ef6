import CoLang.Wire.Identity
import CoLang.Wire.Machine
import CoLang.Wire.Report
import CoLang.Proofs.Wire.Syntax
/-!
# Machines, instances and traces are carried by their encoding

A machine is written with its outermost frame and scope first and a frame's progress next to the
frame's own members, and all of it is read back. So an instance can be kept elsewhere and taken up
again (`Instance.carries`), with the identity it has, if the format of identities gives back what it
writes.

With the encodings of programs, this covers everything that is written as JSON and read again
(`Wire.decode_encode`).
-/

namespace CoLang

open Wire

/-! ## Finite floats -/

/-- Whether a pending return carries no float that JSON cannot hold. -/
def Control.isFinite : Control → Bool
  | .returning v => v.all Val.isFinite
  | _ => true

/-- Whether all floats in a frame's syntax are finite. -/
def FrameNode.isFinite : FrameNode → Bool
  | .block body => Stmt.areFinite body
  | .stmt s => s.isFinite

/-- Whether all floats in a frame are finite. -/
def Frame.isFinite (f : Frame) : Bool := f.node.isFinite

/-- Whether a variable holds no float that JSON cannot hold. -/
def Binding.isFinite (b : Binding) : Bool := b.value.all Val.isFinite

/-- Whether all floats in a scope are finite. -/
def Scope.isFinite (s : Scope) : Bool := s.bindings.all fun entry => entry.2.isFinite

/-- Whether all floats in an environment are finite. -/
def Env.isFinite (env : Env) : Bool := env.scopes.all Scope.isFinite

/-- Whether all floats in a machine are finite: in its variables, in the syntax it runs and in what
it is about to return. -/
def Machine.isFinite (m : Machine) : Bool :=
  m.frames.all Frame.isFinite && m.env.isFinite && m.control.isFinite

/-- Whether all floats in an instance are finite. -/
def Instance.isFinite (i : Instance) : Bool := i.machine.all Machine.isFinite

/-! ## Environments -/

theorem Val.carries? {v : Option Val} (h : v.all Val.isFinite = true) :
    Carries (fun s => Wire.optional (Val.decode s)) (Val.encode? v) v := by
  cases v with
  | none => exact .absent
  | some v =>
    have hv : v.encode ≠ .null := by cases v <;> simp [Val.encode]
    exact .present (Val.carries h) hv

theorem Binding.carries {b : Binding} (h : b.isFinite = true) :
    Carries Binding.decode b.encode b := by
  refine .record ?_ fun inside hroom => ?_
  · simp [(Ty.carries b.ty).readable, (Val.carries? h).readable]
  · simp only [Json.membersHeight_cons_le] at hroom
    simp [(Ty.carries b.ty).reads inside hroom.1, (Val.carries? h).reads inside hroom.2.1]

theorem Assoc.set_of_not_mem {α : Type} {t : Assoc α} {name : String} (h : name ∉ t.names) (a : α) :
    t.set name a = t ++ [(name, a)] := by
  induction t with
  | nil => rfl
  | cons entry rest ih =>
    obtain ⟨n, b⟩ := entry
    simp only [Assoc.names, List.map_cons, List.mem_cons, not_or] at h
    have hne : ¬n = name := fun heq => h.1 heq.symm
    simp only [Assoc.set, hne, if_false, List.cons_append]
    rw [ih h.2]

/-- The variables of a scope are read in order, and each is new. -/
theorem Scope.foldlM_decode {inside : Source} {bindings : Assoc Binding}
    (hfinite : ∀ entry ∈ bindings, entry.2.isFinite = true)
    (hroom : Json.membersHeight (bindings.map fun entry => (entry.1, entry.2.encode)) ≤ inside.room)
    {scope whole : Scope} (hwhole : whole.bindings = scope.bindings ++ bindings) :
    (bindings.map fun entry => (entry.1, entry.2.encode)).foldlM
      (fun (scope : Scope) m => (Binding.decode inside m.2).map (scope.set m.1)) scope =
        some whole := by
  induction bindings generalizing scope with
  | nil =>
    have hsame : scope = whole := by
      ext1
      rw [hwhole, List.append_nil]
    simp [hsame]
  | cons entry rest ih =>
    obtain ⟨name, b⟩ := entry
    rw [List.map_cons, Json.membersHeight_cons_le] at hroom
    have hb := (Binding.carries (hfinite _ List.mem_cons_self)).reads inside hroom.1
    have hnew : name ∉ scope.bindings.names := by
      have hnodup := whole.nodup
      rw [hwhole, Assoc.names, List.map_append, List.map_cons] at hnodup
      intro hmem
      exact (List.nodup_append.1 hnodup).2.2 name hmem name List.mem_cons_self rfl
    simp only [List.map_cons, List.foldlM_cons, hb, Option.map_some, Option.bind_eq_bind,
      Option.bind_some]
    refine ih (fun e he => hfinite e (List.mem_cons_of_mem _ he)) hroom.2 ?_
    simp only [Scope.set, Assoc.set_of_not_mem hnew]
    rw [hwhole, List.append_assoc, List.singleton_append]

theorem Scope.readable_encode {s : Scope} (h : s.isFinite = true) : s.encode.readable = true := by
  simp only [Scope.isFinite, List.all_eq_true] at h
  rw [Scope.encode, Json.readable_obj, Json.membersReadable_iff]
  intro m hm
  obtain ⟨entry, hentry, rfl⟩ := List.mem_map.1 hm
  exact (Binding.carries (h entry hentry)).readable

theorem Scope.carries {s : Scope} (h : s.isFinite = true) : Carries Scope.decode s.encode s where
  readable := Scope.readable_encode h
  reads source hs := by
    simp only [Scope.isFinite, List.all_eq_true] at h
    rw [Scope.encode, Json.height] at hs
    obtain ⟨inside, henter, hroom⟩ := Source.enter_of_lt hs
    simp only [Scope.decode, Scope.encode, henter]
    exact Scope.foldlM_decode h hroom rfl

theorem Env.carries {env : Env} (h : env.isFinite = true) : Carries Env.decode env.encode env := by
  simp only [Env.isFinite, List.all_eq_true] at h
  have hscopes :
      Carries (Wire.list Scope.decode) (.arr (env.scopes.reverse.map Scope.encode))
        env.scopes.reverse :=
    .list fun s hs => Scope.carries (h s (List.mem_reverse.1 hs))
  refine .record ?_ fun inside hroom => ?_
  · simpa [Env.encodeScopes] using hscopes.readable
  · simp only [Json.membersHeight_cons_le] at hroom
    have hreads := hscopes.reads inside hroom.1
    simp only [Env.encodeScopes]
    simp [-List.map_reverse, hreads]

/-! ## Control and frames -/

theorem Control.carries {control : Control} (h : control.isFinite = true) :
    Carries Control.decode control.encode control := by
  cases control with
  | idle => exact .bare rfl fun _ => rfl
  | breaking => exact .bare rfl fun _ => rfl
  | continuing => exact .bare rfl fun _ => rfl
  | yielding => exact .bare rfl fun _ => rfl
  | returning v =>
    have hv := Val.carries? h
    exact .pair rfl hv.readable fun s hs => by simp [hv.reads s hs]

theorem FrameNode.carries {node : FrameNode} (h : node.isFinite = true) :
    Carries FrameNode.decode node.encode node := by
  cases node with
  | block body => exact .carrying (.map (Block.carries h)) rfl
  | stmt s => exact .carrying (.map (Stmt.carries h)) rfl

/-- The members of a frame's progress name nothing that is the frame's own, and hold no others. -/
theorem FrameKind.of_mem_encodeMembers {kind : FrameKind} {m : String × Json}
    (h : m ∈ kind.encodeMembers) :
    m.1 ∉ Frame.ownNames ∧ m.2.readable = true ∧ m.2.height = 0 := by
  cases kind <;> simp only [FrameKind.encodeMembers, List.mem_cons, List.not_mem_nil, or_false] at h
  case block => rcases h with rfl | rfl | rfl <;> simp [Frame.ownNames, Json.height]
  case ifElse => rcases h with rfl | rfl | rfl <;> simp [Frame.ownNames, Json.height]
  case whileLoop => rcases h with rfl | rfl | rfl <;> simp [Frame.ownNames, Json.height]
  all_goals
    subst h
    simp [Frame.ownNames, Json.height]

theorem FrameKind.decodeMembers_encodeMembers (room : Nat) (kind : FrameKind) :
    FrameKind.decodeMembers room kind.encodeMembers = some kind := by
  cases kind with
  | block phase index =>
    cases phase <;>
      simp [FrameKind.encodeMembers, FrameKind.decodeMembers, variant, FrameKind.variants,
        Wire.choice, Assoc.get?, Wire.count]
  | ifElse phase takeThen =>
    cases phase <;>
      simp [FrameKind.encodeMembers, FrameKind.decodeMembers, variant, FrameKind.variants,
        Wire.choice, Assoc.get?, Wire.boolean]
  | whileLoop phase iteration =>
    cases phase <;>
      simp [FrameKind.encodeMembers, FrameKind.decodeMembers, variant, FrameKind.variants,
        Wire.choice, Assoc.get?, Wire.count]
  | _ => rfl

theorem Frame.carries {f : Frame} (h : f.isFinite = true) : Carries Frame.decode f.encode f := by
  have hnode := FrameNode.carries h
  -- Progress is written into the frame's own object, so each reader has to find its members there.
  have hothers : ∀ m ∈ f.kind.encodeMembers, m.1 ∉ Frame.ownNames :=
    fun m hm => (FrameKind.of_mem_encodeMembers hm).1
  have hown : ∀ m ∈ [("scope_base", Json.int f.scopeBase), ("node", f.node.encode)],
      m.1 ∈ Frame.ownNames := by simp [Frame.ownNames]
  constructor
  · rw [Frame.encode, Json.readable_obj, Json.membersReadable_iff]
    intro m hm
    rcases List.mem_append.1 hm with hm | hm
    · exact (FrameKind.of_mem_encodeMembers hm).2.1
    · simp only [List.mem_cons, List.not_mem_nil, or_false] at hm
      rcases hm with rfl | rfl
      · simp
      · exact hnode.readable
  · intro s hs
    rw [Frame.encode, Json.height] at hs
    obtain ⟨inside, henter, hroom⟩ := Source.enter_of_lt hs
    simp only [Json.membersHeight_append_le, Json.membersHeight_cons_le] at hroom
    have htakeIn : f.kind.encodeMembers.all (fun m => (inside.takeIn m.2).isSome) = true := by
      rw [List.all_eq_true]
      intro m hm
      obtain ⟨-, hreadable, hheight⟩ := FrameKind.of_mem_encodeMembers hm
      rw [Source.takeIn_of_readable hreadable (by omega)]
      rfl
    simp only [Frame.decode, Frame.encode, henter, fields_append hothers hown (by simp),
      filter_others hothers hown, htakeIn, if_true, FrameKind.decodeMembers_encodeMembers,
      Option.bind_eq_bind, Option.bind_some]
    simp [(Carries.count f.scopeBase).reads inside hroom.2.1, hnode.reads inside hroom.2.2.1]

/-! ## Machines and instances -/

theorem BodyKind.carries (kind : BodyKind) : Carries (choice BodyKind.names) (.str kind.tag) kind :=
  .choice (by cases kind <;> rfl)

theorem Machine.carries {m : Machine} (h : m.isFinite = true) :
    Carries Machine.decode m.encode m := by
  simp only [Machine.isFinite, Bool.and_eq_true, List.all_eq_true] at h
  have hframes :
      Carries (Wire.list Frame.decode) (.arr (m.frames.reverse.map Frame.encode))
        m.frames.reverse :=
    .list fun f hf => Frame.carries (h.1.1 f (List.mem_reverse.1 hf))
  refine .record ?_ fun inside hroom => ?_
  · simp [-List.map_reverse, hframes.readable, (Env.carries h.1.2).readable,
      (Control.carries h.2).readable]
  · simp only [Json.membersHeight_cons_le] at hroom
    simp [-List.map_reverse, hframes.reads inside hroom.1,
      (Env.carries h.1.2).reads inside hroom.2.1, (Control.carries h.2).reads inside hroom.2.2.1,
      (BodyKind.carries m.body).reads inside hroom.2.2.2.1]

theorem Life.carries (life : Life) : Carries (choice Life.names) (.str life.label) life :=
  .choice (by cases life <;> rfl)

theorem Machine.carries? {m : Option Machine} (h : m.all Machine.isFinite = true) :
    Carries (fun s => Wire.optional (Machine.decode s)) ((m.map Machine.encode).getD .null) m := by
  cases m with
  | none => exact .absent
  | some m => exact .present (Machine.carries h) (by simp [Machine.encode])

/-- An instance is read back, with its identity, whatever format identities are written in. -/
theorem Instance.carries (ids : Identity.Format) {i : Instance} (h : i.isFinite = true) :
    Carries (Instance.decode ids) (i.encode ids) i := by
  refine .record ?_ fun inside hroom => ?_
  · simp [(Machine.carries? h).readable]
  · simp only [Json.membersHeight_cons_le] at hroom
    simp [Wire.text, ids.read_write, (Life.carries i.life).reads inside hroom.2.2.1,
      (Machine.carries? h).reads inside hroom.2.2.2.1,
      (Carries.count i.resumes.toNat).reads inside hroom.2.2.2.2.1]

/-! ## Reports and traces -/

theorem Report.carries (r : Report) : Carries Report.decode r.encode r := by
  have hkind : Carries (choice FaultKind.names) (.str r.kind.label) r.kind :=
    .choice (by cases r.kind <;> rfl)
  refine .record (by simp) fun inside hroom => ?_
  simp only [Json.membersHeight_cons_le] at hroom
  simp [Wire.text, hkind.reads inside hroom.1]

theorem Event.carries (e : Event) : Carries Event.decode e.encode e := by
  have haction : Carries (choice Action.names) (.str e.action.label) e.action :=
    .choice (by cases e.action <;> rfl)
  obtain ⟨seq, action, name, note, instanceName⟩ := e
  cases instanceName with
  | none =>
    refine .record (by simp) fun inside hroom => ?_
    simp only [Json.membersHeight_cons_le] at hroom
    simp [Wire.text, (Carries.count seq).reads inside hroom.1, haction.reads inside hroom.2.1]
  | some instanceName =>
    refine .record (by simp) fun inside hroom => ?_
    simp only [List.cons_append, List.nil_append, Json.membersHeight_cons_le] at hroom
    simp [Wire.text, Wire.optional, (Carries.count seq).reads inside hroom.1,
      haction.reads inside hroom.2.1]

/-! ## The whole format -/

/-- **Reading undoes writing.** Everything that is written as JSON and holds only finite floats is
read back as it was, an instance also with its identity, in whatever format it is written. -/
theorem Wire.decode_encode :
    (∀ p : Program, p.isFinite = true → Program.decode (.value p.encode) p.encode = some p) ∧
    (∀ f : Function, f.isFinite = true → Function.decode (.value f.encode) f.encode = some f) ∧
    (∀ c : Coroutine, c.isFinite = true → Coroutine.decode (.value c.encode) c.encode = some c) ∧
    (∀ s : Stmt, s.isFinite = true → Stmt.decode (.value s.encode) s.encode = some s) ∧
    (∀ e : Expr, e.isFinite = true → Expr.decode (.value e.encode) e.encode = some e) ∧
    (∀ v : Val, v.isFinite = true → Val.decode (.value v.encode) v.encode = some v) ∧
    (∀ c : Control, c.isFinite = true → Control.decode (.value c.encode) c.encode = some c) ∧
    (∀ f : Frame, f.isFinite = true → Frame.decode (.value f.encode) f.encode = some f) ∧
    (∀ env : Env, env.isFinite = true → Env.decode (.value env.encode) env.encode = some env) ∧
    (∀ m : Machine, m.isFinite = true → Machine.decode (.value m.encode) m.encode = some m) ∧
    (∀ (ids : Identity.Format) (i : Instance), i.isFinite = true →
      Instance.decode ids (.value (i.encode ids)) (i.encode ids) = some i) ∧
    (∀ r : Report, Report.decode (.value r.encode) r.encode = some r) ∧
    ∀ e : Event, Event.decode (.value e.encode) e.encode = some e :=
  ⟨fun _ h => (Program.carries h).value, fun _ h => (Function.carries h).value,
    fun _ h => (Coroutine.carries h).value, fun _ h => (Stmt.carries h).value,
    fun _ h => (Expr.carries h).value, fun _ h => (Val.carries h).value,
    fun _ h => (Control.carries h).value, fun _ h => (Frame.carries h).value,
    fun _ h => (Env.carries h).value, fun _ h => (Machine.carries h).value,
    fun ids _ h => (Instance.carries ids h).value,
    fun r => (Report.carries r).value, fun e => (Event.carries e).value⟩

/-- A program whose coroutine yields in a branch, and an instance of it that stopped there, with one
variable that holds a float and one that holds nothing. Its identity is written in groups. -/
theorem Wire.decode_encode_suspended :
    let body : Block :=
      [.varDecl "x" .float (some (.lit (.float 0.5))) none,
       .ifElse (.lit (.bool true)) [.yield] (some []), .ret none]
    let p : Program := ⟨[], [⟨"c", body, some ["[PROCESS]"]⟩], [.create "i" "c", .resume "i"]⟩
    let i : Instance :=
      { id := ⟨0x0123456789abcdef0123456789abcdef⟩, coroutine := "c", life := .suspended
        resumes := 1
        machine := some
          { frames := [⟨.block .next 1, 1, .block [.yield]⟩, ⟨.block .next 2, 1, .block body⟩]
            env := ⟨[.empty,
              ⟨[("x", ⟨.float, some (.float 0.5)⟩), ("y", ⟨.int, none⟩)], by decide⟩]⟩
            control := .yielding, body := .coroutine } }
    (p.isFinite = true ∧ Program.decode (.value p.encode) p.encode = some p) ∧
      i.isFinite = true ∧
        Identity.Format.hyphenated.write i.id = "01234567-89ab-cdef-0123-456789abcdef" ∧
        Instance.decode .hyphenated (.value (i.encode .hyphenated)) (i.encode .hyphenated) =
          some i := by
  intro body p i
  have hp : p.isFinite = true := by decide
  have hi : i.isFinite = true := by decide
  obtain ⟨hprogram, -, -, -, -, -, -, -, -, -, hinstance, -, -⟩ := Wire.decode_encode
  exact ⟨⟨hp, hprogram p hp⟩, hi, by decide +kernel, hinstance .hyphenated i hi⟩

end CoLang
