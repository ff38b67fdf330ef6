import CoLang.Proofs.Bindings
import Mathlib.Data.List.Nodup
/-!
# Declarations that do not clash

A table is built of exactly those declarations that do not clash: no name is declared twice, none is
built in, and no function repeats a parameter (`Declarations.WellFormed`). The two loops that build
it check each declaration against those before it, and what has passed so far is well-formed
(`Declarations.Checks`). In a table that was built, each name stands for the one declaration that
bears it, and binding the arguments of a call never meets a parameter twice
(`Declarations.build_iff_wellFormed`).
-/

namespace CoLang

namespace Declarations

/-- The declared names. Functions and coroutines share one space. -/
def names (d : Declarations) : List String :=
  d.functions.map Function.name ++ d.coroutines.map Coroutine.name

/-- The declarations do not clash with one another or with what is built in. -/
structure WellFormed (d : Declarations) : Prop where
  distinct : d.names.Nodup
  notBuiltin : "print" ∉ d.names
  params : ∀ f ∈ d.functions, (f.params.map Param.name).Nodup

/-- The table with one more function. -/
def withFunction (d : Declarations) (f : Function) : Declarations :=
  { d with functions := d.functions ++ [f] }

/-- The table with one more coroutine. -/
def withCoroutine (d : Declarations) (c : Coroutine) : Declarations :=
  { d with coroutines := d.coroutines ++ [c] }

variable {d d' : Declarations} {name : String}

theorem wellFormed_empty : empty.WellFormed :=
  ⟨List.nodup_nil, List.not_mem_nil, List.forall_mem_nil _⟩

theorem wellFormed_withFunction_iff {f : Function} :
    (d.withFunction f).WellFormed ↔
      d.WellFormed ∧ (f.name ≠ "print" ∧ f.name ∉ d.names) ∧
        (f.params.map Param.name).Nodup := by
  have hnames : (d.withFunction f).names =
      d.functions.map Function.name ++ f.name :: d.coroutines.map Coroutine.name := by
    simp [names, withFunction]
  constructor
  · rintro ⟨hdistinct, hbuiltin, hparams⟩
    rw [hnames, List.nodup_middle, List.nodup_cons] at hdistinct
    rw [hnames, List.mem_append, List.mem_cons] at hbuiltin
    push Not at hbuiltin
    obtain ⟨hparams, hf⟩ := List.forall_mem_append.1 hparams
    rw [List.forall_mem_singleton] at hf
    refine ⟨⟨hdistinct.2, ?_, hparams⟩, ⟨hbuiltin.2.1.symm, hdistinct.1⟩, hf⟩
    rw [names, List.mem_append]
    exact not_or.2 ⟨hbuiltin.1, hbuiltin.2.2⟩
  · rintro ⟨⟨hdistinct, hbuiltin, hparams⟩, ⟨hprint, hfree⟩, hf⟩
    rw [names, List.mem_append, not_or] at hbuiltin
    refine ⟨?_, ?_, List.forall_mem_append.2 ⟨hparams, List.forall_mem_singleton.2 hf⟩⟩
    · rw [hnames, List.nodup_middle, List.nodup_cons]
      exact ⟨hfree, hdistinct⟩
    · rw [hnames, List.mem_append, List.mem_cons]
      push Not
      exact ⟨hbuiltin.1, hprint.symm, hbuiltin.2⟩

theorem wellFormed_withCoroutine_iff {c : Coroutine} :
    (d.withCoroutine c).WellFormed ↔ d.WellFormed ∧ c.name ≠ "print" ∧ c.name ∉ d.names := by
  have hnames : (d.withCoroutine c).names = d.names ++ [c.name] := by
    simp [names, withCoroutine]
  constructor
  · rintro ⟨hdistinct, hbuiltin, hparams⟩
    rw [hnames, List.nodup_middle, List.append_nil, List.nodup_cons] at hdistinct
    rw [hnames, List.mem_append, List.mem_singleton, not_or] at hbuiltin
    exact ⟨⟨hdistinct.2, hbuiltin.1, hparams⟩, fun h => hbuiltin.2 h.symm, hdistinct.1⟩
  · rintro ⟨⟨hdistinct, hbuiltin, hparams⟩, hprint, hfree⟩
    refine ⟨?_, ?_, hparams⟩
    · rw [hnames, List.nodup_middle, List.append_nil, List.nodup_cons]
      exact ⟨hfree, hdistinct⟩
    · rw [hnames, List.mem_append, List.mem_singleton, not_or]
      exact ⟨hbuiltin, hprint.symm⟩

/-! ## The checks of the loops -/

/-- A check passes exactly if something holds, and otherwise it reports a name that is taken. -/
def Checks {α : Type} (P : Prop) : Except Fault α → Prop
  | .ok _ => P
  | .error f => f.kind = .duplicateName ∧ ¬ P

theorem Checks.bind {α β : Type} {P Q : Prop} {x : Except Fault α} {k : α → Except Fault β}
    (h : Checks P x) (hk : ∀ a, Checks Q (k a)) : Checks (P ∧ Q) (x >>= k) := by
  cases x with
  | error f => exact ⟨h.1, fun hpq => h.2 hpq.1⟩
  | ok a =>
    show Checks (P ∧ Q) (k a)
    have hka := hk a
    cases hx : k a with
    | ok b =>
      rw [hx] at hka
      exact ⟨h, hka⟩
    | error f =>
      rw [hx] at hka
      exact ⟨hka.1, fun hpq => hka.2 hpq.2⟩

theorem Checks.congr {α : Type} {P Q : Prop} {x : Except Fault α} (h : Checks P x)
    (hpq : P ↔ Q) : Checks Q x := by
  rwa [propext hpq] at h

theorem isSome_ofName? : (Builtin.ofName? name).isSome = true ↔ name = "print" := by
  unfold Builtin.ofName?
  split <;> simp_all

theorem isSome_function? :
    (d.function? name).isSome = true ↔ name ∈ d.functions.map Function.name := by
  rw [function?, List.find?_isSome]
  simp

theorem isSome_coroutine? :
    (d.coroutine? name).isSome = true ↔ name ∈ d.coroutines.map Coroutine.name := by
  rw [coroutine?, List.find?_isSome]
  simp

theorem checks_checkFree : Checks (name ≠ "print" ∧ name ∉ d.names) (d.checkFree name) := by
  unfold checkFree
  split
  case isTrue hbuiltin => exact ⟨rfl, fun h => h.1 (isSome_ofName?.1 hbuiltin)⟩
  case isFalse hbuiltin =>
    split
    case isTrue htaken =>
      rw [Bool.or_eq_true, isSome_function?, isSome_coroutine?, ← List.mem_append] at htaken
      exact ⟨rfl, fun h => h.2 htaken⟩
    case isFalse htaken =>
      rw [Bool.or_eq_true, isSome_function?, isSome_coroutine?, ← List.mem_append] at htaken
      exact ⟨fun h => hbuiltin (isSome_ofName?.2 h), htaken⟩

/-- No parameter repeats one before it or one that was seen earlier. -/
theorem repeatedParam?_eq_none_iff {params : List Param} {seen : List String} :
    repeatedParam? params seen = none ↔
      (params.map Param.name).Nodup ∧ ∀ p ∈ params, p.name ∉ seen := by
  induction params generalizing seen with
  | nil => simp [repeatedParam?]
  | cons p params ih =>
    rw [repeatedParam?, List.map_cons, List.nodup_cons, List.forall_mem_cons]
    by_cases hp : p.name ∈ seen
    · simp [hp]
    · rw [if_neg hp, ih]
      simp only [List.mem_cons, not_or, List.mem_map, not_exists, not_and, forall_and]
      tauto

theorem checks_addFunction (h : d.WellFormed) (f : Function) :
    Checks (d.withFunction f).WellFormed (d.addFunction f) := by
  have hiff : repeatedParam? f.params [] = none ↔ (f.params.map Param.name).Nodup := by
    simp [repeatedParam?_eq_none_iff]
  have hadded : Checks ((f.name ≠ "print" ∧ f.name ∉ d.names) ∧ (f.params.map Param.name).Nodup)
      (d.addFunction f) := by
    refine checks_checkFree.bind fun _ => ?_
    cases hrepeated : repeatedParam? f.params [] with
    | none => exact hiff.1 hrepeated
    | some p =>
      refine ⟨rfl, fun hnodup => ?_⟩
      rw [hiff.2 hnodup] at hrepeated
      cases hrepeated
  refine hadded.congr ?_
  rw [wellFormed_withFunction_iff, and_iff_right h]

theorem checks_addCoroutine (h : d.WellFormed) (c : Coroutine) :
    Checks (d.withCoroutine c).WellFormed (d.addCoroutine c) := by
  have hadded : ∀ u : Unit, Checks True (.ok (d.withCoroutine c) : Except Fault Declarations) :=
    fun _ => trivial
  refine (checks_checkFree.bind hadded).congr ?_
  rw [wellFormed_withCoroutine_iff, and_iff_right h, and_true]

/-- Where each step keeps what was there, all of them together do. -/
theorem WellFormed.of_foldl {α : Type} {add : Declarations → α → Declarations}
    (hmono : ∀ {d x}, (add d x).WellFormed → d.WellFormed) {xs : List α}
    (h : (xs.foldl add d).WellFormed) : d.WellFormed := by
  induction xs generalizing d with
  | nil => exact h
  | cons x xs ih => exact hmono (ih h)

/-- **A loop that checks each declaration against those before it checks them all.** The induction
is on the declarations to come; those that were added are well-formed. -/
theorem Checks.foldlM {α : Type} (step : Declarations → α → Except Fault Declarations)
    (add : Declarations → α → Declarations)
    (hadd : ∀ {d d' x}, step d x = .ok d' → d' = add d x)
    (hstep : ∀ {d}, d.WellFormed → ∀ x, Checks (add d x).WellFormed (step d x))
    (hmono : ∀ {d x}, (add d x).WellFormed → d.WellFormed) (h : d.WellFormed) (xs : List α) :
    Checks (xs.foldl add d).WellFormed (xs.foldlM step d) := by
  induction xs generalizing d with
  | nil => exact h
  | cons x xs ih =>
    have hx := hstep h x
    rw [List.foldlM_cons, List.foldl_cons]
    cases hresult : step d x with
    | error f =>
      rw [hresult] at hx
      exact ⟨hx.1, fun hall => hx.2 (WellFormed.of_foldl hmono hall)⟩
    | ok d' =>
      rw [hresult] at hx
      obtain rfl := hadd hresult
      exact ih hx

theorem foldl_withFunction (d : Declarations) (functions : List Function) :
    functions.foldl withFunction d = { d with functions := d.functions ++ functions } := by
  induction functions generalizing d with
  | nil => simp
  | cons f functions ih => simp [ih, withFunction]

theorem foldl_withCoroutine (d : Declarations) (coroutines : List Coroutine) :
    coroutines.foldl withCoroutine d = { d with coroutines := d.coroutines ++ coroutines } := by
  induction coroutines generalizing d with
  | nil => simp
  | cons c coroutines ih => simp [ih, withCoroutine]

/-- **A table is built exactly of declarations that do not clash.** -/
theorem checks_build (functions : List Function) (coroutines : List Coroutine) :
    Checks (WellFormed ⟨functions, coroutines⟩) (build functions coroutines) := by
  have hfunctions : Checks (WellFormed ⟨functions, []⟩) (functions.foldlM addFunction empty) := by
    have hchecks := Checks.foldlM addFunction withFunction eq_of_addFunction checks_addFunction
      (fun h => (wellFormed_withFunction_iff.1 h).1) wellFormed_empty functions
    rwa [foldl_withFunction] at hchecks
  have hall : coroutines.foldl withCoroutine ⟨functions, []⟩ = ⟨functions, coroutines⟩ :=
    foldl_withCoroutine _ _
  unfold build
  cases hf : functions.foldlM addFunction empty with
  | error f =>
    rw [hf] at hfunctions
    refine ⟨hfunctions.1, fun h => hfunctions.2 ?_⟩
    rw [← hall] at h
    exact WellFormed.of_foldl (fun h => (wellFormed_withCoroutine_iff.1 h).1) h
  | ok d =>
    rw [hf] at hfunctions
    -- So far this is the table of the functions alone.
    have hbuild : build functions [] = .ok d := by
      unfold build
      rw [hf]
      rfl
    obtain rfl := eq_of_build hbuild
    have hcoroutines := Checks.foldlM addCoroutine withCoroutine eq_of_addCoroutine
      checks_addCoroutine (fun h => (wellFormed_withCoroutine_iff.1 h).1) hfunctions coroutines
    rwa [hall] at hcoroutines

/-! ## What the names stand for -/

/-- Among things with distinct names, a search by name finds the one of that name. -/
theorem find?_eq_some_iff {α : Type} {nameOf : α → String} {xs : List α}
    (h : (xs.map nameOf).Nodup) {x : α} :
    (xs.find? fun y => nameOf y == name) = some x ↔ x ∈ xs ∧ nameOf x = name := by
  constructor
  · intro hx
    exact ⟨List.mem_of_find?_eq_some hx, by simpa using List.find?_some hx⟩
  · rintro ⟨hx, rfl⟩
    have hsome : (xs.find? fun y => nameOf y == nameOf x).isSome = true := by
      rw [List.find?_isSome]
      exact ⟨x, hx, beq_self_eq_true _⟩
    obtain ⟨y, hy⟩ := Option.isSome_iff_exists.1 hsome
    have hsame : nameOf y = nameOf x := by simpa using List.find?_some hy
    rw [hy, List.inj_on_of_nodup_map h (List.mem_of_find?_eq_some hy) hx hsame]

theorem WellFormed.function?_eq_some_iff (h : d.WellFormed) {f : Function} :
    d.function? name = some f ↔ f ∈ d.functions ∧ f.name = name :=
  find?_eq_some_iff (List.nodup_append.1 h.distinct).1

theorem WellFormed.coroutine?_eq_some_iff (h : d.WellFormed) {c : Coroutine} :
    d.coroutine? name = some c ↔ c ∈ d.coroutines ∧ c.name = name :=
  find?_eq_some_iff (List.nodup_append.1 h.distinct).2.1

/-- What a call by name comes to, by what bears the name. -/
inductive Calls (d : Declarations) (name : String) : Except Fault Callee → Prop
  | builtin (hname : name = "print") : Calls d name (.ok (.builtin .print))
  | function {f : Function} (hf : f ∈ d.functions) (hname : f.name = name) :
      Calls d name (.ok (.function f))
  | coroutine {c : Coroutine} (hc : c ∈ d.coroutines) (hname : c.name = name) :
      Calls d name (.error (.calledCoroutine name))
  | nothing (hbuiltin : name ≠ "print") (hname : name ∉ d.names) :
      Calls d name (.error (.undefinedFunction name))

theorem calls_callee (d : Declarations) (name : String) : d.Calls name (d.callee name) := by
  unfold callee
  cases hb : Builtin.ofName? name with
  | some b =>
    cases b
    exact .builtin (isSome_ofName?.1 (by rw [hb]; rfl))
  | none =>
    cases hf : d.function? name with
    | some f =>
      exact .function (List.mem_of_find?_eq_some hf) (by simpa using List.find?_some hf)
    | none =>
      cases hc : d.coroutine? name with
      | some c =>
        exact .coroutine (List.mem_of_find?_eq_some hc) (by simpa using List.find?_some hc)
      | none =>
        refine .nothing (fun h => ?_) fun h => ?_
        · rw [← isSome_ofName?, hb] at h
          cases h
        · rw [names, List.mem_append, ← isSome_function?, ← isSome_coroutine?, hf, hc] at h
          rcases h with h | h <;> cases h

theorem mem_names_of_function {f : Function} (h : f ∈ d.functions) : f.name ∈ d.names :=
  List.mem_append_left _ (List.mem_map_of_mem h)

theorem mem_names_of_coroutine {c : Coroutine} (h : c ∈ d.coroutines) : c.name ∈ d.names :=
  List.mem_append_right _ (List.mem_map_of_mem h)

theorem WellFormed.ne_name (h : d.WellFormed) {f : Function} {c : Coroutine}
    (hf : f ∈ d.functions) (hc : c ∈ d.coroutines) : f.name ≠ c.name :=
  (List.nodup_append.1 h.distinct).2.2 _ (List.mem_map_of_mem hf) _ (List.mem_map_of_mem hc)

/-- In a well-formed table a name bears on one thing only, so what a call comes to is determined. -/
theorem WellFormed.calls_unique (h : d.WellFormed) {x y : Except Fault Callee}
    (hx : d.Calls name x) (hy : d.Calls name y) : x = y := by
  have hprint : ∀ {name}, name ∈ d.names → name ≠ "print" := by
    rintro _ hmem rfl
    exact h.notBuiltin hmem
  cases hx with
  | builtin hname =>
    cases hy with
    | builtin => rfl
    | function hf hname' => exact absurd (hname'.trans hname) (hprint (mem_names_of_function hf))
    | coroutine hc hname' => exact absurd (hname'.trans hname) (hprint (mem_names_of_coroutine hc))
    | nothing hbuiltin => exact absurd hname hbuiltin
  | function hf hname =>
    cases hy with
    | builtin hname' => exact absurd (hname.trans hname') (hprint (mem_names_of_function hf))
    | function hg hname' =>
      have hsame := (h.function?_eq_some_iff.2 ⟨hf, hname⟩).symm.trans
        (h.function?_eq_some_iff.2 ⟨hg, hname'⟩)
      rw [Option.some.inj hsame]
    | coroutine hc hname' => exact absurd (hname.trans hname'.symm) (h.ne_name hf hc)
    | nothing _ hfree => exact absurd (hname ▸ mem_names_of_function hf) hfree
  | coroutine hc hname =>
    cases hy with
    | builtin hname' => exact absurd (hname.trans hname') (hprint (mem_names_of_coroutine hc))
    | function hf hname' => exact absurd (hname'.trans hname.symm) (h.ne_name hf hc)
    | coroutine => rfl
    | nothing _ hfree => exact absurd (hname ▸ mem_names_of_coroutine hc) hfree
  | nothing hbuiltin hfree =>
    cases hy with
    | builtin hname => exact absurd hname hbuiltin
    | function hf hname => exact absurd (hname ▸ mem_names_of_function hf) hfree
    | coroutine hc hname => exact absurd (hname ▸ mem_names_of_coroutine hc) hfree
    | nothing => rfl

theorem WellFormed.callee_eq_iff (h : d.WellFormed) {x : Except Fault Callee} :
    d.callee name = x ↔ d.Calls name x :=
  ⟨fun hx => hx ▸ d.calls_callee name, fun hx => h.calls_unique (d.calls_callee name) hx⟩

end Declarations

/-! ## Binding arguments -/

theorem Env.define_of_new {env : Env} {scope : Scope} {outer : List Scope} {p : Param} {v : Val}
    (hscopes : env.scopes = scope :: outer) (hnew : scope.get? p.name = none)
    (hty : v.ty = p.ty) :
    env.define p.name p.ty (some v) = (.ok (), ⟨scope.set p.name ⟨p.ty, some v⟩ :: outer⟩) := by
  simp [Env.define, Env.checkType, hty, hscopes, hnew]

/-- **Binding arguments to distinct parameters** fails only where one is of another type. -/
theorem Function.bindArgs_error {f : Function} {params : List Param} {args : List Val} {env : Env}
    {scope : Scope} {outer : List Scope} (hscopes : env.scopes = scope :: outer)
    (hnodup : (params.map Param.name).Nodup) (hnew : ∀ p ∈ params, scope.get? p.name = none)
    {e : Fault} (h : f.bindArgs params args env = .error e) :
    ∃ p ∈ params, ∃ v ∈ args, v.ty ≠ p.ty ∧ e = .argumentMismatch p.name f.name p.ty v.ty := by
  induction params generalizing args env scope with
  | nil => cases h
  | cons p params ih =>
    cases args with
    | nil => cases h
    | cons v args =>
      rw [List.map_cons, List.nodup_cons] at hnodup
      rw [List.forall_mem_cons] at hnew
      rw [Function.bindArgs] at h
      by_cases hty : v.ty = p.ty
      · rw [if_pos hty, Env.define_of_new hscopes hnew.1 hty] at h
        have hnew' : ∀ q ∈ params, (scope.set p.name ⟨p.ty, some v⟩).get? q.name = none := by
          intro q hq
          have hne : q.name ≠ p.name :=
            fun heq => hnodup.1 (List.mem_map.2 ⟨q, hq, heq⟩)
          rw [Scope.get?_set_of_ne _ _ hne]
          exact hnew.2 q hq
        obtain ⟨q, hq, u, hu, hmismatch⟩ := ih rfl hnodup.2 hnew' h
        exact ⟨q, List.mem_cons_of_mem _ hq, u, List.mem_cons_of_mem _ hu, hmismatch⟩
      · rw [if_neg hty] at h
        cases h
        exact ⟨p, List.mem_cons_self, v, List.mem_cons_self, hty, rfl⟩

namespace Declarations

/-- What a table of declarations answers for every name. -/
structure Resolves (d : Declarations) (functions : List Function) (coroutines : List Coroutine) :
    Prop where
  function : ∀ name f, d.function? name = some f ↔ f ∈ functions ∧ f.name = name
  coroutine : ∀ name c, d.coroutine? name = some c ↔ c ∈ coroutines ∧ c.name = name
  builtin : ∀ name b, d.callee name = .ok (.builtin b) ↔ name = "print"
  callable : ∀ name f, d.callee name = .ok (.function f) ↔ f ∈ functions ∧ f.name = name
  typeError : ∀ name, (∃ e, d.callee name = .error e ∧ e.kind = .type) ↔
    ∃ c ∈ coroutines, c.name = name
  nameError : ∀ name, (∃ e, d.callee name = .error e ∧ e.kind = .name) ↔
    name ≠ "print" ∧ (∀ f ∈ functions, f.name ≠ name) ∧ ∀ c ∈ coroutines, c.name ≠ name

theorem WellFormed.resolves {d : Declarations} (h : d.WellFormed) :
    d.Resolves d.functions d.coroutines where
  function name f := h.function?_eq_some_iff
  coroutine name c := h.coroutine?_eq_some_iff
  builtin name b := by
    rw [h.callee_eq_iff]
    constructor
    · rintro ⟨hname⟩
      exact hname
    · intro hname
      cases b
      exact .builtin hname
  callable name f := by
    rw [h.callee_eq_iff]
    constructor
    · intro hcalls
      cases hcalls with
      | function hf hname => exact ⟨hf, hname⟩
    · exact fun ⟨hf, hname⟩ => .function hf hname
  typeError name := by
    constructor
    · rintro ⟨e, he, hkind⟩
      rw [h.callee_eq_iff] at he
      cases he with
      | coroutine hc hname => exact ⟨_, hc, hname⟩
      | nothing => cases hkind
    · rintro ⟨c, hc, hname⟩
      exact ⟨_, h.callee_eq_iff.2 (.coroutine hc hname), rfl⟩
  nameError name := by
    have hfree : name ∉ d.names ↔
        (∀ f ∈ d.functions, f.name ≠ name) ∧ ∀ c ∈ d.coroutines, c.name ≠ name := by
      simp [names]
    rw [← hfree]
    constructor
    · rintro ⟨e, he, hkind⟩
      rw [h.callee_eq_iff] at he
      cases he with
      | coroutine hc hname => cases hkind
      | nothing hbuiltin hname => exact ⟨hbuiltin, hname⟩
    · rintro ⟨hbuiltin, hname⟩
      exact ⟨_, h.callee_eq_iff.2 (.nothing hbuiltin hname), rfl⟩

/-- **Tables of declarations.** A table is built if and only if the declarations do not clash, and
otherwise a name is reported as taken. Its answers are then those of the declarations, and no call
of one of its functions meets a parameter twice. -/
theorem build_iff_wellFormed (functions : List Function) (coroutines : List Coroutine) :
    ((∃ d, build functions coroutines = .ok d) ↔ WellFormed ⟨functions, coroutines⟩) ∧
    (¬ WellFormed ⟨functions, coroutines⟩ →
      ∃ f, build functions coroutines = .error f ∧ f.kind = .duplicateName) ∧
    ∀ d, build functions coroutines = .ok d →
      d.Resolves functions coroutines ∧
      ∀ name f, d.function? name = some f ∨ d.callee name = .ok (.function f) →
        ∀ args e, f.bindArgs f.params args .empty = .error e ∨ f.callEnv args = .error e →
          e.kind ≠ .duplicateName := by
  have hchecks := checks_build functions coroutines
  cases hbuild : build functions coroutines with
  | error f =>
    rw [hbuild] at hchecks
    refine ⟨⟨fun ⟨d, hd⟩ => ?_, fun h => absurd h hchecks.2⟩, fun _ => ⟨f, rfl, hchecks.1⟩,
      fun d hd => ?_⟩
    · cases hd
    · cases hd
  | ok d =>
    rw [hbuild] at hchecks
    refine ⟨⟨fun _ => hchecks, fun _ => ⟨d, rfl⟩⟩, fun h => absurd hchecks h, fun d' hd' => ?_⟩
    cases hd'
    obtain rfl := eq_of_build hbuild
    have hresolves := hchecks.resolves
    refine ⟨hresolves, fun name f hf args e he => ?_⟩
    have hmem : f ∈ functions := by
      rcases hf with hf | hf
      · exact ((hresolves.function name f).1 hf).1
      · exact ((hresolves.callable name f).1 hf).1
    have hbinds : ∀ e, f.bindArgs f.params args .empty = .error e → e.kind ≠ .duplicateName := by
      intro e he
      obtain ⟨p, -, v, -, -, rfl⟩ :=
        Function.bindArgs_error rfl (hchecks.params f hmem) (fun _ _ => rfl) he
      simp [Fault.kind]
    rcases he with he | he
    · exact hbinds e he
    · unfold Function.callEnv at he
      split at he
      · exact hbinds e he
      · cases he
        simp [Fault.kind]

end Declarations

end CoLang
