import CoLang.Proofs.Scoping
import Mathlib.Data.List.Infix
/-!
# Scopes as brackets

Whatever is done to an environment while a scope is open, the scopes around it keep their names and
types. A value in one of them changes only by assignments that meet no other variable of the name
further in, and what the last of these assigned is there when the scope is closed
(`Env.edits_within_scope`).
-/

namespace CoLang

/-! ## Edits -/

/-- What can be done to an environment. -/
inductive Env.Edit where
  | push
  | pop
  | truncate (depth : Nat)
  | define (name : String) (ty : Ty) (value : Option Val)
  | assign (name : String) (v : Val)

/-- Whether an edit succeeds, and the environment behind it. -/
def Env.Edit.attempt (env : Env) : Env.Edit → Except Fault Unit × Env
  | .push => (.ok (), env.push)
  | .pop => (.ok (), env.pop)
  | .truncate depth => (.ok (), env.truncate depth)
  | .define name ty value => env.define name ty value
  | .assign name v => env.assign name v

namespace Env

/-- The environment behind an edit, which may have failed. -/
def edit (env : Env) (e : Edit) : Env :=
  (e.attempt env).2

/-- The environment behind some edits, done one after the other. -/
def edits (env : Env) (es : List Edit) : Env :=
  es.foldl edit env

/-- The assignment succeeds, and no scope above the height has a variable of its name. -/
def Reaches (env : Env) (height : Nat) (name : String) (v : Val) : Prop :=
  (env.assign name v).1 = .ok () ∧
    ∀ above s, height < above → env.scopeAt above = some s → s.get? name = none

/-- None of the assignments to a name reaches the height. -/
def NoneReaches (env : Env) (es : List Edit) (height : Nat) (name : String) : Prop :=
  ∀ before v behind, es = before ++ .assign name v :: behind →
    ¬ (env.edits before).Reaches height name v

/-- The last assignment to a name that reaches the height is one of this value. -/
def LastReaches (env : Env) (es : List Edit) (height : Nat) (name : String) (v : Val) : Prop :=
  ∃ before behind, es = before ++ .assign name v :: behind ∧
    (env.edits before).Reaches height name v ∧
    (env.edits (before ++ [.assign name v])).NoneReaches behind height name

/-- What becomes of a scope at a height: it has the same names with the same types, and each
variable has the value of the last assignment that reached it, or is as it was. -/
structure Brings (env : Env) (es : List Edit) (height : Nat) (s s' : Scope) : Prop where
  names : s'.bindings.names = s.bindings.names
  bound : ∀ name b, s.get? name = some b → ∃ b', s'.get? name = some b' ∧ b'.ty = b.ty ∧
    ((∃ v, env.LastReaches es height name v ∧ b'.value = some v) ∨
      env.NoneReaches es height name ∧ b'.value = b.value)

variable {env env' : Env} {e : Edit} {es : List Edit} {height : Nat} {name : String} {v : Val}
  {s s' : Scope}

theorem Edit.atomic_attempt (e : Edit) : Atomic fun env : Env => e.attempt env := by
  cases e with
  | define name ty value => exact atomic_define
  | assign name v => exact atomic_assign
  | _ =>
    intro env env' f h
    cases h

/-- An edit that fails changes nothing. -/
theorem edit_of_error {f : Fault} (h : (e.attempt env).1 = .error f) : env.edit e = env :=
  e.atomic_attempt (Prod.ext h rfl)

theorem scopes_edit_assign (h : (env.assign name v).1 = .ok ()) :
    (env.edit (.assign name v)).scopes = store name v env.scopes := by
  obtain ⟨b, -, -, henv⟩ := assign_ok (Prod.ext h rfl)
  exact congrArg scopes henv

theorem noneReaches_nil : env.NoneReaches [] height name := by
  intro before v behind h
  simp at h

theorem NoneReaches.cons (h : (env.edit e).NoneReaches es height name)
    (he : ∀ v, e = .assign name v → ¬ env.Reaches height name v) :
    env.NoneReaches (e :: es) height name := by
  intro before v behind heq
  cases before with
  | nil =>
    cases heq
    exact he v rfl
  | cons first before =>
    cases heq
    exact h before v behind rfl

theorem LastReaches.cons (h : (env.edit e).LastReaches es height name v) :
    env.LastReaches (e :: es) height name v := by
  obtain ⟨before, behind, rfl, hreaches, hnone⟩ := h
  exact ⟨e :: before, behind, rfl, hreaches, hnone⟩

theorem NoneReaches.lastReaches (h : (env.edit (.assign name v)).NoneReaches es height name)
    (hreaches : env.Reaches height name v) : env.LastReaches (.assign name v :: es) height name v :=
  ⟨[], es, rfl, hreaches, h⟩

/-! ## One edit -/

theorem scopeAt_eq_some_iff :
    env.scopeAt height = some s ↔
      ∃ inner outer, env.scopes = inner ++ s :: outer ∧ outer.length = height := by
  unfold scopeAt
  constructor
  · intro h
    obtain ⟨hlt, hs⟩ := List.getElem?_eq_some_iff.1 h
    have hsplit := List.take_append_drop height env.scopes.reverse
    rw [List.drop_eq_getElem_cons hlt, hs] at hsplit
    have hscopes := congrArg List.reverse hsplit
    rw [List.reverse_reverse, List.reverse_append, List.reverse_cons, List.append_assoc] at hscopes
    refine ⟨_, (env.scopes.reverse.take height).reverse, hscopes.symm, ?_⟩
    rw [List.length_reverse, List.length_take]
    omega
  · rintro ⟨inner, outer, hscopes, rfl⟩
    have hlength : outer.length = outer.reverse.length := List.length_reverse.symm
    rw [hscopes, List.reverse_append, List.reverse_cons, List.append_assoc, hlength,
      List.getElem?_append_right (Nat.le_refl _)]
    simp

/-- Closing scopes leaves the others where they are. -/
theorem scopeAt_of_closed (h : env'.scopes <:+ env.scopes) (hs : env.scopeAt height = some s)
    (hlt : height < env'.depth) : env'.scopeAt height = some s := by
  obtain ⟨s', hs'⟩ := exists_scopeAt hlt
  rw [hs', scopeAt_eq_of_suffix (.inl h) hs hs']

theorem scopeAt_of_define {ty : Ty} {value : Option Val}
    (h : env.define name ty value = (.ok (), env')) (hs : env.scopeAt height = some s)
    (hlt : height + 1 < env.depth) : env'.scopeAt height = some s := by
  obtain ⟨scope, rest, hscopes, -, -, rfl⟩ := define_ok h
  obtain ⟨inner, outer, hsplit, hheight⟩ := scopeAt_eq_some_iff.1 hs
  refine scopeAt_eq_some_iff.2 ?_
  rw [hscopes] at hsplit
  cases inner with
  | nil =>
    -- Then the scope would be the innermost one.
    have hlength := congrArg List.length hsplit
    simp only [depth, hscopes, List.nil_append, List.length_cons] at hlt hlength
    omega
  | cons top inner =>
    cases hsplit
    exact ⟨_ :: inner, outer, rfl, hheight⟩

theorem store_append {inner : List Scope} (h : ∀ t ∈ inner, t.get? name = none)
    (outer : List Scope) : store name v (inner ++ outer) = inner ++ store name v outer := by
  induction inner with
  | nil => rfl
  | cons t inner ih =>
    rw [List.forall_mem_cons] at h
    rw [List.cons_append, store, h.1]
    simp only [ih h.2, List.cons_append]

theorem store_append_of_hidden {inner : List Scope} (h : ¬ ∀ t ∈ inner, t.get? name = none)
    (outer : List Scope) : store name v (inner ++ outer) = store name v inner ++ outer := by
  induction inner with
  | nil => exact absurd (List.forall_mem_nil _) h
  | cons t inner ih =>
    rw [List.forall_mem_cons, not_and] at h
    rw [List.cons_append, store, store]
    cases ht : t.get? name with
    | some b => rfl
    | none => simp only [ih (h ht), List.cons_append]

/-- The scopes above a height are those in front of it. -/
theorem forall_above_iff {inner outer : List Scope} (h : env.scopes = inner ++ s :: outer)
    {P : Scope → Prop} :
    (∀ above t, outer.length < above → env.scopeAt above = some t → P t) ↔ ∀ t ∈ inner, P t := by
  constructor
  · intro hall t ht
    obtain ⟨front, back, rfl⟩ := List.append_of_mem ht
    refine hall (back ++ s :: outer).length t ?_ (scopeAt_eq_some_iff.2 ⟨front, _, ?_, rfl⟩)
    · rw [List.length_append, List.length_cons]
      omega
    · rw [h, List.append_assoc, List.cons_append]
  · intro hall above t hlt ht
    obtain ⟨front, back, hsplit, rfl⟩ := scopeAt_eq_some_iff.1 ht
    rw [h, List.append_eq_append_iff] at hsplit
    rcases hsplit with ⟨mid, -, hmid⟩ | ⟨mid, rfl, hmid⟩
    · -- The scope would be at the height or below.
      have hlength := congrArg List.length hmid
      simp only [List.length_cons, List.length_append] at hlength
      omega
    · cases mid with
      | nil =>
        cases hmid
        omega
      | cons t' mid =>
        cases hmid
        exact hall t (by simp)

theorem scopes_edit_of_reaches {inner outer : List Scope} (h : env.Reaches outer.length name v)
    (hscopes : env.scopes = inner ++ s :: outer) :
    (env.edit (.assign name v)).scopes = inner ++ store name v (s :: outer) := by
  rw [scopes_edit_assign h.1, hscopes, store_append ((forall_above_iff hscopes).1 h.2)]

theorem scopeAt_of_reaches (h : env.Reaches height name v) (hs : env.scopeAt height = some s)
    {b : Binding} (hb : s.get? name = some b) :
    (env.edit (.assign name v)).scopeAt height =
      some (s.set name { b with value := some v }) := by
  obtain ⟨inner, outer, hscopes, rfl⟩ := scopeAt_eq_some_iff.1 hs
  refine scopeAt_eq_some_iff.2 ⟨inner, outer, ?_, rfl⟩
  rw [scopes_edit_of_reaches h hscopes, store, hb]

/-- An assignment that succeeds and does not reach the scope goes to one further in. -/
theorem scopeAt_of_not_reaches (h : ¬ env.Reaches height name v)
    (hs : env.scopeAt height = some s) :
    (env.edit (.assign name v)).scopeAt height = some s := by
  cases hassign : (env.assign name v).1 with
  | error f => rwa [edit_of_error (e := .assign name v) hassign]
  | ok _ =>
    obtain ⟨inner, outer, hscopes, rfl⟩ := scopeAt_eq_some_iff.1 hs
    have hhidden : ¬ ∀ t ∈ inner, t.get? name = none := by
      intro hall
      exact h ⟨hassign, (forall_above_iff hscopes).2 hall⟩
    refine scopeAt_eq_some_iff.2 ⟨store name v inner, outer, ?_, rfl⟩
    rw [scopes_edit_assign hassign, hscopes, store_append_of_hidden hhidden]

/-- An assignment that finds the name neither in the scope nor further in goes to one around it. -/
theorem scopeAt_of_unknown (hs : env.scopeAt height = some s) (hb : s.get? name = none) :
    (env.edit (.assign name v)).scopeAt height = some s := by
  by_cases hreaches : env.Reaches height name v
  · obtain ⟨inner, outer, hscopes, rfl⟩ := scopeAt_eq_some_iff.1 hs
    refine scopeAt_eq_some_iff.2 ⟨inner, store name v outer, ?_, length_store name v outer⟩
    rw [scopes_edit_of_reaches hreaches hscopes, store, hb]
  · exact scopeAt_of_not_reaches hreaches hs

/-- Other edits leave a scope alone as long as it is not the innermost one. -/
theorem scopeAt_of_not_assign (he : ∀ name v, e ≠ .assign name v)
    (hs : env.scopeAt height = some s) (hlt : height + 1 < env.depth)
    (hlt' : height < (env.edit e).depth) : (env.edit e).scopeAt height = some s := by
  cases e with
  | push => exact scopeAt_of_suffix (List.suffix_cons _ _) hs
  | pop => exact scopeAt_of_closed (List.tail_suffix _) hs hlt'
  | truncate depth => exact scopeAt_of_closed (List.drop_suffix _ _) hs hlt'
  | define name ty value =>
    cases hdefine : (env.define name ty value).1 with
    | error f => rwa [edit_of_error (e := .define name ty value) hdefine]
    | ok _ => exact scopeAt_of_define (Prod.ext hdefine rfl) hs hlt
  | assign name v => exact absurd rfl (he name v)

theorem brings_of_same
    (h : ∀ name v, e = .assign name v → env.Reaches height name v → s.get? name = none) :
    env.Brings [e] height s s := by
  refine ⟨rfl, fun name b hb => ⟨b, hb, rfl, .inr ⟨?_, rfl⟩⟩⟩
  refine noneReaches_nil.cons fun v he hreaches => ?_
  rw [h name v he hreaches] at hb
  cases hb

theorem brings_of_reaches (h : env.Reaches height name v) {b : Binding}
    (hb : s.get? name = some b) :
    env.Brings [.assign name v] height s (s.set name { b with value := some v }) := by
  constructor
  · have hentry := Assoc.mem_of_get? (show s.bindings.get? name = some b from hb)
    have hmem : name ∈ s.bindings.names := List.mem_map.2 ⟨_, hentry, rfl⟩
    exact (Assoc.names_set _ _ _).trans (if_pos hmem)
  · intro other b' hb'
    by_cases hother : other = name
    · subst hother
      rw [hb, Option.some.injEq] at hb'
      subst hb'
      exact ⟨_, Scope.get?_set_self _ _ _, rfl, .inl ⟨v, noneReaches_nil.lastReaches h, rfl⟩⟩
    · refine ⟨b', (Scope.get?_set_of_ne s _ hother).trans hb', rfl, .inr ⟨?_, rfl⟩⟩
      refine noneReaches_nil.cons fun v' heq => ?_
      cases heq
      exact absurd rfl hother

/-- **One edit brings a scope the value that it assigns there**, if any. -/
theorem brings_edit (hs : env.scopeAt height = some s) (hlt : height + 1 < env.depth)
    (hlt' : height < (env.edit e).depth) :
    ∃ s', (env.edit e).scopeAt height = some s' ∧ env.Brings [e] height s s' := by
  by_cases he : ∃ name v, e = .assign name v
  · obtain ⟨name, v, rfl⟩ := he
    by_cases hreaches : env.Reaches height name v
    · cases hb : s.get? name with
      | none =>
        refine ⟨s, scopeAt_of_unknown hs hb, brings_of_same fun name' v' heq _ => ?_⟩
        cases heq
        exact hb
      | some b => exact ⟨_, scopeAt_of_reaches hreaches hs hb, brings_of_reaches hreaches hb⟩
    · refine ⟨s, scopeAt_of_not_reaches hreaches hs, brings_of_same fun name' v' heq h => ?_⟩
      cases heq
      exact absurd h hreaches
  · have hne : ∀ name v, e ≠ .assign name v := fun name v heq => he ⟨name, v, heq⟩
    refine ⟨s, scopeAt_of_not_assign hne hs hlt hlt', brings_of_same fun name v heq _ => ?_⟩
    exact absurd heq (hne name v)

/-! ## Many edits -/

theorem Brings.refl (env : Env) (height : Nat) (s : Scope) : env.Brings [] height s s :=
  ⟨rfl, fun _ b hb => ⟨b, hb, rfl, .inr ⟨noneReaches_nil, rfl⟩⟩⟩

/-- What the first edit brings stays, unless one behind it brings something else. -/
theorem Brings.cons {s'' : Scope} (h : env.Brings [e] height s s')
    (h' : (env.edit e).Brings es height s' s'') : env.Brings (e :: es) height s s'' := by
  refine ⟨h'.names.trans h.names, fun name b hb => ?_⟩
  obtain ⟨b', hb', hty, hvalue⟩ := h.bound name b hb
  obtain ⟨b'', hb'', hty', hvalue'⟩ := h'.bound name b' hb'
  refine ⟨b'', hb'', hty'.trans hty, ?_⟩
  rcases hvalue' with ⟨v, hlast, hv⟩ | ⟨hnone, hsame⟩
  · exact .inl ⟨v, hlast.cons, hv⟩
  · rcases hvalue with ⟨v, ⟨before, behind, hsplit, hreaches, -⟩, hv⟩ | ⟨hfirst, hold⟩
    · obtain ⟨rfl, hone⟩ | ⟨-, hbehind⟩ := List.singleton_eq_append_iff.1 hsplit
      · cases hone
        exact .inl ⟨v, hnone.lastReaches hreaches, hsame.trans hv⟩
      · cases hbehind
    · refine .inr ⟨hnone.cons fun v heq => ?_, hsame.trans hold⟩
      exact hfirst [] v [] (congrArg (· :: []) heq)

/-- **Edits bring a scope the values that are assigned there last**, as long as it is never the
innermost one. The induction is on the edits, from the first one on. -/
theorem brings_edits {base : Nat} (hbase : height < base)
    (h : ∀ before, before <+: es → base < (env.edits before).depth)
    (hs : env.scopeAt height = some s) :
    ∃ s', (env.edits es).scopeAt height = some s' ∧ env.Brings es height s s' := by
  induction es generalizing env s with
  | nil => exact ⟨s, hs, .refl env height s⟩
  | cons e es ih =>
    have hbefore : base < env.depth := h [] (List.nil_prefix)
    have hbehind : base < (env.edit e).depth := h [e] ⟨es, rfl⟩
    have hrest : ∀ before, before <+: es → base < ((env.edit e).edits before).depth := by
      intro before hprefix
      exact h (e :: before) (List.cons_prefix_cons.2 ⟨rfl, hprefix⟩)
    obtain ⟨s', hs', hfirst⟩ := brings_edit (e := e) hs (by omega) (by omega)
    obtain ⟨s'', hs'', hall⟩ := ih hrest hs'
    exact ⟨s'', hs'', hfirst.cons hall⟩

/-- **A scope is a bracket.** When a scope is opened, anything is done that does not close it, and
all scopes above the old ones are closed, then the old scopes are there with their names and types.
Each variable in them has the value of the last assignment to its name that succeeded while no scope
further in had the name, or what it had before. Edits that fail change nothing. -/
theorem edits_within_scope (env : Env) (es : List Edit)
    (h : ∀ before, before <+: es → env.depth < (env.push.edits before).depth) :
    ((env.push.edits es).truncate env.depth).depth = env.depth ∧
      (∀ height s, env.scopeAt height = some s →
        ∃ s', ((env.push.edits es).truncate env.depth).scopeAt height = some s' ∧
          env.push.Brings es height s s') ∧
      ∀ (env' : Env) (e : Edit) (f : Fault), (e.attempt env').1 = .error f →
        env'.edit e = env' := by
  have hopen : env.depth < (env.push.edits es).depth := h es (List.prefix_refl es)
  have hdepth : ((env.push.edits es).truncate env.depth).depth = env.depth :=
    depth_truncate (Nat.le_of_lt hopen)
  refine ⟨hdepth, fun height s hs => ?_, fun _ _ _ => edit_of_error⟩
  have hlt := lt_depth_of_scopeAt hs
  have hpushed : env.push.scopeAt height = some s := scopeAt_of_suffix (List.suffix_cons _ _) hs
  obtain ⟨s', hs', hbrings⟩ := brings_edits hlt h hpushed
  refine ⟨s', ?_, hbrings⟩
  exact scopeAt_of_closed (List.drop_suffix _ _) hs' (by rwa [hdepth])

/-- A variable is assigned while another of its name hides it, once more behind that, and then once
more hidden by a third one. An assignment of the wrong type fails, and so does one to no variable.
-/
theorem edits_within_scope_hidden :
    let s : Scope := (Scope.empty.set "x" ⟨.int, some (.int 1)⟩).set "y" ⟨.string, none⟩
    let env : Env := ⟨[s]⟩
    let es : List Edit :=
      [.push, .define "x" .string none, .assign "x" (.str "a"), .assign "x" (.int 2), .pop,
        .assign "x" (.int 3), .define "x" .bool none, .define "x" .int none,
        .assign "x" (.bool true), .assign "y" (.str "b"), .assign "z" (.int 4), .truncate 5]
    let closed := (env.push.edits es).truncate env.depth
    (∀ before, before <+: es → env.depth < (env.push.edits before).depth) ∧
      (["x", "y"].map fun name => ((closed.binding? name).bind Binding.value).map Val.text) =
        [some "3", some "b"] ∧
      closed.depth = 1 ∧ ∃ s', closed.scopeAt 0 = some s' ∧ env.push.Brings es 0 s s' := by
  intro s env es closed
  have hopen : ∀ before, before <+: es → env.depth < (env.push.edits before).depth := by
    have hall : ∀ before ∈ es.inits, env.depth < (env.push.edits before).depth := by
      decide +kernel
    exact fun before hprefix => hall before ((List.mem_inits _ _).2 hprefix)
  obtain ⟨hdepth, hscopes, -⟩ := edits_within_scope env es hopen
  exact ⟨hopen, by decide +kernel, hdepth, hscopes 0 s rfl⟩

end Env

end CoLang
