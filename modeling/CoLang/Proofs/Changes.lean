import CoLang.Calls
/-!
# Changes that may be refused

What changes an environment, a table or a world gives it back together with the answer. A change is
*atomic* if it leaves everything as it was when it is refused (`Atomic`), and all changes are. For
most of them there is little to see, since they refuse first and change then. But a table takes a
slot away before it looks at it (`Table.checkout`), and it is the same table again behind a refusal
because its slots are sorted by name: tables with the same slots are equal (`Table.ext_slot?`).
-/

namespace CoLang

/-- A change that is refused leaves things as they were. -/
def Atomic {σ α : Type} (change : σ → Except Fault α × σ) : Prop :=
  ∀ {s s' e}, change s = (.error e, s') → s' = s

/-- A change is refused without a trace as soon as it is refused. -/
theorem Atomic.eq_error_iff {σ α : Type} {change : σ → Except Fault α × σ} (h : Atomic change)
    {s : σ} {e : Fault} : change s = (.error e, s) ↔ (change s).1 = .error e := by
  constructor
  · intro heq
    rw [heq]
  · intro herror
    have hpair : change s = (.error e, (change s).2) := Prod.ext herror rfl
    rw [h hpair] at hpair
    exact hpair

/-! ## Environments -/

namespace Env

variable {env env' : Env} {name : String} {ty : Ty} {v : Val} {value : Option Val}

theorem atomic_define : Atomic fun env : Env => env.define name ty value := by
  intro env env' e h
  simp only [define] at h
  split at h
  · cases h
    rfl
  · split at h
    · cases h
      rfl
    · split at h <;> cases h
      rfl

theorem atomic_assign : Atomic fun env : Env => env.assign name v := by
  intro env env' e h
  simp only [assign] at h
  split at h
  · cases h
    rfl
  · split at h <;> cases h
    rfl

theorem checkType_eq_ok {u : Unit} (h : checkType name ty v = .ok u) : v.ty = ty := by
  unfold checkType at h
  split at h
  case isTrue hty => exact hty
  case isFalse => cases h

/-- A variable is added under a name that is new in the innermost scope, with a value of its type
if with any. -/
theorem define_ok (h : env.define name ty value = (.ok (), env')) :
    ∃ scope outer, env.scopes = scope :: outer ∧ scope.get? name = none ∧
      (∀ x, value = some x → x.ty = ty) ∧ env' = ⟨scope.set name ⟨ty, value⟩ :: outer⟩ := by
  unfold define at h
  split at h
  case h_1 => cases h
  case h_2 hcheck =>
    have hty : ∀ x, value = some x → x.ty = ty := by
      rintro x rfl
      exact checkType_eq_ok hcheck
    split at h
    case h_1 => cases h
    case h_2 scope outer hscopes =>
      split at h
      case h_1 => cases h
      case h_2 hget =>
        cases h
        exact ⟨scope, outer, hscopes, hget, hty, rfl⟩

theorem assign_ok (h : env.assign name v = (.ok (), env')) :
    ∃ b, env.binding? name = some b ∧ v.ty = b.ty ∧ env' = ⟨store name v env.scopes⟩ := by
  unfold assign at h
  split at h
  case h_1 => cases h
  case h_2 b hb =>
    split at h
    case h_1 => cases h
    case h_2 hcheck =>
      cases h
      exact ⟨b, hb, checkType_eq_ok hcheck, rfl⟩

end Env

/-! ## Tables -/

namespace Table

variable {t t' : Table} {name other : String} {s s' : Slot} {i : Instance}

@[simp] theorem slot?_setSlot_self : (t.setSlot name s).slot? name = some s :=
  Assoc.get?_put_self t.slots name s

theorem slot?_setSlot_of_ne (h : other ≠ name) : (t.setSlot name s).slot? other = t.slot? other :=
  Assoc.get?_put_of_ne t.slots s h

theorem parked_of_setSlot (h : (t.setSlot name s).slot? other = some (.parked i)) :
    other = name ∧ s = .parked i ∨ other ≠ name ∧ t.slot? other = some (.parked i) := by
  by_cases heq : other = name
  · subst heq
    rw [slot?_setSlot_self, Option.some.injEq] at h
    exact .inl ⟨rfl, h⟩
  · rw [slot?_setSlot_of_ne heq] at h
    exact .inr ⟨heq, h⟩

/-- Tables with the same slots are equal. -/
theorem ext_slot? (h : ∀ name, t.slot? name = t'.slot? name) : t = t' :=
  Table.ext (t.sorted.eq_of_get? t'.sorted h)

theorem setSlot_setSlot : (t.setSlot name s).setSlot name s' = t.setSlot name s' := by
  refine ext_slot? fun other => ?_
  by_cases h : other = name
  · subst h
    simp
  · simp only [slot?_setSlot_of_ne h]

theorem setSlot_of_slot? (h : t.slot? name = some s) : t.setSlot name s = t := by
  refine ext_slot? fun other => ?_
  by_cases ho : other = name
  · subst ho
    simp [h]
  · rw [slot?_setSlot_of_ne ho]

theorem slot?_removeSlot_of_ne (h : other ≠ name) :
    (t.removeSlot name).2.slot? other = t.slot? other :=
  Assoc.get?_erase_of_ne t.slots h

/-- A slot that is filled again may as well have stayed. -/
theorem removeSlot_setSlot : (t.removeSlot name).2.setSlot name s = t.setSlot name s := by
  refine ext_slot? fun other => ?_
  by_cases h : other = name
  · subst h
    simp
  · simp only [slot?_setSlot_of_ne h, slot?_removeSlot_of_ne h]

theorem removeSlot_of_none (h : t.slot? name = none) : (t.removeSlot name).2 = t := by
  refine ext_slot? fun other => ?_
  by_cases ho : other = name
  · subst ho
    rw [h]
    exact Assoc.get?_erase_self t.slots other
  · exact slot?_removeSlot_of_ne ho

theorem checkout_of_none (h : t.slot? name = none) :
    t.checkout name = (.error (.undefinedInstance name), t) := by
  have hremove : t.removeSlot name = (none, t) := Prod.ext h (removeSlot_of_none h)
  simp only [checkout, hremove]

/-- **An instance that is out is put back as it was found.** -/
theorem checkout_of_running {coroutine : String} (h : t.slot? name = some (.running coroutine)) :
    t.checkout name = (.error (.alreadyRunning name coroutine), t) := by
  have hremove : t.removeSlot name = (some (.running coroutine), (t.removeSlot name).2) :=
    Prod.ext h rfl
  rw [checkout, hremove]
  simp only [removeSlot_setSlot, setSlot_of_slot? h]

theorem checkout_of_parked (h : t.slot? name = some (.parked i)) :
    t.checkout name = (.ok i, t.setSlot name (.running i.coroutine)) := by
  have hremove : t.removeSlot name = (some (.parked i), (t.removeSlot name).2) := Prod.ext h rfl
  rw [checkout, hremove]
  simp only [removeSlot_setSlot]

theorem checkout_ok (h : t.checkout name = (.ok i, t')) :
    t.slot? name = some (.parked i) ∧ t' = t.setSlot name (.running i.coroutine) := by
  rcases hs : t.slot? name with - | (j | coroutine)
  · rw [checkout_of_none hs] at h
    cases h
  · rw [checkout_of_parked hs] at h
    cases h
    exact ⟨rfl, rfl⟩
  · rw [checkout_of_running hs] at h
    cases h

theorem atomic_checkout : Atomic fun t : Table => t.checkout name := by
  intro t t' e h
  dsimp only at h
  rcases hs : t.slot? name with - | (j | coroutine)
  · rw [checkout_of_none hs] at h
    cases h
    rfl
  · rw [checkout_of_parked hs] at h
    cases h
  · rw [checkout_of_running hs] at h
    cases h
    rfl

theorem insert_ok (h : t.insert name i = (.ok (), t')) :
    t.isFree name = true ∧ t' = t.setSlot name (.parked i) := by
  unfold insert at h
  split at h
  case isTrue hfree =>
    cases h
    exact ⟨hfree, rfl⟩
  case isFalse => cases h

theorem atomic_insert : Atomic fun t : Table => t.insert name i := by
  intro t t' e h
  simp only [insert] at h
  split at h <;> cases h
  rfl

end Table

/-! ## Worlds -/

namespace World

variable {cx : Context} {w w' : World} {name coroutine line : String} {i : Instance}

theorem create_ok (h : w.create cx name coroutine = (.ok (), w')) :
    ∃ c t, cx.decls.coroutine? coroutine = some c ∧
      w.table.insert name (.create (cx.identities w.created) c) = (.ok (), t) ∧
      w' = { w with table := t, created := w.created + 1 }.record cx .create c.name c.doc
        (some name) := by
  unfold create at h
  split at h
  case h_1 => cases h
  case h_2 c hc =>
    split at h
    case h_1 => cases h
    case h_2 t ht =>
      cases h
      exact ⟨c, t, hc, ht, rfl⟩

theorem atomic_create : Atomic (create cx name coroutine) := by
  intro w w' e h
  simp only [create] at h
  split at h
  case h_1 =>
    cases h
    rfl
  case h_2 c hc =>
    split at h
    case h_1 e t ht =>
      cases h
      rw [Table.atomic_insert ht]
    case h_2 => cases h

theorem restore_ok (h : w.restore cx name i = (.ok (), w')) :
    (cx.decls.coroutine? i.coroutine).isSome = true ∧ i.life ≠ .running ∧
      ∃ t, w.table.insert name i = (.ok (), t) ∧ w' = { w with table := t } := by
  unfold restore at h
  split at h
  case isTrue => cases h
  case isFalse hdeclared =>
    split at h
    case isTrue => cases h
    case isFalse hlife =>
      refine ⟨Option.isSome_iff_ne_none.2 (by simpa using hdeclared), hlife, ?_⟩
      rcases ht : w.table.insert name i with ⟨answer, t⟩
      rw [ht] at h
      cases h
      exact ⟨t, rfl, rfl⟩

theorem atomic_restore : Atomic (restore cx name i) := by
  intro w w' e h
  simp only [restore] at h
  split at h
  case isTrue =>
    cases h
    rfl
  case isFalse =>
    split at h
    case isTrue =>
      cases h
      rfl
    case isFalse =>
      rcases ht : w.table.insert name i with ⟨answer, t⟩
      rw [ht] at h
      cases h
      rw [Table.atomic_insert ht]

theorem print_ok (h : w.print cx line = (.ok (), w')) :
    cx.takesLine w.lines.size = true ∧ w' = { w with lines := w.lines.push line } := by
  unfold print at h
  split at h
  case isTrue htakes =>
    cases h
    exact ⟨htakes, rfl⟩
  case isFalse => cases h

theorem atomic_print : Atomic (print cx line) := by
  intro w w' e h
  simp only [print] at h
  split at h <;> cases h
  rfl

end World

namespace Function

variable {cx : Context} {f : Function} {w w' : World}

theorem enter_ok (h : f.enter cx w = (.ok (), w')) :
    w.depth < cx.settings.maxCallDepth ∧ w' = { w with depth := w.depth + 1 } := by
  unfold enter at h
  split at h
  case isTrue hdepth =>
    cases h
    exact ⟨hdepth, rfl⟩
  case isFalse => cases h

theorem atomic_enter : Atomic (f.enter cx) := by
  intro w w' e h
  unfold enter at h
  split at h <;> cases h
  rfl

end Function

/-- A change as a computation. -/
theorem Eval.change_apply {f : World → Except Fault Unit × World} (hf : Atomic f) (w : World) :
    Eval.change f w =
      match f w with
      | (.error e, _) => ⟨.fault e, w⟩
      | (.ok (), w) => ⟨.value (), w⟩ := by
  unfold Eval.change
  rcases h : f w with ⟨e | -, w'⟩
  · simp only [hf h]
    rfl
  · rfl

end CoLang
