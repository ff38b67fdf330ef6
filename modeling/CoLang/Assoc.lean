/-!
# Tables by name

A table of values by name, as a list in the order in which the names were first given. Where a name
occurs more than once the first entry counts, and setting a name changes that entry only. So setting
is undone exactly by setting the old value again.

Where the order is of no interest the names are kept sorted. Then tables with the same values are
equal (`Assoc.Sorted.eq_of_get?`), whatever was put into them and taken out of them.
-/

namespace CoLang

/-- Values by name. -/
abbrev Assoc (α : Type) := List (String × α)

namespace Assoc

variable {α : Type}

/-- The value of a name. -/
def get? : Assoc α → String → Option α
  | [], _ => none
  | (n, a) :: rest, name => if n = name then some a else get? rest name

/-- The table with a value under a name: in place of the one that was there, or else at the end. -/
def set : Assoc α → String → α → Assoc α
  | [], name, a => [(name, a)]
  | (n, b) :: rest, name, a => if n = name then (n, a) :: rest else (n, b) :: set rest name a

/-- The names in a table, in order. -/
def names (t : Assoc α) : List String :=
  t.map Prod.fst

@[simp] theorem get?_nil (name : String) : get? ([] : Assoc α) name = none := rfl

theorem mem_of_get? {t : Assoc α} {name : String} {a : α} (h : get? t name = some a) :
    (name, a) ∈ t := by
  induction t with
  | nil => simp at h
  | cons e rest ih =>
    obtain ⟨n, b⟩ := e
    by_cases hn : n = name
    · simp only [get?, hn, ite_true, Option.some.injEq] at h
      simp [hn, h]
    · simp only [get?, hn, ite_false] at h
      exact List.mem_cons_of_mem _ (ih h)

@[simp] theorem get?_set_self (t : Assoc α) (name : String) (a : α) :
    get? (set t name a) name = some a := by
  induction t with
  | nil => simp [set, get?]
  | cons e rest ih =>
    obtain ⟨n, b⟩ := e
    by_cases h : n = name <;> simp [set, get?, h, ih]

theorem get?_set_of_ne (t : Assoc α) {name other : String} (a : α) (h : other ≠ name) :
    get? (set t name a) other = get? t other := by
  induction t with
  | nil => simp [set, get?, h.symm]
  | cons e rest ih =>
    obtain ⟨n, b⟩ := e
    by_cases hn : n = name
    · subst hn
      simp [set, get?, h.symm]
    · simp [set, get?, hn, ih]

/-- Setting a name keeps the names there are, and adds it at the end if it is new. -/
theorem names_set (t : Assoc α) (name : String) (a : α) :
    names (set t name a) = if name ∈ names t then names t else names t ++ [name] := by
  induction t with
  | nil => simp [set, names]
  | cons e rest ih =>
    obtain ⟨n, b⟩ := e
    by_cases h : n = name
    · simp [set, names, h]
    · have hne : ¬ name = n := fun heq => h heq.symm
      simp only [names] at ih
      by_cases hm : name ∈ rest.map Prod.fst <;> simp_all [set, names]

/-- Names that are distinct stay so. -/
theorem nodup_names_set {t : Assoc α} (h : (names t).Nodup) (name : String) (a : α) :
    (names (set t name a)).Nodup := by
  rw [names_set]
  by_cases hm : name ∈ names t
  · rw [if_pos hm]
    exact h
  · rw [if_neg hm]
    refine List.nodup_append.2 ⟨h, by simp, ?_⟩
    intro n hn other hother heq
    rw [List.mem_singleton.1 hother] at heq
    exact hm (heq ▸ hn)

/-! ## Sorted tables -/

/-- The names of the table ascend. -/
def Sorted (t : Assoc α) : Prop :=
  t.Pairwise fun a b => a.1 < b.1

/-- The sorted table with a value under a name, in place of the one that was there. -/
def put : Assoc α → String → α → Assoc α
  | [], name, a => [(name, a)]
  | (n, b) :: rest, name, a =>
    if n = name then (n, a) :: rest
    else if name < n then (name, a) :: (n, b) :: rest
    else (n, b) :: put rest name a

/-- The table without a name. -/
def erase (t : Assoc α) (name : String) : Assoc α :=
  t.filter fun e => e.1 != name

@[simp] theorem get?_put_self (t : Assoc α) (name : String) (a : α) :
    get? (put t name a) name = some a := by
  induction t with
  | nil => simp [put, get?]
  | cons e rest ih =>
    obtain ⟨n, b⟩ := e
    by_cases h : n = name
    · simp [put, get?, h]
    · by_cases hlt : name < n <;> simp [put, get?, h, hlt, ih]

theorem get?_put_of_ne (t : Assoc α) {name other : String} (a : α) (h : other ≠ name) :
    get? (put t name a) other = get? t other := by
  induction t with
  | nil => simp [put, get?, h.symm]
  | cons e rest ih =>
    obtain ⟨n, b⟩ := e
    by_cases hn : n = name
    · subst hn
      simp [put, get?, h.symm]
    · by_cases hlt : name < n
      · simp [put, get?, hn, hlt, h.symm]
      · simp [put, get?, hn, hlt, ih]

@[simp] theorem get?_erase_self (t : Assoc α) (name : String) :
    get? (erase t name) name = none := by
  induction t with
  | nil => rfl
  | cons e rest ih =>
    obtain ⟨n, b⟩ := e
    simp only [erase] at ih ⊢
    by_cases hn : n = name <;> simp [get?, hn, ih]

theorem get?_erase_of_ne (t : Assoc α) {name other : String} (h : other ≠ name) :
    get? (erase t name) other = get? t other := by
  induction t with
  | nil => rfl
  | cons e rest ih =>
    obtain ⟨n, b⟩ := e
    simp only [erase] at ih ⊢
    by_cases hn : n = name
    · subst hn
      simp [get?, h.symm, ih]
    · simp [get?, hn, ih]

namespace Sorted

variable {t t' : Assoc α}

theorem mem_put {name : String} {a : α} {e : String × α} (h : e ∈ put t name a) :
    e.1 = name ∨ e ∈ t := by
  induction t with
  | nil =>
    obtain rfl := List.mem_singleton.1 h
    exact .inl rfl
  | cons first rest ih =>
    obtain ⟨n, b⟩ := first
    simp only [put] at h
    split at h
    case isTrue hn =>
      rcases List.mem_cons.1 h with rfl | h
      · exact .inl hn
      · exact .inr (List.mem_cons_of_mem _ h)
    case isFalse =>
      split at h
      case isTrue =>
        rcases List.mem_cons.1 h with rfl | h
        · exact .inl rfl
        · exact .inr h
      case isFalse =>
        rcases List.mem_cons.1 h with rfl | h
        · exact .inr List.mem_cons_self
        · exact (ih h).imp_right (List.mem_cons_of_mem _)

theorem put (h : t.Sorted) (name : String) (a : α) : (t.put name a).Sorted := by
  induction t with
  | nil => exact List.pairwise_singleton _ _
  | cons e rest ih =>
    obtain ⟨n, b⟩ := e
    obtain ⟨hfirst, hrest⟩ := List.pairwise_cons.1 h
    simp only [Assoc.put]
    split
    case isTrue => exact List.pairwise_cons.2 ⟨hfirst, hrest⟩
    case isFalse hn =>
      split
      case isTrue hlt =>
        refine List.pairwise_cons.2 ⟨fun e he => ?_, h⟩
        rcases List.mem_cons.1 he with rfl | he
        · exact hlt
        · exact String.lt_trans hlt (hfirst e he)
      case isFalse hlt =>
        refine List.pairwise_cons.2 ⟨fun e he => ?_, ih hrest⟩
        rcases mem_put he with heq | he
        · rw [heq]
          exact Std.lt_of_le_of_ne (String.not_lt.1 hlt) hn
        · exact hfirst e he

theorem erase (h : t.Sorted) (name : String) : (t.erase name).Sorted :=
  List.Pairwise.filter _ h

theorem nodup_names (h : t.Sorted) : t.names.Nodup := by
  refine List.pairwise_map.2 (List.Pairwise.imp (fun {e e'} hlt heq => ?_) h)
  rw [heq] at hlt
  exact String.lt_irrefl _ hlt

/-- A name before all others is not in the table. -/
theorem get?_eq_none_of_lt {name : String} (h : ∀ e ∈ t, name < e.1) : t.get? name = none := by
  cases hget : t.get? name with
  | none => rfl
  | some a => exact absurd (h _ (mem_of_get? hget)) (String.lt_irrefl name)

/-- The first names of two tables with the same values are the same. -/
theorem not_lt_of_get? {n n' : String} {a a' : α} {rest rest' : Assoc α}
    (h' : Sorted ((n', a') :: rest'))
    (heq : ∀ name, get? ((n, a) :: rest) name = get? ((n', a') :: rest') name) : ¬ n < n' := by
  intro hlt
  have hnone : get? ((n', a') :: rest') n = none := by
    refine get?_eq_none_of_lt fun e he => ?_
    rcases List.mem_cons.1 he with rfl | he
    · exact hlt
    · exact String.lt_trans hlt ((List.pairwise_cons.1 h').1 e he)
  have hsome := heq n
  rw [hnone] at hsome
  simp [get?] at hsome

/-- **Sorted tables are determined by their values.** -/
theorem eq_of_get? (h : t.Sorted) (h' : t'.Sorted) (heq : ∀ name, t.get? name = t'.get? name) :
    t = t' := by
  induction t generalizing t' with
  | nil =>
    cases t' with
    | nil => rfl
    | cons e rest' => simpa [get?] using heq e.1
  | cons e rest ih =>
    obtain ⟨n, a⟩ := e
    cases t' with
    | nil => simpa [get?] using heq n
    | cons e' rest' =>
      obtain ⟨n', a'⟩ := e'
      have hle := String.not_lt.1 (not_lt_of_get? h' heq)
      have hge := String.not_lt.1 (not_lt_of_get? h fun name => (heq name).symm)
      obtain rfl : n = n' := String.le_antisymm hge hle
      obtain rfl : a = a' := by simpa [get?] using heq n
      obtain ⟨hfirst, hrest⟩ := List.pairwise_cons.1 h
      obtain ⟨hfirst', hrest'⟩ := List.pairwise_cons.1 h'
      refine congrArg _ (ih hrest hrest' fun name => ?_)
      by_cases hn : n = name
      · subst hn
        rw [get?_eq_none_of_lt hfirst, get?_eq_none_of_lt hfirst']
      · simpa [get?, hn] using heq name

end Sorted

end Assoc

end CoLang
