import CoLang.Wire.Source
/-!
# Values carried by JSON

A JSON value *carries* a value of the domain for a decoder (`Wire.Carries`) if nothing in it is
unreadable and the decoder gives that value wherever there is room for it, taken in as a whole or
not. Both parts are needed to put encodings together, since some decoders look at all of a value
before they read it.

The lemmas here say it of scalars, names, lists, optional values and variants that carry one value,
and how a decoder gets at the fields of a record.
-/

namespace CoLang

/-! ## Heights and room -/

namespace Json

@[simp] theorem itemsHeight_cons_le {j : Json} {rest : List Json} {n : Nat} :
    itemsHeight (j :: rest) ≤ n ↔ j.height ≤ n ∧ itemsHeight rest ≤ n := by
  rw [itemsHeight]
  omega

@[simp] theorem membersHeight_cons_le {name : String} {j : Json} {rest : List (String × Json)}
    {n : Nat} :
    membersHeight ((name, j) :: rest) ≤ n ↔ j.height ≤ n ∧ membersHeight rest ≤ n := by
  rw [membersHeight]
  omega

theorem room_of_obj {members : List (String × Json)} {room : Nat}
    (h : (Json.obj members).height ≤ room) : ∃ n, room = n + 1 ∧ membersHeight members ≤ n := by
  rw [height] at h
  exact ⟨room - 1, by omega, by omega⟩

theorem room_of_arr {items : List Json} {room : Nat} (h : (Json.arr items).height ≤ room) :
    ∃ n, room = n + 1 ∧ itemsHeight items ≤ n := by
  rw [height] at h
  exact ⟨room - 1, by omega, by omega⟩

theorem membersHeight_append_le {members members' : List (String × Json)} {n : Nat} :
    membersHeight (members ++ members') ≤ n ↔
      membersHeight members ≤ n ∧ membersHeight members' ≤ n := by
  induction members with
  | nil => simp [membersHeight]
  | cons m rest ih =>
    obtain ⟨name, j⟩ := m
    rw [List.cons_append, membersHeight_cons_le, membersHeight_cons_le, ih, and_assoc]

@[simp] theorem readable_null : Json.null.readable = true := rfl

@[simp] theorem readable_bool (b : Bool) : (Json.bool b).readable = true := rfl

@[simp] theorem readable_int (n : Int) : (Json.int n).readable = true := rfl

@[simp] theorem readable_float (x : Float) : (Json.float x).readable = true := rfl

@[simp] theorem readable_str (s : String) : (Json.str s).readable = true := rfl

theorem readable_arr (items : List Json) : (Json.arr items).readable = itemsReadable items := rfl

@[simp] theorem readable_obj (members : List (String × Json)) :
    (Json.obj members).readable = membersReadable members := rfl

@[simp] theorem itemsReadable_nil : itemsReadable [] = true := rfl

@[simp] theorem itemsReadable_cons (j : Json) (rest : List Json) :
    itemsReadable (j :: rest) = (j.readable && itemsReadable rest) := rfl

@[simp] theorem membersReadable_nil : membersReadable [] = true := rfl

@[simp] theorem membersReadable_cons (name : String) (j : Json) (rest : List (String × Json)) :
    membersReadable ((name, j) :: rest) = (j.readable && membersReadable rest) := rfl

theorem membersReadable_iff {members : List (String × Json)} :
    membersReadable members = true ↔ ∀ m ∈ members, m.2.readable = true := by
  induction members with
  | nil => simp
  | cons m rest ih =>
    obtain ⟨name, j⟩ := m
    simp [ih]

end Json

namespace Wire

variable {α β : Type} {s : Source} {j : Json}

/-- What has a list or an object in it can be entered, and the inside has room for what is there. -/
theorem Source.enter_of_lt {n : Nat} (h : n + 1 ≤ s.room) :
    ∃ inside, s.enter = some inside ∧ n ≤ inside.room := by
  obtain ⟨room, whole⟩ := s
  cases room with
  | zero => simp at h
  | succ room => exact ⟨⟨room, whole⟩, rfl, by simpa using h⟩

theorem Source.takeIn_of_readable (hj : j.readable = true) (h : j.height ≤ s.room) :
    s.takeIn j = some ⟨s.room, true⟩ := by
  obtain ⟨room, whole⟩ := s
  cases whole with
  | true => rfl
  | false =>
    have hfits : j.fits room = true := by
      simp only [Json.fits, hj, Bool.true_and, decide_eq_true_eq]
      exact h
    simp [Source.takeIn, hfits]

/-- The JSON value is read as `a` wherever there is room for it. -/
structure Carries (d : Decoder α) (j : Json) (a : α) : Prop where
  readable : j.readable = true
  reads : ∀ s : Source, j.height ≤ s.room → d s j = some a

namespace Carries

variable {d : Decoder α} {a : α}

theorem value (h : Carries d j a) : d (.value j) j = some a :=
  h.reads _ (Nat.le_refl _)

theorem map {f : α → β} (h : Carries d j a) : Carries (fun s j => (d s j).map f) j (f a) where
  readable := h.readable
  reads s hs := by rw [h.reads s hs, Option.map_some]

theorem text (t : String) : Carries Wire.text (.str t) t :=
  ⟨by simp, fun _ _ => rfl⟩

theorem boolean (b : Bool) : Carries Wire.boolean (.bool b) b :=
  ⟨by simp, fun _ _ => rfl⟩

theorem word (n : Int64) : Carries Wire.word (.int n.toInt) n where
  readable := by simp
  reads _ _ := by
    have hlow := Int64.minValue_le_toInt n
    have hhigh := Int64.toInt_le n
    simp only [Wire.word, hlow, hhigh, and_self, if_true, Int64.ofInt_toInt]

theorem count (n : Nat) : Carries Wire.count (.int n) n :=
  ⟨by simp, fun _ _ => by simp [Wire.count]⟩

theorem double {x : Float} (h : Decimal.isFinite x = true) :
    Carries Wire.double (.ofFloat x) x := by
  rw [Json.ofFloat, if_pos h]
  exact ⟨by simp, fun _ _ => rfl⟩

theorem choice {options : Assoc α} {name : String} (h : options.get? name = some a) :
    Carries (Wire.choice options) (.str name) a :=
  ⟨by simp, fun _ _ => h⟩

theorem absent : Carries (fun s => optional (d s)) .null none :=
  ⟨by simp, fun _ _ => rfl⟩

theorem present (h : Carries d j a) (hj : j ≠ .null) :
    Carries (fun s => optional (d s)) j (some a) where
  readable := h.readable
  reads s hs := by
    cases j with
    | null => exact absurd rfl hj
    | _ => simp only [optional, h.reads s hs, Option.map_some]

theorem list {e : α → Json} {xs : List α} (h : ∀ x ∈ xs, Carries d (e x) x) :
    Carries (Wire.list d) (.arr (xs.map e)) xs := by
  have hitems : Json.itemsReadable (xs.map e) = true ∧
      ∀ s : Source, Json.itemsHeight (xs.map e) ≤ s.room → (xs.map e).mapM (d s) = some xs := by
    induction xs with
    | nil => exact ⟨by simp, fun _ _ => rfl⟩
    | cons x rest ih =>
      have hx := h x List.mem_cons_self
      obtain ⟨hreadable, hreads⟩ := ih fun y hy => h y (List.mem_cons_of_mem x hy)
      refine ⟨by simp [hx.readable, hreadable], fun s hs => ?_⟩
      rw [List.map_cons, Json.itemsHeight_cons_le] at hs
      simp [hx.reads s hs.1, hreads s hs.2]
  constructor
  · rw [Json.readable_arr]
    exact hitems.1
  · intro s hs
    rw [Json.height] at hs
    obtain ⟨inside, henter, hroom⟩ := Source.enter_of_lt hs
    simp only [Wire.list, henter]
    exact hitems.2 inside hroom

/-- A record is read from the inside of its object. -/
theorem record {read : Decoder α} {members : List (String × Json)}
    (hreadable : Json.membersReadable members = true)
    (hreads : ∀ inside : Source, Json.membersHeight members ≤ inside.room →
      read inside (.obj members) = some a) :
    Carries (fun s j => do
      let inside ← s.enter
      read inside j) (.obj members) a where
  readable := by rw [Json.readable_obj]; exact hreadable
  reads s hs := by
    rw [Json.height] at hs
    obtain ⟨inside, henter, hroom⟩ := Source.enter_of_lt hs
    simp only [henter]
    exact hreads inside hroom

section Variants

variable {variants : Assoc (Source → Option Json → Option α)} {name : String}
  {read : Source → Option Json → Option α}

/-- A variant that carries nothing is read from its name. -/
theorem bare (hname : variants.get? name = some read)
    (hread : ∀ s, read s none = some a) :
    Carries (pairOf variants) (.obj [("t", .str name)]) a := by
  refine record (by simp) fun inside _ => ?_
  have hpair : pair (.obj [("t", .str name)]) =
      some ⟨.str name, none, .tagFirst⟩ := rfl
  simp only [hpair, Option.bind_eq_bind, Option.bind_some, Wire.choice, hname, hread]

/-- A variant that carries a value is read from its name and that value. -/
theorem pair (hname : variants.get? name = some read) (hreadable : j.readable = true)
    (hread : ∀ s : Source, j.height ≤ s.room → read s (some j) = some a) :
    Carries (pairOf variants) (.obj [("t", .str name), ("v", j)]) a := by
  refine record (by simp [hreadable]) fun inside hroom => ?_
  have hpair : Wire.pair (.obj [("t", .str name), ("v", j)]) =
      some ⟨.str name, some j, .tagFirst⟩ := rfl
  simp only [Json.membersHeight_cons_le] at hroom
  simp only [hpair, Option.bind_eq_bind, Option.bind_some, Wire.choice, hname]
  exact hread inside hroom.2.1

theorem carrying (h : Carries d j a)
    (hname : variants.get? name = some (Wire.carrying d)) :
    Carries (pairOf variants) (.obj [("t", .str name), ("v", j)]) a :=
  pair hname h.readable h.reads

end Variants

end Carries

/-! ## Getting at fields -/

@[simp] theorem splitTag_obj (tag : Json) {members : List (String × Json)}
    (h : ∀ m ∈ members, m.1 ≠ "t") :
    splitTag (.obj (("t", tag) :: members)) = some (tag, .obj members) := by
  have hnone : members.filter (fun m => m.1 == "t") = [] := by
    simpa [List.filter_eq_nil_iff] using h
  have hall : members.filter (fun m => m.1 != "t") = members := by
    simpa [List.filter_eq_self] using h
  simp [splitTag, tagName, hnone, hall]

@[simp] theorem fields_obj {names : List String} {members : List (String × Json)}
    (hknown : ∀ m ∈ members, m.1 ∈ names) (hnodup : (members.map Prod.fst).Nodup) :
    fields names (.obj members) = some ⟨members, false⟩ := by
  have hall : members.filter (fun m => names.contains m.1) = members := by
    simpa [List.filter_eq_self] using hknown
  simp only [fields, hall, hnodup, if_true]

/-- Where a record's members stand behind others, its fields are those that are its own. -/
theorem fields_append {names : List String} {others own : List (String × Json)}
    (hothers : ∀ m ∈ others, m.1 ∉ names) (hown : ∀ m ∈ own, m.1 ∈ names)
    (hnodup : (own.map Prod.fst).Nodup) :
    fields names (.obj (others ++ own)) = some ⟨own, false⟩ := by
  have hfilter : (others ++ own).filter (fun m => names.contains m.1) = own := by
    rw [List.filter_append, List.filter_eq_nil_iff.2 (by simpa using hothers),
      List.filter_eq_self.2 (by simpa using hown), List.nil_append]
  simp only [fields, hfilter, hnodup, if_true]

theorem filter_others {names : List String} {others own : List (String × Json)}
    (hothers : ∀ m ∈ others, m.1 ∉ names) (hown : ∀ m ∈ own, m.1 ∈ names) :
    (others ++ own).filter (fun m => !names.contains m.1) = others := by
  rw [List.filter_append, List.filter_eq_self.2 (by simpa using hothers),
    List.filter_eq_nil_iff.2 (by simpa using hown), List.append_nil]

namespace Fields

variable {name other : String} {rest : Assoc Json} {byPosition : Bool} {d : Json → Option α}

@[simp] theorem required_cons :
    required ⟨(other, j) :: rest, byPosition⟩ name d =
      if other = name then d j else required ⟨rest, byPosition⟩ name d := by
  by_cases h : other = name <;> simp [required, Assoc.get?, h]

@[simp] theorem withDefault_cons {missing : α} :
    withDefault ⟨(other, j) :: rest, byPosition⟩ name missing d =
      if other = name then d j else withDefault ⟨rest, byPosition⟩ name missing d := by
  by_cases h : other = name <;> simp [withDefault, Assoc.get?, h]

@[simp] theorem nullable_cons :
    nullable ⟨(other, j) :: rest, byPosition⟩ name d =
      if other = name then optional d j else nullable ⟨rest, byPosition⟩ name d := by
  by_cases h : other = name <;> simp [nullable, Assoc.get?, h]

@[simp] theorem orNull_cons :
    orNull ⟨(other, j) :: rest, byPosition⟩ name d =
      if other = name then optional d j else orNull ⟨rest, byPosition⟩ name d :=
  withDefault_cons

@[simp] theorem orNull_nil : orNull ⟨[], byPosition⟩ name d = some none := rfl

end Fields

end Wire

end CoLang
