import CoLang.Proofs.Json.Bounds
import CoLang.Proofs.Parts
import CoLang.Proofs.Session
import CoLang.Proofs.Wire.Machine
/-!
# What can be read

The syntax that is read from a bounded JSON value has finite floats and short blocks only, and it is
written again at most one level deeper than there was room for when it was read (`Expr.Fits`,
`Stmt.Fits`). The one level is for a call without arguments, which may be read from an object
without a list and is written with one. So the text of a program bounds what its coroutines are
written as (`Program.fits_of_decode`).
-/

namespace CoLang

open Wire

namespace Wire

variable {α : Type} {n : Nat} {j : Json} {s : Source}

/-- Whether the values of all fields that are present are bounded. -/
def Fields.Bounded (n : Nat) (f : Fields) : Prop :=
  ∀ m ∈ f.present, m.2.isBounded n = true

theorem fields_bounded {names : List String} {f : Fields} (hj : j.isBounded n = true)
    (h : fields names j = some f) : f.Bounded n := by
  unfold fields at h
  split at h
  · simp only at h
    split at h <;> cases h
    rw [Json.isBounded_obj] at hj
    exact fun m hm => hj m (List.mem_filter.1 hm).1
  · split at h <;> cases h
    rw [Json.isBounded_arr] at hj
    exact fun m hm => hj.2 m.2 (List.of_mem_zip hm).2
  · cases h

namespace Fields

variable {f : Fields} {name : String} {d : Json → Option α}

theorem exists_of_required {a : α} (hf : f.Bounded n) (h : f.required name d = some a) :
    ∃ j, j.isBounded n = true ∧ d j = some a := by
  obtain ⟨j, hj, h⟩ := Option.bind_eq_some_iff.1 h
  exact ⟨j, hf _ (Assoc.mem_of_get? hj), h⟩

theorem exists_of_withDefault {missing a : α} (hf : f.Bounded n)
    (h : f.withDefault name missing d = some a) :
    a = missing ∨ ∃ j, j.isBounded n = true ∧ d j = some a := by
  unfold withDefault at h
  split at h
  · cases h
    exact .inl rfl
  · next j hj => exact .inr ⟨j, hf _ (Assoc.mem_of_get? hj), h⟩

theorem exists_of_orNull {a : Option α} (hf : f.Bounded n) (h : f.orNull name d = some a) :
    ∀ x, a = some x → ∃ j, j.isBounded n = true ∧ d j = some x := by
  rintro x rfl
  rcases exists_of_withDefault hf h with h | ⟨j, hj, h⟩
  · cases h
  · cases j with
    | null => cases h
    | _ =>
      obtain ⟨y, hy, h⟩ := Option.map_eq_some_iff.1 h
      cases h
      exact ⟨_, hj, hy⟩

end Fields

theorem splitTag_bounded {tag content : Json} (hj : j.isBounded n = true)
    (h : splitTag j = some (tag, content)) : content.isBounded n = true := by
  unfold splitTag at h
  split at h
  · split at h
    · cases h
      rw [Json.isBounded_obj] at hj ⊢
      exact fun m hm => hj m (List.mem_filter.1 hm).1
    · cases h
  · cases h
    rw [Json.isBounded_arr, List.length_cons] at hj
    rw [Json.isBounded_arr]
    exact ⟨by omega, fun i hi => hj.2 i (List.mem_cons_of_mem _ hi)⟩
  · cases h

theorem pair_bounded {p : Pair} (hj : j.isBounded n = true) (h : pair j = some p) :
    ∀ c, p.content = some c → c.isBounded n = true := by
  unfold pair at h
  split at h
  · rw [Json.isBounded_obj] at hj
    split at h
    · split at h <;> cases h
      exact nofun
    · next a x b y hfilter =>
      have hmem : ∀ m ∈ [(a, x), (b, y)], m.2.isBounded n = true := by
        intro m hm
        rw [← hfilter] at hm
        exact hj m (List.mem_filter.1 hm).1
      split_ifs at h <;> cases h
      · rintro c ⟨⟩
        exact hmem (b, y) (by simp)
      · rintro c ⟨⟩
        exact hmem (a, x) (by simp)
    · cases h
  · cases h
    rintro _ ⟨⟩
    rw [Json.isBounded_arr] at hj
    exact hj.2 _ (by simp)
  · cases h

theorem enter_eq_some {inside : Source} (h : s.enter = some inside) :
    s.room = inside.room + 1 ∧ s.whole = inside.whole := by
  unfold Source.enter at h
  split at h
  · cases h
  · next room hroom =>
    cases h
    exact ⟨hroom, rfl⟩

theorem exists_of_choice {options : Assoc α} {a : α} (h : choice options s j = some a) :
    ∃ name, (name, a) ∈ options := by
  unfold choice at h
  split at h
  · exact ⟨_, Assoc.mem_of_get? h⟩
  · obtain ⟨inside, -, h⟩ := Option.bind_eq_some_iff.1 h
    split at h
    · exact ⟨_, Assoc.mem_of_get? h⟩
    · split at h
      · exact ⟨_, Assoc.mem_of_get? h⟩
      · cases h
    · cases h
  · cases h

theorem exists_of_pairOf {variants : Assoc (Source → Option Json → Option α)} {a : α}
    (hj : j.isBounded n = true) (h : pairOf variants s j = some a) :
    1 ≤ s.room ∧ ∃ name read s' content, (name, read) ∈ variants ∧
      (∀ c, content = some c → c.isBounded n = true) ∧ read s' content = some a := by
  obtain ⟨inside, henter, h⟩ := Option.bind_eq_some_iff.1 h
  obtain ⟨p, hp, h⟩ := Option.bind_eq_some_iff.1 h
  have hcontent := pair_bounded hj hp
  refine ⟨by rw [(enter_eq_some henter).1]; omega, ?_⟩
  split at h
  · obtain ⟨read, hread, h⟩ := Option.bind_eq_some_iff.1 h
    obtain ⟨name, hname⟩ := exists_of_choice hread
    exact ⟨name, read, _, _, hname, hcontent, h⟩
  · obtain ⟨read, hread, h⟩ := Option.bind_eq_some_iff.1 h
    obtain ⟨c, hc, h⟩ := Option.bind_eq_some_iff.1 h
    obtain ⟨s', -, h⟩ := Option.bind_eq_some_iff.1 h
    obtain ⟨name, hname⟩ := exists_of_choice hread
    exact ⟨name, read, s', some c, hname, by rw [← hc]; exact hcontent, h⟩
  · obtain ⟨name, -, h⟩ := Option.bind_eq_some_iff.1 h
    obtain ⟨read, hread, h⟩ := Option.bind_eq_some_iff.1 h
    exact ⟨name, read, _, _, Assoc.mem_of_get? hread, hcontent, h⟩

end Wire

/-! ## Values -/

theorem Val.height_encode (v : Val) : v.encode.height = 1 := by
  cases v with
  | float x =>
    simp only [Val.encode, Json.ofFloat]
    split <;> simp [Json.height, Json.membersHeight]
  | _ => simp [Val.encode, Json.height, Json.membersHeight]

theorem Wire.isFinite_of_double {n : Nat} {s : Source} {j : Json} {x : Float}
    (hj : j.isBounded n = true) (h : Wire.double s j = some x) : Decimal.isFinite x = true := by
  unfold Wire.double at h
  split at h
  · next k =>
    cases h
    have hj : Json.intMin ≤ k ∧ k ≤ Json.intMax := by simpa [Json.isBounded] using hj
    unfold Json.intMin Json.intMax at hj
    refine Decimal.isFinite_ofInt ?_
    have hmin : Int64.minValue.toInt = -2 ^ 63 := by decide
    have hsize : (UInt64.size : Int) = 2 ^ 64 := rfl
    omega
  · cases h
    simpa [Json.isBounded] using hj
  · cases h

theorem Val.isFinite_of_decode {n : Nat} {s : Source} {j : Json} {v : Val}
    (hj : j.isBounded n = true) (h : Val.decode s j = some v) :
    v.isFinite = true ∧ 1 ≤ s.room := by
  obtain ⟨hroom, name, read, s', content, hread, hcontent, h⟩ := exists_of_pairOf hj h
  refine ⟨?_, hroom⟩
  simp only [List.mem_cons, Prod.mk.injEq, List.not_mem_nil, or_false] at hread
  rcases hread with ⟨-, rfl⟩ | ⟨-, rfl⟩ | ⟨-, rfl⟩ | ⟨-, rfl⟩ <;>
    cases content with
    | none => cases h
    | some c =>
      obtain ⟨x, hx, rfl⟩ := Option.map_eq_some_iff.1 h
      first
        | rfl
        | exact isFinite_of_double (hcontent c rfl) hx

/-! ## Lists -/

theorem Wire.of_mapM_eq_some {α β : Type} {f : α → Option β} {xs : List α} {ys : List β}
    (h : xs.mapM f = some ys) : ys.length = xs.length ∧ (∀ y ∈ ys, ∃ x ∈ xs, f x = some y) ∧
      ∀ x ∈ xs, ∃ y, f x = some y := by
  induction xs generalizing ys with
  | nil =>
    cases h
    exact ⟨rfl, nofun, nofun⟩
  | cons x rest ih =>
    rw [List.mapM_cons] at h
    obtain ⟨y, hy, h⟩ := Option.bind_eq_some_iff.1 h
    obtain ⟨ys', hys', h⟩ := Option.bind_eq_some_iff.1 h
    cases h
    obtain ⟨hlength, hgiven, hread⟩ := ih hys'
    refine ⟨by simp [hlength], ?_, ?_⟩
    · intro b hb
      rcases List.mem_cons.1 hb with rfl | hb
      · exact ⟨x, List.mem_cons_self, hy⟩
      · obtain ⟨a, ha, hab⟩ := hgiven b hb
        exact ⟨a, List.mem_cons_of_mem _ ha, hab⟩
    · intro a ha
      rcases List.mem_cons.1 ha with rfl | ha
      · exact ⟨y, hy⟩
      · exact hread a ha

theorem Json.itemsHeight_le_iff {items : List Json} {n : Nat} :
    Json.itemsHeight items ≤ n ↔ ∀ j ∈ items, j.height ≤ n := by
  induction items with
  | nil => simp [Json.itemsHeight]
  | cons j rest ih => simp [ih]

theorem Wire.items?_bounded {n : Nat} {j : Json} {items : List Json} (hj : j.isBounded n = true)
    (h : items? j = some items) : items.length ≤ n ∧ ∀ i ∈ items, i.isBounded n = true := by
  cases j <;> cases h
  exact Json.isBounded_arr.1 hj

/-! ## Expressions -/

/-- The expression has finite floats only and is written at most `height` levels deep. -/
structure Expr.Fits (height : Nat) (e : Expr) : Prop where
  finite : e.isFinite = true
  height : e.encode.height ≤ height

namespace Expr

theorem areFinite_iff {args : List Expr} :
    areFinite args = true ↔ ∀ e ∈ args, e.isFinite = true := by
  induction args with
  | nil => simp [areFinite]
  | cons e rest ih => simp [areFinite, ih]

theorem encodeArgs_eq_map (args : List Expr) : encodeArgs args = args.map encode := by
  induction args with
  | nil => simp [encodeArgs]
  | cons e rest ih => simp [encodeArgs, ih]

variable {h : Nat}

theorem Fits.lit {v : Val} (hv : v.isFinite = true) (h1 : 1 ≤ h) : (Expr.lit v).Fits (h + 1) := by
  refine ⟨hv, ?_⟩
  simp only [encode, Json.height, Json.membersHeight, Val.height_encode]
  omega

theorem Fits.var (name : String) : (Expr.var name).Fits (h + 1) :=
  ⟨rfl, by simp [encode, Json.height, Json.membersHeight]⟩

theorem Fits.binary (op : BinaryOp) {left right : Expr} (hl : left.Fits h) (hr : right.Fits h) :
    (Expr.binary op left right).Fits (h + 1) := by
  refine ⟨by simp [isFinite, hl.finite, hr.finite], ?_⟩
  have := hl.height
  have := hr.height
  simp only [encode, Json.height, Json.membersHeight]
  omega

theorem Fits.unary (op : UnaryOp) {operand : Expr} (ho : operand.Fits h) :
    (Expr.unary op operand).Fits (h + 1) := by
  refine ⟨by simp [isFinite, ho.finite], ?_⟩
  have := ho.height
  simp only [encode, Json.height, Json.membersHeight]
  omega

theorem Fits.call (name : String) {args : List Expr} (hargs : ∀ e ∈ args, e.Fits h) :
    (Expr.call name args).Fits (h + 2) := by
  refine ⟨?_, ?_⟩
  · rw [isFinite, areFinite_iff]
    exact fun e he => (hargs e he).finite
  · have hitems : Json.itemsHeight (encodeArgs args) ≤ h := by
      rw [encodeArgs_eq_map, Json.itemsHeight_le_iff]
      intro j hj
      obtain ⟨e, he, rfl⟩ := List.mem_map.1 hj
      exact (hargs e he).height
    simp only [encode, Json.height, Json.membersHeight]
    omega

variable {n : Nat} {whole : Bool} {j : Json} {e : Expr}

/-- An expression is written at most one level deeper than there was room when it was read: a call
without arguments may be read where there is no room for a list. -/
theorem fits_of_decodeWhole {room : Nat} (hj : j.isBounded n = true)
    (h : decodeWhole room whole j = some e) : e.Fits (room + 1) := by
  -- Arguments stand two levels inside a call, hence the strong induction.
  induction room using Nat.strongRecOn generalizing whole j e with
  | ind room ih =>
    cases room with
    | zero => cases h
    | succ room =>
      rw [decodeWhole] at h
      obtain ⟨⟨tag, content⟩, htag, h⟩ := Option.bind_eq_some_iff.1 h
      obtain ⟨name, -, h⟩ := Option.bind_eq_some_iff.1 h
      have hfields : ∀ names f, fields names content = some f → f.Bounded n :=
        fun names f => fields_bounded (splitTag_bounded hj htag)
      split at h
      · obtain ⟨f, hf, h⟩ := Option.bind_eq_some_iff.1 h
        obtain ⟨v, hv, h⟩ := Option.bind_eq_some_iff.1 h
        obtain ⟨jv, hjv, hv⟩ := Fields.exists_of_required (hfields _ _ hf) hv
        obtain ⟨hfinite, hroom⟩ := Val.isFinite_of_decode hjv hv
        cases h
        exact .lit hfinite (Nat.le_succ_of_le hroom)
      · obtain ⟨f, -, h⟩ := Option.bind_eq_some_iff.1 h
        obtain ⟨x, -, h⟩ := Option.bind_eq_some_iff.1 h
        cases h
        exact .var x
      · obtain ⟨f, hf, h⟩ := Option.bind_eq_some_iff.1 h
        obtain ⟨op, -, h⟩ := Option.bind_eq_some_iff.1 h
        obtain ⟨left, hleft, h⟩ := Option.bind_eq_some_iff.1 h
        obtain ⟨right, hright, h⟩ := Option.bind_eq_some_iff.1 h
        obtain ⟨jl, hjl, hleft⟩ := Fields.exists_of_required (hfields _ _ hf) hleft
        obtain ⟨jr, hjr, hright⟩ := Fields.exists_of_required (hfields _ _ hf) hright
        cases h
        exact .binary op (ih room (Nat.lt_succ_self _) hjl hleft)
          (ih room (Nat.lt_succ_self _) hjr hright)
      · obtain ⟨f, hf, h⟩ := Option.bind_eq_some_iff.1 h
        obtain ⟨op, -, h⟩ := Option.bind_eq_some_iff.1 h
        obtain ⟨operand, hoperand, h⟩ := Option.bind_eq_some_iff.1 h
        obtain ⟨jo, hjo, hoperand⟩ := Fields.exists_of_required (hfields _ _ hf) hoperand
        cases h
        exact .unary op (ih room (Nat.lt_succ_self _) hjo hoperand)
      · obtain ⟨f, hf, h⟩ := Option.bind_eq_some_iff.1 h
        obtain ⟨callee, -, h⟩ := Option.bind_eq_some_iff.1 h
        obtain ⟨args, hargs, h⟩ := Option.bind_eq_some_iff.1 h
        cases h
        refine .call callee ?_
        rcases Fields.exists_of_withDefault (hfields _ _ hf) hargs with rfl | ⟨ja, hja, hargs⟩
        · intro arg harg
          cases harg
        · cases room with
          | zero => cases hargs
          | succ room =>
            obtain ⟨items, hitems, hargs⟩ := Option.bind_eq_some_iff.1 hargs
            have hbounded := items?_bounded hja hitems
            intro arg harg
            obtain ⟨i, hi, hdecode⟩ := (of_mapM_eq_some hargs).2.1 arg harg
            exact ih room (by omega) (hbounded.2 i hi) hdecode
      · cases h

theorem fits_of_decode {s : Source} (hj : j.isBounded n = true) (h : decode s j = some e) :
    e.Fits (s.room + 1) := by
  obtain ⟨s', -, h⟩ := Option.bind_eq_some_iff.1 h
  exact fits_of_decodeWhole hj h

theorem fits_of_required {s : Source} {f : Fields} {name : String} (hf : f.Bounded n)
    (h : f.required name (decode s) = some e) : e.Fits (s.room + 1) := by
  obtain ⟨j, hj, h⟩ := Fields.exists_of_required hf h
  exact fits_of_decode hj h

theorem fits_of_orNull {s : Source} {f : Fields} {name : String} {e? : Option Expr}
    (hf : f.Bounded n) (h : f.orNull name (decode s) = some e?) :
    ∀ e, e? = some e → e.Fits (s.room + 1) := by
  intro e he
  obtain ⟨j, hj, h⟩ := Fields.exists_of_orNull hf h e he
  exact fits_of_decode hj h

end Expr

/-! ## Statements -/

theorem Expr.height_encode?_le {h : Nat} {e : Option Expr} (he : ∀ x, e = some x → x.Fits h) :
    (Expr.encode? e).height ≤ h := by
  cases e with
  | none => simp [Expr.encode?, Json.height]
  | some x => exact (he x rfl).height

theorem Expr.all_isFinite {h : Nat} {e : Option Expr} (he : ∀ x, e = some x → x.Fits h) :
    e.all Expr.isFinite = true := by
  cases e with
  | none => rfl
  | some x => exact (he x rfl).finite

theorem Doc.height_encode?_le (doc : Option Doc) : (Doc.encode? doc).height ≤ 1 := by
  cases doc with
  | none => simp [Doc.encode?, Json.height]
  | some lines =>
    have hlines : Json.itemsHeight (lines.map .str) ≤ 0 := by
      simp only [Json.itemsHeight_le_iff, List.mem_map]
      rintro _ ⟨line, -, rfl⟩
      simp [Json.height]
    simp only [Doc.encode?, Json.height]
    omega

/-- The blocks right in a statement have at most `n` statements. -/
def Stmt.isShort (n : Nat) : Stmt → Bool
  | .ifElse _ thenBody elseBody => thenBody.length ≤ n && elseBody.all (·.length ≤ n)
  | .whileLoop _ body => body.length ≤ n
  | _ => true

/-- The statement has finite floats and short blocks only and is written at most `height` levels
deep. -/
structure Stmt.Fits (n height : Nat) (s : Stmt) : Prop where
  finite : s.isFinite = true
  short : s.all (isShort n) = true
  height : s.encode.height ≤ height

/-- The block is short and its statements fit. -/
structure Block.Fits (n height : Nat) (b : Block) : Prop where
  short : b.length ≤ n
  stmts : ∀ s ∈ b, s.Fits n height

namespace Stmt

theorem height_encodeBlock {b : Block} {h : Nat} :
    Json.itemsHeight (encodeBlock b) ≤ h ↔ ∀ s ∈ b, s.encode.height ≤ h := by
  simp [encodeBlock_eq_map, Json.itemsHeight_le_iff]

end Stmt

namespace Block.Fits

variable {n h : Nat} {b : Block}

theorem finite (hb : Block.Fits n h b) : Stmt.areFinite b = true :=
  Stmt.areFinite_iff.2 fun s hs => (hb.stmts s hs).finite

theorem all (hb : Block.Fits n h b) : Stmt.allBlock (Stmt.isShort n) b = true :=
  Stmt.allBlock_iff.2 fun s hs => (hb.stmts s hs).short

theorem height (hb : Block.Fits n h b) : Json.itemsHeight (Stmt.encodeBlock b) ≤ h :=
  Stmt.height_encodeBlock.2 fun s hs => (hb.stmts s hs).height

end Block.Fits

namespace Stmt

variable {n h : Nat}

theorem Fits.varDecl (name : String) (ty : Ty) {init : Option Expr} (doc : Option Doc)
    (hinit : ∀ e, init = some e → e.Fits (h + 1)) :
    (Stmt.varDecl name ty init doc).Fits n (h + 2) := by
  refine ⟨Expr.all_isFinite hinit, rfl, ?_⟩
  have := Expr.height_encode?_le hinit
  have := Doc.height_encode?_le doc
  simp only [encode, Ty.encode, Json.height, Json.membersHeight]
  omega

theorem Fits.assign (name : String) {value : Expr} (hvalue : value.Fits (h + 1)) :
    (Stmt.assign name value).Fits n (h + 2) := by
  refine ⟨hvalue.finite, rfl, ?_⟩
  have := hvalue.height
  simp only [encode, Json.height, Json.membersHeight]
  omega

theorem Fits.expr {call : Expr} (hcall : call.Fits (h + 1)) :
    (Stmt.expr call).Fits n (h + 2) := by
  refine ⟨hcall.finite, rfl, ?_⟩
  have := hcall.height
  simp only [encode, Json.height, Json.membersHeight]
  omega

theorem Fits.ret {value : Option Expr} (hvalue : ∀ e, value = some e → e.Fits (h + 1)) :
    (Stmt.ret value).Fits n (h + 2) := by
  refine ⟨Expr.all_isFinite hvalue, rfl, ?_⟩
  have := Expr.height_encode?_le hvalue
  simp only [encode, Json.height, Json.membersHeight]
  omega

theorem Fits.ifElse {cond : Expr} {thenBody : Block} {elseBody : Option Block}
    (hcond : cond.Fits (h + 1)) (hthen : Block.Fits n h thenBody)
    (helse : ∀ b, elseBody = some b → Block.Fits n h b) :
    (Stmt.ifElse cond thenBody elseBody).Fits n (h + 2) := by
  have := hcond.height
  have := hthen.height
  cases elseBody with
  | none =>
    refine ⟨?_, ?_, ?_⟩
    · simp [isFinite, areFinite?, hcond.finite, hthen.finite]
    · simp [all, allElse, isShort, hthen.short, hthen.all]
    · simp only [encode, encodeBlock?, Json.height, Json.membersHeight]
      omega
  | some b =>
    have hb := helse b rfl
    have := hb.height
    refine ⟨?_, ?_, ?_⟩
    · simp [isFinite, areFinite?, hcond.finite, hthen.finite, hb.finite]
    · simp [all, allElse, isShort, hthen.short, hthen.all, hb.short, hb.all]
    · simp only [encode, encodeBlock?, Json.height, Json.membersHeight]
      omega

theorem Fits.whileLoop {cond : Expr} {body : Block} (hcond : cond.Fits (h + 1))
    (hbody : Block.Fits n h body) : (Stmt.whileLoop cond body).Fits n (h + 2) := by
  refine ⟨by simp [isFinite, hcond.finite, hbody.finite], ?_, ?_⟩
  · simp [all, isShort, hbody.short, hbody.all]
  · have := hcond.height
    have := hbody.height
    simp only [encode, Json.height, Json.membersHeight]
    omega

theorem fits_of_mem {b : Block} {s : Stmt} (hs : s ∈ b) (hfinite : areFinite b = true)
    (hshort : allBlock (isShort n) b = true) (hheight : Json.itemsHeight (encodeBlock b) ≤ h) :
    s.Fits n h :=
  ⟨areFinite_iff.1 hfinite s hs, allBlock_iff.1 hshort s hs, height_encodeBlock.1 hheight s hs⟩

/-- What fits passes to the parts of a statement. -/
theorem hereditary_fits (n h : Nat) : Hereditary (Stmt.Fits n h) where
  thenBody := by
    rintro cond thenBody elseBody ⟨hfinite, hshort, hheight⟩ s hs
    simp only [isFinite, Bool.and_eq_true] at hfinite
    simp only [all, Bool.and_eq_true] at hshort
    simp only [encode, Json.height, Json.membersHeight] at hheight
    exact fits_of_mem hs hfinite.1.2 hshort.1.2 (by omega)
  elseBody := by
    rintro cond thenBody elseBody ⟨hfinite, hshort, hheight⟩ s hs
    simp only [isFinite, areFinite?, Bool.and_eq_true] at hfinite
    simp only [all, allElse, Bool.and_eq_true] at hshort
    simp only [encode, encodeBlock?, Json.height, Json.membersHeight] at hheight
    exact fits_of_mem hs hfinite.2 hshort.2 (by omega)
  body := by
    rintro cond body ⟨hfinite, hshort, hheight⟩ s hs
    simp only [isFinite, Bool.and_eq_true] at hfinite
    simp only [all, Bool.and_eq_true] at hshort
    simp only [encode, Json.height, Json.membersHeight] at hheight
    exact fits_of_mem hs hfinite.2 hshort.2 (by omega)

/-- The statements without parts that hold no expression fit anywhere. -/
theorem fits_of_height {s : Stmt} (hfinite : s.isFinite = true) (hshort : s.all (isShort n) = true)
    (hheight : s.encode.height = 1) : s.Fits n (h + 2) :=
  ⟨hfinite, hshort, by omega⟩

variable {whole : Bool} {j : Json} {s : Stmt}

/-- How the blocks right in a statement are read, `room` levels deep. -/
def decodeParts (room : Nat) (j : Json) : Option Block :=
  match room with
  | 0 => none
  | room + 1 => do (← items? j).mapM (decodeWhole room true)

theorem fits_of_decodeParts {room : Nat} {b : Block}
    (ih : ∀ r < room, ∀ {whole j s}, j.isBounded n = true → decodeWhole r whole j = some s →
      s.Fits n (r + 1))
    (hj : j.isBounded n = true) (h : decodeParts room j = some b) : Block.Fits n room b := by
  cases room with
  | zero => cases h
  | succ room =>
    obtain ⟨items, hitems, h⟩ := Option.bind_eq_some_iff.1 h
    have hbounded := items?_bounded hj hitems
    obtain ⟨hlength, hgiven, -⟩ := of_mapM_eq_some h
    refine ⟨by omega, fun s hs => ?_⟩
    obtain ⟨i, hi, hdecode⟩ := hgiven s hs
    exact ih room (by omega) (hbounded.2 i hi) hdecode

theorem fits_of_decodeWhole {room : Nat} (hj : j.isBounded n = true)
    (h : decodeWhole room whole j = some s) : s.Fits n (room + 1) := by
  induction room using Nat.strongRecOn generalizing whole j s with
  | ind room ih =>
    cases room with
    | zero => cases h
    | succ room =>
      have hblock : ∀ jb b, jb.isBounded n = true → decodeParts room jb = some b →
          Block.Fits n room b :=
        fun jb b hjb hb => fits_of_decodeParts (fun r hr => ih r (by omega)) hjb hb
      rw [decodeWhole] at h
      obtain ⟨⟨tag, content⟩, htag, h⟩ := Option.bind_eq_some_iff.1 h
      obtain ⟨name, -, h⟩ := Option.bind_eq_some_iff.1 h
      have hfields : ∀ names f, fields names content = some f → f.Bounded n :=
        fun names f => fields_bounded (splitTag_bounded hj htag)
      split at h
      · obtain ⟨f, hf, h⟩ := Option.bind_eq_some_iff.1 h
        obtain ⟨x, -, h⟩ := Option.bind_eq_some_iff.1 h
        obtain ⟨ty, -, h⟩ := Option.bind_eq_some_iff.1 h
        obtain ⟨init, hinit, h⟩ := Option.bind_eq_some_iff.1 h
        obtain ⟨doc, -, h⟩ := Option.bind_eq_some_iff.1 h
        cases h
        exact .varDecl x ty doc (Expr.fits_of_orNull (hfields _ _ hf) hinit)
      · obtain ⟨f, hf, h⟩ := Option.bind_eq_some_iff.1 h
        obtain ⟨x, -, h⟩ := Option.bind_eq_some_iff.1 h
        obtain ⟨value, hvalue, h⟩ := Option.bind_eq_some_iff.1 h
        cases h
        exact .assign x (Expr.fits_of_required (hfields _ _ hf) hvalue)
      · obtain ⟨f, hf, h⟩ := Option.bind_eq_some_iff.1 h
        obtain ⟨call, hcall, h⟩ := Option.bind_eq_some_iff.1 h
        cases h
        exact .expr (Expr.fits_of_required (hfields _ _ hf) hcall)
      · obtain ⟨f, hf, h⟩ := Option.bind_eq_some_iff.1 h
        obtain ⟨cond, hcond, h⟩ := Option.bind_eq_some_iff.1 h
        obtain ⟨thenBody, hthen, h⟩ := Option.bind_eq_some_iff.1 h
        obtain ⟨elseBody, helse, h⟩ := Option.bind_eq_some_iff.1 h
        obtain ⟨jt, hjt, hthen⟩ := Fields.exists_of_required (hfields _ _ hf) hthen
        cases h
        refine .ifElse (Expr.fits_of_required (hfields _ _ hf) hcond) (hblock jt _ hjt hthen) ?_
        intro b hb
        obtain ⟨je, hje, hdecode⟩ := Fields.exists_of_orNull (hfields _ _ hf) helse b hb
        exact hblock je b hje hdecode
      · obtain ⟨f, hf, h⟩ := Option.bind_eq_some_iff.1 h
        obtain ⟨cond, hcond, h⟩ := Option.bind_eq_some_iff.1 h
        obtain ⟨body, hbody, h⟩ := Option.bind_eq_some_iff.1 h
        obtain ⟨jb, hjb, hbody⟩ := Fields.exists_of_required (hfields _ _ hf) hbody
        cases h
        exact .whileLoop (Expr.fits_of_required (hfields _ _ hf) hcond) (hblock jb _ hjb hbody)
      · obtain ⟨f, hf, h⟩ := Option.bind_eq_some_iff.1 h
        obtain ⟨value, hvalue, h⟩ := Option.bind_eq_some_iff.1 h
        cases h
        exact .ret (Expr.fits_of_orNull (hfields _ _ hf) hvalue)
      · obtain ⟨-, -, h⟩ := Option.bind_eq_some_iff.1 h
        cases h
        exact fits_of_height rfl rfl rfl
      · obtain ⟨-, -, h⟩ := Option.bind_eq_some_iff.1 h
        cases h
        exact fits_of_height rfl rfl rfl
      · obtain ⟨-, -, h⟩ := Option.bind_eq_some_iff.1 h
        cases h
        exact fits_of_height rfl rfl rfl
      · obtain ⟨f, -, h⟩ := Option.bind_eq_some_iff.1 h
        obtain ⟨x, -, h⟩ := Option.bind_eq_some_iff.1 h
        obtain ⟨c, -, h⟩ := Option.bind_eq_some_iff.1 h
        cases h
        exact fits_of_height rfl rfl rfl
      · obtain ⟨f, -, h⟩ := Option.bind_eq_some_iff.1 h
        obtain ⟨x, -, h⟩ := Option.bind_eq_some_iff.1 h
        cases h
        exact fits_of_height rfl rfl rfl
      · cases h

theorem fits_of_decode {source : Source} (hj : j.isBounded n = true)
    (h : decode source j = some s) : s.Fits n (source.room + 1) := by
  obtain ⟨-, -, h⟩ := Option.bind_eq_some_iff.1 h
  exact fits_of_decodeWhole hj h

end Stmt

/-! ## Programs -/

variable {n : Nat} {s : Source} {j : Json}

theorem Wire.forall_of_list {α : Type} {d : Decoder α} {P : α → Prop} {xs : List α}
    (hj : j.isBounded n = true) (h : Wire.list d s j = some xs)
    (hd : ∀ inside i a, s.room = inside.room + 1 → i.isBounded n = true → d inside i = some a →
      P a) : xs.length ≤ n ∧ ∀ a ∈ xs, P a := by
  cases j with
  | arr items =>
    obtain ⟨inside, henter, h⟩ := Option.bind_eq_some_iff.1 h
    obtain ⟨hlength, hitems⟩ := Json.isBounded_arr.1 hj
    obtain ⟨hlen, hgiven, -⟩ := of_mapM_eq_some h
    refine ⟨by omega, fun a ha => ?_⟩
    obtain ⟨i, hi, hdecode⟩ := hgiven a ha
    exact hd inside i a (enter_eq_some henter).1 (hitems i hi) hdecode
  | _ => cases h

theorem Block.fits_of_decode {b : Block} (hj : j.isBounded n = true)
    (h : Block.decode s j = some b) : Block.Fits n s.room b := by
  obtain ⟨hlength, hstmts⟩ := Wire.forall_of_list hj h fun inside i st hroom hi hst => by
    have hfits := Stmt.fits_of_decode hi hst
    rwa [← hroom] at hfits
  exact ⟨hlength, hstmts⟩

theorem Coroutine.fits_of_decode {c : Coroutine} (hj : j.isBounded n = true)
    (h : Coroutine.decode s j = some c) : Block.Fits n (s.room - 1) c.body := by
  obtain ⟨inside, henter, h⟩ := Option.bind_eq_some_iff.1 h
  obtain ⟨f, hf, h⟩ := Option.bind_eq_some_iff.1 h
  obtain ⟨name, -, h⟩ := Option.bind_eq_some_iff.1 h
  obtain ⟨body, hbody, h⟩ := Option.bind_eq_some_iff.1 h
  obtain ⟨doc, -, h⟩ := Option.bind_eq_some_iff.1 h
  obtain ⟨jb, hjb, hbody⟩ := Fields.exists_of_required (fields_bounded hj hf) hbody
  cases h
  rw [(enter_eq_some henter).1]
  exact Block.fits_of_decode hjb hbody

/-- **What a program is read from bounds its coroutines**: their floats are finite, their blocks are
no longer than the lists it was read from, and their bodies stand three levels inside it. -/
theorem Program.fits_of_decode {p : Program} (hj : j.isBounded n = true)
    (h : Program.decode s j = some p) : ∀ c ∈ p.coroutines, Block.Fits n (s.room - 3) c.body := by
  obtain ⟨inside, henter, h⟩ := Option.bind_eq_some_iff.1 h
  obtain ⟨f, hf, h⟩ := Option.bind_eq_some_iff.1 h
  obtain ⟨functions, -, h⟩ := Option.bind_eq_some_iff.1 h
  obtain ⟨coroutines, hcoroutines, h⟩ := Option.bind_eq_some_iff.1 h
  obtain ⟨main, -, h⟩ := Option.bind_eq_some_iff.1 h
  cases h
  rcases Fields.exists_of_withDefault (fields_bounded hj hf) hcoroutines with
    rfl | ⟨jc, hjc, hcoroutines⟩
  · exact nofun
  · refine (Wire.forall_of_list hjc hcoroutines fun inside' i c hroom hi hc => ?_).2
    have hfits := Coroutine.fits_of_decode hi hc
    have henter := (enter_eq_some henter).1
    rwa [show s.room - 3 = inside'.room - 1 by omega]

end CoLang
