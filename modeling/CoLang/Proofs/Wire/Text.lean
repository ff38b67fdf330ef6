import CoLang.Proofs.Json.Text
import CoLang.Proofs.Wire.Bounds
/-!
# Instances as texts

What is written for an instance is plain JSON if its floats are finite and its frames count no
further than a word (`Instance.isPlain_encode`). Of the JSON value, only the syntax in the frames
can be high (`Instance.height_encode_le_iff`), and it is taken in as a whole, so the instance is
refused where there is no room for all of it (`Instance.height_of_decode`).
-/

namespace CoLang

open Wire

/-! ## Plain values -/

namespace Json

variable {ok : Float → Bool}

@[simp] theorem isPlain_null : Json.null.isPlain ok = true := by simp [isPlain]

@[simp] theorem isPlain_bool (b : Bool) : (Json.bool b).isPlain ok = true := by simp [isPlain]

@[simp] theorem isPlain_str (s : String) : (Json.str s).isPlain ok = true := by simp [isPlain]

theorem isPlain_int {n : Int} (hmin : -2 ^ 63 ≤ n) (hmax : n < 2 ^ 64) :
    (Json.int n).isPlain ok = true := by
  have hintMin : intMin = -2 ^ 63 := by decide
  have hintMax : intMax = 2 ^ 64 - 1 := by decide
  simp only [isPlain, hintMin, hintMax, Bool.and_eq_true, decide_eq_true_eq]
  omega

theorem isPlain_nat {n : Nat} (h : n < 2 ^ 64) : (Json.int n).isPlain ok = true :=
  isPlain_int (by omega) (by omega)

theorem isPlain_float {x : Float} (h : ok x = true) : (Json.float x).isPlain ok = true := by
  rwa [isPlain]

@[simp] theorem isPlain_arr {items : List Json} :
    (Json.arr items).isPlain ok = true ↔ ∀ j ∈ items, j.isPlain ok = true := by
  rw [isPlain]
  induction items with
  | nil => simp [itemsPlain]
  | cons j rest ih => simp [itemsPlain, ih]

@[simp] theorem isPlain_obj {members : List (String × Json)} :
    (Json.obj members).isPlain ok = true ↔ ∀ m ∈ members, m.2.isPlain ok = true := by
  rw [isPlain]
  induction members with
  | nil => simp [membersPlain]
  | cons m rest ih => simp [membersPlain, ih]

end Json

theorem Val.isPlain_encode {v : Val} (h : v.isFinite = true) :
    v.encode.isPlain Decimal.isFinite = true := by
  cases v with
  | int n =>
    have hlt := n.toInt_lt
    simp [Val.encode, Json.isPlain_int n.le_toInt (by omega)]
  | float x =>
    have hx : Decimal.isFinite x = true := h
    simp [Val.encode, Json.ofFloat, hx, Json.isPlain_float]
  | str s => simp [Val.encode]
  | bool b => simp [Val.encode]

theorem Val.isPlain_encode? {v : Option Val} (h : v.all Val.isFinite = true) :
    (Val.encode? v).isPlain Decimal.isFinite = true := by
  cases v with
  | none => simp [Val.encode?]
  | some v => exact Val.isPlain_encode h

mutual

theorem Expr.isPlain_encode : ∀ {e : Expr}, e.isFinite = true →
    e.encode.isPlain Decimal.isFinite = true
  | .lit v, h => by
    simp only [Expr.isFinite] at h
    simp [Expr.encode, Val.isPlain_encode h]
  | .var name, _ => by simp [Expr.encode]
  | .binary op left right, h => by
    simp only [Expr.isFinite, Bool.and_eq_true] at h
    simp [Expr.encode, Expr.isPlain_encode h.1, Expr.isPlain_encode h.2]
  | .unary op operand, h => by
    simp only [Expr.isFinite] at h
    simp [Expr.encode, Expr.isPlain_encode h]
  | .call name args, h => by
    simp only [Expr.isFinite] at h
    simpa [Expr.encode] using Expr.isPlain_encodeArgs h

theorem Expr.isPlain_encodeArgs : ∀ {args : List Expr}, Expr.areFinite args = true →
    ∀ j ∈ Expr.encodeArgs args, j.isPlain Decimal.isFinite = true
  | [], _ => by simp [Expr.encodeArgs]
  | e :: rest, h => by
    simp only [Expr.areFinite, Bool.and_eq_true] at h
    simpa [Expr.encodeArgs, Expr.isPlain_encode h.1] using Expr.isPlain_encodeArgs h.2

end

theorem Expr.isPlain_encode? {e : Option Expr} (h : e.all Expr.isFinite = true) :
    (Expr.encode? e).isPlain Decimal.isFinite = true := by
  cases e with
  | none => simp [Expr.encode?]
  | some e => exact Expr.isPlain_encode h

theorem Doc.isPlain_encode? {ok : Float → Bool} (doc : Option Doc) :
    (Doc.encode? doc).isPlain ok = true := by
  cases doc <;> simp [Doc.encode?]

mutual

theorem Stmt.isPlain_encode : ∀ {s : Stmt}, s.isFinite = true →
    s.encode.isPlain Decimal.isFinite = true
  | .varDecl name ty init doc, h => by
    simp only [Stmt.isFinite] at h
    simp [Stmt.encode, Ty.encode, Expr.isPlain_encode? h, Doc.isPlain_encode? doc]
  | .assign name value, h => by
    simp only [Stmt.isFinite] at h
    simp [Stmt.encode, Expr.isPlain_encode h]
  | .expr call, h => by
    simp only [Stmt.isFinite] at h
    simp [Stmt.encode, Expr.isPlain_encode h]
  | .ifElse cond thenBody elseBody, h => by
    simp only [Stmt.isFinite, Bool.and_eq_true] at h
    simpa [Stmt.encode, Expr.isPlain_encode h.1.1, Stmt.isPlain_encodeBlock? h.2] using
      Stmt.isPlain_encodeBlock h.1.2
  | .whileLoop cond body, h => by
    simp only [Stmt.isFinite, Bool.and_eq_true] at h
    simpa [Stmt.encode, Expr.isPlain_encode h.1] using Stmt.isPlain_encodeBlock h.2
  | .ret value, h => by
    simp only [Stmt.isFinite] at h
    simp [Stmt.encode, Expr.isPlain_encode? h]
  | .brk, _ | .cont, _ | .yield, _ | .create .., _ | .resume _, _ => by simp [Stmt.encode]

theorem Stmt.isPlain_encodeBlock : ∀ {body : List Stmt}, Stmt.areFinite body = true →
    ∀ j ∈ Stmt.encodeBlock body, j.isPlain Decimal.isFinite = true
  | [], _ => by simp [Stmt.encodeBlock]
  | s :: rest, h => by
    simp only [Stmt.areFinite, Bool.and_eq_true] at h
    simpa [Stmt.encodeBlock, Stmt.isPlain_encode h.1] using Stmt.isPlain_encodeBlock h.2

theorem Stmt.isPlain_encodeBlock? : ∀ {body : Option (List Stmt)}, Stmt.areFinite? body = true →
    (Stmt.encodeBlock? body).isPlain Decimal.isFinite = true
  | none, _ => by simp [Stmt.encodeBlock?]
  | some body, h => by
    simp only [Stmt.areFinite?] at h
    simpa [Stmt.encodeBlock?] using Stmt.isPlain_encodeBlock h

end

/-! ## Frames and machines -/

/-- The frame counts statements and scopes no further than a word does. -/
structure Frame.Counted (f : Frame) : Prop where
  index : ∀ phase i, f.kind = .block phase i → i < 2 ^ 64
  scopeBase : f.scopeBase < 2 ^ 64

theorem FrameNode.isPlain_encode {node : FrameNode} (h : node.isFinite = true) :
    node.encode.isPlain Decimal.isFinite = true := by
  cases node with
  | block body => simpa [FrameNode.encode, Block.encode] using Stmt.isPlain_encodeBlock h
  | stmt s => simpa [FrameNode.encode] using Stmt.isPlain_encode h

theorem Frame.isPlain_encode {f : Frame} (h : f.isFinite = true) (hcounted : f.Counted) :
    f.encode.isPlain Decimal.isFinite = true := by
  have hkind : ∀ m ∈ f.kind.encodeMembers, m.2.isPlain Decimal.isFinite = true := by
    intro m hm
    cases hk : f.kind <;>
      simp only [hk, FrameKind.encodeMembers, List.mem_cons, List.not_mem_nil, or_false] at hm
    case block phase index =>
      rcases hm with rfl | rfl | rfl
      · simp
      · simp
      · exact Json.isPlain_nat (hcounted.index phase index hk)
    case ifElse => rcases hm with rfl | rfl | rfl <;> simp
    case whileLoop phase iteration =>
      rcases hm with rfl | rfl | rfl
      · simp
      · simp
      · exact Json.isPlain_nat iteration.toNat_lt
    all_goals
      subst hm
      simp
  rw [Frame.encode, Json.isPlain_obj]
  intro m hm
  rcases List.mem_append.1 hm with hm | hm
  · exact hkind m hm
  · simp only [List.mem_cons, List.not_mem_nil, or_false] at hm
    rcases hm with rfl | rfl
    · exact Json.isPlain_nat hcounted.scopeBase
    · exact FrameNode.isPlain_encode h

theorem Binding.isPlain_encode {b : Binding} (h : b.isFinite = true) :
    b.encode.isPlain Decimal.isFinite = true := by
  simp [Binding.encode, Ty.encode, Val.isPlain_encode? h]

theorem Env.isPlain_encode {env : Env} (h : env.isFinite = true) :
    env.encode.isPlain Decimal.isFinite = true := by
  simp only [Env.isFinite, Scope.isFinite, List.all_eq_true] at h
  have hscope : ∀ s ∈ env.scopes, s.encode.isPlain Decimal.isFinite = true := by
    intro s hs
    rw [Scope.encode, Json.isPlain_obj]
    intro m hm
    obtain ⟨entry, hentry, rfl⟩ := List.mem_map.1 hm
    exact Binding.isPlain_encode (h s hs entry hentry)
  simpa [Env.encode, Env.encodeScopes] using hscope

theorem Control.isPlain_encode {c : Control} (h : c.isFinite = true) :
    c.encode.isPlain Decimal.isFinite = true := by
  cases c with
  | returning v => simpa [Control.encode] using Val.isPlain_encode? h
  | _ => simp [Control.encode]

theorem Machine.isPlain_encode {m : Machine} (h : m.isFinite = true)
    (hcounted : ∀ f ∈ m.frames, f.Counted) : m.encode.isPlain Decimal.isFinite = true := by
  simp only [Machine.isFinite, Bool.and_eq_true, List.all_eq_true] at h
  have hframes : ∀ f ∈ m.frames, f.encode.isPlain Decimal.isFinite = true :=
    fun f hf => Frame.isPlain_encode (h.1.1 f hf) (hcounted f hf)
  simpa [Machine.encode, Env.isPlain_encode h.1.2, Control.isPlain_encode h.2] using hframes

/-- Only the machine of an instance can fail to be plain. -/
theorem Instance.isPlain_encode_iff {ok : Float → Bool} (ids : Identity.Format) (i : Instance) :
    (i.encode ids).isPlain ok = true ↔
      ((i.machine.map Machine.encode).getD .null).isPlain ok = true := by
  have hresumes : (Json.int i.resumes.toNat).isPlain ok = true :=
    Json.isPlain_nat i.resumes.toNat_lt
  simp [Instance.encode, hresumes]

/-- The floats of an instance stand in its machine. -/
theorem Instance.floats_encode (ids : Identity.Format) (i : Instance) :
    (i.encode ids).floats = ((i.machine.map Machine.encode).getD .null).floats := by
  simp [Instance.encode, Json.floats, Json.membersFloats]

theorem Instance.isPlain_encode (ids : Identity.Format) {i : Instance} (h : i.isFinite = true)
    (hcounted : ∀ m, i.machine = some m → ∀ f ∈ m.frames, f.Counted) :
    (i.encode ids).isPlain Decimal.isFinite = true := by
  rw [Instance.isPlain_encode_iff]
  unfold Instance.isFinite at h
  cases hm : i.machine with
  | none => simp
  | some m =>
    rw [hm] at h
    exact Machine.isPlain_encode h (hcounted m hm)

/-! ## Heights -/

theorem FrameKind.membersHeight_encodeMembers (kind : FrameKind) :
    Json.membersHeight kind.encodeMembers = 0 := by
  cases kind <;> simp [FrameKind.encodeMembers, Json.membersHeight, Json.height]

theorem Frame.height_encode_le_iff {f : Frame} {h : Nat} :
    f.encode.height ≤ h + 1 ↔ f.node.encode.height ≤ h := by
  simp [Frame.encode, Json.height, Json.membersHeight_append_le, Json.membersHeight,
    FrameKind.membersHeight_encodeMembers]

theorem Json.membersHeight_le_iff {members : List (String × Json)} {h : Nat} :
    Json.membersHeight members ≤ h ↔ ∀ m ∈ members, m.2.height ≤ h := by
  induction members with
  | nil => simp [Json.membersHeight]
  | cons m rest ih =>
    obtain ⟨name, j⟩ := m
    rw [Json.membersHeight_cons_le, ih, List.forall_mem_cons]

theorem Binding.height_encode_le (b : Binding) : b.encode.height ≤ 2 := by
  have hvalue : (Val.encode? b.value).height ≤ 1 := by
    cases b.value with
    | none => simp [Val.encode?, Json.height]
    | some v => simp [Val.encode?, Val.height_encode]
  simp [Binding.encode, Ty.encode, Json.height, Json.membersHeight, hvalue]

theorem Scope.height_encode_le (s : Scope) : s.encode.height ≤ 3 := by
  have hbindings :
      Json.membersHeight (s.bindings.map fun entry => (entry.1, entry.2.encode)) ≤ 2 := by
    rw [Json.membersHeight_le_iff]
    intro m hm
    obtain ⟨entry, -, rfl⟩ := List.mem_map.1 hm
    exact entry.2.height_encode_le
  simp only [Scope.encode, Json.height]
  omega

theorem Env.height_encode_le (env : Env) : env.encode.height ≤ 5 := by
  have hscopes : Json.itemsHeight (env.scopes.reverse.map Scope.encode) ≤ 3 := by
    rw [Json.itemsHeight_le_iff]
    intro j hj
    obtain ⟨s, -, rfl⟩ := List.mem_map.1 hj
    exact s.height_encode_le
  simp only [Env.encode, Env.encodeScopes, Json.height, Json.membersHeight]
  omega

theorem Control.height_encode_le (c : Control) : c.encode.height ≤ 2 := by
  cases c with
  | returning v =>
    cases v with
    | none => simp [Control.encode, Val.encode?, Json.height, Json.membersHeight]
    | some v =>
      simp [Control.encode, Val.encode?, Val.height_encode, Json.height, Json.membersHeight]
  | _ => simp [Control.encode, Json.height, Json.membersHeight]

theorem Machine.height_encode_le_iff {m : Machine} {h : Nat} (hh : 4 ≤ h) :
    m.encode.height ≤ h + 2 ↔ ∀ f ∈ m.frames, f.encode.height ≤ h := by
  have henv := m.env.height_encode_le
  have hcontrol := m.control.height_encode_le
  have hframes : Json.itemsHeight (m.frames.reverse.map Frame.encode) ≤ h ↔
      ∀ f ∈ m.frames, f.encode.height ≤ h := by
    rw [Json.itemsHeight_le_iff]
    simp
  rw [← hframes]
  simp only [Machine.encode, Json.height, Json.membersHeight]
  omega

/-- Only the frames of an instance can be high. -/
theorem Instance.height_encode_le_iff {ids : Identity.Format} {i : Instance} {h : Nat}
    (hh : 4 ≤ h) : (i.encode ids).height ≤ h + 3 ↔
      ∀ m, i.machine = some m → ∀ f ∈ m.frames, f.encode.height ≤ h := by
  cases hm : i.machine with
  | none => simp [Instance.encode, hm, Json.height, Json.membersHeight]
  | some m =>
    simp only [Option.some.injEq, forall_eq', ← Machine.height_encode_le_iff hh]
    simp [Instance.encode, hm, Json.height, Json.membersHeight]

/-! ## Room -/

namespace Wire

variable {α : Type} {s : Source}

theorem height_of_takeIn {j : Json} {s' : Source} (hs : s.whole = false)
    (h : s.takeIn j = some s') : j.height ≤ s.room := by
  simp only [Source.takeIn, hs, Bool.false_eq_true, if_false] at h
  split at h
  case isTrue hfits =>
    simp only [Json.fits, Bool.and_eq_true, decide_eq_true_eq] at hfits
    exact hfits.2
  case isFalse => cases h

theorem height_of_list {d : Decoder α} {items : List Json} {xs : List α} (hs : s.whole = false)
    (h : Wire.list d s (.arr items) = some xs)
    (hd : ∀ inside i a, i ∈ items → inside.whole = false → d inside i = some a →
      i.height ≤ inside.room) : (Json.arr items).height ≤ s.room := by
  obtain ⟨inside, henter, h⟩ := Option.bind_eq_some_iff.1 h
  obtain ⟨hroom, hwhole⟩ := enter_eq_some henter
  have hitems : Json.itemsHeight items ≤ inside.room := by
    rw [Json.itemsHeight_le_iff]
    intro i hi
    obtain ⟨a, ha⟩ := (of_mapM_eq_some h).2.2 i hi
    exact hd inside i a hi (by rw [← hwhole, hs]) ha
  rw [Json.height]
  omega

theorem of_pairOf_carrying {variants : Assoc (Source → Option Json → Option α)} {d : Decoder α}
    {name : String} {j : Json} {a : α} (hname : variants.get? name = some (carrying d))
    (h : pairOf variants s (.obj [("t", .str name), ("v", j)]) = some a) :
    ∃ inside, s.enter = some inside ∧ d inside j = some a := by
  have hpair : pair (.obj [("t", .str name), ("v", j)]) = some ⟨.str name, some j, .tagFirst⟩ := rfl
  obtain ⟨inside, henter, h⟩ := Option.bind_eq_some_iff.1 h
  simp only [hpair, Option.bind_eq_bind, Option.bind_some, choice, hname] at h
  exact ⟨inside, henter, h⟩

end Wire

theorem Stmt.height_of_decode {s : Source} {j : Json} {st : Stmt} (hs : s.whole = false)
    (h : Stmt.decode s j = some st) : j.height ≤ s.room := by
  obtain ⟨s', hs', -⟩ := Option.bind_eq_some_iff.1 h
  exact height_of_takeIn hs hs'

theorem FrameNode.height_of_decode {s : Source} {node node' : FrameNode} (hs : s.whole = false)
    (h : FrameNode.decode s node.encode = some node') : node.encode.height ≤ s.room := by
  cases node with
  | block b =>
    obtain ⟨inside, henter, h⟩ := of_pairOf_carrying rfl h
    obtain ⟨b', hb, -⟩ := Option.map_eq_some_iff.1 h
    obtain ⟨hroom, hwhole⟩ := enter_eq_some henter
    rw [hs] at hwhole
    have hheight := height_of_list hwhole.symm hb fun inside i st _ hinside hst =>
      Stmt.height_of_decode hinside hst
    simp only [FrameNode.encode, Block.encode, Json.height, Json.membersHeight] at hheight ⊢
    omega
  | stmt st =>
    obtain ⟨inside, henter, h⟩ := of_pairOf_carrying rfl h
    obtain ⟨st', hst, -⟩ := Option.map_eq_some_iff.1 h
    obtain ⟨hroom, hwhole⟩ := enter_eq_some henter
    rw [hs] at hwhole
    have hheight := Stmt.height_of_decode hwhole.symm hst
    simp only [FrameNode.encode, Json.height, Json.membersHeight]
    omega

theorem Frame.height_of_decode {s : Source} {f f' : Frame} (hs : s.whole = false)
    (h : Frame.decode s f.encode = some f') : f.encode.height ≤ s.room := by
  obtain ⟨inside, henter, h⟩ := Option.bind_eq_some_iff.1 h
  obtain ⟨hroom, hwhole⟩ := enter_eq_some henter
  rw [hs] at hwhole
  have hfields : fields Frame.ownNames f.encode =
      some ⟨[("scope_base", .int f.scopeBase), ("node", f.node.encode)], false⟩ :=
    fields_append (fun m hm => (FrameKind.of_mem_encodeMembers hm).1) (by simp [Frame.ownNames])
      (by simp)
  obtain ⟨fs, hfs, h⟩ := Option.bind_eq_some_iff.1 h
  cases hfields.symm.trans hfs
  dsimp only at h
  split at h
  case isTrue =>
    obtain ⟨kind, -, h⟩ := Option.bind_eq_some_iff.1 h
    obtain ⟨base, -, h⟩ := Option.bind_eq_some_iff.1 h
    obtain ⟨node, hnode, -⟩ := Option.bind_eq_some_iff.1 h
    have hheight := FrameNode.height_of_decode hwhole.symm (by simpa using hnode)
    rw [hroom]
    exact Frame.height_encode_le_iff.2 hheight
  case isFalse => cases h

theorem Machine.height_of_decode {s : Source} {m m' : Machine} (hs : s.whole = false)
    (h : Machine.decode s m.encode = some m') : ∀ f ∈ m.frames, f.encode.height + 2 ≤ s.room := by
  obtain ⟨inside, henter, h⟩ := Option.bind_eq_some_iff.1 h
  obtain ⟨hroom, hwhole⟩ := enter_eq_some henter
  rw [hs] at hwhole
  obtain ⟨fs, hfs, h⟩ := Option.bind_eq_some_iff.1 h
  obtain ⟨frames, hframes, -⟩ := Option.bind_eq_some_iff.1 h
  rw [Machine.encode, fields_obj (by simp) (by simp)] at hfs
  cases hfs
  rw [Fields.required_cons, if_pos rfl] at hframes
  have hheight := height_of_list hwhole.symm hframes fun inside' j f' hj hinside hf' => by
    obtain ⟨f, -, rfl⟩ := List.mem_map.1 hj
    exact Frame.height_of_decode hinside hf'
  rw [Json.height] at hheight
  intro f hf
  have hle := Json.itemsHeight_le_iff.1 (Nat.le_refl _) f.encode
    (List.mem_map_of_mem (List.mem_reverse.2 hf))
  omega

/-- **An instance is read only where there is room for all of it.** -/
theorem Instance.height_of_decode {ids : Identity.Format} {s : Source} {i i' : Instance}
    (hs : s.whole = false) (hroom : 7 ≤ s.room)
    (h : Instance.decode ids s (i.encode ids) = some i') : (i.encode ids).height ≤ s.room := by
  obtain ⟨h', hh'⟩ : ∃ h', s.room = h' + 3 := ⟨s.room - 3, by omega⟩
  rw [hh', Instance.height_encode_le_iff (by omega)]
  intro m hm f hf
  obtain ⟨inside, henter, h⟩ := Option.bind_eq_some_iff.1 h
  obtain ⟨hinside, hwhole⟩ := enter_eq_some henter
  rw [hs] at hwhole
  obtain ⟨fs, hfs, h⟩ := Option.bind_eq_some_iff.1 h
  obtain ⟨id, -, h⟩ := Option.bind_eq_some_iff.1 h
  obtain ⟨coroutine, -, h⟩ := Option.bind_eq_some_iff.1 h
  obtain ⟨life, -, h⟩ := Option.bind_eq_some_iff.1 h
  obtain ⟨machine, hmachine, -⟩ := Option.bind_eq_some_iff.1 h
  rw [Instance.encode, fields_obj (by simp) (by simp)] at hfs
  cases hfs
  simp only [Fields.nullable_cons, hm] at hmachine
  obtain ⟨m', hm', -⟩ := Option.map_eq_some_iff.1 hmachine
  have := Machine.height_of_decode hwhole.symm hm' f hf
  omega

end CoLang
