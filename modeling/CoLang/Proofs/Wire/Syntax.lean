import CoLang.Wire.Syntax
import CoLang.Proofs.Wire.Carries
/-!
# Programs are carried by their encoding

The encoding of a program, and of each of its parts, carries it, as long as every float in it is
finite: JSON has no other floats.

Expressions and statements are read with a bound on how deep they nest, after they were taken in as
a whole. So the lemmas about them say at which bound they can be read (`Expr.decodeWhole_encode`,
`Stmt.decodeWhole_encode`), and readability is shown apart.
-/

namespace CoLang

open Wire

/-! ## Finite floats -/

/-- Whether a value is not a float that JSON cannot hold. -/
def Val.isFinite : Val → Bool
  | .float x => Decimal.isFinite x
  | _ => true

mutual

/-- Whether all floats in an expression are finite. -/
def Expr.isFinite : Expr → Bool
  | .lit v => v.isFinite
  | .var _ => true
  | .binary _ left right => left.isFinite && right.isFinite
  | .unary _ operand => operand.isFinite
  | .call _ args => Expr.areFinite args

/-- Whether all floats in some arguments are finite. -/
def Expr.areFinite : List Expr → Bool
  | [] => true
  | e :: rest => e.isFinite && Expr.areFinite rest

end

mutual

/-- Whether all floats in a statement are finite. -/
def Stmt.isFinite : Stmt → Bool
  | .varDecl _ _ init _ => init.all Expr.isFinite
  | .assign _ value => value.isFinite
  | .expr call => call.isFinite
  | .ifElse cond thenBody elseBody =>
    cond.isFinite && Stmt.areFinite thenBody && Stmt.areFinite? elseBody
  | .whileLoop cond body => cond.isFinite && Stmt.areFinite body
  | .ret value => value.all Expr.isFinite
  | _ => true

/-- Whether all floats in a block are finite. -/
def Stmt.areFinite : List Stmt → Bool
  | [] => true
  | s :: rest => s.isFinite && Stmt.areFinite rest

/-- Whether all floats in a block are finite, if there is one. -/
def Stmt.areFinite? : Option (List Stmt) → Bool
  | none => true
  | some body => Stmt.areFinite body

end

/-- Whether all floats in a function are finite. -/
def Function.isFinite (f : Function) : Bool := Stmt.areFinite f.body

/-- Whether all floats in a coroutine are finite. -/
def Coroutine.isFinite (c : Coroutine) : Bool := Stmt.areFinite c.body

/-- Whether all floats in a program are finite. -/
def Program.isFinite (p : Program) : Bool :=
  p.functions.all Function.isFinite && p.coroutines.all Coroutine.isFinite &&
    Stmt.areFinite p.main

/-! ## Names and values -/

@[simp] theorem Wire.items?_arr (items : List Json) : items? (.arr items) = some items := rfl

theorem Ty.carries (ty : Ty) : Carries Ty.decode ty.encode ty :=
  .choice (by cases ty <;> rfl)

theorem BinaryOp.carries (op : BinaryOp) : Carries (choice BinaryOp.names) (.str op.tag) op :=
  .choice (by rcases op with op | op | op | op <;> cases op <;> rfl)

theorem UnaryOp.carries (op : UnaryOp) : Carries (choice UnaryOp.names) (.str op.tag) op :=
  .choice (by cases op <;> rfl)

theorem Val.carries {v : Val} (h : v.isFinite = true) : Carries Val.decode v.encode v := by
  cases v with
  | int n => exact .carrying (.map (.word n)) rfl
  | float x => exact .carrying (.map (.double h)) rfl
  | str s => exact .carrying (.map (.text s)) rfl
  | bool b => exact .carrying (.map (.boolean b)) rfl

theorem Doc.carries (doc : Option Doc) :
    Carries (fun s => Wire.optional (Doc.decode s)) (Doc.encode? doc) doc := by
  cases doc with
  | none => exact .absent
  | some lines => exact .present (.list fun line _ => .text line) (by simp [Doc.encode?])

/-! ## Expressions -/

theorem Val.readable_encode (v : Val) : v.encode.readable = true := by
  cases v with
  | float x =>
    simp only [Val.encode, Json.ofFloat]
    split <;> simp
  | _ => simp [Val.encode]

mutual

theorem Expr.readable_encode : ∀ e : Expr, e.encode.readable = true
  | .lit v => by simp [Expr.encode, Val.readable_encode v]
  | .var name => by simp [Expr.encode]
  | .binary op left right => by
    simp [Expr.encode, Expr.readable_encode left, Expr.readable_encode right]
  | .unary op operand => by simp [Expr.encode, Expr.readable_encode operand]
  | .call name args => by
    simp [Expr.encode, Json.readable_arr, Expr.readable_encodeArgs args]

theorem Expr.readable_encodeArgs :
    ∀ args : List Expr, Json.itemsReadable (Expr.encodeArgs args) = true
  | [] => by simp [Expr.encodeArgs]
  | e :: rest => by
    simp [Expr.encodeArgs, Expr.readable_encode e, Expr.readable_encodeArgs rest]

end

mutual

theorem Expr.decodeWhole_encode : ∀ {e : Expr}, e.isFinite = true → ∀ {room : Nat} (whole : Bool),
    e.encode.height ≤ room → Expr.decodeWhole room whole e.encode = some e
  | .lit v, h, room, whole, hroom => by
    simp only [Expr.isFinite] at h
    obtain ⟨room, rfl, hfields⟩ := Json.room_of_obj hroom
    simp only [Json.membersHeight_cons_le] at hfields
    have hv := (Val.carries h).reads ⟨room, true⟩ hfields.2.1
    simp [Expr.encode, Expr.decodeWhole, variant, Expr.variants, hv]
  | .var name, _, room, whole, hroom => by
    obtain ⟨room, rfl, hfields⟩ := Json.room_of_obj hroom
    simp [Expr.encode, Expr.decodeWhole, variant, Expr.variants, Wire.text]
  | .binary op left right, h, room, whole, hroom => by
    simp only [Expr.isFinite, Bool.and_eq_true] at h
    obtain ⟨room, rfl, hfields⟩ := Json.room_of_obj hroom
    simp only [Json.membersHeight_cons_le] at hfields
    have hop := (BinaryOp.carries op).reads ⟨room, true⟩ hfields.2.1
    have hleft := Expr.decodeWhole_encode h.1 true hfields.2.2.1
    have hright := Expr.decodeWhole_encode h.2 true hfields.2.2.2.1
    simp [Expr.encode, Expr.decodeWhole, variant, Expr.variants, hop, hleft, hright]
  | .unary op operand, h, room, whole, hroom => by
    simp only [Expr.isFinite] at h
    obtain ⟨room, rfl, hfields⟩ := Json.room_of_obj hroom
    simp only [Json.membersHeight_cons_le] at hfields
    have hop := (UnaryOp.carries op).reads ⟨room, true⟩ hfields.2.1
    have hoperand := Expr.decodeWhole_encode h true hfields.2.2.1
    simp [Expr.encode, Expr.decodeWhole, variant, Expr.variants, hop, hoperand]
  | .call name args, h, room, whole, hroom => by
    simp only [Expr.isFinite] at h
    obtain ⟨room, rfl, hfields⟩ := Json.room_of_obj hroom
    simp only [Json.membersHeight_cons_le] at hfields
    obtain ⟨room, rfl, hitems⟩ := Json.room_of_arr hfields.2.2.1
    have hargs := Expr.decodeArgs_encode h hitems
    simp [Expr.encode, Expr.decodeWhole, variant, Expr.variants, Wire.text, hargs]

theorem Expr.decodeArgs_encode : ∀ {args : List Expr}, Expr.areFinite args = true →
    ∀ {room : Nat}, Json.itemsHeight (Expr.encodeArgs args) ≤ room →
      (Expr.encodeArgs args).mapM (Expr.decodeWhole room true) = some args
  | [], _, room, _ => by simp [Expr.encodeArgs]
  | e :: rest, h, room, hroom => by
    simp only [Expr.areFinite, Bool.and_eq_true] at h
    simp only [Expr.encodeArgs, Json.itemsHeight_cons_le] at hroom
    simp [Expr.encodeArgs, Expr.decodeWhole_encode h.1 true hroom.1,
      Expr.decodeArgs_encode h.2 hroom.2]

end

theorem Expr.carries {e : Expr} (h : e.isFinite = true) : Carries Expr.decode e.encode e where
  readable := e.readable_encode
  reads s hs := by
    simp only [Expr.decode, Source.takeIn_of_readable e.readable_encode hs]
    exact Expr.decodeWhole_encode h s.whole hs

theorem Expr.encode_ne_null (e : Expr) : e.encode ≠ .null := by
  cases e <;> simp [Expr.encode]

theorem Expr.carries? {e : Option Expr} (h : e.all Expr.isFinite = true) :
    Carries (fun s => Wire.optional (Expr.decode s)) (Expr.encode? e) e := by
  cases e with
  | none => exact .absent
  | some e => exact .present (Expr.carries h) e.encode_ne_null

/-! ## Statements -/

theorem Expr.readable_encode? (e : Option Expr) : (Expr.encode? e).readable = true := by
  cases e with
  | none => simp [Expr.encode?]
  | some e => exact e.readable_encode

mutual

theorem Stmt.readable_encode : ∀ s : Stmt, s.encode.readable = true
  | .varDecl name ty init doc => by
    simp [Stmt.encode, (Ty.carries ty).readable, Expr.readable_encode? init,
      (Doc.carries doc).readable]
  | .assign name value => by simp [Stmt.encode, Expr.readable_encode value]
  | .expr call => by simp [Stmt.encode, Expr.readable_encode call]
  | .ifElse cond thenBody elseBody => by
    simp [Stmt.encode, Expr.readable_encode cond, Json.readable_arr,
      Stmt.readable_encodeBlock thenBody, Stmt.readable_encodeBlock? elseBody]
  | .whileLoop cond body => by
    simp [Stmt.encode, Expr.readable_encode cond, Json.readable_arr, Stmt.readable_encodeBlock body]
  | .ret value => by simp [Stmt.encode, Expr.readable_encode? value]
  | .brk | .cont | .yield | .create .. | .resume _ => by simp [Stmt.encode]

theorem Stmt.readable_encodeBlock :
    ∀ body : List Stmt, Json.itemsReadable (Stmt.encodeBlock body) = true
  | [] => by simp [Stmt.encodeBlock]
  | s :: rest => by
    simp [Stmt.encodeBlock, Stmt.readable_encode s, Stmt.readable_encodeBlock rest]

theorem Stmt.readable_encodeBlock? :
    ∀ body : Option (List Stmt), (Stmt.encodeBlock? body).readable = true
  | none => by simp [Stmt.encodeBlock?]
  | some body => by simp [Stmt.encodeBlock?, Json.readable_arr, Stmt.readable_encodeBlock body]

end

mutual

theorem Stmt.decodeWhole_encode : ∀ {s : Stmt}, s.isFinite = true → ∀ {room : Nat} (whole : Bool),
    s.encode.height ≤ room → Stmt.decodeWhole room whole s.encode = some s
  | .varDecl name ty init doc, h, room, whole, hroom => by
    simp only [Stmt.isFinite] at h
    obtain ⟨room, rfl, hfields⟩ := Json.room_of_obj hroom
    simp only [Json.membersHeight_cons_le] at hfields
    have hty := (Ty.carries ty).reads ⟨room, true⟩ hfields.2.2.1
    have hinit := (Expr.carries? h).reads ⟨room, true⟩ hfields.2.2.2.1
    have hdoc := (Doc.carries doc).reads ⟨room, true⟩ hfields.2.2.2.2.1
    simp [Stmt.encode, Stmt.decodeWhole, variant, Stmt.variants, Wire.text, hty, hinit, hdoc]
  | .assign name value, h, room, whole, hroom => by
    simp only [Stmt.isFinite] at h
    obtain ⟨room, rfl, hfields⟩ := Json.room_of_obj hroom
    simp only [Json.membersHeight_cons_le] at hfields
    have hvalue := (Expr.carries h).reads ⟨room, true⟩ hfields.2.2.1
    simp [Stmt.encode, Stmt.decodeWhole, variant, Stmt.variants, Wire.text, hvalue]
  | .expr call, h, room, whole, hroom => by
    simp only [Stmt.isFinite] at h
    obtain ⟨room, rfl, hfields⟩ := Json.room_of_obj hroom
    simp only [Json.membersHeight_cons_le] at hfields
    have hcall := (Expr.carries h).reads ⟨room, true⟩ hfields.2.1
    simp [Stmt.encode, Stmt.decodeWhole, variant, Stmt.variants, hcall]
  | .ifElse cond thenBody elseBody, h, room, whole, hroom => by
    simp only [Stmt.isFinite, Bool.and_eq_true] at h
    obtain ⟨room, rfl, hfields⟩ := Json.room_of_obj hroom
    simp only [Json.membersHeight_cons_le] at hfields
    have hcond := (Expr.carries h.1.1).reads ⟨room, true⟩ hfields.2.1
    obtain ⟨room, rfl, hitems⟩ := Json.room_of_arr hfields.2.2.1
    have hthen := Stmt.decodeBlock_encode h.1.2 hitems
    have helse := Stmt.decodeBlock?_encode h.2 hfields.2.2.2.1
    simp [Stmt.encode, Stmt.decodeWhole, variant, Stmt.variants, hcond, hthen, helse]
  | .whileLoop cond body, h, room, whole, hroom => by
    simp only [Stmt.isFinite, Bool.and_eq_true] at h
    obtain ⟨room, rfl, hfields⟩ := Json.room_of_obj hroom
    simp only [Json.membersHeight_cons_le] at hfields
    have hcond := (Expr.carries h.1).reads ⟨room, true⟩ hfields.2.1
    obtain ⟨room, rfl, hitems⟩ := Json.room_of_arr hfields.2.2.1
    have hbody := Stmt.decodeBlock_encode h.2 hitems
    simp [Stmt.encode, Stmt.decodeWhole, variant, Stmt.variants, hcond, hbody]
  | .ret value, h, room, whole, hroom => by
    simp only [Stmt.isFinite] at h
    obtain ⟨room, rfl, hfields⟩ := Json.room_of_obj hroom
    simp only [Json.membersHeight_cons_le] at hfields
    have hvalue := (Expr.carries? h).reads ⟨room, true⟩ hfields.2.1
    simp [Stmt.encode, Stmt.decodeWhole, variant, Stmt.variants, hvalue]
  | .brk, _, room, whole, hroom => by
    obtain ⟨room, rfl, -⟩ := Json.room_of_obj hroom
    simp [Stmt.encode, Stmt.decodeWhole, variant, Stmt.variants, noFields]
  | .cont, _, room, whole, hroom => by
    obtain ⟨room, rfl, -⟩ := Json.room_of_obj hroom
    simp [Stmt.encode, Stmt.decodeWhole, variant, Stmt.variants, noFields]
  | .yield, _, room, whole, hroom => by
    obtain ⟨room, rfl, -⟩ := Json.room_of_obj hroom
    simp [Stmt.encode, Stmt.decodeWhole, variant, Stmt.variants, noFields]
  | .create name coroutine, _, room, whole, hroom => by
    obtain ⟨room, rfl, -⟩ := Json.room_of_obj hroom
    simp [Stmt.encode, Stmt.decodeWhole, variant, Stmt.variants, Wire.text]
  | .resume name, _, room, whole, hroom => by
    obtain ⟨room, rfl, -⟩ := Json.room_of_obj hroom
    simp [Stmt.encode, Stmt.decodeWhole, variant, Stmt.variants, Wire.text]

theorem Stmt.decodeBlock_encode : ∀ {body : List Stmt}, Stmt.areFinite body = true →
    ∀ {room : Nat}, Json.itemsHeight (Stmt.encodeBlock body) ≤ room →
      (Stmt.encodeBlock body).mapM (Stmt.decodeWhole room true) = some body
  | [], _, room, _ => by simp [Stmt.encodeBlock]
  | s :: rest, h, room, hroom => by
    simp only [Stmt.areFinite, Bool.and_eq_true] at h
    simp only [Stmt.encodeBlock, Json.itemsHeight_cons_le] at hroom
    simp [Stmt.encodeBlock, Stmt.decodeWhole_encode h.1 true hroom.1,
      Stmt.decodeBlock_encode h.2 hroom.2]

theorem Stmt.decodeBlock?_encode : ∀ {body : Option (List Stmt)}, Stmt.areFinite? body = true →
    ∀ {room : Nat}, (Stmt.encodeBlock? body).height ≤ room + 1 →
      Wire.optional (fun j => (items? j).bind fun items => items.mapM (Stmt.decodeWhole room true))
        (Stmt.encodeBlock? body) = some body
  | none, _, room, _ => by simp [Stmt.encodeBlock?, Wire.optional]
  | some body, h, room, hroom => by
    simp only [Stmt.areFinite?] at h
    simp only [Stmt.encodeBlock?, Json.height] at hroom
    have hbody := Stmt.decodeBlock_encode h (Nat.le_of_succ_le_succ hroom)
    simp [Stmt.encodeBlock?, Wire.optional, hbody]

end

theorem Stmt.carries {s : Stmt} (h : s.isFinite = true) : Carries Stmt.decode s.encode s where
  readable := s.readable_encode
  reads source hs := by
    simp only [Stmt.decode, Source.takeIn_of_readable s.readable_encode hs]
    exact Stmt.decodeWhole_encode h source.whole hs

theorem Stmt.areFinite_iff {body : Block} :
    Stmt.areFinite body = true ↔ ∀ s ∈ body, s.isFinite = true := by
  induction body with
  | nil => simp [Stmt.areFinite]
  | cons s rest ih => simp [Stmt.areFinite, ih]

theorem Stmt.encodeBlock_eq_map (body : Block) : Stmt.encodeBlock body = body.map Stmt.encode := by
  induction body with
  | nil => simp [Stmt.encodeBlock]
  | cons s rest ih => simp [Stmt.encodeBlock, ih]

theorem Block.carries {body : Block} (h : Stmt.areFinite body = true) :
    Carries Block.decode body.encode body := by
  rw [Block.encode, Stmt.encodeBlock_eq_map]
  exact .list fun s hs => Stmt.carries (Stmt.areFinite_iff.1 h s hs)

/-! ## Declarations -/

theorem Param.carries (p : Param) : Carries Param.decode p.encode p := by
  refine .record ?_ fun inside hroom => ?_
  · simp [(Ty.carries p.ty).readable]
  · simp only [Json.membersHeight_cons_le] at hroom
    simp [Wire.text, (Ty.carries p.ty).reads inside hroom.2.1]

theorem Ty.carries? (ty : Option Ty) :
    Carries (fun s => Wire.optional (Ty.decode s)) ((ty.map Ty.encode).getD .null) ty := by
  cases ty with
  | none => exact .absent
  | some ty => exact .present (Ty.carries ty) (by simp [Ty.encode])

theorem Function.carries {f : Function} (h : f.isFinite = true) :
    Carries Function.decode f.encode f := by
  have hparams : Carries (Wire.list Param.decode) (.arr (f.params.map Param.encode)) f.params :=
    .list fun p _ => p.carries
  refine .record ?_ fun inside hroom => ?_
  · simp [hparams.readable, (Ty.carries? f.returnTy).readable,
      (Block.carries h).readable, (Doc.carries f.doc).readable]
  · simp only [Json.membersHeight_cons_le] at hroom
    simp [Wire.text, hparams.reads inside hroom.2.1,
      (Ty.carries? f.returnTy).reads inside hroom.2.2.1,
      (Block.carries h).reads inside hroom.2.2.2.1,
      (Doc.carries f.doc).reads inside hroom.2.2.2.2.1]

theorem Coroutine.carries {c : Coroutine} (h : c.isFinite = true) :
    Carries Coroutine.decode c.encode c := by
  refine .record ?_ fun inside hroom => ?_
  · simp [(Block.carries h).readable,
      (Doc.carries c.doc).readable]
  · simp only [Json.membersHeight_cons_le] at hroom
    simp [Wire.text, (Block.carries h).reads inside hroom.2.1,
      (Doc.carries c.doc).reads inside hroom.2.2.1]

theorem Program.carries {p : Program} (h : p.isFinite = true) :
    Carries Program.decode p.encode p := by
  simp only [Program.isFinite, Bool.and_eq_true, List.all_eq_true] at h
  have hfunctions :
      Carries (Wire.list Function.decode) (.arr (p.functions.map Function.encode)) p.functions :=
    .list fun f hf => Function.carries (h.1.1 f hf)
  have hcoroutines :
      Carries (Wire.list Coroutine.decode) (.arr (p.coroutines.map Coroutine.encode))
        p.coroutines :=
    .list fun c hc => Coroutine.carries (h.1.2 c hc)
  refine .record ?_ fun inside hroom => ?_
  · simp [hfunctions.readable, hcoroutines.readable,
      (Block.carries h.2).readable]
  · simp only [Json.membersHeight_cons_le] at hroom
    simp [hfunctions.reads inside hroom.1, hcoroutines.reads inside hroom.2.1,
      (Block.carries h.2).reads inside hroom.2.2.1]

end CoLang
