import CoLang.Command.Perform
import CoLang.Proofs.Checkpoint
import CoLang.Proofs.Parked
import CoLang.Proofs.Wire.Text
/-!
# Snapshots as texts

An instance is written with the syntax that its frames run, so a snapshot of it is about as deep as
the body of its coroutine. But the body stands deeper in a snapshot than in the program. A snapshot
can be read again exactly if it does not nest too deep for a text (`Interpreter.snapshot_restores`):
always if the program leaves three levels of nesting to spare, and not always otherwise
(`Interpreter.deep_snapshot_refused`).

That the numbers in a snapshot can be written follows from the frames, which spell a way into the
body: each index is one into a block of the program, and each scope that is open belongs to a block
that stands inside the one before it (`Spells.depth_le`).
-/

namespace CoLang

open Wire

/-! ## Frames that spell a way into a body -/

theorem FrameNode.isFinite_of_all {n h : Nat} {node : FrameNode}
    (hall : node.All (Stmt.Fits n h)) : node.isFinite = true := by
  cases node with
  | block b => exact Stmt.areFinite_iff.2 fun s hs => (hall s hs).finite
  | stmt s => exact hall.finite

theorem FrameNode.height_encode_le {n h : Nat} {node : FrameNode}
    (hall : node.All (Stmt.Fits n h)) : node.encode.height ≤ h + 2 := by
  cases node with
  | block b =>
    have := Stmt.height_encodeBlock.2 fun s hs => (hall s hs).height
    simp only [FrameNode.encode, Block.encode, Json.height, Json.membersHeight]
    omega
  | stmt s =>
    have := hall.height
    simp only [FrameNode.encode, Json.height, Json.membersHeight]
    omega

theorem FrameNode.height_stmt_lt {b : Block} {s : Stmt} (h : s ∈ b) :
    (FrameNode.stmt s).encode.height < (FrameNode.block b).encode.height := by
  have := Stmt.height_encodeBlock.1 (Nat.le_refl _) s h
  simp only [FrameNode.encode, Block.encode, Json.height, Json.membersHeight]
  omega

/-- A block that runs above a frame stands inside what the frame runs. -/
theorem Frame.Hosts.height_lt {f : Frame} {b : Block} (h : f.Hosts b) :
    (FrameNode.block b).encode.height < f.node.encode.height := by
  cases h with
  | branch hs hbody =>
    refine Nat.lt_trans ?_ (FrameNode.height_stmt_lt (List.mem_of_getElem? hs))
    rcases hbody with rfl | rfl <;>
      simp only [FrameNode.encode, Block.encode, Stmt.encode, Stmt.encodeBlock?, Json.height,
        Json.membersHeight] <;>
      omega
  | loop =>
    simp only [FrameNode.encode, Block.encode, Stmt.encode, Json.height, Json.membersHeight]
    omega

theorem Frame.Hosts.length_le {f : Frame} {b : Block} {n h : Nat} (hb : f.Hosts b)
    (hall : f.node.All (Stmt.Fits n h)) : b.length ≤ n := by
  cases hb with
  | branch hs hbody =>
    have hshort := Stmt.of_all (hall _ (List.mem_of_getElem? hs)).short
    simp only [Stmt.isShort, Bool.and_eq_true, decide_eq_true_eq] at hshort
    rcases hbody with rfl | rfl
    · exact hshort.1
    · simpa using hshort.2
  | loop =>
    have hshort := Stmt.of_all hall.short
    simpa [Stmt.isShort] using hshort

namespace Spells

variable {body : Block} {d₀ d n h : Nat} {frames : List Frame}

/-- Every scope that is open belongs to a block inside the one before it. -/
theorem depth_le (hs : Spells body d₀ frames d) {f : Frame} (hf : frames.head? = some f) :
    d + f.node.encode.height ≤ d₀ + (FrameNode.block body).encode.height := by
  induction hs generalizing f with
  | bottom hi =>
    cases hf
    exact Nat.le_refl _
  | stmt hs hmem hk ih =>
    cases hf
    have hlt := FrameNode.height_stmt_lt (List.mem_of_getElem? hmem)
    have hbelow := ih rfl
    dsimp only at hbelow ⊢
    omega
  | enter hs hb ih =>
    cases hf
    have hlt := hb.height_lt
    have hbelow := ih rfl
    dsimp only
    omega
  | next hs hb hi ih =>
    cases hf
    have hlt := hb.height_lt
    have hbelow := ih rfl
    dsimp only
    omega

theorem scopeBase_le (hs : Spells body d₀ frames d) : ∀ f ∈ frames, f.scopeBase ≤ d := by
  induction hs with
  | bottom hi => simp
  | stmt hs hmem hk ih => exact List.forall_mem_cons.2 ⟨Nat.le_refl _, ih⟩
  | enter hs hb ih => exact List.forall_mem_cons.2 ⟨Nat.le_refl _, ih⟩
  | next hs hb hi ih =>
    exact List.forall_mem_cons.2 ⟨Nat.le_succ _, fun f hf => Nat.le_succ_of_le (ih f hf)⟩

/-- Every index is one into a block of the body. -/
theorem index_le (hs : Spells body d₀ frames d) (hbody : Block.Fits n h body) :
    ∀ f ∈ frames, ∀ phase i, f.kind = .block phase i → i ≤ n := by
  induction hs with
  | bottom hi =>
    intro f hf phase i hk
    obtain rfl := List.mem_singleton.1 hf
    cases hk
    exact Nat.le_trans hi hbody.short
  | stmt hs hmem hk ih =>
    exact List.forall_mem_cons.2 ⟨fun phase i hkind => absurd hkind (hk.ne_block phase i), ih⟩
  | enter hs hb ih =>
    refine List.forall_mem_cons.2 ⟨fun phase i hkind => ?_, ih⟩
    cases hkind
    exact Nat.zero_le _
  | next hs hb hi ih =>
    refine List.forall_mem_cons.2 ⟨fun phase i hkind => ?_, ih⟩
    cases hkind
    have hall := hs.all (Stmt.hereditary_fits n h) hbody.stmts _ List.mem_cons_self
    exact Nat.le_trans hi (hb.length_le hall)

theorem counted (hs : Spells body d₀ frames d) (hbody : Block.Fits n h body) (hn : n < 2 ^ 64)
    (hd : d₀ + h + 2 < 2 ^ 64) : ∀ f ∈ frames, f.Counted := by
  intro f hf
  have hdepth : d ≤ d₀ + (h + 2) := by
    obtain ⟨top, htop⟩ : ∃ top, frames.head? = some top := by
      cases frames with
      | nil => cases hf
      | cons top rest => exact ⟨top, rfl⟩
    have hle := hs.depth_le htop
    have hheight : (FrameNode.block body).encode.height ≤ h + 2 :=
      FrameNode.height_encode_le hbody.stmts
    omega
  have hbase := hs.scopeBase_le f hf
  exact ⟨fun phase i hk => Nat.lt_of_le_of_lt (hs.index_le hbody f hf phase i hk) hn, by omega⟩

end Spells

namespace Machine.Sound

variable {body : Block} {d₀ n h : Nat} {kind : BodyKind} {m : Machine}

theorem counted (hm : m.Sound body d₀ kind) (hbody : Block.Fits n h body) (hn : n < 2 ^ 64)
    (hd : d₀ + h + 2 < 2 ^ 64) : ∀ f ∈ m.frames, f.Counted := by
  rcases hm.stack with ⟨hnil, -⟩ | hspells
  · rw [hnil]
    exact nofun
  · exact hspells.counted hbody hn hd

theorem isFinite_frames (hm : m.Sound body d₀ kind) (hbody : Block.Fits n h body) :
    m.frames.all Frame.isFinite = true := by
  rw [List.all_eq_true]
  intro f hf
  exact FrameNode.isFinite_of_all (hm.all (Stmt.hereditary_fits n h) hbody.stmts f hf)

theorem height_frames (hm : m.Sound body d₀ kind) (hbody : Block.Fits n h body) :
    ∀ f ∈ m.frames, f.encode.height ≤ h + 3 := by
  intro f hf
  rw [Frame.height_encode_le_iff]
  exact FrameNode.height_encode_le (hm.all (Stmt.hereditary_fits n h) hbody.stmts f hf)

end Machine.Sound

/-! ## Instances -/

/-- The instance of a text. -/
def Instance.ofText? (num : Json.Numerals) (ids : Identity.Format) (text : String) :
    Option Instance := do
  let j ← Json.parse? num text
  Instance.decode ids .text j

/-- The text of an instance is read again if it does not nest too deep, and refused if it does. -/
theorem Instance.ofText?_compact {num : Json.Numerals} {ids : Identity.Format} {i : Instance}
    (hfinite : i.isFinite = true) (hplain : (i.encode ids).isPlain num.readsBack = true) :
    Instance.ofText? num ids ((i.encode ids).compact num) =
      if (i.encode ids).height ≤ textRoom then some i else none := by
  simp only [Instance.ofText?, Json.parse?_compact hplain, Option.bind_eq_bind, Option.bind_some]
  split
  case isTrue hheight => exact (Instance.carries ids hfinite).reads .text hheight
  case isFalse hheight =>
    rw [Option.eq_none_iff_forall_ne_some]
    intro i' hi'
    exact hheight (Instance.height_of_decode rfl (by decide) hi')

/-- The machine of the instance, if there is one, runs the body of a coroutine of the program. -/
theorem Interpreter.Reachable.runs {p : Program} {i : Interpreter} (hreach : Reachable p i)
    {name : String} {inst : Instance} (hinst : i.instance? name = some inst) :
    inst.Runs fun _ body => ∃ c ∈ p.coroutines, c.body = body := by
  refine hreach.parks (fun cx hcx => Instance.runs_kept _ ?_) name inst
    (Table.get?_eq_some_iff.1 hinst)
  intro other c hc
  rw [hcx] at hc
  exact ⟨c, List.mem_of_find?_eq_some hc, rfl⟩

theorem Interpreter.restore_of_build {p : Program} {settings : Settings} {capacity : Option Nat}
    {identities : Nat → Identity} {i i₀ : Interpreter} (hreach : Reachable p i) {name : String}
    {inst : Instance} (hinst : i.instance? name = some inst)
    (hbuild : Interpreter.build p settings capacity identities = .ok i₀) (other : String) :
    ∃ j, i₀.restore other inst = (.ok (), j) ∧ j.instance? other = some inst := by
  obtain ⟨d, hd, rfl⟩ := build_ok_iff.1 hbuild
  have hrest := hreach.atRest.orderly name inst (Table.get?_eq_some_iff.1 hinst)
  have hdecls : i.context.decls = d := Except.ok.inj (hreach.program.1.symm.trans hd)
  rw [hdecls] at hrest
  have hrestore : World.initial.restore ⟨d, settings, capacity, identities⟩ other inst =
      (.ok (), { World.initial with table := World.initial.table.setSlot other (.parked inst) }) :=
    World.restore_of_free hrest rfl
  refine ⟨_, by simp only [Interpreter.restore, hrestore]; rfl, ?_⟩
  exact Table.get?_eq_some_iff.2 Table.slot?_setSlot_self

/-- **A snapshot is restored from its text unless it nests too deep.** Let a program be read from a
text and an instance be at rest in an interpreter of it, with finite floats in its variables. Let
the floats in the instance be read back from the numbers they are written as. Then the text of the
instance is read as the same instance, with its identity, if it nests no deeper than a text may, and
refused if it does, which cannot happen if the text of the program could nest three levels deeper.
The instance itself is restored by every new interpreter of the program. -/
theorem Interpreter.snapshot_restores (num : Json.Numerals) (ids : Identity.Format) {text : String}
    {p : Program} {i : Interpreter} {name : String} {inst : Instance}
    (htext : Program.ofText? num text = some p) (hlength : text.length < 2 ^ 64)
    (hreach : Reachable p i) (hinst : i.instance? name = some inst)
    (hfinite : ∀ m, inst.machine = some m → m.env.isFinite = true)
    (hfloats : ∀ x ∈ (inst.encode ids).floats, num.readsBack x = true) :
    (Instance.ofText? num ids ((inst.encode ids).compact num) =
      if (inst.encode ids).height ≤ textRoom then some inst else none) ∧
    ((Json.parse? num text).bind (Program.decode ⟨textRoom - 3, false⟩) = some p →
      (inst.encode ids).height ≤ textRoom) ∧
    ∀ settings capacity identities i₀ other,
      Interpreter.build p settings capacity identities = .ok i₀ →
        ∃ j, i₀.restore other inst = (.ok (), j) ∧ j.instance? other = some inst := by
  have hfits : ∀ {room}, (Json.parse? num text).bind (Program.decode ⟨room, false⟩) = some p →
      ∀ m, inst.machine = some m → ∃ body, m.Sound body 1 .coroutine ∧
        Block.Fits text.length (room - 3) body := by
    intro room hp m hm
    obtain ⟨j, hj, hp⟩ := Option.bind_eq_some_iff.1 hp
    obtain ⟨body, ⟨c, hc, rfl⟩, hsound⟩ := hreach.runs hinst m hm
    exact ⟨c.body, hsound, Program.fits_of_decode (Json.isBounded_of_parse? hj) hp c hc⟩
  have hinstFinite : inst.isFinite = true := by
    have hrest := hreach.atRest.orderly name inst (Table.get?_eq_some_iff.1 hinst)
    refine hrest.isFinite fun m hm => ⟨hfinite m hm, ?_⟩
    obtain ⟨body, hsound, hbody⟩ := hfits htext m hm
    exact hsound.isFinite_frames hbody
  have hplain : (inst.encode ids).isPlain num.readsBack = true := by
    refine Json.isPlain_of_floats (Instance.isPlain_encode ids hinstFinite fun m hm => ?_) hfloats
    obtain ⟨body, hsound, hbody⟩ := hfits htext m hm
    exact hsound.counted hbody hlength (by decide)
  refine ⟨Instance.ofText?_compact hinstFinite hplain, fun hp => ?_,
    fun settings capacity identities i₀ other hbuild =>
      restore_of_build hreach hinst hbuild other⟩
  rw [show textRoom = 124 + 3 from rfl, Instance.height_encode_le_iff (by decide)]
  intro m hm
  obtain ⟨body, hsound, hbody⟩ := hfits hp m hm
  exact hsound.height_frames hbody

/-- A coroutine that stops at a yield with a float in its variable. -/
theorem Interpreter.snapshot_restores_suspended :
    let num := Json.Numerals.exact
    let ids := Identity.Format.hyphenated
    let text := "\x7b\"coroutines\":[\x7b\"name\":\"c\",\"body\":[\x7b\"t\":\"VarDecl\"," ++
      "\"name\":\"x\",\"type\":\"float\",\"init\":\x7b\"t\":\"Lit\"," ++
      "\"v\":\x7b\"t\":\"Float\",\"v\":0.5\x7d\x7d\x7d,\x7b\"t\":\"Yield\"\x7d]\x7d]\x7d"
    ∃ p i inst, Program.ofText? num text = some p ∧ Reachable p i ∧ i.instance? "i" = some inst ∧
      inst.id = ⟨7⟩ ∧ inst.life = .suspended ∧
      Instance.ofText? num ids ((inst.encode ids).compact num) = some inst ∧
      ∀ settings capacity identities i₀ other,
        Interpreter.build p settings capacity identities = .ok i₀ →
          ∃ j, i₀.restore other inst = (.ok (), j) ∧ j.instance? other = some inst := by
  intro num ids text
  let identities (_ : Nat) : Identity := ⟨7⟩
  let start (p : Program) : Interpreter :=
    ⟨⟨⟨p.functions, p.coroutines⟩, .default, none, identities⟩, p.main, .initial⟩
  let created (p : Program) := (start p).perform 20 (.create "i" "c")
  let resumed (p : Program) := (created p).2.perform 20 (.resume "i")
  -- One evaluation of the whole run, since the text is read anew in each.
  have hrun : (Program.ofText? num text).any (fun p =>
      (Declarations.build p.functions p.coroutines).toOption.isSome &&
      (created p).1 ≠ .outOfFuel && (resumed p).1 ≠ .outOfFuel &&
      ((resumed p).2.instance? "i").any (fun inst => inst.id = ⟨7⟩ && inst.life = .suspended &&
        inst.machine.all (·.env.isFinite) && (inst.encode ids).floats.all Decimal.isFinite &&
        (inst.encode ids).height ≤ textRoom)) = true := by
    decide +kernel
  obtain ⟨p, htext, hrun⟩ := (Option.any_eq_true _ _).1 hrun
  simp only [Bool.and_eq_true, decide_eq_true_eq] at hrun
  obtain ⟨⟨⟨hok, hcreated⟩, hresumed⟩, hinst⟩ := hrun
  have hbuild : Interpreter.build p .default none identities = .ok (start p) := by
    refine build_ok_iff.2 ⟨_, ?_, rfl⟩
    cases hd : Declarations.build p.functions p.coroutines with
    | ok d => rw [Declarations.eq_of_build hd]
    | error e =>
      rw [hd] at hok
      cases hok
  have hreach : Reachable p (resumed p).2 :=
    .perform (.perform (Reachable.build hbuild) (by simp) hcreated) (by simp) hresumed
  obtain ⟨inst, hinst, hat⟩ := (Option.any_eq_true _ _).1 hinst
  simp only [Bool.and_eq_true, decide_eq_true_eq] at hat
  obtain ⟨⟨⟨⟨hid, hsuspended⟩, hfinite⟩, hfloats⟩, hheight⟩ := hat
  have hsnapshot := snapshot_restores num ids htext (by decide +kernel) hreach hinst
    (fun m hm => by simpa [hm] using hfinite)
    fun x hx => Json.Numerals.readsBack_exact (List.all_eq_true.1 hfloats x hx)
  rw [if_pos hheight] at hsnapshot
  exact ⟨p, _, inst, htext, hreach, hinst, hid, hsuspended, hsnapshot.1, hsnapshot.2.2⟩

/-- A program is read whose coroutine, behind a yield, negates a variable 120 times. A snapshot
holds the body two levels deeper than the program does, so the one that is taken at the yield is
refused, however numbers and identities are written and read: there are no floats in it. -/
theorem Interpreter.deep_snapshot_refused :
    let deep : Expr := Nat.repeat (.unary .not) 120 (.var "x")
    let p : Program := ⟨[], [⟨"c", [.yield, .expr deep], none⟩], []⟩
    ∃ i inst, Reachable p i ∧ i.instance? "i" = some inst ∧ inst.life = .suspended ∧
      inst.isFinite = true ∧
      ∀ num ids, Program.ofText? num (p.encode.compact num) = some p ∧
        (inst.encode ids).floats = [] ∧
        Instance.ofText? num ids ((inst.encode ids).compact num) = none := by
  intro deep p
  let i₀ : Interpreter := ⟨⟨⟨p.functions, p.coroutines⟩, .default, none, default⟩, p.main, .initial⟩
  let i := ((i₀.perform 20 (.create "i" "c")).2.perform 20 (.resume "i")).2
  have hbuild : Interpreter.build p .default none default = .ok i₀ := build_ok_iff.2 ⟨_, rfl, rfl⟩
  have hreach : Reachable p i := by
    refine .perform (.perform (Reachable.build hbuild) (by simp) ?_) (by simp) ?_ <;> decide +kernel
  have hinst : (i.instance? "i").any (fun inst => inst.life = .suspended && inst.isFinite &&
      inst.machine.any (fun m => m.encode.isPlain Decimal.isFinite && m.encode.floats.isEmpty &&
        m.frames.any (124 < ·.encode.height))) = true := by decide +kernel
  obtain ⟨inst, hinst, hat⟩ := (Option.any_eq_true _ _).1 hinst
  simp only [Bool.and_eq_true, decide_eq_true_eq] at hat
  obtain ⟨⟨hsuspended, hfinite⟩, hmachine⟩ := hat
  obtain ⟨m, hm, hmachine⟩ := (Option.any_eq_true _ _).1 hmachine
  simp only [Bool.and_eq_true, List.isEmpty_iff, List.any_eq_true, decide_eq_true_eq] at hmachine
  obtain ⟨⟨hplain, hfloats⟩, f, hf, hheight⟩ := hmachine
  refine ⟨i, inst, hreach, hinst, hsuspended, hfinite, fun num ids => ?_⟩
  have hnone : (inst.encode ids).floats = [] := by
    rw [Instance.floats_encode, hm]
    exact hfloats
  have hdeep : ¬(inst.encode ids).height ≤ textRoom := by
    rw [show textRoom = 124 + 3 from rfl, Instance.height_encode_le_iff (by decide)]
    intro hle
    have := hle m hm f hf
    omega
  refine ⟨?_, hnone, ?_⟩
  · have hempty : p.encode.floats = [] := List.isEmpty_iff.1 (by decide +kernel)
    have hfinite' : p.encode.isPlain Decimal.isFinite = true := by decide +kernel
    have hparse : Json.parse? num (p.encode.compact num) = some p.encode := by
      refine Json.parse?_compact (Json.isPlain_of_floats hfinite' ?_)
      rw [hempty]
      exact List.forall_mem_nil _
    simp only [Program.ofText?, hparse, Option.bind_eq_bind, Option.bind_some]
    exact (Program.carries (by decide +kernel)).reads .text (by decide +kernel)
  · have hplain' : (inst.encode ids).isPlain num.readsBack = true := by
      refine Json.isPlain_of_floats ((inst.isPlain_encode_iff ids).2 (by rwa [hm])) ?_
      rw [hnone]
      exact List.forall_mem_nil _
    rw [Instance.ofText?_compact hfinite hplain', if_neg hdeep]

end CoLang
