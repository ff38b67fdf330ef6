import CoLang.Proofs.Limit
/-!
# Outputs that close

An output may take a number of lines and then refuse every other. A print that is refused is a
fault, faults cannot be caught, and nothing but the print itself looks at the output. So a run whose
output closes is the run whose output stays open, up to the first line that is refused. There it
ends, and it leaves the lines and the events that were there by then
(`Interpreter.closing_output_truncates`).

The comparison is made with the same fuel on both sides (`Eval.Truncates`). A run that prints more
lines than the other output takes is cut short by that output also if it would not end by itself.
-/

namespace CoLang

/-! ## Worlds that are cut off -/

/-- The world has the first `n` lines of another, and no events but the first ones of the other. -/
structure World.Cut (n : Nat) (w w' : World) : Prop where
  lines : w.lines.toList = w'.lines.toList.take n
  events : w.events.toList <+: w'.events.toList

namespace World.Cut

variable {n : Nat} {w w' w'' : World}

/-- What is printed and recorded behind the last line that is taken makes no difference. -/
theorem grows (h : w.Cut n w') (hn : n ≤ w'.lines.size) (hgrows : w'.Grows w'') :
    w.Cut n w'' := by
  refine ⟨?_, h.events.trans hgrows.events⟩
  obtain ⟨later, hlater⟩ := hgrows.lines
  have hlength : n ≤ w'.lines.toList.length := by simpa using hn
  rw [h.lines, ← hlater, List.take_append_of_le_length hlength]

end World.Cut

theorem World.Grows.size_le {w w' : World} (h : w.Grows w') : w.lines.size ≤ w'.lines.size := by
  simpa using h.lines.length_le

theorem World.lines_enter {cx : Context} {f : Function} {w w' : World}
    (h : f.enter cx w = (.ok (), w')) : w'.lines = w.lines := by
  obtain ⟨-, rfl⟩ := Function.enter_ok h
  rfl

/-! ## Runs that are cut off -/

/-- The first outcome is that of a computation whose output closes after `n` lines, the second that
of the same computation with an open output. -/
inductive Outcome.Truncates {α : Type} (n : Nat) (o o' : Outcome α) : Prop
  | same (hle : o'.world.lines.size ≤ n) (h : o = o')
  | closed (hlt : n < o'.world.lines.size) {f : Fault} (hf : o.ending = .fault f)
      (hkind : f.kind = .output) (hcut : o.world.Cut n o'.world)

/-- The second computation only adds to the lines and the events. While an output that closes after
`n` lines is still open, the first computation does the same up to the line that is refused. -/
def Eval.Truncates {α : Type} (n : Nat) (x y : Eval α) : Prop :=
  ∀ w, w.Grows (y w).world ∧ (w.lines.size ≤ n → Outcome.Truncates n (x w) (y w))

namespace Eval.Truncates

variable {α β : Type} {n : Nat}

/-- A computation that prints nothing does not depend on the output. -/
theorem refl {x : Eval α} (hgrows : ∀ w : World, w.Grows (x w).world)
    (hlines : ∀ w : World, (x w).world.lines = w.lines) : x.Truncates n x := by
  intro w
  refine ⟨hgrows w, fun hw => .same ?_ rfl⟩
  rw [hlines]
  exact hw

theorem bind {x y : Eval α} {f g : α → Eval β} (hx : x.Truncates n y)
    (hf : ∀ a, (f a).Truncates n (g a)) : (x >>= f).Truncates n (y >>= g) := by
  intro w
  obtain ⟨hgrows, htruncates⟩ := hx w
  have hbehind : (y w).world.Grows ((y >>= g) w).world :=
    Eval.grows_bind (fun a w₁ => (hf a w₁).1) w
  refine ⟨hgrows.trans hbehind, fun hw => ?_⟩
  cases htruncates hw with
  | same hle hsame =>
    rcases hy : y w with ⟨a | e | _, w₁⟩
    · rw [hy] at hsame hle
      rw [Eval.bind_of_value hsame, Eval.bind_of_value hy]
      exact (hf a w₁).2 hle
    · rw [hy] at hsame hle
      rw [Eval.bind_of_fault hsame, Eval.bind_of_fault hy]
      exact .same hle rfl
    · rw [hy] at hsame hle
      rw [Eval.bind_of_outOfFuel hsame, Eval.bind_of_outOfFuel hy]
      exact .same hle rfl
  | @closed hlt e he hkind hcut =>
    have hfails : (x >>= f) w = ⟨.fault e, (x w).world⟩ := by
      apply Eval.bind_of_fault
      rw [← he]
    rw [hfails]
    apply Outcome.Truncates.closed (Nat.lt_of_lt_of_le hlt hbehind.size_le) rfl hkind
    exact hcut.grows (Nat.le_of_lt hlt) hbehind

/-- A change of the world that prints nothing is the same with every output. -/
theorem change {f : World → Except Fault Unit × World} (hf : Atomic f)
    (hgrows : ∀ {w w'}, f w = (.ok (), w') → w.Grows w')
    (hlines : ∀ {w w'}, f w = (.ok (), w') → w'.lines = w.lines) :
    (Eval.change f).Truncates n (.change f) := by
  apply refl
  · intro w
    rw [Eval.change_apply hf]
    rcases hw : f w with ⟨e | ⟨⟩, w'⟩
    · exact .refl w
    · exact hgrows hw
  · intro w
    rw [Eval.change_apply hf]
    rcases hw : f w with ⟨e | ⟨⟩, w'⟩
    · rfl
    · exact hlines hw

theorem leaving {x y : Eval α} (h : x.Truncates n y) : x.leaving.Truncates n y.leaving := by
  intro w
  obtain ⟨hgrows, htruncates⟩ := h w
  -- Giving the call back touches neither lines nor events.
  constructor
  · unfold Eval.leaving
    dsimp only
    split
    · exact hgrows
    · exact hgrows.of_eq rfl rfl
  · intro hw
    cases htruncates hw with
    | same hle hsame =>
      unfold Eval.leaving
      rw [hsame]
      refine .same ?_ rfl
      dsimp only
      split <;> exact hle
    | @closed hlt e he hkind hcut =>
      unfold Eval.leaving
      simp only [he]
      split
      · exact .closed hlt rfl hkind ⟨hcut.lines, hcut.events⟩
      · exact .closed hlt rfl hkind ⟨hcut.lines, hcut.events⟩

end Eval.Truncates

/-! ## The two outputs -/

/-- The context with another output. -/
def Context.withCapacity (cx : Context) (capacity : Option Nat) : Context :=
  { cx with capacity }

namespace Eval.Truncates

variable {n : Nat} (cx : Context)

/-- The line that is one too many is refused, and it is the one behind the first `n`. -/
theorem print (line : String) :
    (Eval.change (World.print (cx.withCapacity (some n)) line)).Truncates n
      (.change (World.print (cx.withCapacity none) line)) := by
  intro w
  have hopen : World.print (cx.withCapacity none) line w =
      (.ok (), { w with lines := w.lines.push line }) := rfl
  have hprinted : Eval.change (World.print (cx.withCapacity none) line) w =
      ⟨.value (), { w with lines := w.lines.push line }⟩ := rfl
  rw [hprinted]
  refine ⟨World.grows_print hopen, fun hw => ?_⟩
  by_cases hroom : w.lines.size < n
  · apply Outcome.Truncates.same
    · simpa using Nat.succ_le_of_lt hroom
    · simp [Eval.change, World.print, Context.takesLine, Context.withCapacity, hroom,
        Ending.ofExcept]
  · have hfull : w.lines.size = n := by omega
    have hrefused : Eval.change (World.print (cx.withCapacity (some n)) line) w =
        ⟨.fault (.printFailed World.closedReason), w⟩ := by
      simp [Eval.change, World.print, Context.takesLine, Context.withCapacity, hroom,
        Ending.ofExcept]
    rw [hrefused]
    apply Outcome.Truncates.closed (by simp [hfull]) rfl rfl
    refine ⟨?_, List.prefix_refl _⟩
    rw [← hfull, Array.toList_push, List.take_left' (Array.length_toList ..)]

/-- A resume is cut off where the run in it is. -/
theorem resume {sv sv' : Services} {fuel fuel' : Nat}
    (hruns : ∀ m : Machine, (m.runs (cx.withCapacity (some n)) sv fuel).Truncates n
      (m.runs (cx.withCapacity none) sv' fuel'))
    (name : String) :
    (World.resume (cx.withCapacity (some n)) sv fuel name).Truncates n
      (World.resume (cx.withCapacity none) sv' fuel' name) := by
  intro w
  have hbegin : ∀ v i, World.beginResume (cx.withCapacity (some n)) v name i =
      World.beginResume (cx.withCapacity none) v name i :=
    fun v i => World.beginResume_congr rfl rfl v name i
  simp only [World.resume_eq, hbegin]
  rcases w.table.checkout name with ⟨e | i, table⟩
  · exact ⟨.refl w, fun hw => .same hw rfl⟩
  · -- The world in which the body runs, with the instance out of the table.
    obtain ⟨w₁, hw₁⟩ :
        ∃ w₁, w₁ = World.beginResume (cx.withCapacity none) { w with table } name i := ⟨_, rfl⟩
    have hbegun : w.Grows w₁ := by
      have hgrows := World.grows_beginResume (cx.withCapacity none) { w with table } name i
      rw [← hw₁] at hgrows
      exact ⟨hgrows.lines, hgrows.events⟩
    have hlines : w₁.lines = w.lines := by rw [hw₁, World.lines_beginResume]
    simp only [← hw₁]
    rcases i.body with e | m
    · refine ⟨hbegun.of_eq rfl rfl, fun hw => .same ?_ rfl⟩
      show w₁.lines.size ≤ n
      rw [hlines]
      exact hw
    · obtain ⟨hgrows, htruncates⟩ := hruns m w₁
      rw [hlines] at htruncates
      simp only
      generalize m.runs (cx.withCapacity (some n)) sv fuel w₁ = r at htruncates ⊢
      generalize m.runs (cx.withCapacity none) sv' fuel' w₁ = r' at hgrows htruncates ⊢
      -- Putting the instance back touches neither lines nor events.
      constructor
      · split
        · exact hbegun.trans hgrows
        · exact (hbegun.trans hgrows).of_eq rfl rfl
      · intro hw
        cases htruncates hw with
        | same hle hsame =>
          rw [hsame]
          refine .same ?_ rfl
          split <;> exact hle
        | @closed hlt e he hkind hcut =>
          simp only [he]
          split
          · exact .closed hlt rfl hkind ⟨hcut.lines, hcut.events⟩
          · exact .closed hlt rfl hkind ⟨hcut.lines, hcut.events⟩

end Eval.Truncates

namespace Link

/-- A computation is that of an output that closes after `n` lines, compared with an open one. -/
def truncates (n : Nat) : Link Unit where
  holds x xs := x.Truncates n (xs ())
  ofExcept _ := .refl .refl fun _ => rfl
  bind hx hf := hx.bind hf

/-- **Calls and resumes are cut off where a line is refused.** -/
theorem truncates_keeps (cx : Context) (n : Nat) :
    (truncates n).Keeps (cx.withCapacity (some n)) fun _ => cx.withCapacity none where
  decls _ := rfl
  exhausted := .refl .refl fun _ => rfl
  print line := .print cx line
  declare name doc := .refl (fun _ => World.grows_record ..) fun _ => World.lines_record
  create name coroutine := by
    rw [funext (World.create_congr rfl rfl rfl name coroutine)]
    exact .change World.atomic_create World.grows_create fun h => by
      obtain ⟨c, t, -, -, rfl⟩ := World.create_ok h
      simp
  within f := by
    intro α x xs hx
    have henter : (Eval.change (f.enter (cx.withCapacity (some n)))).Truncates n
        (.change (f.enter (cx.withCapacity none))) :=
      .change Function.atomic_enter World.grows_enter World.lines_enter
    apply Eval.Truncates.bind henter
    intro _
    apply Eval.Truncates.bind (.refl (fun _ => World.grows_record ..) fun _ => World.lines_record)
    intro _
    exact hx.leaving
  resume := by
    intro sv svs fuel fuels hruns name
    exact .resume cx hruns name

end Link

/-- An operation with a closing output is cut off where a line is refused. -/
theorem Operation.truncates (cx : Context) (main : Block) (fuel n : Nat) (op : Operation) :
    (op.eval (cx.withCapacity (some n)) main fuel).Truncates n
      (op.eval (cx.withCapacity none) main fuel) := by
  apply (Link.truncates_keeps cx n).operation main fuel
  intro name inst _
  apply Eval.Truncates.change World.atomic_restore World.grows_restore
  intro w w' h
  obtain ⟨-, -, t, -, rfl⟩ := World.restore_ok h
  rfl

namespace Interpreter

/-- The interpreter with an output that takes every line. -/
def opened (i : Interpreter) : Interpreter :=
  { i with context := i.context.withCapacity none }

/-- The interpreter with an output that takes so many more lines and no others. -/
def closing (i : Interpreter) (k : Nat) : Interpreter :=
  { i with context := i.context.withCapacity (some (i.world.lines.size + k)) }

/-- **An output that closes only cuts off.** Let an operation print some lines with an output that
takes all of them, whether or not it has ended. An output that takes so many lines makes no
difference: the reply is the same, and the world is. With an output that takes fewer, the operation
fails because of the output. It has then printed the lines that were taken, which are the first
ones, and it has recorded the first of the events. -/
theorem closing_output_truncates (i : Interpreter) (k fuel : Nat) (op : Operation) :
    ∃ reply w printed,
      i.opened.perform fuel op = (reply, { i.opened with world := w }) ∧
      w.lines.toList = i.world.lines.toList ++ printed ∧
      (printed.length ≤ k →
        (i.closing k).perform fuel op = (reply, { i.closing k with world := w })) ∧
      (k < printed.length → ∃ f w', f.kind = .output ∧
        (∀ fuel', fuel ≤ fuel' →
          (i.closing k).perform fuel' op = (.fault f, { i.closing k with world := w' })) ∧
        w'.lines.toList = i.world.lines.toList ++ printed.take k ∧
        w'.events.toList <+: w.events.toList) := by
  obtain ⟨n, hn⟩ : ∃ n, n = i.world.lines.size + k := ⟨_, rfl⟩
  have hclosing : ∀ fuel, (i.closing k).perform fuel op =
      let r := op.eval (i.context.withCapacity (some n)) i.main fuel i.world
      (.ofEnding id r.ending, { i.closing k with world := r.world }) := by
    intro fuel
    rw [hn]
    exact perform_eq (i.closing k) fuel op
  obtain ⟨⟨⟨printed, hprinted⟩, -⟩, htruncates⟩ := op.truncates i.context i.main fuel n i.world
  refine ⟨_, _, printed, perform_eq i.opened fuel op, hprinted.symm, ?_⟩
  have hsize : i.world.lines.size + printed.length =
      (op.eval (i.context.withCapacity none) i.main fuel i.world).world.lines.size := by
    simpa using congrArg List.length hprinted
  cases htruncates (by omega) with
  | same hle hsame =>
    constructor
    · intro _
      rw [hclosing, hsame]
      rfl
    · intro hk
      omega
  | @closed hlt f hf hkind hcut =>
    constructor
    · intro hk
      omega
    · intro _
      refine ⟨f, _, hkind, ?_, ?_, hcut.events⟩
      · intro fuel' hfuel
        have hsame := op.eval_below (i.context.withCapacity (some n)) i.main hfuel i.world
          (by rw [Outcome.Returned, hf]; simp)
        simp only [hclosing, hsame, hf]
        rfl
      · rw [hcut.lines, ← hprinted, hn, ← Array.length_toList, List.take_length_add_append]

/-- A coroutine counts for ever, with a function that prints in the condition of its loop. -/
theorem closing_output_truncates_endless :
    let say : Function := ⟨"say", [⟨"x", .int⟩], some .bool,
      [.expr (.call "print" [.var "x"]), .ret (some (.lit (.bool true)))], some ["@process say"]⟩
    let c : Coroutine := ⟨"c", [.varDecl "n" .int (some (.lit (.int 0))) none,
      .whileLoop (.call "say" [.var "n"])
        [.assign "n" (.binary (.arith .add) (.var "n") (.lit (.int 1)))]], none⟩
    let i : Interpreter :=
      ⟨⟨⟨[say], [c]⟩, .default, none, default⟩, [.create "a" "c", .resume "a"], .initial⟩
    ((i.opened.perform 30 .runMain).1 = .outOfFuel ∧
      (i.opened.perform 30 .runMain).2.world.lines = #["0", "1", "2", "3"]) ∧
    ∃ f w, f.kind = .output ∧
      (∀ fuel', 30 ≤ fuel' →
        (i.closing 2).perform fuel' .runMain = (.fault f, { i.closing 2 with world := w })) ∧
      w.lines.toList = ["0", "1"] ∧
      w.events.toList <+: (i.opened.perform 30 .runMain).2.world.events.toList := by
  intro say c i
  have hlines : (i.opened.perform 30 .runMain).2.world.lines = #["0", "1", "2", "3"] := by
    decide +kernel
  refine ⟨⟨by decide +kernel, hlines⟩, ?_⟩
  obtain ⟨reply, w, printed, hopened, hprinted, -, hcut⟩ := closing_output_truncates i 2 30 .runMain
  rw [hopened] at hlines ⊢
  have hfour : printed = ["0", "1", "2", "3"] := by
    rw [hlines] at hprinted
    exact hprinted.symm
  rw [hfour] at hcut
  exact hcut (by decide)

end Interpreter

end CoLang
