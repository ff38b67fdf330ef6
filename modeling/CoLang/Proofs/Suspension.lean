import CoLang.Proofs.Simulation
import CoLang.Proofs.Yields
/-!
# Yields are transparent

A coroutine that is run to its next yield and taken up again, over and over until it stops for good,
comes to the same end as a single run of its body with the yields left out, wherever they stand
(`Machine.alternate_iff_run_withoutYields`).

Three things come together. Running and taking up again, turn by turn, is the same as passing over
every yield (`Machine.alternates_iff_passes`). A direct run takes no notice of yields
(`Stmt.execBlock_withoutYields`). And the body with the yields left out never stops at one.
-/

namespace CoLang

open Machine

variable {cx : Context} {sv : Services}

/-! ## Leaving out yields -/

mutual

/-- A statement with the yields inside it left out. -/
def Stmt.withoutYields : Stmt → Stmt
  | .ifElse cond thenBody elseBody =>
    .ifElse cond (Stmt.blockWithoutYields thenBody) (Stmt.elseWithoutYields elseBody)
  | .whileLoop cond body => .whileLoop cond (Stmt.blockWithoutYields body)
  | s => s

/-- A block with its yields left out, at every level. -/
def Stmt.blockWithoutYields : List Stmt → List Stmt
  | [] => []
  | .yield :: rest => Stmt.blockWithoutYields rest
  | s :: rest => s.withoutYields :: Stmt.blockWithoutYields rest

/-- The other branch of a conditional with its yields left out. It stays, even if nothing is left
of it. -/
def Stmt.elseWithoutYields : Option (List Stmt) → Option (List Stmt)
  | none => none
  | some body => some (Stmt.blockWithoutYields body)

end

/-- A body with its yields left out. -/
def Block.withoutYields (body : Block) : Block := Stmt.blockWithoutYields body

theorem Stmt.blockWithoutYields_cons {s : Stmt} (h : s ≠ .yield) (rest : List Stmt) :
    Stmt.blockWithoutYields (s :: rest) = s.withoutYields :: Stmt.blockWithoutYields rest := by
  cases s with
  | yield => exact absurd rfl h
  | _ => simp only [Stmt.blockWithoutYields]

mutual

theorem Stmt.yieldFree_withoutYields : ∀ {s : Stmt}, s ≠ .yield → s.withoutYields.yieldFree = true
  | .ifElse cond thenBody elseBody, _ => by
    simp only [Stmt.withoutYields, Stmt.yieldFree, Stmt.all, Bool.and_eq_true]
    exact ⟨⟨rfl, Stmt.yieldFreeBlock_withoutYields thenBody⟩,
      Stmt.yieldFreeElse_withoutYields elseBody⟩
  | .whileLoop cond body, _ => by
    simp only [Stmt.withoutYields, Stmt.yieldFree, Stmt.all, Bool.and_eq_true]
    exact ⟨rfl, Stmt.yieldFreeBlock_withoutYields body⟩
  | .yield, h => absurd rfl h
  | .varDecl .., _ | .assign .., _ | .expr _, _ | .ret _, _ | .brk, _ | .cont, _ | .create .., _
  | .resume _, _ => by
    simp only [Stmt.withoutYields, Stmt.yieldFree, Stmt.all, Stmt.isYield, Bool.not_false]

theorem Stmt.yieldFreeBlock_withoutYields :
    ∀ body : List Stmt, Stmt.yieldFreeBlock (Stmt.blockWithoutYields body) = true
  | [] => by simp only [Stmt.blockWithoutYields, Stmt.yieldFreeBlock, Stmt.allBlock]
  | s :: rest => by
    by_cases hs : s = .yield
    · subst hs
      simp only [Stmt.blockWithoutYields]
      exact Stmt.yieldFreeBlock_withoutYields rest
    · rw [Stmt.blockWithoutYields_cons hs]
      simp only [Stmt.yieldFreeBlock, Stmt.allBlock, Bool.and_eq_true]
      exact ⟨Stmt.yieldFree_withoutYields hs, Stmt.yieldFreeBlock_withoutYields rest⟩

theorem Stmt.yieldFreeElse_withoutYields : ∀ body : Option (List Stmt),
    Stmt.allElse (fun part => !part.isYield) (Stmt.elseWithoutYields body) = true
  | none => by simp only [Stmt.elseWithoutYields, Stmt.allElse]
  | some body => by
    simp only [Stmt.elseWithoutYields, Stmt.allElse]
    exact Stmt.yieldFreeBlock_withoutYields body

end

/-! ## Direct runs take no notice of yields -/

mutual

theorem Stmt.exec_withoutYields (cx : Context) (sv : Services) (fuel : Nat) :
    ∀ (s : Stmt) (env : Env),
      s.withoutYields.exec cx sv fuel .coroutine env = s.exec cx sv fuel .coroutine env
  | .ifElse cond thenBody elseBody, env => by
    simp only [Stmt.withoutYields, Stmt.exec, Stmt.execBlock_withoutYields cx sv fuel thenBody,
      Stmt.execElse_withoutYields cx sv fuel elseBody]
  | .whileLoop cond body, env => by
    simp only [Stmt.withoutYields, Stmt.exec, Stmt.execBlock_withoutYields cx sv fuel body]
  | .yield, _ | .varDecl .., _ | .assign .., _ | .expr _, _ | .ret _, _ | .brk, _ | .cont, _
  | .create .., _ | .resume _, _ => by simp only [Stmt.withoutYields]

theorem Stmt.execBlock_withoutYields (cx : Context) (sv : Services) (fuel : Nat) :
    ∀ (body : List Stmt) (env : Env),
      Stmt.execBlock cx sv fuel .coroutine (Stmt.blockWithoutYields body) env =
        Stmt.execBlock cx sv fuel .coroutine body env
  | [], env => by simp only [Stmt.blockWithoutYields]
  | s :: rest, env => by
    by_cases hs : s = .yield
    · subst hs
      simp only [Stmt.blockWithoutYields, Stmt.execBlock, Stmt.exec, if_true, Eval.pure_bind]
      exact Stmt.execBlock_withoutYields cx sv fuel rest env
    · simp only [Stmt.blockWithoutYields_cons hs, Stmt.execBlock,
        Stmt.exec_withoutYields cx sv fuel s, Stmt.execBlock_withoutYields cx sv fuel rest]

theorem Stmt.execElse_withoutYields (cx : Context) (sv : Services) (fuel : Nat) :
    ∀ (body : Option (List Stmt)) (env : Env),
      Stmt.execElse cx sv fuel .coroutine (Stmt.elseWithoutYields body) env =
        Stmt.execElse cx sv fuel .coroutine body env
  | none, env => by simp only [Stmt.elseWithoutYields]
  | some body, env => by
    simp only [Stmt.elseWithoutYields, Stmt.execElse,
      Stmt.execBlock_withoutYields cx sv fuel body]

end

theorem Block.ended_withoutYields (cx : Context) (sv : Services) (fuel : Nat) (body : Block)
    (env : Env) :
    Block.ended cx sv fuel .coroutine body.withoutYields env =
      Block.ended cx sv fuel .coroutine body env := by
  simp only [Block.ended_eq, Block.withoutYields, Stmt.execBlock_withoutYields]

/-! ## Turn by turn -/

/-- Runs a machine and takes it up again each time it stopped at a yield, until it stops without
one. There are at most `turns` runs, of at most `fuel` steps each. -/
def Machine.alternate (cx : Context) (sv : Services) (fuel : Nat) :
    Nat → Machine → World → Stepped
  | 0, m, w => ⟨.outOfFuel, m, w⟩
  | turns + 1, m, w =>
    let r := m.run cx sv fuel w
    match r.verdict with
    | .done =>
      if r.machine.isSuspended then alternate cx sv fuel turns r.machine.clearYield r.world else r
    | _ => r

namespace Machine

variable {m : Machine} {w : World} {fuel turns : Nat}

/-- Turns as a computation, which gives the machine that stopped. -/
def alternates (cx : Context) (sv : Services) (m : Machine) (fuel turns : Nat) : Eval Machine :=
  fun w => (m.alternate cx sv fuel turns w).outcome

theorem alternate_ne_more : (m.alternate cx sv fuel turns w).verdict ≠ .more := by
  induction turns generalizing m w with
  | zero => simp [alternate]
  | succ turns ih =>
    simp only [alternate]
    split
    case h_1 hdone =>
      split
      · exact ih
      · simp [hdone]
    case h_2 => exact run_ne_more

theorem alternates_succ (m : Machine) (fuel turns : Nat) :
    m.alternates cx sv fuel (turns + 1) = do
      let m ← m.runs cx sv fuel
      if m.isSuspended then m.clearYield.alternates cx sv fuel turns else return m := by
  funext w
  have hmore : (m.run cx sv fuel w).verdict ≠ .more := run_ne_more
  rw [Eval.bind_apply]
  simp only [alternates, runs, alternate]
  generalize m.run cx sv fuel w = r at hmore ⊢
  obtain ⟨verdict, m', w'⟩ := r
  cases verdict with
  | more => exact absurd rfl hmore
  | done =>
    show (if m'.isSuspended then m'.clearYield.alternate cx sv fuel turns w' else _).outcome =
      (if m'.isSuspended then m'.clearYield.alternates cx sv fuel turns else Pure.pure m') w'
    split <;> rfl
  | fault f => rfl
  | outOfFuel => rfl

theorem alternates_of_suspended {m' : Machine} {w' : World}
    (h : m.runs cx sv fuel w = ⟨.value m', w'⟩) (hs : m'.isSuspended = true) :
    m.alternates cx sv fuel (turns + 1) w = m'.clearYield.alternates cx sv fuel turns w' := by
  rw [alternates_succ, Eval.bind_of_value h, hs]
  rfl

theorem alternates_of_not_suspended
    (h : ∀ m' w', m.runs cx sv fuel w = ⟨.value m', w'⟩ → m'.isSuspended = false) :
    m.alternates cx sv fuel (turns + 1) w = m.runs cx sv fuel w := by
  rw [alternates_succ]
  rcases hr : m.runs cx sv fuel w with ⟨m' | f | _, w'⟩
  · rw [Eval.bind_of_value hr, h m' w' hr]
    rfl
  · rw [Eval.bind_of_fault hr]
  · rw [Eval.bind_of_outOfFuel hr]

/-- Passing over yields either goes on behind the yield at which a run stops, after the steps of
that run, or does what the run does. -/
theorem passes_cases (cx : Context) (sv : Services) (fuel : Nat) (m : Machine) (w : World) :
    (∃ m' w' k, m.runs cx sv fuel w = ⟨.value m', w'⟩ ∧ m'.isSuspended = true ∧
      ∀ n, m.passes cx sv (n + k + 1) w = m'.clearYield.passes cx sv n w') ∨
    (∀ m' w', m.runs cx sv fuel w = ⟨.value m', w'⟩ → m'.isSuspended = false) ∧
      m.passes cx sv fuel w = m.runs cx sv fuel w := by
  induction fuel generalizing m w with
  | zero =>
    refine .inr ⟨fun m' w' h => ?_, rfl⟩
    cases h
  | succ fuel ih =>
    rw [runs_succ]
    rcases ha : m.advance cx sv w with ⟨⟨more, m₁⟩ | f | _, w₁⟩
    · rw [Eval.bind_of_value ha]
      cases more with
      | true =>
        rw [passes_of_more ha]
        rcases ih m₁ w₁ with ⟨m', w', k, hrun, hs, hk⟩ | hend
        · exact .inl ⟨m', w', k + 1, hrun, hs,
            fun n => (passes_of_more ha (n + k + 1)).trans (hk n)⟩
        · exact .inr hend
      | false =>
        by_cases hs : m₁.isSuspended = true
        · refine .inl ⟨m₁, w₁, 0, rfl, hs, fun n => ?_⟩
          simp only [passes]
          rw [Eval.bind_of_value ha]
          simp only [Bool.false_eq_true, if_false, hs, if_true]
        · refine .inr ⟨fun m' w' h => ?_, ?_⟩
          · cases h
            simpa using hs
          · simp only [passes]
            rw [Eval.bind_of_value ha]
            simp only [Bool.false_eq_true, if_false, hs]
    · refine .inr ⟨fun m' w' h => ?_, ?_⟩
      · rw [Eval.bind_of_fault ha] at h
        cases h
      · simp only [passes]
        rw [Eval.bind_of_fault ha, Eval.bind_of_fault ha]
    · refine .inr ⟨fun m' w' h => ?_, ?_⟩
      · rw [Eval.bind_of_outOfFuel ha] at h
        cases h
      · simp only [passes]
        rw [Eval.bind_of_outOfFuel ha, Eval.bind_of_outOfFuel ha]

/-- What the turns return, passing over yields returns too. The induction is on the turns. -/
theorem passes_of_alternates (h : (m.alternates cx sv fuel turns w).Returned) :
    ∃ n, m.passes cx sv n w = m.alternates cx sv fuel turns w := by
  induction turns generalizing m w with
  | zero => exact absurd h Outcome.not_returned
  | succ turns ih =>
    rcases passes_cases cx sv fuel m w with ⟨m', w', k, hrun, hs, hk⟩ | ⟨hrun, hend⟩
    · rw [alternates_of_suspended hrun hs] at h ⊢
      obtain ⟨n, hn⟩ := ih h
      exact ⟨n + k + 1, (hk n).trans hn⟩
    · rw [alternates_of_not_suspended hrun]
      exact ⟨fuel, hend⟩

/-- What passing over yields returns, the turns return too, if each has as many steps, and there are
as many turns. The induction is on the steps; a turn takes at least one of them. -/
theorem alternates_of_passes {n : Nat} (hn : n ≤ fuel) (hturns : n ≤ turns)
    (h : (m.passes cx sv n w).Returned) :
    m.alternates cx sv fuel turns w = m.passes cx sv n w := by
  induction n using Nat.strongRecOn generalizing m w turns with
  | ind n ih =>
    obtain ⟨turns, rfl⟩ : ∃ t, turns = t + 1 := by
      refine ⟨turns - 1, ?_⟩
      rcases Nat.eq_zero_or_pos n with rfl | hpos
      · exact absurd h Outcome.not_returned
      · omega
    have hmore : ∀ j, n ≤ j → m.passes cx sv j w = m.passes cx sv n w :=
      fun j hj => m.passes_le cx sv hj w h
    rcases passes_cases cx sv fuel m w with ⟨m', w', k, hrun, hs, hk⟩ | ⟨hrun, hend⟩
    · -- With no more steps than lead to the yield, nothing would have been returned.
      have hk' : k + 1 ≤ n := by
        apply Nat.le_of_not_lt
        intro hlt
        have hzero := hk 0
        rw [hmore (0 + k + 1) (by omega)] at hzero
        rw [hzero] at h
        exact Outcome.not_returned h
      obtain ⟨j, rfl⟩ : ∃ j, n = j + k + 1 := ⟨n - k - 1, by omega⟩
      rw [hk j] at h ⊢
      rw [alternates_of_suspended hrun hs]
      exact ih j (by omega) (by omega) (by omega) h
    · rw [alternates_of_not_suspended hrun, ← hend, hmore fuel hn]

/-- Turn by turn, a machine returns what it returns passing over yields. -/
theorem alternates_iff_passes (cx : Context) (m : Machine) (w : World) {o : Outcome Machine}
    (ho : o.Returned) :
    (∃ n, m.alternates cx (services cx n) n n w = o) ↔
      ∃ n, m.passes cx (services cx n) n w = o := by
  constructor
  · rintro ⟨n, rfl⟩
    obtain ⟨k, hk⟩ := passes_of_alternates ho
    -- The turns may take more steps in all than each of them has.
    rw [← hk] at ho ⊢
    refine ⟨max n k, ?_⟩
    exact m.passes_below cx (services_below cx (by omega)) (by omega) w ho
  · rintro ⟨n, rfl⟩
    exact ⟨n, alternates_of_passes (Nat.le_refl n) (Nat.le_refl n) ho⟩

end Machine

/-! ## Yields make no difference -/

/-- A machine that passes over yields returns what its body gives when it runs directly, under the
services of machines. -/
theorem Block.passes_iff_ended (cx : Context) (kind : BodyKind) (body : Block) (env : Env)
    (w : World) {o : Outcome Machine} (ho : o.Returned) :
    (∃ n, (start body env kind).passes cx (services cx n) n w = o) ↔
      ∃ n, Block.ended cx (services cx n) n kind body env w = o := by
  constructor
  · rintro ⟨n, rfl⟩
    exact ⟨n, Block.passes_below cx (services cx n) n kind body env w ho⟩
  · rintro ⟨n, rfl⟩
    obtain ⟨k, hk⟩ := Block.passes_settling cx (services cx n) n kind body env w ho
    have hrun : (start body env kind).passes cx (services cx n) k w =
        Block.ended cx (services cx n) n kind body env w := hk k (Nat.le_refl k)
    rw [← hrun] at ho ⊢
    refine ⟨max n k, ?_⟩
    exact Machine.passes_below cx _ (services_below cx (by omega)) (by omega) w ho

/-- Turn by turn, a body returns what it returns in one run without its yields. -/
theorem Block.alternates_iff_runs (cx : Context) (body : Block) (env : Env) (w : World)
    {o : Outcome Machine} (ho : o.Returned) :
    (∃ n, (start body env .coroutine).alternates cx (services cx n) n n w = o) ↔
      ∃ n, (start body.withoutYields env .coroutine).runs cx (services cx n) n w = o := by
  have hsteady : (start body.withoutYields env .coroutine).Steady :=
    steady_start_of_yieldFree (Stmt.yieldFreeBlock_withoutYields body) env .coroutine
  simp only [← hsteady.passes_eq_runs]
  rw [alternates_iff_passes cx _ w ho, Block.passes_iff_ended cx _ _ _ _ ho,
    Block.passes_iff_ended cx _ _ _ _ ho]
  simp only [Block.ended_withoutYields]

theorem Stepped.returned_iff {r : Stepped} : r.outcome.Returned ↔ r.verdict ≠ .outOfFuel := by
  obtain ⟨verdict, m, w⟩ := r
  cases verdict <;> simp [Stepped.outcome, Verdict.ending, Outcome.Returned]

/-- **Yields are transparent.** Run up to each yield and taken up behind it until it stops for good,
a coroutine's body ends with the same control, environment and world as one run of the body without
its yields, it fails with the same fault and world, and it stops if and only if that run does. -/
theorem Machine.alternate_iff_run_withoutYields (cx : Context) (body : Block) (env : Env)
    (w : World) :
    (∀ control env' w',
      (∃ n, ((start body env .coroutine).alternate cx (services cx n) n n w).Ended
        control env' w') ↔
      ∃ n, ((start body.withoutYields env .coroutine).run cx (services cx n) n w).Ended
        control env' w') ∧
    (∀ f w',
      (∃ n, ((start body env .coroutine).alternate cx (services cx n) n n w).Failed f w') ↔
      ∃ n, ((start body.withoutYields env .coroutine).run cx (services cx n) n w).Failed f w') ∧
    ((∃ n, ((start body env .coroutine).alternate cx (services cx n) n n w).verdict ≠ .outOfFuel) ↔
      ∃ n, ((start body.withoutYields env .coroutine).run cx (services cx n) n w).verdict ≠
        .outOfFuel) := by
  have hsame : ∀ {o : Outcome Machine}, o.Returned → _ :=
    fun {_} ho => Block.alternates_iff_runs cx body env w ho
  refine ⟨fun control env' w' => ?_, fun f w' => ?_, ?_⟩
  · simp only [Stepped.ended_iff alternate_ne_more, Stepped.ended_iff run_ne_more]
    constructor
    · rintro ⟨n, m, hm, hends⟩
      obtain ⟨k, hk⟩ := (hsame Outcome.returned_value).1 ⟨n, hm⟩
      exact ⟨k, m, hk, hends⟩
    · rintro ⟨n, m, hm, hends⟩
      obtain ⟨k, hk⟩ := (hsame Outcome.returned_value).2 ⟨n, hm⟩
      exact ⟨k, m, hk, hends⟩
  · simp only [Stepped.failed_iff]
    exact hsame Outcome.returned_fault
  · simp only [← Stepped.returned_iff]
    constructor
    · rintro ⟨n, hn⟩
      obtain ⟨k, hk⟩ := (hsame hn).1 ⟨n, rfl⟩
      exact ⟨k, (congrArg Outcome.Returned hk).mpr hn⟩
    · rintro ⟨n, hn⟩
      obtain ⟨k, hk⟩ := (hsame hn).2 ⟨n, rfl⟩
      exact ⟨k, (congrArg Outcome.Returned hk).mpr hn⟩

end CoLang
