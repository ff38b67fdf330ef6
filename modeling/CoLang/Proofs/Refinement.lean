import CoLang.Proofs.Simulation
import CoLang.Proofs.Yields
/-!
# The machine refines direct runs

A body that cannot yield comes to the same end whether a machine steps through it, as do the
machines of all the functions it calls, or it runs directly, as do the bodies of all those functions
(`Machine.run_refines_exec`). What the two have in common is the world's own operations on coroutine
instances.

Both sides are bounded by fuel, and not alike: the machine spends it on steps and the direct run on
rounds of loops. So the comparison goes both ways through rows of computations with more and more
fuel. With the same fuel, the direct run returns what the machine returns (`services_below_direct`).
From some fuel on, the machine returns what the direct run returns (`direct_settling`).
-/

namespace CoLang

open Machine

variable {cx : Context} {sv : Services} {kind : BodyKind} {body : Block} {env : Env}

/-! ## One level of calls -/

theorem Block.runs_settling (hsteady : (start body env kind).Steady) (cx : Context)
    (sv : Services) (fuel : Nat) :
    Link.settling.holds (Block.ended cx sv fuel kind body env)
      fun n => (start body env kind).runs cx sv n := by
  simp only [← hsteady.passes_eq_runs]
  exact Block.passes_settling cx sv fuel kind body env

theorem Block.runs_below (hsteady : (start body env kind).Steady) (cx : Context) (sv : Services)
    (fuel : Nat) :
    ((start body env kind).runs cx sv fuel).Below (Block.ended cx sv fuel kind body env) := by
  rw [← hsteady.passes_eq_runs]
  exact Block.passes_below cx sv fuel kind body env

theorem Block.ended_below {sv' : Services} (h : sv.Below sv') (cx : Context) (fuel : Nat)
    (kind : BodyKind) (body : Block) (env : Env) :
    (Block.ended cx sv fuel kind body env).Below (Block.ended cx sv' fuel kind body env) :=
  Link.settling_const.1
    (Link.settling.bind (Link.settling_const.2 (Block.exec_below h cx fuel kind body env))
      fun _ => Link.settling_refl _)

theorem Function.callDirect_eq (fuel : Nat) (f : Function) (args : List Val) :
    f.callDirect cx sv fuel args = (do
      let env ← .ofExcept (f.callEnv args)
      f.within cx do
        let m ← Block.ended cx sv fuel .function f.body env
        .ofExcept (f.result m.returned)) := by
  have hvalue : ∀ env (signal : Signal),
      (after .function [] env signal).returned = signal.value := by
    intro env signal
    cases signal <;> rfl
  simp only [Function.callDirect, Block.ended, Eval.bind_assoc, Eval.pure_bind, hvalue]

/-! ## All levels of calls -/

/-- **With the same fuel, direct services return whatever those of machines return.** -/
theorem services_below_direct (cx : Context) (n : Nat) :
    (services cx n).Below (directServices cx n) := by
  induction n with
  | zero => exact ⟨fun _ _ => .refl _, fun _ => .refl _⟩
  | succ n ih =>
    refine ⟨fun f args => ?_, fun name => .refl _⟩
    show (f.call cx (services cx n) n args).Below (f.callDirect cx (directServices cx n) n args)
    rw [Function.call_eq, Function.callDirect_eq]
    refine Link.settling_const.1 (Link.settling.bind (Link.settling_refl _) fun env =>
      (Link.settling_keeps cx).within f (Link.settling.bind ?_ fun m => Link.settling_refl _))
    have hsteady : (start f.body env .function).Steady := steady_start (by simp) f.body env
    exact Link.settling_const.2
      ((Block.runs_below hsteady cx (services cx n) n).trans (Block.ended_below ih cx n _ _ _))

/-- If services settle on direct ones, so do the machines that they serve. The direct run is first
brought to machine services with enough fuel, and only then to a machine. -/
theorem Block.settling_of_serves (hsteady : (start body env kind).Steady)
    (h : Link.settling.Serves cx sv (fun _ => cx) (services cx)) (fuel : Nat) :
    Link.settling.holds (Block.ended cx sv fuel kind body env)
      fun n => (start body env kind).runs cx (services cx n) n := by
  intro w hret
  obtain ⟨k, hk⟩ := Link.settling.bind
    (Link.execBody h Link.settling_exhausted fuel kind body env)
    (fun r => Link.settling_refl (Pure.pure (after kind [] r.1 r.2))) w hret
  have hsame : Block.ended cx (services cx k) fuel kind body env w =
      Block.ended cx sv fuel kind body env w := hk k (Nat.le_refl k)
  have hret' : (Block.ended cx (services cx k) fuel kind body env w).Returned := by
    rw [hsame]
    exact hret
  obtain ⟨k', hk'⟩ := Block.runs_settling hsteady cx (services cx k) fuel w hret'
  refine ⟨max k k', fun n hn => ?_⟩
  have hrun : (start body env kind).runs cx (services cx k) n w =
      Block.ended cx (services cx k) fuel kind body env w := hk' n (by omega)
  rw [← hsame, ← hrun]
  refine Machine.runs_below cx _ (services_below cx (by omega)) (Nat.le_refl n) w ?_
  rw [hrun]
  exact hret'

theorem Link.settling_of_succ {α : Type} {x : Eval α} {xs : Nat → Eval α}
    (h : Link.settling.holds x fun n => xs (n + 1)) : Link.settling.holds x xs := by
  intro w hret
  obtain ⟨k, hk⟩ := h w hret
  refine ⟨k + 1, fun n hn => ?_⟩
  obtain ⟨j, rfl⟩ : ∃ j, n = j + 1 := ⟨n - 1, by omega⟩
  exact hk j (by omega)

/-- **The services of machines, with more and more fuel, settle on direct ones.** -/
theorem direct_settling (cx : Context) (n : Nat) :
    Link.settling.Serves cx (directServices cx n) (fun _ => cx) (services cx) := by
  induction n with
  | zero =>
    exact (Link.settling_keeps cx).serves (fun _ _ => Link.settling_exhausted)
      fun _ => Link.settling_exhausted
  | succ n ih =>
    refine (Link.settling_keeps cx).serves (fun f args => ?_) (services_settling cx (n + 1)).resume
    refine Link.settling_of_succ ?_
    show Link.settling.holds (f.callDirect cx (directServices cx n) n args)
      fun j => f.call cx (services cx j) j args
    simp only [Function.call_eq, Function.callDirect_eq]
    refine Link.settling.bind (Link.settling.ofExcept _) fun env =>
      (Link.settling_keeps cx).within f (Link.settling.bind ?_ fun m => Link.settling.ofExcept _)
    exact Block.settling_of_serves (steady_start (by simp) f.body env) ih n

/-- A body that cannot yield returns the same, run by a machine or directly. -/
theorem Block.returns_iff (hsteady : (start body env kind).Steady) (w : World)
    {o : Outcome Machine} (ho : o.Returned) :
    (∃ n, (start body env kind).runs cx (services cx n) n w = o) ↔
      ∃ n, Block.ended cx (directServices cx n) n kind body env w = o := by
  constructor
  · rintro ⟨n, rfl⟩
    have hbelow := (Block.runs_below hsteady cx (services cx n) n).trans
      (Block.ended_below (services_below_direct cx n) cx n kind body env)
    exact ⟨n, hbelow w ho⟩
  · rintro ⟨n, rfl⟩
    obtain ⟨k, hk⟩ := Block.settling_of_serves hsteady (direct_settling cx n) n w ho
    exact ⟨k, hk k (Nat.le_refl k)⟩

/-! ## The machine and the direct run -/

theorem Block.ended_value_iff {fuel : Nat} {w w' : World} {m : Machine} :
    Block.ended cx sv fuel kind body env w = ⟨.value m, w'⟩ ↔
      ∃ env' signal, Block.exec cx sv fuel kind body env w = ⟨.value (env', signal), w'⟩ ∧
        m = after kind [] env' signal := by
  unfold Block.ended
  rcases hx : Block.exec cx sv fuel kind body env w with ⟨⟨env', signal⟩ | f | _, w₁⟩
  · rw [Eval.bind_of_value hx]
    constructor
    · intro h
      cases h
      exact ⟨env', signal, rfl, rfl⟩
    · rintro ⟨env₁, signal₁, h, rfl⟩
      cases h
      rfl
  · rw [Eval.bind_of_fault hx]
    constructor
    · intro h
      cases h
    · rintro ⟨env₁, signal₁, h, -⟩
      cases h
  · rw [Eval.bind_of_outOfFuel hx]
    constructor
    · intro h
      cases h
    · rintro ⟨env₁, signal₁, h, -⟩
      cases h

theorem Block.ended_fault_iff {fuel : Nat} {w w' : World} {f : Fault} :
    Block.ended cx sv fuel kind body env w = ⟨.fault f, w'⟩ ↔
      Block.exec cx sv fuel kind body env w = ⟨.fault f, w'⟩ := by
  unfold Block.ended
  rcases hx : Block.exec cx sv fuel kind body env w with ⟨⟨env', signal⟩ | f' | _, w₁⟩
  · rw [Eval.bind_of_value hx]
    constructor <;> intro h <;> cases h
  · rw [Eval.bind_of_fault hx]
    constructor <;> intro h <;> cases h <;> rfl
  · rw [Eval.bind_of_outOfFuel hx]
    constructor <;> intro h <;> cases h

theorem Signal.control_injective {signal signal' : Signal} (h : signal.control = signal'.control) :
    signal = signal' := by
  cases signal <;> cases signal' <;> simp_all [Signal.control]

/-- A run that ends tells what the direct run signals, with the same environment and world. -/
theorem Block.ends_iff (hsteady : (start body env kind).Steady) (w : World) (signal : Signal)
    (env' : Env) (w' : World) :
    (∃ n, ((start body env kind).run cx (services cx n) n w).Ended signal.control env' w') ↔
      ∃ n, Block.exec cx (directServices cx n) n kind body env w =
        ⟨.value (env', signal), w'⟩ := by
  constructor
  · rintro ⟨n, hn⟩
    obtain ⟨m, hrun, hcontrol, henv⟩ := (Stepped.ended_iff run_ne_more).1 hn
    obtain ⟨k, hk⟩ := (Block.returns_iff hsteady w Outcome.returned_value).1 ⟨n, hrun⟩
    obtain ⟨env₁, signal₁, hexec, rfl⟩ := Block.ended_value_iff.1 hk
    obtain rfl : signal₁ = signal := Signal.control_injective hcontrol
    obtain rfl : env₁ = env' := henv
    exact ⟨k, hexec⟩
  · rintro ⟨n, hn⟩
    have hended := Block.ended_value_iff.2 ⟨env', signal, hn, rfl⟩
    obtain ⟨k, hk⟩ := (Block.returns_iff hsteady w Outcome.returned_value).2 ⟨n, hended⟩
    exact ⟨k, (Stepped.ended_iff run_ne_more).2 ⟨_, hk, rfl, rfl⟩⟩

theorem Block.fails_iff (hsteady : (start body env kind).Steady) (w : World) (f : Fault)
    (w' : World) :
    (∃ n, ((start body env kind).run cx (services cx n) n w).Failed f w') ↔
      ∃ n, Block.exec cx (directServices cx n) n kind body env w = ⟨.fault f, w'⟩ := by
  simp only [Stepped.failed_iff, ← Block.ended_fault_iff]
  exact Block.returns_iff hsteady w Outcome.returned_fault

/-- **The machine refines direct runs.** In a main body or the body of a function, a run ends as the
direct run does: behind the last statement, with the value returned, or with the fault, and with
the same environment and world. -/
theorem Machine.run_refines_exec (cx : Context) {kind : BodyKind} (hkind : kind ≠ .coroutine)
    (body : Block) (env : Env) (w : World) :
    (∀ env' w',
      (∃ n, ((start body env kind).run cx (services cx n) n w).Ended .idle env' w') ↔
        ∃ n, Block.exec cx (directServices cx n) n kind body env w =
          ⟨.value (env', .normal), w'⟩) ∧
    (∀ v env' w',
      (∃ n, ((start body env kind).run cx (services cx n) n w).Ended (.returning v) env' w') ↔
        ∃ n, Block.exec cx (directServices cx n) n kind body env w =
          ⟨.value (env', .ret v), w'⟩) ∧
    ∀ f w',
      (∃ n, ((start body env kind).run cx (services cx n) n w).Failed f w') ↔
        ∃ n, Block.exec cx (directServices cx n) n kind body env w = ⟨.fault f, w'⟩ := by
  have hsteady := steady_start hkind body env
  exact ⟨fun env' w' => Block.ends_iff hsteady w .normal env' w',
    fun v env' w' => Block.ends_iff hsteady w (.ret v) env' w',
    fun f w' => Block.fails_iff hsteady w f w'⟩

/-- A loop that is left from within a conditional, by way of a function that prints. -/
theorem Machine.run_refines_exec_loop :
    let say : Function := ⟨"say", [⟨"n", .int⟩], none, [.expr (.call "print" [.var "n"])], none⟩
    let cx : Context := ⟨⟨[say], []⟩, .default, none, default⟩
    let body : Block :=
      [.whileLoop (.lit (.bool true))
        [.expr (.call "say" [.lit (.int 7)]),
         .ifElse (.lit (.bool true)) [.varDecl "x" .int none none, .brk] none],
       .ret (some (.lit (.bool false)))]
    BodyKind.main ≠ .coroutine ∧
      ∃ n, Block.exec cx (directServices cx n) n .main body .empty .initial =
        ⟨.value (.empty, .ret (some (.bool false))), { World.initial with lines := #["7"] }⟩ := by
  intro say cx body
  have hkind : BodyKind.main ≠ .coroutine := by decide
  refine ⟨hkind, ((Machine.run_refines_exec cx hkind body .empty .initial).2.1 _ _ _).1 ⟨40, ?_⟩⟩
  constructor <;> cbv

end CoLang
