import CoLang.Command.Folder
import CoLang.Proofs.Chronicle
import CoLang.Proofs.Json.Pretty
/-!
# Running a program from the command line

Whatever holds the files, the command line prints what the run of the main body prints, and the
trace that it hands over to be written is read as the events of the run, also when the run failed
(`Task.run_agrees`). Two things can go wrong, the run and the writing of the trace. If both do, only
the trace is reported (`Task.unwritten_trace_hides_fault`).
-/

namespace CoLang

/-! ## Traces as texts -/

namespace Event

/-- Reads a trace. -/
def listOfText? (num : Json.Numerals) (text : String) : Option (List Event) := do
  let j ← Json.parse? num text
  Wire.list decode .text j

/-- There are no doubles in an event. -/
theorem isPlain_encode {ok : Float → Bool} {e : Event} (h : e.seq < 2 ^ 64) :
    e.encode.isPlain ok = true := by
  have hseq : (Json.int e.seq).isPlain ok = true := Json.isPlain_nat h
  unfold encode
  cases e.instanceName with
  | none => simp [hseq]
  | some name => simp [hseq]

theorem height_encode (e : Event) : e.encode.height = 1 := by
  unfold encode
  cases e.instanceName <;> rfl

/-- **A trace is read back from its text**, if its numbers fit a word. -/
theorem listOfText?_traceText (num : Json.Numerals) {events : Array Event}
    (h : ∀ e ∈ events.toList, e.seq < 2 ^ 64) :
    listOfText? num (traceText num events) = some events.toList := by
  have hplain : (encodeAll events.toList).isPlain num.readsBack = true := by
    rw [encodeAll, Json.isPlain_arr]
    exact List.forall_mem_map.2 fun e he => isPlain_encode (h e he)
  have hheight : (encodeAll events.toList).height ≤ Wire.textRoom := by
    have hitems : Json.itemsHeight (events.toList.map encode) ≤ 1 :=
      Json.itemsHeight_le_iff.2 (List.forall_mem_map.2 fun e _ => (height_encode e).le)
    have hroom : 1 + 1 ≤ Wire.textRoom := by decide
    rw [encodeAll, Json.height]
    omega
  have hcarries : Wire.Carries (Wire.list decode) (encodeAll events.toList) events.toList :=
    .list fun e _ => Event.carries e
  simp only [listOfText?, traceText, Json.parse?_pretty hplain, Option.bind_eq_bind,
    Option.bind_some]
  exact hcarries.reads .text hheight

end Event

theorem Numbered.seq_lt {events : Array Event} (h : Numbered events) {e : Event}
    (he : e ∈ events.toList) : e.seq < events.size := by
  obtain ⟨k, hk, hek⟩ := List.getElem_of_mem he
  have hat : events[k]? = some e := by
    rw [← Array.getElem?_toList, List.getElem?_eq_some_iff]
    exact ⟨hk, hek⟩
  rw [h k e hat]
  exact hk

/-- The events of a run of the main body are numbered from zero, whether or not the run failed. -/
theorem Interpreter.numbered_runMain {p : Program} {settings : Settings} {capacity : Option Nat}
    {identities : Nat → Identity} {i : Interpreter}
    (hbuild : build p settings capacity identities = .ok i) {fuel : Nat}
    (hret : (i.runMain fuel).1 ≠ .outOfFuel) : Numbered (i.runMain fuel).2.world.events := by
  have hreply : (i.perform fuel .runMain).1 ≠ .outOfFuel := by
    show Reply.ofEnding (fun _ => .ok) (i.runMain fuel).1 ≠ .outOfFuel
    cases hending : (i.runMain fuel).1 with
    | outOfFuel => exact absurd hending hret
    | _ => simp [Reply.ofEnding]
  have hinitial : Numbered (Moment.begins i.main .runMain i.world).world.events := by
    obtain ⟨d, -, rfl⟩ := build_ok_iff.1 hbuild
    intro k e he
    simp [Moment.world, World.initial] at he
  exact (leads_finished hreply).keeps (P := fun z => Numbered z.world.events)
    (fun hz hnext => hz.shift (Moment.next_shift hnext)) hinitial

/-! ## The answer of a run -/

/-- A program is read back from its text. -/
theorem Program.ofText?_compact {num : Json.Numerals} {p : Program} (hfinite : p.isFinite = true)
    (hplain : p.encode.isPlain num.readsBack = true)
    (hheight : p.encode.height ≤ Wire.textRoom) :
    Program.ofText? num (p.encode.compact num) = some p := by
  simp only [Program.ofText?, Json.parse?_compact hplain, Option.bind_eq_bind, Option.bind_some]
  exact (Program.carries hfinite).reads .text hheight

/-- Why a run failed, if it did. -/
def Ending.failure? {α : Type} : Ending α → Option Failure
  | .fault f => some (.fault f)
  | _ => none

theorem Ending.ne_outOfFuel {α : Type} {x : Ending α} {failure : Failure}
    (h : x.failure? = some failure) : x ≠ .outOfFuel := by
  rintro rfl
  cases h

namespace Task

section Hosts

variable {σ : Type} {host : Host (StateM σ)} {s s₁ : σ} {file text : String} {p : Program}
  {settings : Settings} {i : Interpreter}

theorem run_bind {α β : Type} {x : StateM σ α} {a : α} (h : x.run s = (a, s₁))
    (f : α → StateM σ β) : (x >>= f).run s = (f a).run s₁ := by
  rw [StateT.run_bind, h]
  rfl

theorem run_prepare (hread : (host.read file).run s = (.ok text, s₁))
    (htext : Program.ofText? host.numerals text = some p)
    (hbuild : Interpreter.build p settings none host.identities = .ok i) :
    (prepare host settings file).run s = (.ok (p, i), s₁) := by
  unfold prepare
  rw [run_bind hread]
  simp only [htext, hbuild]
  rfl

theorem run_perform (hread : (host.read file).run s = (.ok text, s₁))
    (htext : Program.ofText? host.numerals text = some p)
    (hbuild : Interpreter.build p settings none host.identities = .ok i)
    (trace : Option String) (depth : Option Nat) (fuel : Nat) :
    (perform host settings fuel (.run file trace depth)).run s =
      (runAndTrace host fuel i trace).run s₁ := by
  unfold perform
  rw [run_bind (run_prepare hread htext hbuild)]

/-- What is reported once the trace was to be written: a trace that is not written takes the place
of what went wrong in the run. -/
def reported (path : String) (failure : Option Failure) : Except String Unit → Option Failure
  | .ok () => failure
  | .error cause => some (.unwritableTrace path cause)

theorem run_write (done : Performed) {path : String} {written : Except String Unit}
    (hwrite : (host.write path (Event.traceText host.numerals i.world.events)).run s =
      (written, s₁)) :
    (runAndTrace.write host (some path) i done).run s =
      (some ⟨done.lines, reported path done.failure written⟩, s₁) := by
  unfold runAndTrace.write
  rw [run_bind hwrite]
  rcases written with cause | ⟨⟩ <;> rfl

theorem runAndTrace_eq {fuel : Nat} (trace : Option String)
    (hret : (i.runMain fuel).1 ≠ .outOfFuel) :
    runAndTrace host fuel i trace = runAndTrace.write host trace (i.runMain fuel).2
      ⟨(i.runMain fuel).2.world.lines.toList, (i.runMain fuel).1.failure?⟩ := by
  unfold runAndTrace
  rcases hrun : i.runMain fuel with ⟨ending, i'⟩
  rw [hrun] at hret
  cases ending with
  | value u => rfl
  | fault f => rfl
  | outOfFuel => exact absurd rfl hret

end Hosts

/-- **The command line agrees with the interpreter.** Let a file hold a program that can be built,
whatever holds the file and whatever becomes of what is written there. As long as the run of the
main body has not ended there is no answer, and nothing is written. Once it has, exactly the lines
of the run are printed. Where a trace is asked for, what is written is read as exactly the events of
the run, failed or not. The failure reported is that of the run, with its kind and its message,
unless the trace could not be written: then that is reported, and a failure of the run is not. -/
theorem run_agrees {σ : Type} {host : Host (StateM σ)} {s s₁ : σ} {file text : String}
    {p : Program} {settings : Settings} {i : Interpreter}
    (hread : (host.read file).run s = (.ok text, s₁))
    (htext : Program.ofText? host.numerals text = some p)
    (hbuild : Interpreter.build p settings none host.identities = .ok i) (trace : Option String)
    (depth : Option Nat) (fuel : Nat) :
    let run := i.runMain fuel
    let answer := (perform host settings fuel (.run file trace depth)).run s
    (run.1 = .outOfFuel → answer = (none, s₁)) ∧
    (run.1 ≠ .outOfFuel → ∃ failure s₂,
      answer = (some ⟨run.2.world.lines.toList, failure⟩, s₂) ∧
      (trace = none → failure = run.1.failure? ∧ s₂ = s₁) ∧
      ∀ path, trace = some path → ∃ written text,
        (host.write path text).run s₁ = (written, s₂) ∧
        (run.2.world.events.size ≤ 2 ^ 64 →
          Event.listOfText? host.numerals text = some run.2.world.events.toList) ∧
        (written = .ok () → failure = run.1.failure?) ∧
        ∀ cause, written = .error cause → failure = some (.unwritableTrace path cause)) ∧
    (∀ f, (Failure.fault f).rendered = "error[" ++ f.kind.label ++ "]: " ++ f.message) ∧
    ∀ path cause, (Failure.unwritableTrace path cause).rendered =
      "error: Failed to write trace to " ++ path ++ ": " ++ cause := by
  intro run answer
  have hanswer : answer = (runAndTrace host fuel i trace).run s₁ :=
    run_perform hread htext hbuild trace depth fuel
  refine ⟨fun hrun => ?_, fun hrun => ?_, fun f => rfl, fun path cause => rfl⟩
  · have hending : (i.runMain fuel).1 = .outOfFuel := hrun
    rw [hanswer, runAndTrace]
    simp only [hending]
    rfl
  · rw [runAndTrace_eq trace hrun] at hanswer
    cases trace with
    | none =>
      refine ⟨run.1.failure?, s₁, hanswer, fun _ => ⟨rfl, rfl⟩, fun path hpath => ?_⟩
      cases hpath
    | some path =>
      rcases hwrite : (host.write path
        (Event.traceText host.numerals run.2.world.events)).run s₁ with ⟨written, s₂⟩
      rw [run_write _ hwrite] at hanswer
      refine ⟨_, s₂, hanswer, (fun htrace => by cases htrace), fun path' hpath => ?_⟩
      cases hpath
      refine ⟨written, _, hwrite, fun hsize => ?_, ?_, ?_⟩
      · have hnumbered := Interpreter.numbered_runMain hbuild hrun
        exact Event.listOfText?_traceText host.numerals fun e he =>
          Nat.lt_of_lt_of_le (hnumbered.seq_lt he) hsize
      · rintro rfl
        rfl
      · rintro cause rfl
        rfl

/-- The main body divides by zero, and its trace is kept. -/
theorem run_agrees_division :
    let p : Program := ⟨[], [], [.varDecl "x" .int none (some ["@process x"]),
      .expr (.call "print" [.lit (.str "before")]),
      .expr (.call "print" [.binary (.arith .div) (.lit (.int 1)) (.lit (.int 0))])]⟩
    let host : Host (StateM (Option String)) :=
      { read := fun _ => return .ok (p.encode.compact .exact)
        write := fun _ text => do set (some text); return .ok ()
        numerals := .exact, complaint := fun _ => "", identities := default }
    ∃ text, (perform host .default 20 (.run "p.json" (some "t.json") none)).run none =
        (some ⟨["before"], some (.fault (.dividedByZero 1))⟩, some text) ∧
      Event.listOfText? .exact text = some [⟨0, .declare, "x", "x", none⟩] := by
  intro p host
  let i : Interpreter := ⟨⟨⟨[], []⟩, .default, none, default⟩, p.main, .initial⟩
  have hread : (host.read "p.json").run none = (.ok (p.encode.compact .exact), none) := rfl
  have htext : Program.ofText? .exact (p.encode.compact .exact) = some p :=
    Program.ofText?_compact (by decide +kernel) (by decide +kernel) (by decide +kernel)
  have hbuild : Interpreter.build p .default none default = .ok i :=
    Interpreter.build_ok_iff.2 ⟨_, rfl, rfl⟩
  have hrun : (i.runMain 20).1.failure? = some (.fault (.dividedByZero 1)) ∧
      (i.runMain 20).2.world.lines.toList = ["before"] ∧
      (i.runMain 20).2.world.events.toList = [⟨0, .declare, "x", "x", none⟩] := by
    decide +kernel
  obtain ⟨hfailure, hlines, hevents⟩ := hrun
  obtain ⟨failure, s₂, hanswer, -, htrace⟩ :=
    (run_agrees hread htext hbuild (some "t.json") none 20).2.1 (Ending.ne_outOfFuel hfailure)
  obtain ⟨written, text, hwrite, hsize, hreported, -⟩ := htrace "t.json" rfl
  obtain ⟨rfl, rfl⟩ := Prod.mk.inj hwrite
  rw [hlines, hreported rfl, hfailure] at hanswer
  rw [← Array.length_toList, hevents] at hsize
  exact ⟨text, hanswer, hsize (by decide)⟩

/-- The main body divides by zero, and its trace cannot be written. The division is not reported. -/
theorem unwritten_trace_hides_fault :
    let p : Program := ⟨[], [], [
      .expr (.call "print" [.binary (.arith .div) (.lit (.int 1)) (.lit (.int 0))])]⟩
    let i : Interpreter := ⟨⟨⟨[], []⟩, .default, none, default⟩, p.main, .initial⟩
    let host : Host (StateM Unit) :=
      { read := fun _ => return .ok (p.encode.compact .exact)
        write := fun _ _ => return .error "No such file or directory (os error 2)"
        numerals := .exact, complaint := fun _ => "", identities := default }
    Program.ofText? .exact (p.encode.compact .exact) = some p ∧
      Interpreter.build p .default none default = .ok i ∧
      (i.runMain 20).1.failure? = some (.fault (.dividedByZero 1)) ∧
      ∃ failure, (perform host .default 20 (.run "p.json" (some "t.json") none)).run () =
          (some ⟨[], some failure⟩, ()) ∧
        failure.rendered = "error: Failed to write trace to t.json: " ++
          "No such file or directory (os error 2)" ∧
        failure.rendered ≠ (Failure.fault (.dividedByZero 1)).rendered := by
  intro p i host
  have htext : Program.ofText? .exact (p.encode.compact .exact) = some p :=
    Program.ofText?_compact (by decide +kernel) (by decide +kernel) (by decide +kernel)
  have hbuild : Interpreter.build p .default none default = .ok i :=
    Interpreter.build_ok_iff.2 ⟨_, rfl, rfl⟩
  have hfailure : (i.runMain 20).1.failure? = some (.fault (.dividedByZero 1)) := by decide +kernel
  have hlines : (i.runMain 20).2.world.lines.toList = [] := by decide +kernel
  have hread : (host.read "p.json").run () = (.ok (p.encode.compact .exact), ()) := rfl
  have hwrite : (host.write "t.json" (Event.traceText .exact (i.runMain 20).2.world.events)).run
      () = (.error "No such file or directory (os error 2)", ()) := rfl
  refine ⟨htext, hbuild, hfailure, .unwritableTrace "t.json" _, ?_, rfl, by decide +kernel⟩
  rw [run_perform hread htext hbuild, runAndTrace_eq _ (Ending.ne_outOfFuel hfailure),
    run_write _ hwrite, hlines]
  rfl

end Task

end CoLang
