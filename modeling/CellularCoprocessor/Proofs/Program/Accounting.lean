import CellularCoprocessor.Proofs.Engine.Reset
import CellularCoprocessor.Proofs.Machine.Sessions

/-!
# What a run of a program is charged for

A run ends with the first statement that fails. Every instruction before it was completed, is in the
trace and is counted with all its cycles. A check that fails leaves the engine as it is. An
instruction that runs out of cycles is charged for its dispatch and for the cycles it was given, and
is not counted as completed.
-/

namespace CellularCoprocessor

namespace Session

variable {ε α β : Type}

theorem run_bind_eq_error_iff {x : Session ε α} {f : α → Session ε β} {e u : Engine}
    {failure : ε} :
    (x >>= f).run e = (.error failure, u) ↔ x.run e = (.error failure, u) ∨
      ∃ a t, x.run e = (.ok a, t) ∧ (f a).run t = (.error failure, u) := by
  constructor
  · intro h
    rcases hx : x.run e with ⟨failure' | a, t⟩
    · cases (run_bind_error hx f).symm.trans h
      exact .inl rfl
    · exact .inr ⟨a, t, rfl, (run_bind_ok hx f).symm.trans h⟩
  · rintro (hx | ⟨a, t, hx, hf⟩)
    · exact run_bind_error hx f
    · exact (run_bind_ok hx f).trans hf

end Session

namespace Program

def Line.instruction? (line : Line) : Option Instruction :=
  match line.statement with
  | .execute i => some i
  | _ => none

def Line.executes (mnemonic : String) (line : Line) : Bool :=
  line.instruction?.any (·.operation.mnemonic == mnemonic)

/-- The instructions of a program in the order of the text, with the numbers of their lines. -/
def instructions (p : Program) : List (Nat × Instruction) :=
  p.lines.filterMap fun line => line.instruction?.map (line.number, ·)

namespace RunError

def line : RunError → Nat
  | engine line _ _ => line
  | noResult line => line
  | wrongResult line _ _ => line
  | wrongCar line _ _ => line

/-- The cycles of an instruction that was cut short. -/
def cut : RunError → Option Nat
  | engine _ _ (.timeout cycles) => some cycles
  | _ => none

theorem trail_eq (failure : RunError) :
    ∃ text causes, failure.trail = (s!"line {failure.line}: " ++ text) :: causes := by
  have hText : ∀ (n : Nat) (text : String),
      s!"line {n}" ++ (": " ++ text) = s!"line {n}: " ++ text :=
    fun _ _ => String.append_assoc.symm
  cases failure with
  | engine n i cause => exact ⟨i.describe, [cause.message], rfl⟩
  | noResult n => exact ⟨_, [], congrArg (· :: []) (hText n "expect before any instruction")⟩
  | wrongResult n expected last =>
    refine ⟨"expected 0x" ++ (Text.hex 8 expected.toNat ++ (", " ++ (last.instruction.describe ++
      (" returned 0x" ++ Text.hex 8 last.completion.result.toNat)))), [], ?_⟩
    rw [← hText]
    simp only [trail, String.append_assoc]
    rfl
  | wrongCar n expected found =>
    refine ⟨"expected CAR 0x" ++ (Text.hex 16 expected.toNat ++ (", " ++
      ("found 0x" ++ Text.hex 16 found.toNat))), [], ?_⟩
    rw [← hText]
    simp only [trail, String.append_assoc]
    rfl

end RunError

/-- A line fails on an engine. `last` is the last instruction completed before. -/
inductive Fails (t : Engine) : (last : Option Executed) → Line → RunError → Engine → Prop where
  | noResult {n : Nat} {w : UInt32} : Fails t none ⟨n, .expectResult w⟩ (.noResult n) t
  | wrongResult {n : Nat} {w : UInt32} {last : Executed} (hDiffers : last.completion.result ≠ w) :
    Fails t (some last) ⟨n, .expectResult w⟩ (.wrongResult n w last) t
  | wrongCar {last : Option Executed} {n : Nat} {w : UInt64} (hDiffers : t.car ≠ w) :
    Fails t last ⟨n, .expectCar w⟩ (.wrongCar n w t.car) t
  /-- The instruction was dispatched and clocked, and is still in flight. -/
  | timeout {last : Option Executed} {n : Nat} {i : Instruction} {signals : Signals} {d : Engine}
    (hMore : t.timeout < i.cost t.bus.latency) (hIssue : t.issue i = .ok (signals, d)) :
    Fails t last ⟨n, .execute i⟩ (.engine n i (.timeout t.timeout))
      { Engine.clock t.timeout d with timeouts := t.timeouts + 1 }

/-- What the statements of a program have added to the counters, if they completed the instructions
of the trace, and the cycles of a further instruction that was cut short. -/
structure Accounted (p : Program) (trace : List Executed) (cut : Option Nat) (e t : Engine) :
    Prop where
  listed : trace.map (fun x => (x.line, x.instruction)) = p.instructions
  instructions : t.instructions = e.instructions + p.instructionCount
  completed : ∀ mnemonic, t.completed.count mnemonic =
    e.completed.count mnemonic + p.lines.countP (·.executes mnemonic)
  cycles : t.cycles = e.cycles + (trace.map fun x => x.completion.cycles + 1).sum +
    cut.elim 0 (· + 1)
  timeouts : t.timeouts = e.timeouts + cut.elim 0 fun _ => 1
  timeout : t.timeout = e.timeout
  latency : t.bus.latency = e.bus.latency

section Lines

variable {e s t u : Engine} {last : Option Executed} {line : Line} {failure : RunError}

theorem accounted_nil (e : Engine) : Accounted ⟨[]⟩ [] none e e :=
  ⟨rfl, rfl, fun _ => rfl, rfl, rfl, rfl, rfl⟩

/-- A statement that is no instruction is not charged for, and it changes nothing but the memory. -/
theorem accounted_directive (hLine : line.instruction? = none) (e : Engine) (m : Memory) :
    Accounted ⟨[line]⟩ [] none e (e.withMemory m) := by
  obtain ⟨n, statement⟩ := line
  cases statement with
  | execute i => cases hLine
  | _ => exact ⟨rfl, rfl, fun _ => rfl, rfl, rfl, rfl, rfl⟩

theorem Accounted.trans {p q : Program} {trace rest : List Executed} {cut : Option Nat}
    (h : Accounted p trace none e s) (hRest : Accounted q rest cut s t) :
    Accounted ⟨p.lines ++ q.lines⟩ (trace ++ rest) cut e t where
  listed := by
    rw [List.map_append, h.listed, hRest.listed]
    exact List.filterMap_append.symm
  instructions := by
    rw [hRest.instructions, h.instructions, instructionCount, instructionCount, instructionCount,
      List.countP_append, Nat.add_assoc]
  completed mnemonic := by
    rw [hRest.completed, h.completed, List.countP_append, Nat.add_assoc]
  cycles := by
    rw [hRest.cycles, h.cycles, List.map_append, List.sum_append, Option.elim_none, Nat.add_zero,
      Nat.add_assoc e.cycles]
  timeouts := by rw [hRest.timeouts, h.timeouts, Option.elim_none, Nat.add_zero]
  timeout := hRest.timeout.trans h.timeout
  latency := hRest.latency.trans h.latency

theorem run_check_of_holds {holds : Bool} (hHolds : holds = true) (failure : RunError)
    (e : Engine) :
    (do
      Session.require holds failure
      return none : Session RunError (Option Executed)).run e = (.ok none, e) := by
  rw [hHolds]
  rfl

theorem Fails.line_eq (h : Fails t last line failure u) : failure.line = line.number := by
  cases h <;> rfl

section Idle

variable (h : t.Coherent) (hIdle : t.controller.phase = .idle)

include h hIdle

theorem Fails.run (hFails : Fails t last line failure u) :
    (runLine last line).run t = (.error failure, u) := by
  cases hFails with
  | noResult => rfl
  | wrongResult hDiffers => exact Session.run_require_bind (beq_eq_false_iff_ne.mpr hDiffers) _ _ t
  | wrongCar hDiffers => exact Session.run_require_bind (beq_eq_false_iff_ne.mpr hDiffers) _ _ t
  | @timeout _ n i _ _ hMore hIssue =>
    cases (Engine.issue_of_idle hIdle i).symm.trans hIssue
    have hExecute := h.execute_eq hIdle i
    rw [if_neg (Nat.not_le.mpr hMore), Engine.move, Engine.timeouts_clock_dispatched] at hExecute
    refine Session.run_bind_error ?_ _
    rw [Session.run_execute, hExecute]
    rfl

theorem Fails.accounted (hFails : Fails t last line failure u) :
    Accounted ⟨[]⟩ [] failure.cut t u := by
  cases hFails with
  | @timeout _ n i _ _ hMore hIssue =>
    cases (Engine.issue_of_idle hIdle i).symm.trans hIssue
    obtain ⟨hInstructions, hCompleted⟩ :=
      h.retired_clock_dispatched hIdle i (Nat.le_of_lt hMore)
    rw [if_neg (Nat.ne_of_lt hMore)] at hInstructions hCompleted
    have hCycles := Engine.cycles_clock_dispatched t.timeout t i
    exact {
      listed := rfl
      instructions := hInstructions
      completed := fun mnemonic => congrArg (·.count mnemonic) hCompleted
      cycles := by rw [hCycles, Nat.add_right_comm]; rfl
      timeouts := rfl
      timeout := Engine.timeout_clock_dispatched _ t i
      latency := Engine.latency_clock_dispatched _ t i }
  | _ => exact accounted_nil t

theorem accounted_execute (n : Nat) (i : Instruction) (result : UInt32) :
    Accounted ⟨[⟨n, .execute i⟩]⟩ [⟨n, i, ⟨result, i.cost t.bus.latency⟩⟩] none t
      (Engine.clock (i.cost t.bus.latency) (t.dispatched i)) := by
  obtain ⟨hInstructions, hCompleted⟩ := h.retired_clock_dispatched hIdle i (Nat.le_refl _)
  rw [if_pos rfl] at hInstructions hCompleted
  have hCycles := Engine.cycles_clock_dispatched (i.cost t.bus.latency) t i
  exact {
    listed := rfl
    instructions := hInstructions
    completed := by
      intro mnemonic
      rw [hCompleted, Tally.count_add, List.countP_singleton]
      simp only [Line.executes, Line.instruction?, Option.any_some, beq_iff_eq]
    cycles := by rw [hCycles, Nat.add_right_comm]; rfl
    timeouts := Engine.timeouts_clock_dispatched _ t i
    timeout := Engine.timeout_clock_dispatched _ t i
    latency := Engine.latency_clock_dispatched _ t i }

/-- A line succeeds and leaves the engine ready for the next one, or it fails. -/
theorem runLine_cases (last : Option Executed) (line : Line) :
    (∃ now u, (runLine last line).run t = (.ok now, u) ∧ u.Coherent ∧
      u.controller.phase = .idle ∧ Accounted ⟨[line]⟩ now.toList none t u) ∨
    ∃ failure u, Fails t last line failure u := by
  obtain ⟨n, statement⟩ := line
  cases statement with
  | execute i =>
    by_cases hEnough : i.cost t.bus.latency ≤ t.timeout
    · have hDone := (h.isIdle_clock_dispatched hIdle i (Nat.le_refl _)).mpr rfl
      have hExecute := Session.run_execute (RunError.engine n i) i t
      rw [h.execute_eq hIdle i, if_pos hEnough] at hExecute
      exact .inl ⟨_, _, Session.run_bind_ok hExecute _,
        (h.coherent_dispatched hIdle i).coherent_clock _, of_decide_eq_true hDone,
        accounted_execute h hIdle n i _⟩
    · exact .inr ⟨_, _, .timeout (Nat.lt_of_not_le hEnough) (Engine.issue_of_idle hIdle i)⟩
  | preload address w =>
    exact .inl ⟨none, _, rfl, h.coherent_move (.access (·.writeWord address.toUInt64 w)), hIdle,
      accounted_directive rfl t _⟩
  | expectResult w =>
    cases last with
    | none => exact .inr ⟨_, _, .noResult⟩
    | some last =>
      by_cases hSame : last.completion.result = w
      · exact .inl ⟨none, t, run_check_of_holds (beq_iff_eq.mpr hSame) _ t, h, hIdle,
          accounted_directive rfl t t.memory⟩
      · exact .inr ⟨_, _, .wrongResult hSame⟩
  | expectCar w =>
    by_cases hSame : t.car = w
    · exact .inl ⟨none, t, run_check_of_holds (beq_iff_eq.mpr hSame) _ t, h, hIdle,
        accounted_directive rfl t t.memory⟩
    · exact .inr ⟨_, _, .wrongCar hSame⟩

theorem runLine_eq_error_iff :
    (runLine last line).run t = (.error failure, u) ↔ Fails t last line failure u := by
  refine ⟨fun hRun => ?_, Fails.run h hIdle⟩
  rcases runLine_cases h hIdle last line with ⟨now, v, hOk, -⟩ | ⟨failure', v, hFails⟩
  · cases hOk.symm.trans hRun
  · cases (hFails.run h hIdle).symm.trans hRun
    exact hFails

end Idle

theorem accounted_runLines {lines : List Line} {trace : List Executed} (h : e.Coherent)
    (hIdle : e.controller.phase = .idle) (hRun : (runLines last lines).run e = (.ok trace, t)) :
    t.Coherent ∧ t.controller.phase = .idle ∧ Accounted ⟨lines⟩ trace none e t := by
  induction lines generalizing e last trace with
  | nil =>
    cases hRun
    exact ⟨h, hIdle, accounted_nil _⟩
  | cons line lines ih =>
    obtain ⟨now, s, hLine, hRest⟩ := Session.run_bind_eq_ok_iff.mp hRun
    obtain ⟨rest, t', hLines, hTrace⟩ := Session.run_bind_eq_ok_iff.mp hRest
    cases hTrace
    rcases runLine_cases h hIdle last line with
      ⟨_, _, hOk, hNext, hStill, hFirst⟩ | ⟨_, _, hFails⟩
    · cases hOk.symm.trans hLine
      obtain ⟨hCoherent, hDone, hOthers⟩ := ih hNext hStill hLines
      exact ⟨hCoherent, hDone, hFirst.trans hOthers⟩
    · cases (hFails.run h hIdle).symm.trans hLine

theorem getLast?_append_or (now : Option Executed) (trace : List Executed) :
    (now.toList ++ trace).getLast?.or last = trace.getLast?.or (now <|> last) := by
  rw [List.getLast?_append, Option.or_assoc]
  cases now <;> rfl

/-- The first line that fails ends the run, whatever comes after it. -/
theorem runLines_eq_error_iff {lines : List Line} :
    (runLines last lines).run e = (.error failure, u) ↔
      ∃ before line after trace t, lines = before ++ line :: after ∧
        (runLines last before).run e = (.ok trace, t) ∧
        (runLine (trace.getLast?.or last) line).run t = (.error failure, u) := by
  induction lines generalizing e last with
  | nil =>
    constructor
    · rintro ⟨⟩
    · rintro ⟨before, line, after, -, -, hLines, -⟩
      exact absurd hLines.symm (List.append_ne_nil_of_right_ne_nil _ (List.cons_ne_nil _ _))
  | cons first lines ih =>
    constructor
    · intro hRun
      rcases Session.run_bind_eq_error_iff.mp hRun with hFirst | ⟨now, s, hFirst, hRest⟩
      · exact ⟨[], first, lines, [], e, rfl, rfl, hFirst⟩
      rcases Session.run_bind_eq_error_iff.mp hRest with hLines | ⟨_, _, _, hPure⟩
      · obtain ⟨before, line, after, trace, t, rfl, hBefore, hLine⟩ := ih.mp hLines
        refine ⟨first :: before, line, after, now.toList ++ trace, t, rfl, ?_, ?_⟩
        · exact (Session.run_bind_ok hFirst _).trans (Session.run_bind_ok hBefore _)
        · rwa [getLast?_append_or]
      · cases hPure
    · rintro ⟨before, line, after, trace, t, hLines, hBefore, hLine⟩
      cases before with
      | nil =>
        obtain ⟨rfl, rfl⟩ := List.cons.inj hLines
        cases hBefore
        exact Session.run_bind_error hLine _
      | cons first' before =>
        obtain ⟨rfl, rfl⟩ := List.cons.inj hLines
        obtain ⟨now, s, hFirst, hRest⟩ := Session.run_bind_eq_ok_iff.mp hBefore
        obtain ⟨trace', t', hOthers, hTrace⟩ := Session.run_bind_eq_ok_iff.mp hRest
        cases hTrace
        rw [getLast?_append_or] at hLine
        have hStops := ih.mpr ⟨before, line, after, trace', t, rfl, hOthers, hLine⟩
        exact (Session.run_bind_ok hFirst _).trans (Session.run_bind_error hStops _)

end Lines

/-- A run that succeeds is charged for the instructions of the program, which are the ones in its
trace. A run fails exactly if a statement does on the engine that those before it have left; it
names this statement, is charged for those before it and for the instruction that was cut short, if
this was the failure, and nothing after it matters. -/
theorem run_accounted {e : Engine} (h : e.Reachable) (hIdle : e.controller.isIdle = true)
    (p : Program) :
    (∀ trace t, p.run.run e = (.ok trace, t) → Accounted p trace none e t) ∧
    (∀ failure u, p.run.run e = (.error failure, u) ↔
      ∃ before line after trace t, p.lines = before ++ line :: after ∧
        (Program.mk before).run.run e = (.ok trace, t) ∧
        Fails t trace.getLast? line failure u) ∧
    ∀ before trace t line failure u, (Program.mk before).run.run e = (.ok trace, t) →
      Fails t trace.getLast? line failure u →
      Accounted ⟨before⟩ trace failure.cut e u ∧
        ∃ text causes, failure.trail = (s!"line {line.number}: " ++ text) :: causes := by
  have hPhase : e.controller.phase = .idle := of_decide_eq_true hIdle
  refine ⟨?_, ?_, ?_⟩
  · intro trace t hRun
    exact (accounted_runLines h.coherent hPhase hRun).2.2
  · intro failure u
    refine runLines_eq_error_iff.trans (exists₅_congr fun before line after trace t =>
      and_congr_right fun _ => and_congr_right fun hBefore => ?_)
    obtain ⟨hCoherent, hStill, -⟩ := accounted_runLines h.coherent hPhase hBefore
    rw [Option.or_none]
    exact runLine_eq_error_iff hCoherent hStill
  · intro before trace t line failure u hRun hFails
    obtain ⟨hCoherent, hStill, hBefore⟩ := accounted_runLines h.coherent hPhase hRun
    have hCharged := hBefore.trans (hFails.accounted hCoherent hStill)
    rw [List.append_nil, List.append_nil] at hCharged
    rw [← hFails.line_eq]
    exact ⟨hCharged, failure.trail_eq⟩

/-- A burst of two words runs out of cycles after a load that did not. The statements behind it are
not reached. -/
theorem run_accounted_burst :
    let e := (Engine.fresh .empty 1 5).actAll
      [.execute (.setLow 9), .execute (.load 8), .issue (.load 8), .step, .reset]
    let before : List Line := [⟨1, .preload 16 7⟩, ⟨3, .execute (.load 16)⟩, ⟨4, .expectCar 7⟩]
    let burst : Instruction := .burstLoad 16 2
    let p : Program := ⟨before ++ ⟨5, .execute burst⟩ :: [⟨6, .execute (.setLow 1)⟩]⟩
    let trace : List Executed := [⟨3, .load 16, ⟨0, 2⟩⟩]
    e.Reachable ∧ e.controller.isIdle = true ∧ ∃ t u,
      (Program.mk before).run.run e = (.ok trace, t) ∧
      Fails t trace.getLast? ⟨5, .execute burst⟩ (.engine 5 burst (.timeout 5)) u ∧
      p.run.run e = (.error (.engine 5 burst (.timeout 5)), u) ∧
      u.cycles = e.cycles + 3 + 6 ∧ u.instructions = e.instructions + 1 ∧
      u.timeouts = e.timeouts + 1 := by
  intro e before burst p trace
  have hReachable : e.Reachable := ⟨_, _, _, _, rfl⟩
  have hIdle : e.controller.isIdle = true := rfl
  obtain ⟨-, hError, hCharged⟩ := run_accounted hReachable hIdle p
  obtain ⟨t, hBefore, hTimeout, hLatency, hStill⟩ : ∃ t,
      (Program.mk before).run.run e = (.ok trace, t) ∧ t.timeout = 5 ∧ t.bus.latency = 1 ∧
        t.controller.phase = .idle :=
    ⟨_, Prod.ext (by decide +kernel) rfl, by decide +kernel, by decide +kernel,
      by decide +kernel⟩
  have hMore : t.timeout < burst.cost t.bus.latency := by
    rw [hTimeout, hLatency]
    decide
  have hFails : Fails t trace.getLast? ⟨5, .execute burst⟩ _ _ :=
    .timeout hMore (Engine.issue_of_idle hStill burst)
  rw [hTimeout] at hFails
  obtain ⟨hAccounted, -⟩ := hCharged before trace t _ _ _ hBefore hFails
  exact ⟨hReachable, hIdle, t, _, hBefore, hFails,
    (hError _ _).mpr ⟨before, _, _, trace, t, rfl, hBefore, hFails⟩, hAccounted.cycles,
    hAccounted.instructions, hAccounted.timeouts⟩

end Program

end CellularCoprocessor
