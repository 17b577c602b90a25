import CellularCoprocessor.Proofs.Engine.Timing

/-!
# Suspended instructions

An instruction that has run out of cycles stays in flight. The engine refuses everything else until
it has been clocked far enough, and then it is in the state in which it would be if the instruction
had been given all its cycles at once.
-/

namespace CellularCoprocessor.Engine

variable {e : Engine}

/-- What may be tried while an instruction is in flight. -/
inductive Attempt where
  | execute (i : Instruction)
  | issue (i : Instruction)
  | setCar (w : UInt64)
  | getCar

def attempt (e : Engine) : Attempt → Except EngineError Unit × Engine
  | .execute i =>
    let (outcome, t) := e.execute i
    (outcome.map fun _ => (), t)
  | .issue i =>
    match e.issue i with
    | .ok (_, t) => (.ok (), t)
    | .error refusal => (.error (.busy refusal.toBusy), refusal.state)
  | .setCar w => e.setCar w
  | .getCar =>
    let (outcome, t) := e.getCar
    (outcome.map fun _ => (), t)

def attemptAll (e : Engine) : List Attempt → List (Except EngineError Unit) × Engine
  | [] => ([], e)
  | a :: attempts =>
    let (answer, t) := e.attempt a
    let (answers, u) := t.attemptAll attempts
    (answer :: answers, u)

structure WatchedCycle where
  answers : List (Except EngineError Unit)
  signals : Signals

/-- Clocks the engine once for each list of attempts. The attempts come before the cycle. -/
def resume (e : Engine) : List (List Attempt) → List WatchedCycle × Engine
  | [] => ([], e)
  | attempts :: rest =>
    let (answers, t) := e.attemptAll attempts
    let (signals, u) := t.step
    let (cycles, v) := u.resume rest
    (⟨answers, signals⟩ :: cycles, v)

theorem issue_of_busy (hBusy : e.controller.phase ≠ .idle) (i : Instruction) :
    e.issue i = .error ⟨⟨e.controller.phase⟩, e⟩ :=
  issue_error_iff.mpr ⟨hBusy, rfl⟩

theorem execute_of_busy (hBusy : e.controller.phase ≠ .idle) (i : Instruction) :
    e.execute i = (.error (.busy ⟨e.controller.phase⟩), e) := by
  rw [execute, issue_of_busy hBusy]

theorem attempt_of_busy (hBusy : e.controller.phase ≠ .idle) (a : Attempt) :
    e.attempt a = (.error (.busy ⟨e.controller.phase⟩), e) := by
  cases a with
  | execute i => simp only [attempt, execute_of_busy hBusy, Except.map]
  | issue i => simp only [attempt, issue_of_busy hBusy]
  | setCar w => simp only [attempt, setCar, execute_of_busy hBusy]
  | getCar => simp only [attempt, getCar, execute_of_busy hBusy, Except.map]

theorem attemptAll_of_busy (hBusy : e.controller.phase ≠ .idle) (attempts : List Attempt) :
    e.attemptAll attempts =
      (attempts.map fun _ => .error (.busy ⟨e.controller.phase⟩), e) := by
  induction attempts with
  | nil => rfl
  | cons a attempts ih => simp only [attemptAll, attempt_of_busy hBusy, ih, List.map_cons]

theorem resume_cons_of_busy (hBusy : e.controller.phase ≠ .idle) (attempts : List Attempt)
    (rest : List (List Attempt)) :
    e.resume (attempts :: rest) =
      (⟨attempts.map fun _ => .error (.busy ⟨e.controller.phase⟩), e.step.1⟩ ::
          (e.step.2.resume rest).1,
        (e.step.2.resume rest).2) := by
  simp only [resume, attemptAll_of_busy hBusy]

theorem Coherent.step_of_more (h : e.Coherent) (hBusy : e.controller.phase ≠ .idle)
    (hMore : e.remaining ≠ 1) : e.step.1 = .busy ∧ e.step.2.controller.phase ≠ .idle := by
  have hNot : ¬ e.step.1.ready = true := fun hReady => hMore ((h.ready_step_iff hBusy).mp hReady)
  rw [controller_step]
  rw [signals_step] at hNot ⊢
  rcases Controller.reports_advance (e.bus.respond e.controller.request).1 hBusy with
    hUnderWay | ⟨hReady, _, _⟩
  · exact hUnderWay
  · exact absurd hReady hNot

theorem Coherent.step_of_last (h : e.Coherent) (hBusy : e.controller.phase ≠ .idle)
    (hLast : e.remaining = 1) : e.step.1 = .done e.step.2.controller.output.result := by
  have hReady := (h.ready_step_iff hBusy).mpr hLast
  have hOutput := h.output_step hBusy hLast
  rw [← hOutput]
  rcases hSignals : e.step.1 with ⟨ready, result⟩
  rw [hSignals] at hReady
  cases hReady
  rfl

/-- Clocking an engine through the rest of an instruction, whatever is tried meanwhile. -/
structure Resumes (e : Engine) (attempts : List (List Attempt)) : Prop where
  signals : (e.resume attempts).1.map WatchedCycle.signals =
    List.replicate (attempts.length - 1) .busy ++
      [.done (clock attempts.length e).controller.output.result]
  refused : ∀ cycle ∈ (e.resume attempts).1, ∀ answer ∈ cycle.answers,
    ∃ phase, answer = .error (.busy ⟨phase⟩)
  engine : (e.resume attempts).2 = clock attempts.length e

theorem Coherent.resumes (h : e.Coherent) (hBusy : e.controller.phase ≠ .idle)
    (attempts : List (List Attempt)) (hLength : attempts.length = e.remaining) :
    e.Resumes attempts := by
  induction attempts generalizing e with
  | nil =>
    have hPositive := h.remaining_pos hBusy
    exact absurd hLength (Nat.ne_of_lt hPositive)
  | cons first rest ih =>
    have hStep := h.remaining_step hBusy
    have hRest : rest.length = e.step.2.remaining := by
      simp only [List.length_cons] at hLength
      omega
    have hFirst : ∀ answer ∈ first.map fun _ => Except.error (.busy ⟨e.controller.phase⟩),
        ∃ phase, answer = (.error (.busy ⟨phase⟩) : Except EngineError Unit) := by
      intro answer hAnswer
      obtain ⟨_, _, rfl⟩ := List.mem_map.mp hAnswer
      exact ⟨_, rfl⟩
    by_cases hLast : e.remaining = 1
    · obtain rfl : rest = [] := List.length_eq_zero_iff.mp (by omega)
      constructor
      · rw [resume_cons_of_busy hBusy, h.step_of_last hBusy hLast]
        rfl
      · rw [resume_cons_of_busy hBusy]
        intro cycle hCycle
        obtain rfl := List.mem_singleton.mp hCycle
        exact hFirst
      · rw [resume_cons_of_busy hBusy]
        rfl
    · obtain ⟨hSignals, hStill⟩ := h.step_of_more hBusy hLast
      obtain ⟨hTail, hRefused, hEngine⟩ := ih h.coherent_step hStill hRest
      have hCount : rest.length - 1 + 1 = rest.length := by omega
      constructor
      · rw [resume_cons_of_busy hBusy, List.map_cons, hTail, hSignals, List.length_cons,
          Nat.add_sub_cancel, ← hCount, List.replicate_succ, hCount]
        rfl
      · rw [resume_cons_of_busy hBusy]
        intro cycle hCycle
        rcases List.mem_cons.mp hCycle with rfl | hLater
        · exact hFirst
        · exact hRefused cycle hLater
      · rw [resume_cons_of_busy hBusy]
        exact hEngine

section Limits

variable (e) (timeout timeouts : Nat)

theorem step_withLimits :
    { e with timeout, timeouts }.step = (e.step.1, { e.step.2 with timeout, timeouts }) := by
  simp only [step, settle]
  split <;> rfl

theorem clock_withLimits (n : Nat) :
    clock n { e with timeout, timeouts } = { clock n e with timeout, timeouts } := by
  induction n generalizing e with
  | zero => rfl
  | succ n ih => rw [clock, step_withLimits, ih, clock]

theorem dispatched_withTimeout (i : Instruction) :
    { e with timeout }.dispatched i = { e.dispatched i with timeout } := by
  simp only [dispatched, settle]
  split <;> rfl

end Limits

theorem clock_add (m n : Nat) (e : Engine) : clock (m + n) e = clock n (clock m e) := by
  induction m generalizing e with
  | zero => rw [Nat.zero_add, clock]
  | succ m ih => rw [Nat.succ_add, clock, clock, ih]

theorem Coherent.execute_withTimeout (h : e.Coherent) (hIdle : e.controller.phase = .idle)
    (i : Instruction) (timeout : Nat) :
    { e with timeout }.execute i =
      if i.cost e.bus.latency ≤ timeout then
        (.ok ⟨(clock (i.cost e.bus.latency) (e.dispatched i)).controller.output.result,
            i.cost e.bus.latency⟩,
          { clock (i.cost e.bus.latency) (e.dispatched i) with timeout })
      else
        (.error (.timeout timeout),
          { clock timeout (e.dispatched i) with timeout, timeouts := e.timeouts + 1 }) := by
  have hLimited : ∀ n, clock n ({ e with timeout }.dispatched i) =
      { clock n (e.dispatched i) with timeout } := by
    intro n
    have hClock := clock_withLimits (e.dispatched i) timeout (e.dispatched i).timeouts n
    rw [dispatched_withTimeout, hClock, ← timeouts_clock n (e.dispatched i)]
  have hTimeouts := timeouts_clock_dispatched timeout e i
  have hExecute := (h.coherent_move (.limit timeout)).execute_eq hIdle i
  simp only [move, hLimited, hTimeouts] at hExecute
  exact hExecute

/-- An instruction that was cut short and is clocked to its end leaves the engine as an instruction
does that was given enough cycles. What is tried in between is refused and has no effect. -/
theorem resume_eq_execute (h : e.Reachable) (hIdle : e.controller.isIdle = true) (i : Instruction)
    {short long : Nat} (hShort : short < i.cost e.bus.latency)
    (hLong : i.cost e.bus.latency ≤ long) (attempts : List (List Attempt))
    (hLength : attempts.length = i.cost e.bus.latency - short) :
    let cut := { e with timeout := short }.execute i
    let whole := { e with timeout := long }.execute i
    let resumed := cut.2.resume attempts
    cut.1 = .error (.timeout short) ∧
    (∃ result, whole.1 = .ok ⟨result, i.cost e.bus.latency⟩ ∧
      resumed.1.map WatchedCycle.signals =
        List.replicate (attempts.length - 1) .busy ++ [.done result]) ∧
    (∀ cycle ∈ resumed.1, ∀ answer ∈ cycle.answers,
      ∃ phase, answer = .error (.busy ⟨phase⟩)) ∧
    resumed.2 = { whole.2 with timeout := short, timeouts := whole.2.timeouts + 1 } := by
  intro cut whole resumed
  have hCoherent := h.coherent
  have hPhase : e.controller.phase = .idle := of_decide_eq_true hIdle
  have hDispatched := hCoherent.coherent_dispatched hPhase i
  have hRemaining := hCoherent.remaining_dispatched hPhase i
  have hCut : cut = _ := hCoherent.execute_withTimeout hPhase i short
  have hWhole : whole = _ := hCoherent.execute_withTimeout hPhase i long
  rw [if_neg (Nat.not_le.mpr hShort)] at hCut
  rw [if_pos hLong] at hWhole
  -- What the instruction still needs when it is cut short is what the later cycles give it.
  have hLeft := hDispatched.remaining_clock (n := short) (by omega)
  have hCutRemaining : cut.2.remaining = (clock short (e.dispatched i)).remaining := by
    rw [hCut]
    rfl
  have hCutCoherent : cut.2.Coherent := by
    rw [hCut]
    exact ⟨(hDispatched.coherent_clock short).controller, (hDispatched.coherent_clock short).inFlight⟩
  have hCutBusy : cut.2.controller.phase ≠ .idle := by
    intro hDone
    have hZero := remaining_of_idle hDone
    omega
  have hRest : clock attempts.length cut.2 =
      { clock (i.cost e.bus.latency) (e.dispatched i) with
        timeout := short, timeouts := e.timeouts + 1 } := by
    have hCycles : i.cost e.bus.latency = short + attempts.length := by omega
    rw [hCut, hCycles, clock_add]
    exact clock_withLimits (clock short (e.dispatched i)) short (e.timeouts + 1) attempts.length
  obtain ⟨hSignals, hRefused, hEngine⟩ := hCutCoherent.resumes hCutBusy attempts (by omega)
  refine ⟨?_, ⟨(clock (i.cost e.bus.latency) (e.dispatched i)).controller.output.result, ?_, ?_⟩,
    hRefused, ?_⟩
  · rw [hCut]
  · rw [hWhole]
  · rw [hSignals, hRest]
  · rw [hEngine, hRest, hWhole, timeouts_clock_dispatched]

theorem resume_eq_execute_burst :
    let e := (fresh .empty 2 100).actAll [.execute (.setLow 5), .issue (.load 8), .step, .reset]
    let burst : Instruction := .burstStore 16 2
    let attempts : List (List Attempt) :=
      [[.getCar], [], [.execute .count, .setCar 7], [.issue .undo], []]
    let cut := { e with timeout := 3 }.execute burst
    let whole := { e with timeout := 8 }.execute burst
    e.Reachable ∧ e.controller.isIdle = true ∧ 3 < burst.cost e.bus.latency ∧
      burst.cost e.bus.latency ≤ 8 ∧ attempts.length = burst.cost e.bus.latency - 3 ∧
      (cut.2.resume attempts).2 =
        { whole.2 with timeout := 3, timeouts := whole.2.timeouts + 1 } := by
  intro e burst attempts cut whole
  have hReachable : e.Reachable := ⟨_, _, _, _, rfl⟩
  have hIdle : e.controller.isIdle = true := rfl
  have hCost : burst.cost e.bus.latency = 8 := by decide
  have hShort : 3 < burst.cost e.bus.latency := by omega
  have hLong : burst.cost e.bus.latency ≤ 8 := by omega
  have hLength : attempts.length = burst.cost e.bus.latency - 3 := by
    rw [hCost]
    rfl
  have hResumed := resume_eq_execute hReachable hIdle burst hShort hLong attempts hLength
  exact ⟨hReachable, hIdle, hShort, hLong, hLength, hResumed.2.2.2⟩

end CellularCoprocessor.Engine
