import CellularCoprocessor.Proofs.Automaton.Boards
import CellularCoprocessor.Proofs.Controller.Answers

/-!
# Evolutions pass by pass

While an evolution is under way, each cycle makes one pass, whatever the bus answers. So after any
number of cycles the configuration is the one that the boards give for as many generations, and
the instruction is complete in the cycle of its last pass.
-/

namespace CellularCoprocessor

namespace Evolution

def reference : Evolution → (rule : UInt8) → (n : Nat) → UInt64 → UInt64
  | elementary, rule, n, s => Automaton.ringReference rule n s
  | life, _, n, s => Automaton.torusReference n s

/-- The instruction for `n` passes. Life takes no rule. -/
def instruction : Evolution → (rule : UInt8) → (n : UInt16) → Instruction
  | elementary, rule, n => .step rule n
  | life, _, n => .life n

theorem iterate_pass (kind : Evolution) (rule : UInt8) (n : Nat) (s : UInt64) :
    (kind.pass rule)^[n] s = kind.reference rule n s := by
  cases kind with
  | elementary => exact Automaton.step_iterate rule n s
  | life => exact Automaton.lifeStep_iterate n s

end Evolution

namespace Controller

def watch (c : Controller) : List Response → List Signals
  | [] => []
  | r :: answers => (c.advance r).1 :: (c.advance r).2.watch answers

/-- The first `k` of the passes that were to be made have been made. -/
structure Evolved (kind : Evolution) (k : Nat) (c d : Controller) : Prop where
  registers : d.registers =
    { c.registers with
      car := (kind.pass c.registers.rule)^[k] c.registers.car
      steps := d.registers.steps }
  steps : d.registers.steps.toNat + k = c.registers.steps.toNat
  request : d.request = c.request
  ready : d.output.ready = true ↔ k = c.registers.steps.toNat

variable {c d : Controller} {kind : Evolution}

theorem Coherent.evolved_zero (h : c.Coherent) (hPhase : c.phase = .evolving kind) :
    Evolved kind 0 c c := by
  have hSteps := (h.evolving kind hPhase).steps
  refine ⟨rfl, rfl, rfl, ?_⟩
  constructor
  · intro hReady
    cases (h.ready hReady).symm.trans hPhase
  · omega

theorem Coherent.evolved_advance (h : c.Coherent) (hPhase : c.phase = .evolving kind)
    (r : Response) :
    Evolved kind 1 c (c.advance r).2 ∧
      (c.registers.steps.toNat = 1 ∧ (c.advance r).1 = .done successResult ∨
        1 < c.registers.steps.toNat ∧ (c.advance r).1 = .busy ∧
          (c.advance r).2.phase = .evolving kind) := by
  have hSteps := h.toNat_steps_advance r hPhase
  have hCoherent := h.coherent_advance r
  rw [advance_evolving r hPhase, advanceEvolution] at hSteps hCoherent ⊢
  split at hSteps
  · rename_i hZero
    have hLast : c.registers.steps.toNat = 1 := by
      simp only [complete, hZero] at hSteps
      exact hSteps.symm
    rw [if_pos hZero]
    refine ⟨⟨rfl, hSteps, rfl, ?_⟩, .inl ⟨hLast, rfl⟩⟩
    exact ⟨fun _ => hLast.symm, fun _ => rfl⟩
  · rename_i hMore
    rw [if_neg hMore] at hCoherent ⊢
    have hLeft := (hCoherent.evolving kind hPhase).steps
    refine ⟨⟨rfl, hSteps, rfl, ?_⟩, .inr ⟨?_, rfl, hPhase⟩⟩
    · constructor
      · intro hReady
        cases hReady
      · intro hLast
        simp only at hLeft hSteps
        omega
    · simp only at hLeft hSteps
      omega

theorem Evolved.trans {k : Nat} {t : Controller} (h : Evolved kind 1 c t)
    (ht : Evolved kind k t d) : Evolved kind (k + 1) c d := by
  obtain ⟨hRegisters, hSteps, hRequest, _⟩ := h
  obtain ⟨hRegisters', hSteps', hRequest', hReady⟩ := ht
  refine ⟨?_, by omega, hRequest'.trans hRequest, ?_⟩
  · rw [hRegisters', hRegisters]
    rfl
  · rw [hReady]
    omega

/-- Whatever the bus answers, every cycle makes one pass, and the last one is reported. -/
theorem Coherent.evolved_feed (h : c.Coherent) (hPhase : c.phase = .evolving kind)
    (answers : List Response) (hLength : answers.length ≤ c.registers.steps.toNat) :
    Evolved kind answers.length c (c.feed answers) ∧
      c.watch answers = (List.range answers.length).map fun j =>
        if j + 1 = c.registers.steps.toNat then .done successResult else .busy := by
  induction answers generalizing c with
  | nil => exact ⟨h.evolved_zero hPhase, rfl⟩
  | cons r answers ih =>
    obtain ⟨hFirst, ⟨hOne, hSignals⟩ | ⟨hMany, hSignals, hStill⟩⟩ := h.evolved_advance hPhase r
    · obtain rfl : answers = [] := by
        rw [hOne, List.length_cons] at hLength
        exact List.length_eq_zero_iff.mp (by omega)
      refine ⟨hFirst, ?_⟩
      rw [watch, watch, hSignals, hOne]
      rfl
    · have hLeft := hFirst.steps
      rw [List.length_cons] at hLength
      obtain ⟨hRest, hWatch⟩ := ih (h.coherent_advance r) hStill (by omega)
      refine ⟨hFirst.trans hRest, ?_⟩
      have hHead : ¬ 0 + 1 = c.registers.steps.toNat := by omega
      rw [watch, hWatch, hSignals, List.length_cons, List.range_succ_eq_map, List.map_cons,
        if_neg hHead, List.map_map]
      congr 1
      apply List.map_congr_left
      intro j _
      simp only [Function.comp_apply, Nat.succ_eq_add_one, ← hLeft, Nat.add_right_cancel_iff]

/-- What an evolution of `n` passes shows after some cycles with arbitrary answers. `c` is the
controller before its dispatch and `issued` the one after it. -/
structure Evolves (kind : Evolution) (rule : UInt8) (n : UInt16) (c issued : Controller)
    (answers : List Response) : Prop where
  signals : issued.watch answers = (List.range answers.length).map fun j =>
    if j + 1 = n.toNat then .done successResult else .busy
  car : (issued.feed answers).registers.car =
    kind.reference rule answers.length c.registers.car
  steps : (issued.feed answers).registers.steps.toNat = n.toNat - answers.length
  ready : (issued.feed answers).output.ready = true ↔ answers.length = n.toNat
  history : (issued.feed answers).registers.history.toList =
    (c.registers.car :: c.registers.history.toList).take historyDepth
  scratchpad : (issued.feed answers).registers.scratchpad = c.registers.scratchpad
  burst : (issued.feed answers).registers.burst = c.registers.burst
  request : (issued.feed answers).request = c.request

def latch (c : Controller) (rule : UInt8) : Evolution → Controller
  | .elementary => c.latchRule rule
  | .life => c

def started (c : Controller) (kind : Evolution) (rule : UInt8) (n : UInt16) : Controller :=
  (({ c.lowerReady with operation := some kind.operation }.latch rule kind).latchSteps
    n).snapshot.enter (.evolving kind) |>.2

theorem issue_instruction (hIdle : c.phase = .idle) (kind : Evolution) (rule : UInt8) {n : UInt16}
    (hn : 0 < n) : c.issue (kind.instruction rule n) = .ok (.busy, c.started kind rule n) := by
  have hNonzero : n ≠ 0 := by
    rintro rfl
    cases hn
  have hOperation : (kind.instruction rule n).operation = kind.operation := by
    cases kind with
    | elementary => rfl
    | life => exact (by decide : Operation.decode 7 0 = .life)
  rw [issue, if_pos hIdle, hOperation, started]
  generalize { c.lowerReady with operation := some kind.operation } = d
  cases kind with
  | elementary =>
    simp only [Evolution.instruction, Evolution.operation, Instruction.step, dispatch,
      beginEvolution, latch, UInt8.toUInt8_toUInt32, UInt16.toUInt16_toUInt32, if_neg hNonzero]
    rfl
  | life =>
    simp only [Evolution.instruction, Evolution.operation, Instruction.life, dispatch,
      beginEvolution, latch, UInt16.toUInt16_toUInt32, if_neg hNonzero]
    rfl

theorem Evolved.evolves {kind : Evolution} {rule : UInt8} {n : UInt16} {answers : List Response}
    (hHistory : c.registers.history.count ≤ historyDepth)
    (h : Evolved kind answers.length (c.started kind rule n) ((c.started kind rule n).feed answers))
    (hWatch : (c.started kind rule n).watch answers = (List.range answers.length).map fun j =>
      if j + 1 = n.toNat then .done successResult else .busy) :
    Evolves kind rule n c (c.started kind rule n) answers := by
  obtain ⟨hRegisters, hSteps, hRequest, hReady⟩ := h
  have hLatched : (c.started kind rule n).registers.steps = n := by cases kind <;> rfl
  rw [hLatched] at hSteps hReady
  refine ⟨hWatch, ?_, by omega, hReady, ?_, ?_, ?_, ?_⟩
  · rw [hRegisters, Evolution.iterate_pass]
    cases kind <;> rfl
  · rw [hRegisters]
    cases kind <;> exact History.toList_push _ _ hHistory
  · rw [hRegisters]
    cases kind <;> rfl
  · rw [hRegisters]
    cases kind <;> rfl
  · rw [hRequest]
    cases kind <;> rfl

/-- Passes agree with generations on boards for any state, rule and number. And an idle controller,
however it was used before, shows them one by one: after `k` cycles of an evolution of `n` passes it
holds the configuration after `k` generations. -/
theorem evolves_as_reference :
    (∀ (rule : UInt8) (n : Nat) (s : UInt64),
      (Automaton.Elementary.step rule)^[n] s = Automaton.ringReference rule n s ∧
        Automaton.Life.step^[n] s = Automaton.torusReference n s) ∧
    ∀ (events : List Event), (run events).isIdle = true →
      ∀ (kind : Evolution) (rule : UInt8) (n : UInt16), 0 < n →
        ∃ issued, (run events).issue (kind.instruction rule n) = .ok (.busy, issued) ∧
          ∀ answers : List Response, answers.length ≤ n.toNat →
            Evolves kind rule n (run events) issued answers := by
  refine ⟨?_, ?_⟩
  · intro rule n s
    exact ⟨Automaton.step_iterate rule n s, Automaton.lifeStep_iterate n s⟩
  · intro events hIdle kind rule n hn
    have hPhase : (run events).phase = .idle := of_decide_eq_true hIdle
    have hCoherent : (run events).Coherent := coherent_foldl coherent_initial events
    have hIssue := issue_instruction hPhase kind rule hn
    refine ⟨_, hIssue, ?_⟩
    intro answers hLength
    have hLatched : ((run events).started kind rule n).registers.steps = n := by cases kind <;> rfl
    obtain ⟨hEvolved, hWatch⟩ := (hCoherent.coherent_issue hIssue).evolved_feed rfl answers (by
      rw [hLatched]
      exact hLength)
    rw [hLatched] at hWatch
    exact hEvolved.evolves hCoherent.history hWatch

/-- Rule 30 for three passes, after a load that was reset, with an answer that nothing asked for. -/
theorem evolves_as_reference_three :
    let events : List Event := [.issue (.load 8), .advance .idle, .reset, .issue (.setLow 6)]
    let answers : List Response := [.idle, ⟨true, 9⟩, .idle]
    (run events).isIdle = true ∧ (0 : UInt16) < 3 ∧ answers.length ≤ (3 : UInt16).toNat ∧
      ∃ issued, (run events).issue (.step 30 3) = .ok (.busy, issued) ∧
        Evolves .elementary 30 3 (run events) issued answers := by
  intro events answers
  have hIdle : (run events).isIdle = true := rfl
  have hLength : answers.length ≤ (3 : UInt16).toNat := by decide
  obtain ⟨issued, hIssue, hEvolves⟩ :=
    evolves_as_reference.2 events hIdle .elementary 30 3 (by decide)
  exact ⟨hIdle, by decide, hLength, issued, hIssue, hEvolves answers hLength⟩

end Controller

end CellularCoprocessor
