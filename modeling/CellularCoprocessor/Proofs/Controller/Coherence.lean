import CellularCoprocessor.Controller.Dispatch
import CellularCoprocessor.Proofs.Controller.Phases

/-!
# Coherence of the controller

The phase, the presented request, the step counter and the burst descriptor are updated in
different places but always agree. The answers of the bus are arbitrary here: they may come in any
cycle, also in one without a request.
-/

namespace CellularCoprocessor

def Evolution.operation : Evolution → Operation
  | elementary => .step
  | life => .life

def Direction.operation : Direction → Operation
  | load => .burstLoad
  | store => .burstStore

namespace Controller

/-- What holds of a controller without an instruction in flight. -/
structure Resting (c : Controller) : Prop where
  history : c.registers.history.count ≤ historyDepth
  request : c.request = none
  steps : c.registers.steps = 0
  pending : c.registers.burst.pending = false
  index : c.registers.burst.index = c.registers.burst.length

structure Evolving (c : Controller) (kind : Evolution) : Prop where
  request : c.request = none
  steps : 1 ≤ c.registers.steps.toNat
  operation : c.operation = some kind.operation
  pending : c.registers.burst.pending = false
  index : c.registers.burst.index = c.registers.burst.length

/-- A store writes the present configuration. -/
structure Accessing (c : Controller) : Prop where
  request : (c.operation = some .load ∧ ∃ a, c.request = some (.read a)) ∨
    (c.operation = some .store ∧ ∃ a, c.request = some (.write a c.registers.car))
  steps : c.registers.steps = 0
  pending : c.registers.burst.pending = false
  index : c.registers.burst.index = c.registers.burst.length

/-- A request is presented exactly while one is pending, and it is the one the next word needs. -/
structure Bursting (c : Controller) : Prop where
  operation : c.operation = some c.registers.burst.direction.operation
  length : c.registers.burst.length.toNat ≤ scratchpadSize
  index : c.registers.burst.index.toNat ≤ c.registers.burst.length.toNat
  unfinished : c.registers.burst.pending = true →
    c.registers.burst.index.toNat < c.registers.burst.length.toNat
  request : c.request = if c.registers.burst.pending then
    some (c.registers.burst.request c.registers.scratchpad) else none
  steps : c.registers.steps = 0

structure Coherent (c : Controller) : Prop where
  history : c.registers.history.count ≤ historyDepth
  ready : c.output.ready = true → c.phase = .idle
  idle : c.phase = .idle → c.Resting
  evolving : ∀ kind, c.phase = .evolving kind → c.Evolving kind
  accessing : c.phase = .accessing → c.Accessing
  bursting : c.phase = .bursting → c.Bursting

theorem Accessing.exists_request {c : Controller} (h : c.Accessing) : ∃ q, c.request = some q := by
  rcases h.request with ⟨_, a, hRead⟩ | ⟨_, a, hWrite⟩
  · exact ⟨_, hRead⟩
  · exact ⟨_, hWrite⟩

theorem Bursting.isSome_request {c : Controller} (h : c.Bursting) :
    c.request.isSome = c.registers.burst.pending := by
  rw [h.request]
  cases c.registers.burst.pending <;> rfl

theorem Bursting.request_of_pending {c : Controller} (h : c.Bursting)
    (hPending : c.registers.burst.pending = true) :
    c.request = some (c.registers.burst.request c.registers.scratchpad) := by
  rw [h.request, if_pos hPending]

theorem Bursting.request_of_not_pending {c : Controller} (h : c.Bursting)
    (hPending : c.registers.burst.pending = false) : c.request = none := by
  rw [h.request, hPending]
  rfl

theorem Coherent.phase_of_request {c : Controller} (h : c.Coherent) {q : Request}
    (hRequest : c.request = some q) :
    c.phase = .accessing ∨ c.phase = .bursting ∧ c.registers.burst.pending = true := by
  cases hPhase : c.phase with
  | idle => cases (h.idle hPhase).request.symm.trans hRequest
  | evolving kind => cases (h.evolving kind hPhase).request.symm.trans hRequest
  | accessing => exact .inl rfl
  | bursting =>
    have hPending := (h.bursting hPhase).isSome_request
    rw [hRequest] at hPending
    exact .inr ⟨rfl, hPending.symm⟩

theorem Coherent.phase_of_no_request {c : Controller} (h : c.Coherent)
    (hRequest : c.request = none) :
    c.phase = .idle ∨ (∃ kind, c.phase = .evolving kind) ∨
      c.phase = .bursting ∧ c.registers.burst.pending = false := by
  cases hPhase : c.phase with
  | idle => exact .inl rfl
  | evolving kind => exact .inr (.inl ⟨kind, rfl⟩)
  | accessing =>
    obtain ⟨q, hSome⟩ := (h.accessing hPhase).exists_request
    cases hRequest.symm.trans hSome
  | bursting =>
    have hPending := (h.bursting hPhase).isSome_request
    rw [hRequest] at hPending
    exact .inr (.inr ⟨rfl, hPending.symm⟩)

theorem Resting.coherent {c : Controller} (h : c.Resting) (hPhase : c.phase = .idle) :
    c.Coherent where
  history := h.history
  ready _ := hPhase
  idle _ := h
  evolving kind hOther := by cases hPhase.symm.trans hOther
  accessing hOther := by cases hPhase.symm.trans hOther
  bursting hOther := by cases hPhase.symm.trans hOther

theorem Evolving.coherent {c : Controller} {kind : Evolution} (h : c.Evolving kind)
    (hPhase : c.phase = .evolving kind) (hReady : c.output.ready = false)
    (hHistory : c.registers.history.count ≤ historyDepth) : c.Coherent where
  history := hHistory
  ready hOther := by cases hReady.symm.trans hOther
  idle hOther := by cases hPhase.symm.trans hOther
  evolving kind' hOther := by
    cases hPhase.symm.trans hOther
    exact h
  accessing hOther := by cases hPhase.symm.trans hOther
  bursting hOther := by cases hPhase.symm.trans hOther

theorem Accessing.coherent {c : Controller} (h : c.Accessing) (hPhase : c.phase = .accessing)
    (hReady : c.output.ready = false) (hHistory : c.registers.history.count ≤ historyDepth) :
    c.Coherent where
  history := hHistory
  ready hOther := by cases hReady.symm.trans hOther
  idle hOther := by cases hPhase.symm.trans hOther
  evolving kind hOther := by cases hPhase.symm.trans hOther
  accessing _ := h
  bursting hOther := by cases hPhase.symm.trans hOther

theorem Bursting.coherent {c : Controller} (h : c.Bursting) (hPhase : c.phase = .bursting)
    (hReady : c.output.ready = false) (hHistory : c.registers.history.count ≤ historyDepth) :
    c.Coherent where
  history := hHistory
  ready hOther := by cases hReady.symm.trans hOther
  idle hOther := by cases hPhase.symm.trans hOther
  evolving kind hOther := by cases hPhase.symm.trans hOther
  accessing hOther := by cases hPhase.symm.trans hOther
  bursting _ := h

/-- No dispatched update but those of an evolution or a burst reaches the fields that rest. -/
theorem Resting.of_eq {c d : Controller} (h : c.Resting)
    (hHistory : d.registers.history.count ≤ historyDepth) (hRequest : d.request = c.request)
    (hSteps : d.registers.steps = c.registers.steps)
    (hBurst : d.registers.burst = c.registers.burst) : d.Resting where
  history := hHistory
  request := hRequest.trans h.request
  steps := hSteps.trans h.steps
  pending := by rw [hBurst, h.pending]
  index := by rw [hBurst, h.index]

theorem Resting.coherent_complete {c : Controller} (h : c.Resting) (result : UInt32) :
    (c.complete result).2.Coherent :=
  (h.of_eq h.history rfl rfl rfl : (c.complete result).2.Resting).coherent rfl

theorem resting_initial : initial.Resting := by
  constructor <;> decide

theorem coherent_initial : initial.Coherent :=
  resting_initial.coherent rfl

section Dispatch

variable {c : Controller}

theorem Resting.coherent_beginEvolution (h : c.Resting) (hReady : c.output.ready = false)
    (kind : Evolution) (hOperation : c.operation = some kind.operation) (steps : UInt16) :
    (c.beginEvolution kind steps).2.Coherent := by
  simp only [beginEvolution]
  split
  · rename_i hZero
    have hLatched : (c.latchSteps steps).Resting :=
      h.of_eq h.history rfl (hZero.trans h.steps.symm) rfl
    exact hLatched.coherent_complete successResult
  · rename_i hSteps
    have hPositive : 1 ≤ steps.toNat := by
      have : steps.toNat ≠ 0 := fun hEq => hSteps (UInt16.toNat_inj.mp hEq)
      omega
    have hEvolving : ((c.latchSteps steps).snapshot.enter (.evolving kind)).2.Evolving kind :=
      ⟨h.request, hPositive, hOperation, h.pending, h.index⟩
    exact hEvolving.coherent rfl hReady (Nat.min_le_right _ _)

theorem Resting.resting_undo (h : c.Resting) : c.undo.Resting := by
  rw [undo]
  cases hPop : c.registers.history.pop? with
  | none => exact h.of_eq h.history rfl rfl rfl
  | some popped =>
    have hCount : popped.2.count ≤ historyDepth := by
      have hLess := History.count_of_pop? hPop
      have hBefore := h.history
      omega
    exact h.of_eq hCount rfl rfl rfl

theorem Resting.coherent_beginBurst (h : c.Resting) (hReady : c.output.ready = false)
    (direction : Direction) (hOperation : c.operation = some direction.operation)
    (base length : UInt32) : (c.beginBurst direction base length).2.Coherent := by
  rw [beginBurst]
  split
  · rename_i hFits
    have hLength := (Burst.lengthFits_iff length).mp hFits
    have hBursting :
        ((c.latchBurst (.start base length direction)).enter .bursting).2.Bursting :=
      ⟨hOperation, hLength, Nat.zero_le _, (fun hPending => by cases hPending), h.request, h.steps⟩
    exact hBursting.coherent rfl hReady h.history
  · have hRejected : c.rejectBurst.Resting := h.of_eq h.history rfl rfl rfl
    exact hRejected.coherent_complete rejectedResult

theorem Resting.coherent_dispatch (h : c.Resting) (hReady : c.output.ready = false) {o : Operation}
    (hOperation : c.operation = some o) (a b : UInt32) : (c.dispatch a b o).2.Coherent := by
  cases o with
  | load =>
    have hAccessing : ((c.present (.read a)).enter .accessing).2.Accessing :=
      ⟨.inl ⟨hOperation, a, rfl⟩, h.steps, h.pending, h.index⟩
    exact hAccessing.coherent rfl hReady h.history
  | store =>
    have hAccessing : ((c.present (.write a c.registers.car)).enter .accessing).2.Accessing :=
      ⟨.inr ⟨hOperation, a, rfl⟩, h.steps, h.pending, h.index⟩
    exact hAccessing.coherent rfl hReady h.history
  | get half => cases half <;> exact h.coherent_complete _
  | set half =>
    cases half with
    | low => exact (h.of_eq (Nat.zero_le _) rfl rfl rfl : (c.setLow a).Resting).coherent_complete _
    | high => exact (h.of_eq h.history rfl rfl rfl : (c.setHigh a).Resting).coherent_complete _
  | scratchToCar =>
    exact (h.of_eq h.history rfl rfl rfl : (c.withCar (c.registers.scratchpad.read a)).Resting).coherent_complete _
  | carToScratch =>
    exact (h.of_eq h.history rfl rfl rfl : (c.storeScratch a).Resting).coherent_complete _
  | step =>
    have hLatched : (c.latchRule a.toUInt8).Resting := h.of_eq h.history rfl rfl rfl
    exact hLatched.coherent_beginEvolution hReady .elementary hOperation _
  | find => exact h.coherent_complete _
  | count => exact h.coherent_complete _
  | life => exact h.coherent_beginEvolution hReady .life hOperation _
  | undo => exact h.resting_undo.coherent_complete _
  | burstLoad => exact h.coherent_beginBurst hReady .load hOperation a b
  | burstStore => exact h.coherent_beginBurst hReady .store hOperation a b

end Dispatch

section Advance

variable {c : Controller} (r : Response)

theorem Evolving.toNat_steps_evolve {kind : Evolution} (h : c.Evolving kind) :
    (c.evolve kind).registers.steps.toNat + 1 = c.registers.steps.toNat := by
  have hOne : (1 : UInt16) ≤ c.registers.steps := UInt16.le_iff_toNat_le.mpr h.steps
  have hSteps : (c.registers.steps - 1).toNat = c.registers.steps.toNat - 1 :=
    UInt16.toNat_sub_of_le _ _ hOne
  have := h.steps
  simp only [evolve, hSteps]
  omega

theorem Coherent.coherent_advanceEvolution (h : c.Coherent) {kind : Evolution}
    (hPhase : c.phase = .evolving kind) (hReady : c.output.ready = false) :
    (c.advanceEvolution kind).2.Coherent := by
  obtain ⟨hRequest, hSteps, hOperation, hPending, hIndex⟩ := h.evolving kind hPhase
  simp only [advanceEvolution]
  split
  · rename_i hZero
    have hResting : (c.evolve kind).Resting := ⟨h.history, hRequest, hZero, hPending, hIndex⟩
    exact hResting.coherent_complete successResult
  · rename_i hNonzero
    have hPositive : 1 ≤ (c.evolve kind).registers.steps.toNat := by
      have : (c.evolve kind).registers.steps.toNat ≠ 0 :=
        fun hEq => hNonzero (UInt16.toNat_inj.mp hEq)
      omega
    have hEvolving : (c.evolve kind).Evolving kind :=
      ⟨hRequest, hPositive, hOperation, hPending, hIndex⟩
    exact hEvolving.coherent hPhase hReady h.history

theorem Coherent.coherent_advanceAccess (h : c.Coherent) (hPhase : c.phase = .accessing) :
    (c.advanceAccess r).2.Coherent := by
  have hAccessing := h.accessing hPhase
  obtain ⟨hRequest, hSteps, hPending, hIndex⟩ := hAccessing
  simp only [advanceAccess]
  split
  · have hResting : (c.receive r.data).Resting := by
      rcases hRequest with ⟨_, a, hRead⟩ | ⟨_, a, hWrite⟩
      · rw [receive_read hRead]
        exact ⟨h.history, rfl, hSteps, hPending, hIndex⟩
      · rw [receive_write hWrite]
        exact ⟨h.history, rfl, hSteps, hPending, hIndex⟩
    exact hResting.coherent_complete successResult
  · exact h

theorem Resting.coherent_finishBurst (h : c.Resting) : c.finishBurst.2.Coherent :=
  (h.of_eq h.history rfl rfl rfl : Resting { c with
    counters :=
      { c.counters with
        wordsMoved := c.counters.wordsMoved + c.registers.burst.length.toNat } }).coherent_complete _

theorem Coherent.coherent_advanceBurst (h : c.Coherent) (hPhase : c.phase = .bursting)
    (hReady : c.output.ready = false) : (c.advanceBurst r).2.Coherent := by
  obtain ⟨hOperation, hLength, hIndex, hUnfinished, hRequest, hSteps⟩ := h.bursting hPhase
  cases hPending : c.registers.burst.pending with
  | true =>
    have hLess := hUnfinished hPending
    have hNext := Burst.toNat_index_next hLess
    cases hAnswer : r.ready with
    | false =>
      rw [advanceBurst_waiting r hPending hAnswer]
      exact h
    | true =>
      rw [advanceBurst_committed r hPending hAnswer]
      split
      · rename_i hExhausted
        have hEnd : c.registers.burst.next.index = c.registers.burst.next.length := by
          have hPast := (Burst.isExhausted_iff _).mp hExhausted
          apply UInt32.toNat_inj.mp
          simp only [Burst.next] at hNext hPast ⊢
          omega
        have hResting : (c.moveWord r.data).Resting := ⟨h.history, rfl, hSteps, rfl, hEnd⟩
        exact hResting.coherent_finishBurst
      · have hNextLe : c.registers.burst.next.index.toNat ≤ c.registers.burst.length.toNat := by
          omega
        have hBursting : (c.moveWord r.data).Bursting :=
          ⟨hOperation, hLength, hNextLe, (fun hPending => by cases hPending), rfl, hSteps⟩
        exact hBursting.coherent hPhase hReady h.history
  | false =>
    have hNone : c.request = none := by simpa [hPending] using hRequest
    by_cases hLess : c.registers.burst.index.toNat < c.registers.burst.length.toNat
    · rw [advanceBurst_issued r hPending hLess]
      have hBursting : c.requestWord.Bursting :=
        ⟨hOperation, hLength, hIndex, fun _ => hLess, rfl, hSteps⟩
      exact hBursting.coherent hPhase hReady h.history
    · rw [advanceBurst_done r hPending (by omega)]
      have hEnd : c.registers.burst.index = c.registers.burst.length :=
        UInt32.toNat_inj.mp (by omega)
      have hResting : c.Resting := ⟨h.history, hNone, hSteps, hPending, hEnd⟩
      exact hResting.coherent_finishBurst

theorem Coherent.coherent_lowerReady (h : c.Coherent) : c.lowerReady.Coherent where
  history := h.history
  ready hReady := by cases hReady
  idle hPhase :=
    have hResting := h.idle hPhase
    hResting.of_eq hResting.history rfl rfl rfl
  evolving kind hPhase :=
    have hEvolving := h.evolving kind hPhase
    ⟨hEvolving.request, hEvolving.steps, hEvolving.operation, hEvolving.pending, hEvolving.index⟩
  accessing hPhase :=
    have hAccessing := h.accessing hPhase
    ⟨hAccessing.request, hAccessing.steps, hAccessing.pending, hAccessing.index⟩
  bursting hPhase :=
    have hBursting := h.bursting hPhase
    ⟨hBursting.operation, hBursting.length, hBursting.index, hBursting.unfinished,
      hBursting.request, hBursting.steps⟩

theorem Coherent.coherent_advance (h : c.Coherent) : (c.advance r).2.Coherent := by
  cases hPhase : c.phase with
  | idle => rw [advance_idle r hPhase]; exact h.coherent_lowerReady
  | evolving kind =>
    rw [advance_evolving r hPhase]
    exact h.coherent_lowerReady.coherent_advanceEvolution hPhase rfl
  | accessing =>
    rw [advance_accessing r hPhase]
    exact h.coherent_lowerReady.coherent_advanceAccess r hPhase
  | bursting =>
    rw [advance_bursting r hPhase]
    exact h.coherent_lowerReady.coherent_advanceBurst r hPhase rfl

theorem Coherent.toNat_steps_advance (h : c.Coherent) {kind : Evolution}
    (hPhase : c.phase = .evolving kind) :
    (c.advance r).2.registers.steps.toNat + 1 = c.registers.steps.toNat := by
  have hEvolving := h.coherent_lowerReady.evolving kind hPhase
  have hSteps := hEvolving.toNat_steps_evolve
  rw [advance_evolving r hPhase, advanceEvolution]
  split <;> exact hSteps

/-- The index of a burst moves by one exactly when the presented request is answered. -/
theorem Coherent.toNat_index_advance (h : c.Coherent) (hPhase : c.phase = .bursting) :
    (c.advance r).2.registers.burst.index.toNat =
      c.registers.burst.index.toNat + if c.request.isSome ∧ r.ready then 1 else 0 := by
  have hBursting := h.bursting hPhase
  rw [advance_bursting r hPhase, hBursting.request]
  cases hPending : c.registers.burst.pending with
  | true =>
    have hNext := Burst.toNat_index_next (hBursting.unfinished hPending)
    cases hAnswer : r.ready with
    | false =>
      rw [advanceBurst_waiting (c := c.lowerReady) r hPending hAnswer]
      simp [lowerReady]
    | true =>
      rw [advanceBurst_committed (c := c.lowerReady) r hPending hAnswer]
      split <;> exact hNext
  | false =>
    by_cases hLess : c.registers.burst.index.toNat < c.registers.burst.length.toNat
    · rw [advanceBurst_issued (c := c.lowerReady) r hPending hLess]
      rfl
    · rw [advanceBurst_done (c := c.lowerReady) r hPending (Nat.le_of_not_lt hLess)]
      rfl

end Advance

theorem issue_ok_iff {c : Controller} {i : Instruction} {result : Signals × Controller} :
    c.issue i = .ok result ↔ c.phase = .idle ∧
      result = { c.lowerReady with operation := some i.operation }.dispatch i.rs1 i.rs2 i.operation := by
  rw [issue]
  split
  · rename_i hPhase
    simp [hPhase, eq_comm]
  · rename_i hPhase
    simp [hPhase]

theorem issue_error_iff {c : Controller} {i : Instruction} {refusal : Refusal Controller} :
    c.issue i = .error refusal ↔ c.phase ≠ .idle ∧ refusal = ⟨⟨c.phase⟩, c⟩ := by
  rw [issue]
  split
  · rename_i hPhase
    simp [hPhase]
  · rename_i hPhase
    simp [hPhase, eq_comm]

theorem Coherent.coherent_issue {c : Controller} (h : c.Coherent) {i : Instruction} {signals : Signals}
    {t : Controller} (hIssue : c.issue i = .ok (signals, t)) : t.Coherent := by
  obtain ⟨hPhase, hResult⟩ := issue_ok_iff.mp hIssue
  have hResting : Resting { c.lowerReady with operation := some i.operation } :=
    (h.idle hPhase).of_eq h.history rfl rfl rfl
  have hDispatch := hResting.coherent_dispatch rfl rfl i.rs1 i.rs2
  rw [← hResult] at hDispatch
  exact hDispatch

inductive Event where
  | issue (i : Instruction)
  | advance (r : Response)
  | reset

def react (c : Controller) : Event → Controller
  | .issue i =>
    match c.issue i with
    | .ok (_, issued) => issued
    | .error refusal => refusal.state
  | .advance r => (c.advance r).2
  | .reset => .initial

def run (events : List Event) : Controller :=
  events.foldl react initial

theorem Coherent.coherent_react {c : Controller} (h : c.Coherent) (event : Event) :
    (c.react event).Coherent := by
  cases event with
  | issue i =>
    simp only [react]
    cases hIssue : c.issue i with
    | ok result => exact h.coherent_issue hIssue
    | error refusal =>
      obtain ⟨_, rfl⟩ := issue_error_iff.mp hIssue
      exact h
  | advance r => exact h.coherent_advance r
  | reset => exact coherent_initial

theorem coherent_foldl {c : Controller} (h : c.Coherent) (events : List Event) :
    (events.foldl react c).Coherent := by
  induction events generalizing c with
  | nil => exact h
  | cons event events ih => exact ih (h.coherent_react event)

/-- Whatever instructions, answers and resets a controller sees, its phase, its request, its step
counter and its burst agree. So no pass takes from an empty step counter, and the index of a burst
never passes its length. -/
theorem coherent_run (events : List Event) :
    (run events).Coherent ∧ (run events).registers.history.next.val < historyDepth ∧
      ∀ r : Response,
        (∀ kind, (run events).phase = .evolving kind →
          ((run events).advance r).2.registers.steps.toNat + 1 =
            (run events).registers.steps.toNat) ∧
        ((run events).phase = .bursting →
          ((run events).advance r).2.registers.burst.index.toNat =
            (run events).registers.burst.index.toNat +
              (if (run events).request.isSome ∧ r.ready then 1 else 0) ∧
          ((run events).advance r).2.registers.burst.index.toNat ≤
            (run events).registers.burst.length.toNat) := by
  have hCoherent : (run events).Coherent := coherent_foldl coherent_initial events
  refine ⟨hCoherent, (run events).registers.history.next.isLt, fun r => ⟨?_, ?_⟩⟩
  · intro kind hPhase
    exact hCoherent.toNat_steps_advance r hPhase
  · intro hPhase
    have hIndex := hCoherent.toNat_index_advance r hPhase
    have hBursting := hCoherent.bursting hPhase
    refine ⟨hIndex, ?_⟩
    rw [hIndex]
    split
    · rename_i hMoved
      exact hBursting.unfinished (hBursting.isSome_request.symm.trans hMoved.1)
    · exact hBursting.index

end Controller

end CellularCoprocessor
