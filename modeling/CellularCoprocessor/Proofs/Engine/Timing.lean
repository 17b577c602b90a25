import CellularCoprocessor.Proofs.Engine.Cycle

/-!
# Cycle counts

The cycles that the instruction in flight still needs are a function of the engine's state, and
every cycle takes one from them. So an instruction needs a number of cycles that is known at its
dispatch, and it runs out of cycles exactly if it may take fewer.
-/

namespace CellularCoprocessor

/-- The cycles an instruction takes after its dispatch, over a bus of some latency. -/
def Instruction.cost (i : Instruction) (latency : Nat) : Nat :=
  match i.operation with
  | .step | .life => i.rs2.toNat % 65536
  | .load | .store => latency + 1
  | .burstLoad | .burstStore =>
    if i.rs2.toNat > 256 then 0
    else if i.rs2.toNat = 0 then 1
    else i.rs2.toNat * (latency + 2)
  | _ => 0

theorem Instruction.cost_le (i : Instruction) (latency : Nat) :
    i.cost latency ≤ max 65535 (256 * (latency + 2)) := by
  have hBurst : (if i.rs2.toNat > 256 then 0 else if i.rs2.toNat = 0 then 1
      else i.rs2.toNat * (latency + 2)) ≤ 256 * (latency + 2) := by
    split
    · omega
    · split
      · omega
      · exact Nat.mul_le_mul_right _ (by omega)
  rw [cost]
  split
  · omega
  · omega
  · omega
  · omega
  · exact Nat.le_trans hBurst (Nat.le_max_right _ _)
  · exact Nat.le_trans hBurst (Nat.le_max_right _ _)
  · omega

namespace Controller

variable {c : Controller} (r : Response)

theorem reports_enter {phase : Phase} (hPhase : phase ≠ .idle) : Reports (c.enter phase) :=
  .inl ⟨rfl, hPhase⟩

theorem reports_beginEvolution (c : Controller) (kind : Evolution) (steps : UInt16) :
    Reports (c.beginEvolution kind steps) := by
  simp only [beginEvolution]
  split
  · exact reports_complete _
  · exact reports_enter fun hIdle => by cases hIdle

theorem reports_beginBurst (c : Controller) (direction : Direction) (base length : UInt32) :
    Reports (c.beginBurst direction base length) := by
  rw [beginBurst]
  split
  · exact reports_enter (by decide)
  · exact reports_complete _

theorem reports_dispatch (c : Controller) (a b : UInt32) (o : Operation) :
    Reports (c.dispatch a b o) := by
  cases o with
  | load => exact reports_enter (by decide)
  | store => exact reports_enter (by decide)
  | get half => cases half <;> exact reports_complete _
  | set half => cases half <;> exact reports_complete _
  | step => exact reports_beginEvolution _ _ _
  | life => exact reports_beginEvolution _ _ _
  | burstLoad => exact reports_beginBurst _ _ _ _
  | burstStore => exact reports_beginBurst _ _ _ _
  | _ => exact reports_complete _

def begin (c : Controller) (i : Instruction) : Signals × Controller :=
  { c.lowerReady with operation := some i.operation }.dispatch i.rs1 i.rs2 i.operation

theorem operation_dispatch (c : Controller) (a b : UInt32) (o : Operation) :
    (c.dispatch a b o).2.operation = c.operation := by
  cases o with
  | get half => cases half <;> rfl
  | set half => cases half <;> rfl
  | step =>
    simp only [dispatch, beginEvolution]
    split <;> rfl
  | life =>
    simp only [dispatch, beginEvolution]
    split <;> rfl
  | undo =>
    simp only [dispatch, undo]
    split <;> rfl
  | burstLoad =>
    simp only [dispatch, beginBurst]
    split <;> rfl
  | burstStore =>
    simp only [dispatch, beginBurst]
    split <;> rfl
  | _ => rfl

theorem operation_begin (c : Controller) (i : Instruction) :
    (c.begin i).2.operation = some i.operation :=
  operation_dispatch _ _ _ _

theorem reports_begin (c : Controller) (i : Instruction) : Reports (c.begin i) :=
  reports_dispatch _ _ _ _

end Controller

namespace Burst

/-- The cycles a burst still needs, if its pending request is answered after `wait` cycles. -/
def cyclesLeft (b : Burst) (wait latency : Nat) : Nat :=
  if b.pending then wait + 1 + (b.remaining - 1) * (latency + 2)
  else if b.remaining = 0 then 1
  else b.remaining * (latency + 2)

variable {b : Burst}

theorem cyclesLeft_of_pending (hPending : b.pending = true) (wait latency : Nat) :
    b.cyclesLeft wait latency = wait + 1 + (b.remaining - 1) * (latency + 2) := by
  rw [cyclesLeft, if_pos hPending]

theorem cyclesLeft_of_not_pending (hPending : b.pending = false) (hSome : b.remaining ≠ 0)
    (wait latency : Nat) : b.cyclesLeft wait latency = b.remaining * (latency + 2) := by
  rw [cyclesLeft, hPending, if_neg Bool.false_ne_true, if_neg hSome]

theorem cyclesLeft_waiting (hPending : b.pending = true) (n latency : Nat) :
    b.cyclesLeft n latency + 1 = b.cyclesLeft (n + 1) latency := by
  rw [cyclesLeft_of_pending hPending, cyclesLeft_of_pending hPending]
  omega

theorem cyclesLeft_issued (hPending : b.pending = false)
    (hIndex : b.index.toNat < b.length.toNat) (wait latency : Nat) :
    { b with pending := true }.cyclesLeft latency latency + 1 = b.cyclesLeft wait latency := by
  obtain ⟨k, hk⟩ : ∃ k, b.remaining = k + 1 := ⟨b.remaining - 1, by rw [remaining]; omega⟩
  have hSame : { b with pending := true }.remaining = k + 1 := hk
  rw [cyclesLeft_of_pending rfl, cyclesLeft_of_not_pending hPending (by omega), hSame, hk,
    Nat.add_sub_cancel, Nat.succ_mul]
  omega

theorem cyclesLeft_done (hPending : b.pending = false)
    (hIndex : b.length.toNat ≤ b.index.toNat) (wait latency : Nat) :
    b.cyclesLeft wait latency = 1 := by
  have hRemaining : b.remaining = 0 := by
    rw [remaining]
    omega
  rw [cyclesLeft, hPending, if_neg Bool.false_ne_true, if_pos hRemaining]

theorem cyclesLeft_moved (hPending : b.pending = true) (hIndex : b.index.toNat < b.length.toNat)
    (hMore : ¬ b.next.isExhausted = true) (wait latency : Nat) :
    b.next.cyclesLeft wait latency + 1 = b.cyclesLeft 0 latency := by
  have hNext := toNat_index_next hIndex
  have hLess : b.next.index.toNat < b.length.toNat :=
    Nat.lt_of_not_le fun hPast => hMore ((isExhausted_iff b.next).mpr hPast)
  have hRemaining : b.next.remaining = b.remaining - 1 := by
    change b.length.toNat - b.next.index.toNat = b.length.toNat - b.index.toNat - 1
    omega
  have hSome : b.next.remaining ≠ 0 := by
    rw [hRemaining, remaining]
    omega
  rw [cyclesLeft_of_not_pending rfl hSome, cyclesLeft_of_pending hPending, hRemaining]
  omega

theorem cyclesLeft_last (hPending : b.pending = true) (hIndex : b.index.toNat < b.length.toNat)
    (hLast : b.next.isExhausted = true) (latency : Nat) : b.cyclesLeft 0 latency = 1 := by
  have hNext := toNat_index_next hIndex
  have hPast : b.length.toNat ≤ b.next.index.toNat := (isExhausted_iff b.next).mp hLast
  have hRemaining : b.remaining = 1 := by
    rw [remaining]
    omega
  rw [cyclesLeft_of_pending hPending, hRemaining, Nat.sub_self, Nat.zero_mul]

end Burst

namespace Engine

variable {e : Engine}

def remaining (e : Engine) : Nat :=
  match e.controller.phase with
  | .idle => 0
  | .evolving _ => e.controller.registers.steps.toNat
  | .accessing => e.bus.wait + 1
  | .bursting => e.controller.registers.burst.cyclesLeft e.bus.wait e.bus.latency

theorem remaining_of_idle (hPhase : e.controller.phase = .idle) : e.remaining = 0 := by
  rw [remaining, hPhase]

theorem remaining_of_evolving {kind : Evolution} (hPhase : e.controller.phase = .evolving kind) :
    e.remaining = e.controller.registers.steps.toNat := by
  rw [remaining, hPhase]

theorem remaining_of_accessing (hPhase : e.controller.phase = .accessing) :
    e.remaining = e.bus.wait + 1 := by
  rw [remaining, hPhase]

theorem remaining_of_bursting (hPhase : e.controller.phase = .bursting) :
    e.remaining = e.controller.registers.burst.cyclesLeft e.bus.wait e.bus.latency := by
  rw [remaining, hPhase]

theorem Coherent.remaining_pos (h : e.Coherent) (hBusy : e.controller.phase ≠ .idle) :
    0 < e.remaining := by
  cases hPhase : e.controller.phase with
  | idle => exact absurd hPhase hBusy
  | evolving kind =>
    rw [remaining_of_evolving hPhase]
    exact (h.controller.evolving kind hPhase).steps
  | accessing =>
    rw [remaining_of_accessing hPhase]
    omega
  | bursting =>
    rw [remaining_of_bursting hPhase, Burst.cyclesLeft]
    split
    · omega
    · split
      · omega
      · rename_i hSome
        exact Nat.mul_pos (by omega) (by omega)

theorem Coherent.remaining_eq_zero_iff (h : e.Coherent) :
    e.remaining = 0 ↔ e.controller.phase = .idle := by
  constructor
  · intro hZero
    apply Classical.byContradiction
    intro hBusy
    have := h.remaining_pos hBusy
    omega
  · exact remaining_of_idle

theorem Coherent.remaining_step_evolving (h : e.Coherent) {kind : Evolution}
    (hPhase : e.controller.phase = .evolving kind) : e.step.2.remaining + 1 = e.remaining := by
  have hEvolving := h.controller.evolving kind hPhase
  have hSteps := h.controller.toNat_steps_advance .idle hPhase
  have hNext : e.step.2.controller = (e.controller.advance .idle).2 := by
    rw [h.step_quiet hEvolving.request, settle_controller]
  rw [remaining_of_evolving hPhase, ← hSteps, ← hNext]
  rw [Controller.advance_evolving .idle hPhase, Controller.advanceEvolution] at hNext
  split at hNext
  · have hIdle : e.step.2.controller.phase = .idle := by
      rw [hNext]
      rfl
    rw [remaining_of_idle hIdle, (h.coherent_step.controller.idle hIdle).steps]
    rfl
  · have hSame : e.step.2.controller.phase = .evolving kind := by
      rw [hNext]
      exact hPhase
    rw [remaining_of_evolving hSame]

theorem Coherent.remaining_step_accessing (h : e.Coherent)
    (hPhase : e.controller.phase = .accessing) : e.step.2.remaining + 1 = e.remaining := by
  obtain ⟨q, hRequest⟩ := (h.controller.accessing hPhase).exists_request
  rw [remaining_of_accessing hPhase]
  cases hWait : e.bus.wait with
  | zero =>
    have hIdle : e.step.2.controller.phase = .idle := by
      rw [h.step_serving hRequest hWait, settle_controller, Controller.advance_accessing _ hPhase,
        Controller.advanceAccess, if_pos (Bus.ready_perform _ _)]
      rfl
    rw [remaining_of_idle hIdle]
  | succ n =>
    rw [h.step_waiting hRequest hWait, remaining_of_accessing (by exact hPhase)]
    rfl

theorem Coherent.remaining_step_bursting (h : e.Coherent)
    (hPhase : e.controller.phase = .bursting) : e.step.2.remaining + 1 = e.remaining := by
  have hBursting := h.controller.bursting hPhase
  rw [remaining_of_bursting hPhase]
  cases hPending : e.controller.registers.burst.pending with
  | true =>
    have hLess := hBursting.unfinished hPending
    have hRequest := hBursting.request_of_pending hPending
    cases hWait : e.bus.wait with
    | zero =>
      have hServed := h.step_serving hRequest hWait
      rw [Controller.advance_bursting _ hPhase,
        Controller.advanceBurst_committed (c := e.controller.lowerReady) _ hPending
          (Bus.ready_perform _ _)] at hServed
      split at hServed
      · rename_i hLast
        rw [hServed, remaining_of_idle (by rw [settle_controller]; rfl),
          Burst.cyclesLeft_last hPending hLess hLast]
      · rename_i hMore
        rw [hServed, remaining_of_bursting (by rw [settle_controller]; exact hPhase),
          settle_controller, settle_bus, Bus.latency_perform]
        exact Burst.cyclesLeft_moved hPending hLess hMore _ _
    | succ n =>
      rw [h.step_waiting hRequest hWait, remaining_of_bursting (by exact hPhase)]
      exact Burst.cyclesLeft_waiting hPending n e.bus.latency
  | false =>
    have hNone := hBursting.request_of_not_pending hPending
    have hFree := h.inFlight_eq_none hNone
    by_cases hLess : e.controller.registers.burst.index.toNat <
        e.controller.registers.burst.length.toNat
    · rw [h.step_quiet hNone, Controller.advance_bursting _ hPhase,
        Controller.advanceBurst_issued (c := e.controller.lowerReady) _ hPending hLess,
        remaining_of_bursting (by rw [settle_controller]; exact hPhase), settle_controller,
        settle_bus, ← Burst.cyclesLeft_issued hPending hLess e.bus.wait e.bus.latency,
        Bus.wait_of_free hFree]
      rfl
    · have hDone := Nat.le_of_not_lt hLess
      rw [h.step_quiet hNone, Controller.advance_bursting _ hPhase,
        Controller.advanceBurst_done (c := e.controller.lowerReady) _ hPending hDone,
        remaining_of_idle (by rw [settle_controller]; rfl), Burst.cyclesLeft_done hPending hDone]

/-- Every cycle takes one from the cycles that the instruction in flight still needs. -/
theorem Coherent.remaining_step (h : e.Coherent) (hBusy : e.controller.phase ≠ .idle) :
    e.step.2.remaining + 1 = e.remaining := by
  cases hPhase : e.controller.phase with
  | idle => exact absurd hPhase hBusy
  | evolving kind => exact h.remaining_step_evolving hPhase
  | accessing => exact h.remaining_step_accessing hPhase
  | bursting => exact h.remaining_step_bursting hPhase

theorem signals_step (e : Engine) :
    e.step.1 = (e.controller.advance (e.bus.respond e.controller.request).1).1 :=
  rfl

theorem Coherent.ready_step_iff (h : e.Coherent) (hBusy : e.controller.phase ≠ .idle) :
    e.step.1.ready = true ↔ e.remaining = 1 := by
  have hRemaining := h.remaining_step hBusy
  rw [signals_step]
  rcases Controller.reports_advance (e.bus.respond e.controller.request).1 hBusy with
    ⟨hSignals, hStill⟩ | ⟨hReady, _, hIdle⟩
  · rw [← controller_step] at hStill
    have hPositive := h.coherent_step.remaining_pos hStill
    constructor
    · intro hReady
      rw [hSignals] at hReady
      cases hReady
    · omega
  · rw [← controller_step] at hIdle
    rw [remaining_of_idle hIdle] at hRemaining
    exact ⟨fun _ => hRemaining.symm, fun _ => hReady⟩

theorem Coherent.output_step (h : e.Coherent) (hBusy : e.controller.phase ≠ .idle)
    (hLast : e.remaining = 1) : e.step.1 = e.step.2.controller.output := by
  have hReady := (h.ready_step_iff hBusy).mpr hLast
  rw [controller_step, signals_step] at *
  rcases Controller.reports_advance (e.bus.respond e.controller.request).1 hBusy with
    ⟨hSignals, _⟩ | ⟨_, hOutput, _⟩
  · rw [hSignals] at hReady
    cases hReady
  · exact hOutput.symm

def clock : Nat → Engine → Engine
  | 0, e => e
  | n + 1, e => clock n e.step.2

theorem clock_induction {P : Engine → Prop} (hStep : ∀ e, P e → P e.step.2) {e : Engine}
    (h : P e) (n : Nat) : P (clock n e) := by
  induction n generalizing e with
  | zero => exact h
  | succ n ih => exact ih (hStep e h)

theorem Coherent.coherent_clock (h : e.Coherent) (n : Nat) : (clock n e).Coherent :=
  clock_induction (fun _ h => h.coherent_step) h n

theorem Coherent.remaining_clock (h : e.Coherent) {n : Nat} (hn : n ≤ e.remaining) :
    (clock n e).remaining + n = e.remaining := by
  induction n generalizing e with
  | zero => rfl
  | succ n ih =>
    have hBusy : e.controller.phase ≠ .idle := fun hIdle => by
      rw [remaining_of_idle hIdle] at hn
      omega
    have hStep := h.remaining_step hBusy
    have hRest := ih h.coherent_step (by omega)
    rw [clock]
    omega

theorem cycles_step (e : Engine) : e.step.2.cycles = e.cycles + 1 := by
  simp [step]

theorem cycles_clock (n : Nat) (e : Engine) : (clock n e).cycles = e.cycles + n := by
  induction n generalizing e with
  | zero => rfl
  | succ n ih =>
    rw [clock, ih, cycles_step]
    omega

theorem timeouts_clock (n : Nat) (e : Engine) : (clock n e).timeouts = e.timeouts := by
  apply clock_induction (P := fun t => t.timeouts = e.timeouts) _ rfl
  intro t ht
  rw [step, settle_timeouts, ht]

theorem timeout_clock (n : Nat) (e : Engine) : (clock n e).timeout = e.timeout := by
  apply clock_induction (P := fun t => t.timeout = e.timeout) _ rfl
  intro t ht
  rw [step, settle_timeout, ht]

theorem latency_clock (n : Nat) (e : Engine) : (clock n e).bus.latency = e.bus.latency := by
  apply clock_induction (P := fun t => t.bus.latency = e.bus.latency) _ rfl
  intro t ht
  rw [step, settle_bus, Bus.latency_respond, ht]

theorem await_succ (spent budget : Nat) (e : Engine) :
    await spent (budget + 1) e =
      if e.step.1.ready then (.ok ⟨e.step.1.result, spent + 1⟩, e.step.2)
      else await (spent + 1) budget e.step.2 :=
  rfl

/-- An awaited instruction completes exactly if the cycles it needs are within the budget. -/
theorem Coherent.await_eq (h : e.Coherent) (hBusy : e.controller.phase ≠ .idle)
    (spent budget : Nat) :
    await spent budget e =
      if e.remaining ≤ budget then
        (.ok ⟨(clock e.remaining e).controller.output.result, spent + e.remaining⟩,
          clock e.remaining e)
      else (.error (.timeout (spent + budget)), (clock budget e).move .expire) := by
  -- A cycle takes one from the budget and one from what remains, so the comparison stays as it is.
  induction budget generalizing spent e with
  | zero =>
    have hPositive := h.remaining_pos hBusy
    rw [if_neg (by omega)]
    rfl
  | succ budget ih =>
    have hStep := h.remaining_step hBusy
    have hReady := h.ready_step_iff hBusy
    rw [await_succ]
    by_cases hLast : e.remaining = 1
    · have hOutput := h.output_step hBusy hLast
      rw [if_pos (hReady.mpr hLast), hLast, if_pos (by omega), hOutput]
      rfl
    · have hMore : ¬ e.step.1.ready = true := fun hTrue => hLast (hReady.mp hTrue)
      have hStill : e.step.2.controller.phase ≠ .idle := fun hIdle => by
        rw [remaining_of_idle hIdle] at hStep
        exact hLast hStep.symm
      rw [if_neg hMore, ih h.coherent_step hStill, ← hStep]
      have hSpent : spent + 1 + e.step.2.remaining = spent + (e.step.2.remaining + 1) := by omega
      have hBudget : spent + 1 + budget = spent + (budget + 1) := by omega
      simp only [Nat.add_le_add_iff_right, hSpent, hBudget, clock]

section Dispatch

variable (e) (c : Controller)

theorem remaining_settle (signals : Signals) : (e.settle signals).remaining = e.remaining := by
  simp [remaining]

theorem remaining_beginEvolution (kind : Evolution) (steps : UInt16) :
    { e with controller := (c.beginEvolution kind steps).2 }.remaining = steps.toNat := by
  simp only [Controller.beginEvolution]
  split
  · rename_i hZero
    rw [hZero]
    rfl
  · rfl

theorem remaining_access (hFree : e.bus.inFlight = none) (q : Request) :
    { e with controller := ((c.present q).enter .accessing).2 }.remaining = e.bus.latency + 1 := by
  rw [remaining_of_accessing (by rfl), ← Bus.wait_of_free hFree]

theorem remaining_beginBurst (direction : Direction) (base length : UInt32) :
    { e with controller := (c.beginBurst direction base length).2 }.remaining =
      if length.toNat > 256 then 0
      else if length.toNat = 0 then 1
      else length.toNat * (e.bus.latency + 2) := by
  simp only [Controller.beginBurst]
  split
  · rename_i hFits
    have hLength : length.toNat ≤ 256 := (Burst.lengthFits_iff length).mp hFits
    rw [if_neg (Nat.not_lt.mpr hLength), remaining_of_bursting (by rfl)]
    rfl
  · rename_i hLong
    rw [Burst.lengthFits_iff] at hLong
    have hMore : length.toNat > 256 := Nat.lt_of_not_le hLong
    rw [if_pos hMore]
    rfl

theorem remaining_dispatch (hFree : e.bus.inFlight = none) (i : Instruction) :
    { e with controller := (c.dispatch i.rs1 i.rs2 i.operation).2 }.remaining =
      i.cost e.bus.latency := by
  rw [Instruction.cost]
  cases hOperation : i.operation with
  | load => exact remaining_access e c hFree _
  | store => exact remaining_access e c hFree _
  | get half => cases half <;> rfl
  | set half => cases half <;> rfl
  | step =>
    simp only [Controller.dispatch, remaining_beginEvolution]
    exact UInt32.toNat_toUInt16 i.rs2
  | life =>
    simp only [Controller.dispatch, remaining_beginEvolution]
    exact UInt32.toNat_toUInt16 i.rs2
  | burstLoad => exact remaining_beginBurst e c _ _ _
  | burstStore => exact remaining_beginBurst e c _ _ _
  | _ => rfl

end Dispatch

def dispatched (e : Engine) (i : Instruction) : Engine :=
  { e with controller := (e.controller.begin i).2 }.settle (e.controller.begin i).1

theorem issue_of_idle (hIdle : e.controller.phase = .idle) (i : Instruction) :
    e.issue i = .ok ((e.controller.begin i).1, e.dispatched i) :=
  issue_ok_iff.mpr ⟨_, Controller.issue_ok_iff.mpr ⟨hIdle, rfl⟩, rfl⟩

theorem controller_dispatched (e : Engine) (i : Instruction) :
    (e.dispatched i).controller = (e.controller.begin i).2 :=
  settle_controller _ _

theorem Coherent.coherent_dispatched (h : e.Coherent) (hIdle : e.controller.phase = .idle)
    (i : Instruction) : (e.dispatched i).Coherent :=
  h.coherent_issue (issue_of_idle hIdle i)

theorem Coherent.remaining_dispatched (h : e.Coherent) (hIdle : e.controller.phase = .idle)
    (i : Instruction) : (e.dispatched i).remaining = i.cost e.bus.latency := by
  have hFree := h.inFlight_eq_none (h.controller.idle hIdle).request
  rw [dispatched, remaining_settle]
  exact remaining_dispatch e _ hFree i

theorem Coherent.execute_eq (h : e.Coherent) (hIdle : e.controller.phase = .idle)
    (i : Instruction) :
    e.execute i =
      if i.cost e.bus.latency ≤ e.timeout then
        (.ok ⟨(clock (i.cost e.bus.latency) (e.dispatched i)).controller.output.result,
            i.cost e.bus.latency⟩,
          clock (i.cost e.bus.latency) (e.dispatched i))
      else (.error (.timeout e.timeout), (clock e.timeout (e.dispatched i)).move .expire) := by
  have hDispatched := h.coherent_dispatched hIdle i
  have hTimeout : (e.dispatched i).timeout = e.timeout := settle_timeout _ _
  rw [← h.remaining_dispatched hIdle i]
  simp only [execute, issue_of_idle hIdle i]
  rcases e.controller.reports_begin i with ⟨hSignals, hStill⟩ | ⟨hReady, hOutput, hDone⟩
  · rw [← controller_dispatched] at hStill
    rw [hSignals, if_neg (by decide), hDispatched.await_eq hStill, hTimeout]
    simp only [Nat.zero_add]
  · rw [← controller_dispatched] at hOutput hDone
    rw [if_pos hReady, remaining_of_idle hDone, if_pos (Nat.zero_le _), clock, hOutput]

theorem operation_step (e : Engine) : e.step.2.controller.operation = e.controller.operation := by
  rw [controller_step, Controller.operation_advance]

theorem Coherent.instructions_step (h : e.Coherent) (hBusy : e.controller.phase ≠ .idle) :
    e.step.2.instructions = e.instructions + if e.remaining = 1 then 1 else 0 := by
  have hReady := h.ready_step_iff hBusy
  rw [signals_step] at hReady
  simp only [step, settle_instructions, hReady]

theorem Coherent.completed_step (h : e.Coherent) (hBusy : e.controller.phase ≠ .idle) :
    e.step.2.completed =
      if e.remaining = 1 then tallied e.completed e.controller.operation else e.completed := by
  have hReady := h.ready_step_iff hBusy
  rw [signals_step] at hReady
  simp only [step, settle_completed, hReady, Controller.operation_advance]

/-- The instruction in flight is counted in its last cycle and not before. -/
theorem Coherent.retired_clock (h : e.Coherent) (hBusy : e.controller.phase ≠ .idle) {n : Nat}
    (hn : n ≤ e.remaining) :
    (clock n e).instructions = e.instructions + (if n = e.remaining then 1 else 0) ∧
      (clock n e).completed =
        if n = e.remaining then tallied e.completed e.controller.operation else e.completed := by
  induction n generalizing e with
  | zero =>
    have hPositive := h.remaining_pos hBusy
    have hEarly : ¬ 0 = e.remaining := by omega
    simp [clock, hEarly]
  | succ n ih =>
    have hStep := h.remaining_step hBusy
    rw [clock]
    by_cases hLast : e.remaining = 1
    · have hZero : n = 0 := by omega
      rw [hZero, clock, h.instructions_step hBusy, h.completed_step hBusy, hLast]
      exact ⟨rfl, rfl⟩
    · have hStill : e.step.2.controller.phase ≠ .idle := fun hIdle => by
        rw [remaining_of_idle hIdle] at hStep
        exact hLast hStep.symm
      have hSame : n + 1 = e.remaining ↔ n = e.step.2.remaining := by omega
      obtain ⟨hInstructions, hCompleted⟩ := ih h.coherent_step hStill (by omega)
      rw [h.instructions_step hBusy, if_neg hLast, Nat.add_zero] at hInstructions
      rw [h.completed_step hBusy, if_neg hLast, operation_step] at hCompleted
      simp only [hInstructions, hCompleted, hSame, and_self]

theorem Coherent.retired_clock_dispatched (h : e.Coherent) (hIdle : e.controller.phase = .idle)
    (i : Instruction) {n : Nat} (hn : n ≤ i.cost e.bus.latency) :
    (clock n (e.dispatched i)).instructions =
        e.instructions + (if n = i.cost e.bus.latency then 1 else 0) ∧
      (clock n (e.dispatched i)).completed =
        if n = i.cost e.bus.latency then e.completed.add i.operation else e.completed := by
  have hDispatched := h.coherent_dispatched hIdle i
  have hOperation : (e.dispatched i).controller.operation = some i.operation := by
    rw [controller_dispatched, Controller.operation_begin]
  have hInstructions : (e.dispatched i).instructions = e.instructions +
      if (e.controller.begin i).1.ready then 1 else 0 := settle_instructions _ _
  have hCompleted : (e.dispatched i).completed = if (e.controller.begin i).1.ready
      then e.completed.add i.operation else e.completed := by
    rw [dispatched, settle_completed, Controller.operation_begin]
    rfl
  rw [← h.remaining_dispatched hIdle i] at hn ⊢
  rcases e.controller.reports_begin i with ⟨hSignals, hStill⟩ | ⟨hReady, _, hDone⟩
  · rw [← controller_dispatched] at hStill
    have hRetired := hDispatched.retired_clock hStill hn
    rw [hInstructions, hCompleted, hSignals, hOperation] at hRetired
    exact hRetired
  · rw [← controller_dispatched] at hDone
    rw [remaining_of_idle hDone] at hn ⊢
    have hZero : n = 0 := by omega
    rw [hZero, clock, hInstructions, hCompleted, hReady]
    exact ⟨rfl, rfl⟩

theorem cost_of_not_isMultiCycle {i : Instruction} (h : i.operation.isMultiCycle = false)
    (latency : Nat) : i.cost latency = 0 := by
  rw [Instruction.cost]
  cases hOperation : i.operation <;> first | rfl | simp [hOperation, Operation.isMultiCycle] at h

theorem cycles_clock_dispatched (n : Nat) (e : Engine) (i : Instruction) :
    (clock n (e.dispatched i)).cycles = e.cycles + 1 + n := by
  rw [cycles_clock, dispatched, settle_cycles]

theorem timeouts_clock_dispatched (n : Nat) (e : Engine) (i : Instruction) :
    (clock n (e.dispatched i)).timeouts = e.timeouts := by
  rw [timeouts_clock, dispatched, settle_timeouts]

theorem timeout_clock_dispatched (n : Nat) (e : Engine) (i : Instruction) :
    (clock n (e.dispatched i)).timeout = e.timeout := by
  rw [timeout_clock, dispatched, settle_timeout]

theorem latency_clock_dispatched (n : Nat) (e : Engine) (i : Instruction) :
    (clock n (e.dispatched i)).bus.latency = e.bus.latency := by
  rw [latency_clock, dispatched, settle_bus]

theorem Coherent.isIdle_clock_dispatched (h : e.Coherent) (hIdle : e.controller.phase = .idle)
    (i : Instruction) {n : Nat} (hn : n ≤ i.cost e.bus.latency) :
    (clock n (e.dispatched i)).controller.isIdle = true ↔ n = i.cost e.bus.latency := by
  have hDispatched := h.coherent_dispatched hIdle i
  rw [← h.remaining_dispatched hIdle i] at hn ⊢
  have hRemaining := hDispatched.remaining_clock hn
  rw [Controller.isIdle, decide_eq_true_iff,
    ← (hDispatched.coherent_clock n).remaining_eq_zero_iff]
  omega

/-- From an idle engine an instruction completes if and only if its cost is within the cycles it
may take. Otherwise it stays in flight and is not counted. -/
theorem execute_accounts (h : e.Reachable) (hIdle : e.controller.isIdle = true)
    (i : Instruction) :
    let cost := i.cost e.bus.latency
    let outcome := e.execute i
    (i.operation.isMultiCycle = false → cost = 0) ∧
    ((∃ result, outcome.1 = .ok ⟨result, cost⟩) ↔ cost ≤ e.timeout) ∧
    (outcome.1 = .error (.timeout e.timeout) ↔ e.timeout < cost) ∧
    (outcome.2.controller.isIdle = true ↔ cost ≤ e.timeout) ∧
    outcome.2.timeouts = e.timeouts + (if cost ≤ e.timeout then 0 else 1) ∧
    outcome.2.cycles = e.cycles + 1 + min cost e.timeout ∧
    outcome.2.instructions = e.instructions + (if cost ≤ e.timeout then 1 else 0) ∧
    outcome.2.completed =
      if cost ≤ e.timeout then e.completed.add i.operation else e.completed := by
  intro cost outcome
  have hCoherent := h.coherent
  have hPhase : e.controller.phase = .idle := of_decide_eq_true hIdle
  have hExecute : outcome = _ := hCoherent.execute_eq hPhase i
  refine ⟨fun hSingle => cost_of_not_isMultiCycle hSingle _, ?_⟩
  by_cases hLe : cost ≤ e.timeout
  · have hDone := (hCoherent.isIdle_clock_dispatched hPhase i (Nat.le_refl cost)).mpr rfl
    have hRetired := hCoherent.retired_clock_dispatched hPhase i (Nat.le_refl cost)
    rw [if_pos rfl, if_pos rfl] at hRetired
    rw [hExecute, if_pos hLe]
    simp only [hLe, if_true, cycles_clock_dispatched, timeouts_clock_dispatched]
    refine ⟨?_, ?_, ?_, rfl, ?_, hRetired.1, hRetired.2⟩
    · exact ⟨fun _ => trivial, fun _ => ⟨_, rfl⟩⟩
    · constructor
      · intro hError
        cases hError
      · intro hMore
        exact absurd hLe (Nat.not_le.mpr hMore)
    · exact ⟨fun _ => trivial, fun _ => hDone⟩
    · rw [Nat.min_eq_left hLe]
  · have hMore : e.timeout < cost := Nat.lt_of_not_le hLe
    have hBusy := hCoherent.isIdle_clock_dispatched hPhase i (Nat.le_of_lt hMore)
    have hRetired := hCoherent.retired_clock_dispatched hPhase i (Nat.le_of_lt hMore)
    rw [if_neg (Nat.ne_of_lt hMore), if_neg (Nat.ne_of_lt hMore)] at hRetired
    rw [hExecute, if_neg hLe]
    simp only [move, hLe, if_false, cycles_clock_dispatched, timeouts_clock_dispatched]
    refine ⟨?_, ?_, ?_, trivial, ?_, hRetired.1, hRetired.2⟩
    · constructor
      · rintro ⟨result, hOk⟩
        cases hOk
      · exact False.elim
    · exact ⟨fun _ => hMore, fun _ => trivial⟩
    · constructor
      · intro hDone
        exact absurd (hBusy.mp hDone) (Nat.ne_of_lt hMore)
      · exact False.elim
    · rw [Nat.min_eq_right (Nat.le_of_lt hMore)]

/-- A burst of two words over a latency of two takes eight cycles. With eight it completes, and with
seven it is still under way when they are used up. -/
theorem execute_accounts_burst :
    let actions : List Action := [.issue (.burstStore 16 2), .step, .reset]
    let e := (fresh .empty 2 8).actAll actions
    let f := (fresh .empty 2 7).actAll actions
    let i := Instruction.burstStore 16 2
    e.Reachable ∧ e.controller.isIdle = true ∧ f.Reachable ∧ f.controller.isIdle = true ∧
      ((∃ result, (e.execute i).1 = .ok ⟨result, 8⟩) ∧
        (e.execute i).2.controller.isIdle = true ∧
        (e.execute i).2.timeouts = e.timeouts ∧
        (e.execute i).2.cycles = e.cycles + 1 + 8 ∧
        (e.execute i).2.instructions = e.instructions + 1 ∧
        (e.execute i).2.completed = e.completed.add .burstStore) ∧
      (f.execute i).1 = .error (.timeout 7) ∧
      (f.execute i).2.controller.isIdle = false ∧
      (f.execute i).2.timeouts = f.timeouts + 1 ∧
      (f.execute i).2.cycles = f.cycles + 1 + 7 ∧
      (f.execute i).2.instructions = f.instructions ∧
      (f.execute i).2.completed = f.completed := by
  intro actions e f i
  have hReachable : e.Reachable := ⟨_, _, _, _, rfl⟩
  have hOther : f.Reachable := ⟨_, _, _, _, rfl⟩
  have hIdle : e.controller.isIdle = true := rfl
  have hRests : f.controller.isIdle = true := rfl
  have hOperation : i.operation = .burstStore := by decide
  have hCost : i.cost e.bus.latency = 8 := by decide
  have hCost' : i.cost f.bus.latency = 8 := by decide
  have hEnough : e.timeout = 8 := rfl
  have hShort : f.timeout = 7 := rfl
  obtain ⟨-, hOk, -, hDone, hTimeouts, hCycles, hRetired, hCompleted⟩ :=
    execute_accounts hReachable hIdle i
  obtain ⟨-, -, hTimeout, hBusy, hTimeouts', hCycles', hRetired', hCompleted'⟩ :=
    execute_accounts hOther hRests i
  rw [hCost, hEnough] at hOk hDone hTimeouts hCycles hRetired hCompleted
  rw [hCost', hShort] at hTimeout hBusy hTimeouts' hCycles' hRetired' hCompleted'
  rw [hOperation] at hCompleted
  refine ⟨hReachable, hIdle, hOther, hRests,
    ⟨hOk.mpr (Nat.le_refl 8), hDone.mpr (Nat.le_refl 8), hTimeouts, hCycles, hRetired, hCompleted⟩,
    hTimeout.mpr (Nat.lt_succ_self 7), ?_, hTimeouts', hCycles', hRetired', hCompleted'⟩
  rw [Bool.eq_false_iff, Ne, hBusy]
  decide

end Engine

end CellularCoprocessor
