import CellularCoprocessor.Proofs.Engine.Timing
import CellularCoprocessor.Proofs.Machine.Architecture

/-!
# Cycles refine the architecture

What an engine will hold once its instruction in flight is complete is a function of its present
state. A dispatch sets it to what the architecture gives at once, no cycle changes it, and an idle
engine holds it.
-/

namespace CellularCoprocessor

namespace Architecture

def ofRegisters (r : Registers) (bytes : UInt64 → UInt8) : Architecture :=
  ⟨r.car, fun i => r.scratchpad.words[i], r.history.toList, r.rule, bytes⟩

def serve (s : Architecture) (q : Request) : Architecture :=
  match q.access with
  | .read => { s with car := Memory.wordIn s.memory q.address.toUInt64 }
  | .write w => { s with memory := Memory.replaceWord s.memory q.address.toUInt64 w }

theorem serve_read (s : Architecture) (a : UInt32) :
    s.serve (.read a) = { s with car := Memory.wordIn s.memory a.toUInt64 } :=
  rfl

/-- Moves the words of a burst that were not moved yet. -/
def moveRest (s : Architecture) (b : Burst) : Architecture :=
  (List.range' b.index.toNat (b.length.toNat - b.index.toNat)).foldl
    (moveWord b.direction b.base) s

variable {s : Architecture} {b : Burst}

theorem moveRest_done (hIndex : b.length.toNat ≤ b.index.toNat) : s.moveRest b = s := by
  rw [moveRest, Nat.sub_eq_zero_of_le hIndex]
  rfl

theorem moveRest_next (hIndex : b.index.toNat < b.length.toNat) :
    (s.moveWord b.direction b.base b.index.toNat).moveRest b.next = s.moveRest b := by
  obtain ⟨k, hk⟩ : ∃ k, b.length.toNat - b.index.toNat = k + 1 :=
    ⟨b.length.toNat - b.index.toNat - 1, by omega⟩
  have hNext := Burst.toNat_index_next hIndex
  have hRest : b.next.length.toNat - b.next.index.toNat = k := by
    change b.length.toNat - b.next.index.toNat = k
    omega
  rw [moveRest, moveRest, hRest, hNext, hk, List.range'_succ]
  rfl

theorem burstAddress_index (b : Burst) :
    burstAddress b.base b.index.toNat = b.address.toUInt64 := by
  apply UInt64.toNat_inj.mp
  have := b.base.toNat_lt
  simp only [burstAddress, Burst.address, UInt64.toNat_ofNat', UInt32.toNat_toUInt64,
    UInt32.toNat_add, UInt32.toNat_mul, UInt32.reduceToNat]
  omega

theorem ofRegisters_write (r : Registers) (bytes : UInt64 → UInt8) (index : UInt32) (w : UInt64) :
    ofRegisters { r with scratchpad := r.scratchpad.write index w } bytes =
      { ofRegisters r bytes with
        scratchpad := Function.update (ofRegisters r bytes).scratchpad (slot index.toNat) w } := by
  simp only [ofRegisters, mk.injEq, true_and, and_true]
  funext i
  by_cases hSame : i = slot index.toNat
  · rw [hSame, Function.update_self]
    simp [Scratchpad.write, Scratchpad.slot, slot]
  · have hVal : (Scratchpad.slot index).val ≠ i.val := fun h => hSame (Fin.ext h.symm)
    rw [Function.update_of_ne hSame]
    simp [Scratchpad.write, hVal]

end Architecture

namespace Evolution

theorem pass_elementary (rule : UInt8) : elementary.pass rule = Automaton.Elementary.step rule :=
  rfl

theorem pass_life (rule : UInt8) : life.pass rule = Automaton.Life.step :=
  rfl

end Evolution

namespace Controller

/-- The result of the instruction in flight and the architecture after it. -/
def outlook (c : Controller) (bytes : UInt64 → UInt8) : UInt32 × Architecture :=
  let s := Architecture.ofRegisters c.registers bytes
  match c.phase with
  | .idle => (c.output.result, s)
  | .evolving kind =>
    (successResult, { s with car := (kind.pass s.rule)^[c.registers.steps.toNat] s.car })
  | .accessing => (successResult, c.request.elim s s.serve)
  | .bursting => (successResult, s.moveRest c.registers.burst)

variable {c : Controller} {bytes : UInt64 → UInt8}

theorem outlook_idle (hPhase : c.phase = .idle) :
    c.outlook bytes = (c.output.result, .ofRegisters c.registers bytes) := by
  simp only [outlook, hPhase]

theorem outlook_evolving {kind : Evolution} (hPhase : c.phase = .evolving kind) :
    c.outlook bytes = (successResult,
      { Architecture.ofRegisters c.registers bytes with
        car := (kind.pass c.registers.rule)^[c.registers.steps.toNat] c.registers.car }) := by
  simp only [outlook, hPhase, Architecture.ofRegisters]

theorem outlook_accessing (hPhase : c.phase = .accessing) {q : Request}
    (hRequest : c.request = some q) :
    c.outlook bytes = (successResult, (Architecture.ofRegisters c.registers bytes).serve q) := by
  simp only [outlook, hPhase, hRequest, Option.elim_some]

theorem outlook_bursting (hPhase : c.phase = .bursting) :
    c.outlook bytes =
      (successResult, (Architecture.ofRegisters c.registers bytes).moveRest c.registers.burst) := by
  simp only [outlook, hPhase]

theorem outlook_complete (result : UInt32) :
    (c.complete result).2.outlook bytes = (result, .ofRegisters c.registers bytes) :=
  rfl

theorem outlook_finishBurst :
    c.finishBurst.2.outlook bytes = (successResult, .ofRegisters c.registers bytes) :=
  rfl

theorem outlook_lowerReady : c.lowerReady.outlook bytes = c.outlook bytes :=
  rfl

theorem Coherent.outlook_advance_evolving (h : c.Coherent) {kind : Evolution}
    (hPhase : c.phase = .evolving kind) (r : Response) :
    (c.advance r).2.outlook bytes = c.outlook bytes := by
  -- The first of the passes to come is taken now, and the others are taken from its result.
  have hSteps := h.toNat_steps_advance r hPhase
  rw [outlook_evolving hPhase, ← hSteps, Function.iterate_succ_apply]
  rw [advance_evolving r hPhase, advanceEvolution] at hSteps ⊢
  split
  · rename_i hZero
    rw [outlook_complete]
    simp only [complete, hZero]
    rfl
  · rw [outlook_evolving (by exact hPhase)]
    rfl

/-- While a burst has no request pending, a cycle issues one or finds that there is none to issue. -/
theorem outlook_advance_bursting (hPhase : c.phase = .bursting)
    (hPending : c.registers.burst.pending = false) (r : Response) :
    (c.advance r).2.outlook bytes = c.outlook bytes := by
  rw [outlook_bursting hPhase, advance_bursting r hPhase]
  by_cases hLess : c.registers.burst.index.toNat < c.registers.burst.length.toNat
  · rw [advanceBurst_issued (c := c.lowerReady) r hPending hLess, outlook_bursting (by exact hPhase)]
    rfl
  · have hDone := Nat.le_of_not_lt hLess
    rw [advanceBurst_done (c := c.lowerReady) r hPending hDone, outlook_finishBurst,
      Architecture.moveRest_done hDone]
    rfl

theorem Coherent.outlook_advance_quiet (h : c.Coherent) (hBusy : c.phase ≠ .idle)
    (hRequest : c.request = none) (r : Response) :
    (c.advance r).2.outlook bytes = c.outlook bytes := by
  rcases h.phase_of_no_request hRequest with hPhase | ⟨kind, hPhase⟩ | ⟨hPhase, hPending⟩
  · exact absurd hPhase hBusy
  · exact h.outlook_advance_evolving hPhase r
  · exact outlook_advance_bursting hPhase hPending r

theorem Coherent.outlook_serve_accessing (h : c.Coherent) (hPhase : c.phase = .accessing)
    {q : Request} (hRequest : c.request = some q) (p : Bus) :
    (c.advance (p.perform q).1).2.outlook (p.perform q).2.memory.readByte =
      c.outlook p.memory.readByte := by
  rw [outlook_accessing hPhase hRequest, advance_accessing _ hPhase, advanceAccess,
    if_pos (Bus.ready_perform p q), outlook_complete]
  rcases (h.accessing hPhase).request with ⟨_, a, hRead⟩ | ⟨_, a, hWrite⟩
  · obtain rfl : q = .read a := Option.some.inj (hRequest.symm.trans hRead)
    rw [Bus.perform_read, receive_read (c := c.lowerReady) hRead, Memory.readByte_readWord]
    simp only [Response.answer, Memory.peekWord_eq, Architecture.serve_read,
      Architecture.ofRegisters, withCar, lowerReady]
  · obtain rfl : q = .write a c.registers.car := Option.some.inj (hRequest.symm.trans hWrite)
    rw [Bus.perform_write, receive_write (c := c.lowerReady) hWrite, Memory.readByte_writeWord]
    rfl

theorem ofRegisters_moveWord (c : Controller) (p : Bus) :
    let answered := p.perform (c.registers.burst.request c.registers.scratchpad)
    Architecture.ofRegisters (c.moveWord answered.1.data).registers answered.2.memory.readByte =
      Architecture.moveWord c.registers.burst.direction c.registers.burst.base
        (.ofRegisters c.registers p.memory.readByte) c.registers.burst.index.toNat := by
  intro answered
  cases hDirection : c.registers.burst.direction with
  | load =>
    have hAnswered : answered = p.perform (.read c.registers.burst.address) := by
      simp only [answered, Burst.request, hDirection]
    rw [hAnswered, Bus.perform_read, Memory.readByte_readWord]
    simp only [Architecture.moveWord, Architecture.burstAddress_index, moveWord, Burst.receive,
      hDirection, Response.answer, Memory.peekWord_eq]
    exact Architecture.ofRegisters_write c.registers p.memory.readByte c.registers.burst.index _
  | store =>
    have hAnswered : answered = p.perform (.write c.registers.burst.address
        (c.registers.scratchpad.read c.registers.burst.index)) := by
      simp only [answered, Burst.request, hDirection]
    rw [hAnswered, Bus.perform_write, Memory.readByte_writeWord]
    simp only [Architecture.moveWord, Architecture.burstAddress_index, moveWord, Burst.receive,
      hDirection]
    rfl

theorem Coherent.outlook_serve_bursting (h : c.Coherent) (hPhase : c.phase = .bursting)
    (hPending : c.registers.burst.pending = true) {q : Request} (hRequest : c.request = some q)
    (p : Bus) :
    (c.advance (p.perform q).1).2.outlook (p.perform q).2.memory.readByte =
      c.outlook p.memory.readByte := by
  have hBursting := h.bursting hPhase
  have hLess := hBursting.unfinished hPending
  obtain rfl : q = c.registers.burst.request c.registers.scratchpad :=
    Option.some.inj (hRequest.symm.trans (hBursting.request_of_pending hPending))
  rw [outlook_bursting hPhase, advance_bursting _ hPhase,
    advanceBurst_committed (c := c.lowerReady) _ hPending (Bus.ready_perform _ _),
    ← Architecture.moveRest_next hLess, ← ofRegisters_moveWord c p]
  -- The outlook is the same in both cases: after the last word no word is left to be moved.
  split
  · rename_i hLast
    rw [outlook_finishBurst,
      Architecture.moveRest_done (b := c.registers.burst.next) ((Burst.isExhausted_iff _).mp hLast)]
    rfl
  · rw [outlook_bursting (by exact hPhase)]
    rfl

theorem Coherent.outlook_serve (h : c.Coherent) {q : Request} (hRequest : c.request = some q)
    (p : Bus) :
    (c.advance (p.perform q).1).2.outlook (p.perform q).2.memory.readByte =
      c.outlook p.memory.readByte := by
  rcases h.phase_of_request hRequest with hPhase | ⟨hPhase, hPending⟩
  · exact h.outlook_serve_accessing hPhase hRequest p
  · exact h.outlook_serve_bursting hPhase hPending hRequest p

section Dispatch

variable (c) (bytes)

theorem outlook_beginEvolution (hHistory : c.registers.history.count ≤ historyDepth)
    (kind : Evolution) (steps : UInt16) :
    (c.beginEvolution kind steps).2.outlook bytes = (successResult,
      (Architecture.ofRegisters c.registers bytes).evolve steps.toNat
        ((kind.pass c.registers.rule)^[steps.toNat] c.registers.car)) := by
  simp only [beginEvolution]
  split
  · rename_i hZero
    rw [outlook_complete, hZero]
    rfl
  · rename_i hSteps
    have hPositive : steps.toNat ≠ 0 := fun hEq => hSteps (UInt16.toNat_inj.mp hEq)
    rw [outlook_evolving (by rfl), Architecture.evolve, if_neg hPositive]
    have hPush := History.toList_push c.registers.history c.registers.car hHistory
    simp only [Architecture.ofRegisters, enter, snapshot, latchSteps, hPush]

theorem ofRegisters_undo (hHistory : c.registers.history.count ≤ historyDepth) :
    Architecture.ofRegisters c.undo.registers bytes =
      (Architecture.ofRegisters c.registers bytes).undo := by
  rw [undo]
  cases hPop : c.registers.history.pop? with
  | none =>
    have hEmpty := (History.pop?_eq_none_iff _).mp hPop
    simp only [Architecture.undo, Architecture.ofRegisters, hEmpty]
  | some popped =>
    have hList := History.toList_of_pop? hHistory hPop
    simp only [Architecture.undo, Architecture.ofRegisters, hList]

theorem outlook_beginBurst (direction : Direction) (base length : UInt32) :
    (c.beginBurst direction base length).2.outlook bytes =
      (Architecture.ofRegisters c.registers bytes).burst direction base length := by
  rw [beginBurst, Architecture.burst]
  by_cases hFits : Burst.lengthFits length = true
  · rw [if_pos hFits, if_pos ((Burst.lengthFits_iff length).mp hFits), outlook_bursting (by rfl),
      List.range_eq_range']
    rfl
  · rw [if_neg hFits, if_neg (fun hLe => hFits ((Burst.lengthFits_iff length).mpr hLe)),
      outlook_complete]
    rfl

theorem outlook_dispatch (hHistory : c.registers.history.count ≤ historyDepth) (a b : UInt32)
    (o : Operation) :
    (c.dispatch a b o).2.outlook bytes =
      (Architecture.ofRegisters c.registers bytes).execute a b o := by
  cases o with
  | load => rfl
  | store => rfl
  | get half =>
    cases half with
    | low => rw [dispatch, outlook_complete, Registers.carLow_eq]; rfl
    | high => rw [dispatch, outlook_complete, Registers.carHigh_eq]; rfl
  | set half =>
    cases half with
    | low =>
      have hCar : a.toUInt64 = UInt64.ofNat a.toNat := by
        apply UInt64.toNat_inj.mp
        simp
      rw [dispatch, outlook_complete]
      simp only [setLow, Architecture.ofRegisters, hCar]
      rfl
    | high =>
      rw [dispatch, outlook_complete]
      simp only [setHigh, Architecture.ofRegisters, Registers.car_setCarHigh]
      rfl
  | scratchToCar => rfl
  | carToScratch =>
    rw [dispatch, outlook_complete]
    exact congrArg _ (Architecture.ofRegisters_write c.registers bytes a c.registers.car)
  | step =>
    have hLatched : (c.latchRule a.toUInt8).registers.history.count ≤ historyDepth := hHistory
    have hRule : a.toUInt8 = UInt8.ofNat (a.toNat % 2 ^ 8) := by
      apply UInt8.toNat_inj.mp
      simp
    rw [dispatch, outlook_beginEvolution _ _ hLatched, Evolution.pass_elementary,
      Automaton.step_iterate, UInt32.toNat_toUInt16, hRule]
    simp only [Architecture.execute, Architecture.ofRegisters, latchRule, successResult]
  | find =>
    rw [dispatch, outlook_complete, Automaton.findResult_eq]
    rfl
  | count =>
    rw [dispatch, outlook_complete, Automaton.population_eq]
    rfl
  | life =>
    rw [dispatch, outlook_beginEvolution _ _ hHistory, Evolution.pass_life,
      Automaton.lifeStep_iterate, UInt32.toNat_toUInt16]
    simp only [Architecture.execute, Architecture.ofRegisters, successResult]
  | undo => exact congrArg _ (ofRegisters_undo c bytes hHistory)
  | burstLoad => exact outlook_beginBurst c bytes .load a b
  | burstStore => exact outlook_beginBurst c bytes .store a b

theorem outlook_begin (hHistory : c.registers.history.count ≤ historyDepth) (i : Instruction) :
    (c.begin i).2.outlook bytes =
      (Architecture.ofRegisters c.registers bytes).execute i.rs1 i.rs2 i.operation :=
  outlook_dispatch { c.lowerReady with operation := some i.operation } bytes hHistory _ _ _

end Dispatch

end Controller

namespace Engine

def architecture (e : Engine) : Architecture :=
  .ofRegisters e.controller.registers e.bus.memory.readByte

def outlook (e : Engine) : UInt32 × Architecture :=
  e.controller.outlook e.bus.memory.readByte

variable {e : Engine}

theorem outlook_of_idle (hIdle : e.controller.phase = .idle) :
    e.outlook = (e.controller.output.result, e.architecture) :=
  Controller.outlook_idle hIdle

theorem outlook_settle (e : Engine) (signals : Signals) : (e.settle signals).outlook = e.outlook := by
  rw [outlook, settle_controller, settle_bus, outlook]

theorem Coherent.outlook_step (h : e.Coherent) (hBusy : e.controller.phase ≠ .idle) :
    e.step.2.outlook = e.outlook := by
  cases hRequest : e.controller.request with
  | none =>
    rw [h.step_quiet hRequest, outlook_settle]
    exact h.controller.outlook_advance_quiet hBusy hRequest .idle
  | some q =>
    cases hWait : e.bus.wait with
    | zero =>
      rw [h.step_serving hRequest hWait, outlook_settle]
      exact h.controller.outlook_serve hRequest e.bus
    | succ n =>
      rw [h.step_waiting hRequest hWait]
      exact Controller.outlook_lowerReady

theorem Coherent.outlook_clock (h : e.Coherent) {n : Nat} (hn : n ≤ e.remaining) :
    (clock n e).outlook = e.outlook := by
  induction n generalizing e with
  | zero => rfl
  | succ n ih =>
    have hBusy : e.controller.phase ≠ .idle := fun hIdle => by
      rw [remaining_of_idle hIdle] at hn
      omega
    have hStep := h.remaining_step hBusy
    rw [clock, ih h.coherent_step (by omega), h.outlook_step hBusy]

theorem Coherent.outlook_dispatched (h : e.Coherent) (i : Instruction) :
    (e.dispatched i).outlook = e.architecture.execute i.rs1 i.rs2 i.operation := by
  rw [dispatched, outlook_settle]
  exact Controller.outlook_begin e.controller _ h.controller.history i

/-- All that a program sees of the instruction is what the architecture says, and the engine is
ready for the next one. -/
structure Refines (e : Engine) (i : Instruction) : Prop where
  completion : (e.execute i).1 =
    .ok ⟨(e.architecture.execute i.rs1 i.rs2 i.operation).1, i.cost e.bus.latency⟩
  architecture : (e.execute i).2.architecture =
    (e.architecture.execute i.rs1 i.rs2 i.operation).2
  coherent : (e.execute i).2.Coherent
  idle : (e.execute i).2.controller.phase = .idle
  latency : (e.execute i).2.bus.latency = e.bus.latency
  timeout : (e.execute i).2.timeout = e.timeout

theorem Coherent.refines (h : e.Coherent) (hIdle : e.controller.phase = .idle) {i : Instruction}
    (hCost : i.cost e.bus.latency ≤ e.timeout) : e.Refines i := by
  have hDispatched := h.coherent_dispatched hIdle i
  have hRemaining := h.remaining_dispatched hIdle i
  have hExecute := h.execute_eq hIdle i
  rw [if_pos hCost] at hExecute
  have hDone : (clock (i.cost e.bus.latency) (e.dispatched i)).controller.phase = .idle :=
    of_decide_eq_true ((h.isIdle_clock_dispatched hIdle i (Nat.le_refl _)).mpr rfl)
  have hOutlook := hDispatched.outlook_clock (Nat.le_of_eq hRemaining.symm)
  rw [h.outlook_dispatched, outlook_of_idle hDone] at hOutlook
  constructor
  · rw [hExecute, ← hOutlook]
  · rw [hExecute, ← hOutlook]
  · rw [hExecute]
    exact hDispatched.coherent_clock _
  · rw [hExecute]
    exact hDone
  · rw [hExecute, latency_clock_dispatched]
  · rw [hExecute, timeout_clock_dispatched]

/-- The results of some instructions, each with the architecture that the engine shows after it. -/
def outcomes (e : Engine) : List Instruction → List (Except EngineError UInt32 × Architecture)
  | [] => []
  | i :: instructions =>
    let (outcome, t) := e.execute i
    (outcome.map Completion.result, t.architecture) :: t.outcomes instructions

theorem Coherent.outcomes_eq (h : e.Coherent) (hIdle : e.controller.phase = .idle)
    (hTimeout : max 65535 (256 * (e.bus.latency + 2)) ≤ e.timeout)
    (instructions : List Instruction) :
    e.outcomes instructions =
      (e.architecture.outcomes instructions).map fun (result, s) => (.ok result, s) := by
  induction instructions generalizing e with
  | nil => rfl
  | cons i instructions ih =>
    have hRefines := h.refines hIdle (Nat.le_trans (i.cost_le e.bus.latency) hTimeout)
    have hNext : max 65535 (256 * ((e.execute i).2.bus.latency + 2)) ≤ (e.execute i).2.timeout := by
      rw [hRefines.latency, hRefines.timeout]
      exact hTimeout
    have hRest := ih hRefines.coherent hRefines.idle hNext
    rw [hRefines.architecture] at hRest
    rw [outcomes, Architecture.outcomes]
    simp only [hRefines.completion, hRefines.architecture, hRest, List.map_cons]
    rfl

/-- However an idle engine was used before and however slow its memory is, a program sees of it
what the architecture says, provided that every instruction may take all the cycles it needs. -/
theorem outcomes_refine (h : e.Reachable) (hIdle : e.controller.isIdle = true)
    (hTimeout : max 65535 (256 * (e.bus.latency + 2)) ≤ e.timeout)
    (instructions : List Instruction) :
    e.outcomes instructions =
      (e.architecture.outcomes instructions).map fun (result, s) => (.ok result, s) :=
  h.coherent.outcomes_eq (of_decide_eq_true hIdle) hTimeout instructions

/-- A load is reset before its answer arrives. After it two words are stored and read back. -/
theorem outcomes_refine_burst :
    let e := (fresh .empty 2 65535).actAll
      [.issue (.load 8), .step, .reset, .execute (.setLow 6)]
    e.Reachable ∧ e.controller.isIdle = true ∧
      max 65535 (256 * (e.bus.latency + 2)) ≤ e.timeout ∧
      (e.outcomes [.carToScratch 257, .burstStore 16 2, .load 31, .count]).map Prod.fst =
        [.ok 0, .ok 0, .ok 0, .ok 2] := by
  intro e
  have hReachable : e.Reachable := ⟨_, _, _, _, rfl⟩
  have hIdle : e.controller.isIdle = true := rfl
  have hTimeout : max 65535 (256 * (e.bus.latency + 2)) ≤ e.timeout := by decide
  refine ⟨hReachable, hIdle, hTimeout, ?_⟩
  rw [outcomes_refine hReachable hIdle hTimeout]
  decide +kernel

end Engine

end CellularCoprocessor
