import CellularCoprocessor.Proofs.Engine.Timing
import CellularCoprocessor.Proofs.Engine.Transactions

/-!
# Buses of different latency

Two engines that differ in the latency of their buses and in their clocks carry out an instruction
with the same effect. The faster one only waits less: each word that the instruction moves over the
bus costs one latency.
-/

namespace CellularCoprocessor

namespace Instruction

/-- The words that an instruction moves over the bus. -/
def words (i : Instruction) : Nat :=
  match i.operation with
  | .load | .store => 1
  | .burstLoad | .burstStore => if i.rs2.toNat > 256 then 0 else i.rs2.toNat
  | _ => 0

theorem cost_eq_add_words (i : Instruction) (latency : Nat) :
    i.cost latency = i.cost 0 + latency * i.words := by
  have hBurst : ∀ n : Nat, (if n > 256 then 0 else if n = 0 then 1 else n * (latency + 2)) =
      (if n > 256 then 0 else if n = 0 then 1 else n * (0 + 2)) +
        latency * (if n > 256 then 0 else n) := by
    intro n
    split
    · rfl
    · split
      · rename_i hZero
        rw [hZero, Nat.mul_zero]
      · rw [Nat.zero_add, Nat.mul_add, Nat.mul_comm latency n, Nat.add_comm]
  rw [cost, cost, words]
  cases i.operation with
  | load => simp only [Nat.mul_one]; omega
  | store => simp only [Nat.mul_one]; omega
  | burstLoad => exact hBurst _
  | burstStore => exact hBurst _
  | _ => rfl

end Instruction

namespace Bus

/-- Buses that answer alike, if not at the same time. -/
structure Agrees (p p' : Bus) : Prop where
  memory : p.memory = p'.memory
  reads : p.reads = p'.reads
  writes : p.writes = p'.writes

variable {p p' : Bus}

theorem Agrees.response_eq (h : p.Agrees p') (q : Request) :
    (p.perform q).1 = (p'.perform q).1 := by
  rcases q with ⟨a, access⟩
  cases access with
  | read => simp only [perform, Memory.readWord, h.memory]
  | write w => rfl

theorem Agrees.perform (h : p.Agrees p') (q : Request) :
    (p.perform q).2.Agrees (p'.perform q).2 := by
  obtain ⟨hMemory, hReads, hWrites⟩ := h
  rcases q with ⟨a, access⟩
  cases access with
  | read =>
    refine ⟨?_, congrArg (· + 1) hReads, hWrites⟩
    exact congrArg (fun m => (m.readWord a.toUInt64).2) hMemory
  | write w =>
    refine ⟨?_, hReads, congrArg (· + 1) hWrites⟩
    exact congrArg (fun m => m.writeWord a.toUInt64 w) hMemory

end Bus

namespace Engine

structure Agrees (e f : Engine) : Prop where
  controller : e.controller = f.controller
  bus : e.bus.Agrees f.bus
  instructions : e.instructions = f.instructions
  completed : e.completed = f.completed

variable {e f : Engine} {q : Request}

theorem Agrees.trans {g : Engine} (h : e.Agrees f) (hg : f.Agrees g) : e.Agrees g where
  controller := h.controller.trans hg.controller
  bus :=
    { memory := h.bus.memory.trans hg.bus.memory
      reads := h.bus.reads.trans hg.bus.reads
      writes := h.bus.writes.trans hg.bus.writes }
  instructions := h.instructions.trans hg.instructions
  completed := h.completed.trans hg.completed

theorem Agrees.symm (h : e.Agrees f) : f.Agrees e where
  controller := h.controller.symm
  bus := ⟨h.bus.memory.symm, h.bus.reads.symm, h.bus.writes.symm⟩
  instructions := h.instructions.symm
  completed := h.completed.symm

theorem Agrees.settle (h : e.Agrees f) {p p' : Bus} (hBus : p.Agrees p') (c : Controller)
    (signals : Signals) :
    ({ e with controller := c, bus := p }.settle signals).Agrees
      ({ f with controller := c, bus := p' }.settle signals) := by
  constructor
  · rw [settle_controller, settle_controller]
  · rw [settle_bus, settle_bus]
    exact hBus
  · rw [settle_instructions, settle_instructions, h.instructions]
  · rw [settle_completed, settle_completed, h.completed]

theorem Agrees.step_quiet (h : e.Agrees f) (he : e.Coherent) (hf : f.Coherent)
    (hRequest : e.controller.request = none) : e.step.2.Agrees f.step.2 := by
  have hOther : f.controller.request = none := h.controller ▸ hRequest
  rw [he.step_quiet hRequest, hf.step_quiet hOther, h.controller]
  exact h.settle h.bus _ _

theorem Agrees.step_serving (h : e.Agrees f) (he : e.Coherent) (hf : f.Coherent)
    (hRequest : e.controller.request = some q) (hWait : e.bus.wait = 0) (hOtherWait : f.bus.wait = 0) :
    e.step.2.Agrees f.step.2 := by
  have hOther : f.controller.request = some q := h.controller ▸ hRequest
  rw [he.step_serving hRequest hWait, hf.step_serving hOther hOtherWait, h.controller,
    h.bus.response_eq q]
  exact h.settle (h.bus.perform q) _ _

theorem Coherent.agrees_step_waiting (h : e.Coherent) (hRequest : e.controller.request = some q)
    {n : Nat} (hWait : e.bus.wait = n + 1) : e.step.2.Agrees e := by
  have hBusy := h.controller.busy_of_request hRequest
  rw [h.step_waiting hRequest hWait]
  exact ⟨h.controller.lowerReady_eq hBusy, ⟨rfl, rfl, rfl⟩, rfl, rfl⟩

theorem Coherent.clock_remaining_step (h : e.Coherent) (hBusy : e.controller.phase ≠ .idle) :
    clock e.step.2.remaining e.step.2 = clock e.remaining e := by
  rw [← h.remaining_step hBusy, clock]

theorem Agrees.clock_remaining (h : e.Agrees f) (he : e.Coherent) (hf : f.Coherent) :
    (clock e.remaining e).Agrees (clock f.remaining f) := by
  -- A cycle in which one bus is not ready is made on that engine alone, any other on both.
  induction hCycles : e.remaining + f.remaining using Nat.strongRecOn generalizing e f with
  | ind n ih =>
    by_cases hIdle : e.controller.phase = .idle
    · rw [remaining_of_idle hIdle, remaining_of_idle (h.controller ▸ hIdle)]
      exact h
    · have hOther : f.controller.phase ≠ .idle := h.controller ▸ hIdle
      have heStep := he.remaining_step hIdle
      have hfStep := hf.remaining_step hOther
      have hBoth : e.step.2.Agrees f.step.2 →
          (clock e.remaining e).Agrees (clock f.remaining f) := by
        intro hStep
        rw [← he.clock_remaining_step hIdle, ← hf.clock_remaining_step hOther]
        exact ih _ (by omega) hStep he.coherent_step hf.coherent_step rfl
      cases hRequest : e.controller.request with
      | none => exact hBoth (h.step_quiet he hf hRequest)
      | some q =>
        have hOtherRequest : f.controller.request = some q := h.controller ▸ hRequest
        cases hWait : e.bus.wait with
        | succ k =>
          have hStep := (he.agrees_step_waiting hRequest hWait).trans h
          rw [← he.clock_remaining_step hIdle]
          exact ih _ (by omega) hStep he.coherent_step hf rfl
        | zero =>
          cases hOtherWait : f.bus.wait with
          | succ k =>
            have hStep := h.trans (hf.agrees_step_waiting hOtherRequest hOtherWait).symm
            rw [← hf.clock_remaining_step hOther]
            exact ih _ (by omega) hStep he hf.coherent_step rfl
          | zero => exact hBoth (h.step_serving he hf hRequest hWait hOtherWait)

theorem Agrees.dispatched (h : e.Agrees f) (i : Instruction) :
    (e.dispatched i).Agrees (f.dispatched i) := by
  rw [Engine.dispatched, Engine.dispatched, h.controller]
  exact h.settle h.bus _ _

section Words

def wordsLeft (e : Engine) : Nat :=
  match e.controller.phase with
  | .accessing => 1
  | .bursting => e.controller.registers.burst.remaining
  | _ => 0

theorem wordsLeft_of_idle (hPhase : e.controller.phase = .idle) : e.wordsLeft = 0 := by
  rw [wordsLeft, hPhase]

theorem wordsLeft_of_evolving {kind : Evolution} (hPhase : e.controller.phase = .evolving kind) :
    e.wordsLeft = 0 := by
  rw [wordsLeft, hPhase]

theorem wordsLeft_of_accessing (hPhase : e.controller.phase = .accessing) : e.wordsLeft = 1 := by
  rw [wordsLeft, hPhase]

theorem wordsLeft_of_bursting (hPhase : e.controller.phase = .bursting) :
    e.wordsLeft = e.controller.registers.burst.remaining := by
  rw [wordsLeft, hPhase]

theorem wordsLeft_settle (e : Engine) (signals : Signals) :
    (e.settle signals).wordsLeft = e.wordsLeft := by
  rw [wordsLeft, settle_controller, wordsLeft]

theorem Coherent.wordsLeft_step_quiet (h : e.Coherent) (hRequest : e.controller.request = none) :
    e.step.2.wordsLeft = e.wordsLeft := by
  rw [h.step_quiet hRequest, wordsLeft_settle]
  rcases h.controller.phase_of_no_request hRequest with
    hPhase | ⟨kind, hPhase⟩ | ⟨hPhase, hPending⟩
  · rw [Controller.advance_idle _ hPhase, wordsLeft_of_idle hPhase]
    exact wordsLeft_of_idle hPhase
  · rw [Controller.advance_evolving _ hPhase, Controller.advanceEvolution,
      wordsLeft_of_evolving hPhase]
    split
    · exact wordsLeft_of_idle rfl
    · exact wordsLeft_of_evolving hPhase
  · rw [Controller.advance_bursting _ hPhase, wordsLeft_of_bursting hPhase]
    by_cases hLess : e.controller.registers.burst.index.toNat <
        e.controller.registers.burst.length.toNat
    · rw [Controller.advanceBurst_issued (c := e.controller.lowerReady) _ hPending hLess]
      exact wordsLeft_of_bursting hPhase
    · have hDone := Nat.le_of_not_lt hLess
      rw [Controller.advanceBurst_done (c := e.controller.lowerReady) _ hPending hDone,
        Burst.remaining, Nat.sub_eq_zero_of_le hDone]
      exact wordsLeft_of_idle rfl

theorem Coherent.wordsLeft_step_serving (h : e.Coherent) (hRequest : e.controller.request = some q)
    (hWait : e.bus.wait = 0) : e.step.2.wordsLeft + 1 = e.wordsLeft := by
  rw [h.step_serving hRequest hWait, wordsLeft_settle]
  rcases h.controller.phase_of_request hRequest with hPhase | ⟨hPhase, hPending⟩
  · rw [Controller.advance_accessing _ hPhase, Controller.advanceAccess,
      if_pos (Bus.ready_perform _ _), wordsLeft_of_accessing hPhase]
    rfl
  · have hLess := (h.controller.bursting hPhase).unfinished hPending
    have hNext := Burst.toNat_index_next hLess
    rw [Controller.advance_bursting _ hPhase,
      Controller.advanceBurst_committed (c := e.controller.lowerReady) _ hPending
        (Bus.ready_perform _ _), wordsLeft_of_bursting hPhase]
    split
    · rename_i hLast
      have hPast := (Burst.isExhausted_iff _).mp hLast
      rw [wordsLeft_of_idle rfl, Burst.remaining]
      simp only [Controller.lowerReady, Burst.next] at hNext hPast ⊢
      omega
    · rw [wordsLeft_of_bursting (by exact hPhase)]
      simp only [Controller.lowerReady, Controller.moveWord, Burst.remaining, Burst.next] at hNext ⊢
      omega

/-- A cycle takes a word off those still to be moved exactly if the bus carries out an access. -/
theorem Coherent.accesses_step (h : e.Coherent) :
    e.step.2.bus.accesses + e.step.2.wordsLeft = e.bus.accesses + e.wordsLeft := by
  cases hRequest : e.controller.request with
  | none => rw [h.bus_step_quiet hRequest, h.wordsLeft_step_quiet hRequest]
  | some q =>
    cases hWait : e.bus.wait with
    | zero =>
      have hWords := h.wordsLeft_step_serving hRequest hWait
      rw [h.bus_step_serving hRequest hWait, Bus.accesses_perform]
      omega
    | succ n =>
      rw [h.step_waiting hRequest hWait]
      rfl

theorem Coherent.accesses_clock (h : e.Coherent) (n : Nat) :
    (clock n e).bus.accesses + (clock n e).wordsLeft = e.bus.accesses + e.wordsLeft := by
  induction n generalizing e with
  | zero => rfl
  | succ n ih => rw [clock, ih h.coherent_step, h.accesses_step]

theorem wordsLeft_begin (e : Engine) (c : Controller) (i : Instruction) :
    { e with controller := (c.begin i).2 }.wordsLeft = i.words := by
  have hBurst : ∀ c : Controller, ∀ direction base length,
      { e with controller := (c.beginBurst direction base length).2 }.wordsLeft =
        if length.toNat > 256 then 0 else length.toNat := by
    intro c direction base length
    rw [Controller.beginBurst]
    split
    · rename_i hFits
      have hLength : length.toNat ≤ 256 := (Burst.lengthFits_iff length).mp hFits
      rw [if_neg (Nat.not_lt.mpr hLength)]
      rfl
    · rename_i hLong
      rw [Burst.lengthFits_iff] at hLong
      have hMore : length.toNat > 256 := Nat.lt_of_not_le hLong
      rw [if_pos hMore]
      rfl
  have hEvolution : ∀ c : Controller, ∀ kind steps,
      { e with controller := (c.beginEvolution kind steps).2 }.wordsLeft = 0 := by
    intro c kind steps
    simp only [Controller.beginEvolution]
    split <;> rfl
  rw [Controller.begin, Instruction.words]
  cases i.operation with
  | get half => cases half <;> rfl
  | set half => cases half <;> rfl
  | step => exact hEvolution _ _ _
  | life => exact hEvolution _ _ _
  | burstLoad => exact hBurst _ _ _ _
  | burstStore => exact hBurst _ _ _ _
  | _ => rfl

end Words

/-- An engine that accepts any instruction and completes it. -/
structure Ready (e : Engine) : Prop where
  coherent : e.Coherent
  idle : e.controller.phase = .idle
  limit : max 65535 (256 * (e.bus.latency + 2)) ≤ e.timeout

theorem ready_fresh (memory : Memory) {latency timeout : Nat}
    (hLimit : max 65535 (256 * (latency + 2)) ≤ timeout) : (fresh memory latency timeout).Ready :=
  ⟨coherent_fresh memory latency timeout, rfl, hLimit⟩

theorem Ready.withMemory (h : e.Ready) (g : Memory → Memory) :
    (e.withMemory (g e.memory)).Ready :=
  ⟨h.coherent.coherent_move (.access g), h.idle, h.limit⟩

section Execute

variable (h : e.Ready) (i : Instruction)

include h

theorem Ready.execute_eq :
    e.execute i =
      (.ok ⟨(clock (i.cost e.bus.latency) (e.dispatched i)).controller.output.result,
          i.cost e.bus.latency⟩,
        clock (i.cost e.bus.latency) (e.dispatched i)) := by
  rw [h.coherent.execute_eq h.idle i, if_pos (Nat.le_trans (i.cost_le e.bus.latency) h.limit)]

theorem Ready.latency_execute : (e.execute i).2.bus.latency = e.bus.latency := by
  rw [h.execute_eq i, latency_clock_dispatched]

theorem Ready.ready_execute : (e.execute i).2.Ready := by
  have hLatency := h.latency_execute i
  have hDone := h.coherent.isIdle_clock_dispatched h.idle i (Nat.le_refl _)
  constructor
  · rw [h.execute_eq i]
    exact (h.coherent.coherent_dispatched h.idle i).coherent_clock _
  · rw [h.execute_eq i]
    exact of_decide_eq_true (hDone.mpr rfl)
  · rw [hLatency, h.execute_eq i, timeout_clock_dispatched]
    exact h.limit

theorem Ready.cycles_execute : (e.execute i).2.cycles = e.cycles + 1 + i.cost e.bus.latency := by
  rw [h.execute_eq i, cycles_clock_dispatched]

theorem Ready.accesses_execute : (e.execute i).2.bus.accesses = e.bus.accesses + i.words := by
  have hDispatched := h.coherent.coherent_dispatched h.idle i
  have hIdle : (clock (i.cost e.bus.latency) (e.dispatched i)).controller.phase = .idle := by
    have hReady := h.ready_execute i
    rw [h.execute_eq i] at hReady
    exact hReady.idle
  have hAccesses := hDispatched.accesses_clock (i.cost e.bus.latency)
  rw [wordsLeft_of_idle hIdle, dispatched, wordsLeft_settle, wordsLeft_begin, settle_bus] at hAccesses
  rw [h.execute_eq i]
  exact hAccesses

theorem Ready.agrees_execute (hf : f.Ready) (hAgrees : e.Agrees f) :
    (e.execute i).2.Agrees (f.execute i).2 := by
  have he := h.coherent.coherent_dispatched h.idle i
  have hOther := hf.coherent.coherent_dispatched hf.idle i
  rw [h.execute_eq i, hf.execute_eq i, ← h.coherent.remaining_dispatched h.idle i,
    ← hf.coherent.remaining_dispatched hf.idle i]
  exact (hAgrees.dispatched i).clock_remaining he hOther

end Execute

/-- Two engines of the latencies `l` and `m` that have been used alike. The one has been clocked as
much longer than the other as its memory is slower, for each word moved. -/
structure InStep (l m : Nat) (e f : Engine) : Prop where
  ready : e.Ready
  otherReady : f.Ready
  latency : e.bus.latency = l
  otherLatency : f.bus.latency = m
  agrees : e.Agrees f
  cycles : (e.cycles : Int) - f.cycles = ((l : Int) - m) * e.bus.accesses

theorem inStep_fresh (memory : Memory) {l m s t : Nat} (hs : max 65535 (256 * (l + 2)) ≤ s)
    (ht : max 65535 (256 * (m + 2)) ≤ t) : InStep l m (fresh memory l s) (fresh memory m t) where
  ready := ready_fresh memory hs
  otherReady := ready_fresh memory ht
  latency := rfl
  otherLatency := rfl
  agrees := ⟨rfl, ⟨rfl, rfl, rfl⟩, rfl, rfl⟩
  cycles := (Int.mul_zero _).symm

variable {l m : Nat}

theorem cost_sub_cost (i : Instruction) (l m : Nat) :
    (i.cost l : Int) - i.cost m = ((l : Int) - m) * i.words := by
  rw [i.cost_eq_add_words l, i.cost_eq_add_words m, Int.sub_mul]
  omega

theorem InStep.execute (h : InStep l m e f) (i : Instruction) :
    InStep l m (e.execute i).2 (f.execute i).2 where
  ready := h.ready.ready_execute i
  otherReady := h.otherReady.ready_execute i
  latency := (h.ready.latency_execute i).trans h.latency
  otherLatency := (h.otherReady.latency_execute i).trans h.otherLatency
  agrees := h.ready.agrees_execute i h.otherReady h.agrees
  cycles := by
    have hCost := cost_sub_cost i l m
    have hCycles := h.cycles
    rw [h.ready.cycles_execute i, h.otherReady.cycles_execute i, h.ready.accesses_execute i,
      h.latency, h.otherLatency, Int.natCast_add e.bus.accesses, Int.mul_add]
    omega

theorem InStep.withMemory (h : InStep l m e f) (g : Memory → Memory) :
    InStep l m (e.withMemory (g e.memory)) (f.withMemory (g f.memory)) where
  ready := h.ready.withMemory g
  otherReady := h.otherReady.withMemory g
  latency := h.latency
  otherLatency := h.otherLatency
  agrees := ⟨h.agrees.controller,
    ⟨congrArg g h.agrees.bus.memory, h.agrees.bus.reads, h.agrees.bus.writes⟩,
    h.agrees.instructions, h.agrees.completed⟩
  cycles := h.cycles

end Engine

end CellularCoprocessor
