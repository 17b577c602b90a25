import CellularCoprocessor.Proofs.Engine.Reset
import CellularCoprocessor.Proofs.Machine.Bursts

/-!
# Abandoned transfers

A transfer may run out of cycles anywhere, between two words or while one is on its way. The words
it has moved by then are the first ones, as many as the cycles suffice for, and of the others none
is moved in part.
-/

namespace CellularCoprocessor

namespace Burst

variable {b : Burst} {wait latency k : Nat}

theorem cyclesLeft_bounds (hLeft : b.remaining = k + 1) (hWait : wait ≤ latency) :
    k * (latency + 2) < b.cyclesLeft wait latency ∧
      b.cyclesLeft wait latency ≤ k * (latency + 2) + (latency + 2) := by
  cases hPending : b.pending with
  | true =>
    rw [cyclesLeft_of_pending hPending, hLeft, Nat.add_sub_cancel]
    omega
  | false =>
    rw [cyclesLeft_of_not_pending hPending (by omega), hLeft, Nat.succ_mul]
    omega

/-- The cycles used up tell how many words were moved. -/
theorem index_eq_div {t : Nat} (hIndex : b.index.toNat < b.length.toNat) (hWait : wait ≤ latency)
    (hCycles : b.cyclesLeft wait latency + t = b.length.toNat * (latency + 2)) :
    b.index.toNat = t / (latency + 2) := by
  obtain ⟨k, hLength⟩ : ∃ k, b.length.toNat = b.index.toNat + (k + 1) :=
    ⟨b.length.toNat - b.index.toNat - 1, by omega⟩
  have hLeft : b.remaining = k + 1 := by
    rw [remaining]
    omega
  obtain ⟨hMore, hLess⟩ := cyclesLeft_bounds hLeft hWait
  rw [hLength, Nat.add_mul, Nat.succ_mul] at hCycles
  refine (Nat.div_eq_of_lt_le ?_ ?_).symm
  · omega
  · rw [Nat.succ_mul]
    omega

end Burst

theorem Instruction.cost_of_burst (i : Instruction) {d : Direction}
    (hOperation : i.operation = d.operation) (hLength : i.rs2.toNat ≤ 256)
    (hSome : 0 < i.rs2.toNat) (latency : Nat) :
    i.cost latency = i.rs2.toNat * (latency + 2) := by
  rw [cost, hOperation]
  cases d <;>
    simp only [Direction.operation, if_neg (Nat.not_lt.mpr hLength), if_neg (Nat.ne_of_gt hSome)]

theorem Instruction.operation_store (a : UInt32) : (store a).operation = .store :=
  (by decide : Operation.decode 1 0 = .store)

namespace Engine

variable {e : Engine}

theorem Coherent.wait_le (h : e.Coherent) : e.bus.wait ≤ e.bus.latency := by
  rw [Bus.wait]
  cases hFlight : e.bus.inFlight with
  | none => exact Nat.le_refl _
  | some t => exact Nat.le_of_lt (h.inFlight t hFlight).2

theorem architecture_settle (e : Engine) (signals : Signals) :
    (e.settle signals).architecture = e.architecture := by
  rw [architecture, settle_controller, settle_bus, architecture]

/-- A burst of `n` words is under way. Those up to its index have been moved, from the state `s` on
in which it began. -/
structure Underway (s : Architecture) (d : Direction) (a n : UInt32) (e : Engine) : Prop where
  phase : e.controller.phase = .bursting
  direction : e.controller.registers.burst.direction = d
  base : e.controller.registers.burst.base = a
  length : e.controller.registers.burst.length = n
  unfinished : e.controller.registers.burst.index.toNat < n.toNat
  architecture : e.architecture =
    (List.range e.controller.registers.burst.index.toNat).foldl (Architecture.moveWord d a) s

section Underway

variable {s : Architecture} {d : Direction} {a n : UInt32}

theorem Underway.settle (h : Underway s d a n e) (signals : Signals) :
    Underway s d a n (e.settle signals) := by
  obtain ⟨hPhase, hDirection, hBase, hLength, hUnfinished, hMoved⟩ := h
  constructor
  · rw [settle_controller, hPhase]
  · rw [settle_controller, hDirection]
  · rw [settle_controller, hBase]
  · rw [settle_controller, hLength]
  · rw [settle_controller]
    exact hUnfinished
  · rw [settle_controller, architecture_settle]
    exact hMoved

theorem Underway.step (h : Underway s d a n e) (hCoherent : e.Coherent)
    (hStill : e.step.2.controller.phase ≠ .idle) : Underway s d a n e.step.2 := by
  obtain ⟨hPhase, hDirection, hBase, hLength, hUnfinished, hMoved⟩ := h
  have hBursting := hCoherent.controller.bursting hPhase
  have hLess : e.controller.registers.burst.index.toNat <
      e.controller.registers.burst.length.toNat := by
    rw [hLength]
    exact hUnfinished
  -- A word is moved in the one cycle in which the bus has answered, and in no other.
  cases hPending : e.controller.registers.burst.pending with
  | false =>
    rw [hCoherent.step_quiet (hBursting.request_of_not_pending hPending),
      Controller.advance_bursting _ hPhase,
      Controller.advanceBurst_issued (c := e.controller.lowerReady) _ hPending hLess]
    dsimp only
    apply Underway.settle
    exact ⟨hPhase, hDirection, hBase, hLength, hUnfinished, hMoved⟩
  | true =>
    have hRequest := hBursting.request_of_pending hPending
    cases hWait : e.bus.wait with
    | succ k =>
      rw [hCoherent.step_waiting hRequest hWait]
      exact ⟨hPhase, hDirection, hBase, hLength, hUnfinished, hMoved⟩
    | zero =>
      have hServed := hCoherent.step_serving hRequest hWait
      rw [Controller.advance_bursting _ hPhase,
        Controller.advanceBurst_committed (c := e.controller.lowerReady) _ hPending
          (Bus.ready_perform _ _)] at hServed
      split at hServed
      · rw [hServed, settle_controller] at hStill
        exact absurd rfl hStill
      · rename_i hMore
        have hNext := Burst.toNat_index_next hLess
        have hWord := Controller.ofRegisters_moveWord e.controller e.bus
        have hUnfinished' : e.controller.registers.burst.next.index.toNat < n.toNat := by
          rw [← hLength]
          exact Nat.lt_of_not_le fun hPast => hMore ((Burst.isExhausted_iff _).mpr hPast)
        rw [hServed]
        dsimp only
        apply Underway.settle
        refine ⟨hPhase, hDirection, hBase, hLength, hUnfinished', hWord.trans ?_⟩
        change Architecture.moveWord _ _ e.architecture _ =
          (List.range e.controller.registers.burst.next.index.toNat).foldl _ s
        rw [hNext, List.range_succ, List.foldl_append, ← hMoved, hDirection, hBase]
        rfl

theorem Underway.clock (h : Underway s d a n e) (hCoherent : e.Coherent) {t : Nat}
    (ht : t < e.remaining) : Underway s d a n (clock t e) := by
  induction t generalizing e with
  | zero => exact h
  | succ t ih =>
    have hBusy : e.controller.phase ≠ .idle := by
      rw [h.phase]
      exact fun hIdle => by cases hIdle
    have hStep := hCoherent.remaining_step hBusy
    have hStill : e.step.2.controller.phase ≠ .idle := fun hIdle => by
      rw [remaining_of_idle hIdle] at hStep
      omega
    exact ih (h.step hCoherent hStill) hCoherent.coherent_step (by omega)

theorem underway_dispatched {i : Instruction} (hOperation : i.operation = d.operation)
    (hLength : i.rs2.toNat ≤ scratchpadSize) (hSome : 0 < i.rs2.toNat) :
    Underway e.architecture d i.rs1 i.rs2 (e.dispatched i) := by
  have hBegin : (e.controller.begin i).2 =
      (({ e.controller.lowerReady with operation := some i.operation }.latchBurst
        (.start i.rs1 i.rs2 d)).enter .bursting).2 := by
    rw [Controller.begin, hOperation]
    cases d <;>
      simp only [Direction.operation, Controller.dispatch, Controller.beginBurst,
        (Burst.lengthFits_iff _).mpr hLength, if_true]
  rw [dispatched, hBegin]
  apply Underway.settle
  exact ⟨rfl, rfl, rfl, rfl, hSome, rfl⟩

/-- What is left of a burst that has run out of cycles. -/
theorem Coherent.execute_burst_of_lt (h : e.Coherent) (hIdle : e.controller.phase = .idle)
    {i : Instruction} (hOperation : i.operation = d.operation) (hLength : i.rs2.toNat ≤ 256)
    (hLimit : e.timeout < i.rs2.toNat * (e.bus.latency + 2)) :
    (e.execute i).1 = .error (.timeout e.timeout) ∧
      (e.execute i).2.controller.registers.burst.index.toNat =
        e.timeout / (e.bus.latency + 2) ∧
      (e.execute i).2.architecture =
        (List.range (e.timeout / (e.bus.latency + 2))).foldl (Architecture.moveWord d i.rs1)
          e.architecture := by
  have hSome : 0 < i.rs2.toNat := Nat.pos_of_mul_pos_right (Nat.zero_lt_of_lt hLimit)
  have hCost := i.cost_of_burst hOperation hLength hSome e.bus.latency
  have hDispatched := h.coherent_dispatched hIdle i
  have hRemaining := h.remaining_dispatched hIdle i
  have hBegun := underway_dispatched (e := e) hOperation hLength hSome
  have hCut := hBegun.clock hDispatched (t := e.timeout) (by omega)
  have hLeft := hDispatched.remaining_clock (n := e.timeout) (by omega)
  have hLatency : (clock e.timeout (e.dispatched i)).bus.latency = e.bus.latency :=
    latency_clock_dispatched _ _ _
  have hIndex : (clock e.timeout (e.dispatched i)).controller.registers.burst.index.toNat =
      e.timeout / (e.bus.latency + 2) := by
    rw [remaining_of_bursting hCut.phase, hLatency, hRemaining, hCost, ← hCut.length] at hLeft
    refine Burst.index_eq_div ?_ ?_ hLeft
    · rw [hCut.length]
      exact hCut.unfinished
    · rw [← hLatency]
      exact (hDispatched.coherent_clock e.timeout).wait_le
  rw [h.execute_eq hIdle i, if_neg (by omega)]
  refine ⟨rfl, hIndex, ?_⟩
  rw [← hIndex]
  exact hCut.architecture

end Underway

theorem Coherent.clock_accessing (h : e.Coherent) (hPhase : e.controller.phase = .accessing)
    {t : Nat} (ht : t < e.remaining) :
    (clock t e).controller.phase = .accessing ∧ (clock t e).memory = e.memory := by
  induction t generalizing e with
  | zero => exact ⟨hPhase, rfl⟩
  | succ t ih =>
    obtain ⟨q, hRequest⟩ := (h.controller.accessing hPhase).exists_request
    have hWait := remaining_of_accessing hPhase
    obtain ⟨k, hMore⟩ : ∃ k, e.bus.wait = k + 1 := ⟨e.bus.wait - 1, by omega⟩
    have hStep := h.step_waiting hRequest hMore
    have hStill : e.step.2.controller.phase = .accessing := by
      rw [hStep]
      exact hPhase
    have hCycles := h.remaining_step_accessing hPhase
    obtain ⟨hSame, hMemory⟩ := ih h.coherent_step hStill (by omega)
    refine ⟨hSame, hMemory.trans ?_⟩
    rw [hStep]
    rfl

/-- Once an engine is reset, its memory stays as the reset found it. -/
theorem memory_clock_reset (e : Engine) (m : Nat) : (clock m e.reset).memory = e.memory :=
  (Coherent.clock_of_idle ⟨Controller.coherent_initial, fun t hFlight => by cases hFlight⟩ rfl m).1

theorem Coherent.execute_store_of_lt (h : e.Coherent) (hIdle : e.controller.phase = .idle)
    (a : UInt32) (hLimit : e.timeout ≤ e.bus.latency) :
    (e.execute (.store a)).1 = .error (.timeout e.timeout) ∧
      (e.execute (.store a)).2.memory = e.memory := by
  have hCost : (Instruction.store a).cost e.bus.latency = e.bus.latency + 1 := by
    rw [Instruction.cost, Instruction.operation_store]
  have hRemaining := h.remaining_dispatched hIdle (.store a)
  have hPhase : (e.dispatched (.store a)).controller.phase = .accessing := by
    rw [controller_dispatched, Controller.begin, Instruction.operation_store]
    rfl
  have hWaiting := (h.coherent_dispatched hIdle (.store a)).clock_accessing hPhase
    (t := e.timeout) (by omega)
  rw [h.execute_eq hIdle, if_neg (by omega)]
  refine ⟨rfl, hWaiting.2.trans ?_⟩
  rw [memory, dispatched, settle_bus, memory]

/-- A transfer that runs out of cycles has moved its first words, one for each full turn of the bus,
and nothing else. After a reset, the memory never sees the rest. -/
theorem abandoned_transfer (h : e.Reachable) (hIdle : e.controller.isIdle = true) :
    (∀ a n : UInt32, n.toNat ≤ 256 → e.timeout < n.toNat * (e.bus.latency + 2) →
      let k := e.timeout / (e.bus.latency + 2)
      let place := fun i => UInt64.ofNat ((a.toNat + 8 * i) % 2 ^ 32)
      let stored := e.execute (.burstStore a n)
      let loaded := e.execute (.burstLoad a n)
      stored.1 = .error (.timeout e.timeout) ∧
      (∀ m, ∀ i : Fin scratchpadSize, i.val < k →
        Memory.wordIn (clock m stored.2.reset).memory.readByte (place i) =
          e.controller.registers.scratchpad.words.get i) ∧
      (∀ m, ∀ address : UInt64,
        (∀ i < k, Memory.wordAddress address ≠ Memory.wordAddress (place i)) →
        (clock m stored.2.reset).memory.readByte address = e.memory.readByte address) ∧
      loaded.1 = .error (.timeout e.timeout) ∧
      (∀ i : Fin scratchpadSize, loaded.2.controller.registers.scratchpad.words.get i =
        if i.val < k then Memory.wordIn e.memory.readByte (place i)
        else e.controller.registers.scratchpad.words.get i) ∧
      loaded.2.controller.registers.burst.index.toNat = k) ∧
    ∀ a : UInt32, e.timeout ≤ e.bus.latency →
      (e.execute (.store a)).1 = .error (.timeout e.timeout) ∧
      ∀ m, (clock m (e.execute (.store a)).2.reset).memory = e.memory := by
  have hCoherent := h.coherent
  have hPhase : e.controller.phase = .idle := of_decide_eq_true hIdle
  refine ⟨?_, ?_⟩
  · intro a n hn hLimit k place stored loaded
    have hFew : k ≤ 256 := by
      have hLess : k < n.toNat := Nat.div_lt_of_lt_mul (by rwa [Nat.mul_comm])
      omega
    obtain ⟨hStoredOut, -, hStored⟩ := hCoherent.execute_burst_of_lt (d := .store) hPhase
      (Instruction.operation_burstStore a n) hn hLimit
    obtain ⟨hLoadedOut, hIndex, hLoaded⟩ := hCoherent.execute_burst_of_lt (d := .load) hPhase
      (Instruction.operation_burstLoad a n) hn hLimit
    rw [Architecture.foldl_store] at hStored
    rw [Architecture.foldl_load _ _ hFew] at hLoaded
    have hBytes : ∀ m, (clock m stored.2.reset).memory.readByte = Architecture.storeWords a
        (fun i => e.architecture.scratchpad (Architecture.slot i)) k e.memory.readByte := by
      intro m
      rw [memory_clock_reset]
      exact congrArg Architecture.memory hStored
    refine ⟨hStoredOut, ?_, ?_, hLoadedOut, ?_, hIndex⟩
    · intro m i hi
      have hSlot : Architecture.slot i = i := Fin.ext (Nat.mod_eq_of_lt i.isLt)
      have hWord : Memory.wordIn (Architecture.storeWords a
          (fun i => e.architecture.scratchpad (Architecture.slot i)) k e.memory.readByte)
          (place i) = e.architecture.scratchpad (Architecture.slot i) :=
        Architecture.wordIn_storeWords (by omega) hi
      rw [hBytes, hWord, hSlot]
      rfl
    · intro m address hOutside
      rw [hBytes]
      exact Architecture.storeWords_of_ne fun i hi hSame =>
        hOutside i hi (Memory.wordAddress_eq_iff.mpr hSame)
    · intro i
      exact congrFun (congrArg Architecture.scratchpad hLoaded) i
  · intro a hLimit
    obtain ⟨hOut, hMemory⟩ := hCoherent.execute_store_of_lt hPhase a hLimit
    refine ⟨hOut, fun m => ?_⟩
    rw [memory_clock_reset, hMemory]

/-- Nine cycles are enough for two of three words and for the request of the third. -/
theorem abandoned_transfer_third :
    let e := (fresh .empty 2 9).actAll
      [.execute (.setLow 5), .execute (.carToScratch 1), .issue (.load 8), .step, .reset]
    let f := e.act (.limit 2)
    let stored := e.execute (.burstStore 0xFFFFFFF3 3)
    e.Reachable ∧ e.controller.isIdle = true ∧ (3 : UInt32).toNat ≤ 256 ∧
      e.timeout < (3 : UInt32).toNat * (e.bus.latency + 2) ∧
      stored.1 = .error (.timeout 9) ∧
      (e.execute (.burstLoad 16 3)).2.controller.registers.burst.index.toNat = 2 ∧
      f.Reachable ∧ f.controller.isIdle = true ∧ f.timeout ≤ f.bus.latency ∧
      ∀ m, (clock m (f.execute (.store 8)).2.reset).memory = f.memory := by
  intro e f stored
  have hReachable : e.Reachable := ⟨_, _, _, _, rfl⟩
  have hIdle : e.controller.isIdle = true := rfl
  have hFits : (3 : UInt32).toNat ≤ 256 := by decide
  have hLimit : e.timeout < (3 : UInt32).toNat * (e.bus.latency + 2) := by decide
  have hOther : f.Reachable := ⟨.empty, 2, 9, [.execute (.setLow 5), .execute (.carToScratch 1),
    .issue (.load 8), .step, .reset, .limit 2], rfl⟩
  have hOtherIdle : f.controller.isIdle = true := rfl
  have hShort : f.timeout ≤ f.bus.latency := by decide
  have hStored := (abandoned_transfer hReachable hIdle).1 0xFFFFFFF3 3 hFits hLimit
  have hLoaded := (abandoned_transfer hReachable hIdle).1 16 3 hFits hLimit
  have hTurns : e.timeout / (e.bus.latency + 2) = 2 := by decide
  exact ⟨hReachable, hIdle, hFits, hLimit, hStored.1, hLoaded.2.2.2.2.2.trans hTurns, hOther,
    hOtherIdle, hShort,
    ((abandoned_transfer hOther hOtherIdle).2 8 hShort).2⟩

end Engine

end CellularCoprocessor
