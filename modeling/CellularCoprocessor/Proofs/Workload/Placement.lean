import CellularCoprocessor.Proofs.Workload.Capture
import CellularCoprocessor.Proofs.Workload.Sweep

/-!
# Words that are placed directly

A workload writes and reads words directly, and the coprocessor reaches them by bursts and by single
loads. Both find the same words up to the end of the 32-bit space. Past its end they do not, and a
workload that goes there can fail although no evolution and no burst is wrong.
-/

namespace CellularCoprocessor

namespace Engine

variable {e : Engine} {s : Architecture} {latency limit : Nat} {a n : UInt32}

theorem Rests.load (h : e.Rests latency limit (· = s)) (hLimit : latency + 1 ≤ limit) :
    (e.execute (.load a)).1 = .ok ⟨0, latency + 1⟩ ∧
      (e.execute (.load a)).2.car = Memory.wordIn s.memory a.toUInt64 := by
  have hCost := Instruction.cost_load a latency
  obtain ⟨hDone, hLeft⟩ := h.execute (hCost.trans_le hLimit)
  rw [h.holds, Architecture.perform_load] at hDone hLeft
  rw [hCost] at hDone
  exact ⟨hDone, congrArg Architecture.car hLeft.holds⟩

/-- What a burst and single loads find where words were written directly. -/
theorem Reachable.loads_placed (h : e.Reachable) (hIdle : e.controller.isIdle = true)
    (hn : n.toNat ≤ scratchpadSize) (hLoad : e.bus.latency + 1 ≤ e.timeout)
    (hBurst : max 1 (n.toNat * (e.bus.latency + 2)) ≤ e.timeout) {ws : List UInt64}
    (hLength : ws.length = n.toNat) :
    let written := e.withMemory (e.memory.writeWords a.toUInt64 ws)
    let burst := written.execute (.burstLoad a n)
    let found := Architecture.upToEnd a (ws.getD · 0) fun i =>
      e.memory.peekWord (Architecture.burstAddress a i)
    burst.1 = .ok ⟨0, (Instruction.burstLoad a n).cost e.bus.latency⟩ ∧
    ∀ i : Fin scratchpadSize, i.val < n.toNat →
      let single := written.execute (.load (a + UInt32.ofNat i * 8))
      burst.2.controller.registers.scratchpad.words.get i = found i ∧
        single.1 = .ok ⟨0, e.bus.latency + 1⟩ ∧ single.2.car = found i := by
  intro written burst found
  have hWritten : written.Rests e.bus.latency e.timeout
      (· = { e.architecture with memory := (e.memory.writeWords a.toUInt64 ws).readByte }) :=
    ⟨h.coherent.coherent_move (.access (·.writeWords a.toUInt64 ws)),
      of_decide_eq_true hIdle, rfl, rfl, rfl⟩
  have hFound : ∀ i < n.toNat, Memory.wordIn (e.memory.writeWords a.toUInt64 ws).readByte
      (Architecture.burstAddress a i) = found i := by
    intro i hi
    rw [Architecture.wordIn_writeWords (hLength.trans_le hn) (hLength.symm ▸ hi)]
    simp only [found, Memory.peekWord_eq]
  have hIsBurst := Instruction.operation_burstLoad a n
  have hRefines : written.Refines (.burstLoad a n) :=
    hWritten.coherent.refines hWritten.idle (Instruction.cost_burst_le (.inl hIsBurst) hBurst)
  obtain ⟨hDone, hLoaded⟩ := hRefines.burstLoad hn
  refine ⟨hDone, ?_⟩
  intro i hi single
  have hWord : burst.2.controller.registers.scratchpad.words.get i = Memory.wordIn _ _ :=
    (congrFun (congrArg Architecture.scratchpad hLoaded) i).trans (if_pos hi)
  obtain ⟨hSingleDone, hCar⟩ := hWritten.load (a := a + UInt32.ofNat i * 8) hLoad
  rw [Architecture.toUInt64_add_mul_eight, Architecture.toNat_ofNat_of_le i.isLt.le,
    hFound i hi] at hCar
  exact ⟨hWord.trans (hFound i hi), hSingleDone, hCar⟩

/-- What is found directly where a burst stored the scratchpad. -/
theorem Reachable.reads_stored (h : e.Reachable) (hIdle : e.controller.isIdle = true)
    (hn : n.toNat ≤ scratchpadSize)
    (hBurst : max 1 (n.toNat * (e.bus.latency + 2)) ≤ e.timeout) :
    let stored := e.execute (.burstStore a n)
    let found := Architecture.upToEnd a
      (fun i => e.controller.registers.scratchpad.words.get (Architecture.slot i))
      fun i => e.memory.peekWord (a.toUInt64 + UInt64.ofNat (8 * i))
    stored.1 = .ok ⟨0, (Instruction.burstStore a n).cost e.bus.latency⟩ ∧
      stored.2.memory.readWords a.toUInt64 n.toNat = (List.range n.toNat).map found := by
  intro stored found
  have hIsBurst := Instruction.operation_burstStore a n
  have hRefines : e.Refines (.burstStore a n) := h.coherent.refines (of_decide_eq_true hIdle)
    (Instruction.cost_burst_le (.inr hIsBurst) hBurst)
  obtain ⟨hDone, hStored⟩ := hRefines.burstStore hn
  have hBytes := congrArg Architecture.memory hStored
  refine ⟨hDone, (Architecture.readWords_storeWords hBytes hn).trans ?_⟩
  simp only [found, Memory.peekWord_eq]
  rfl

/-- Where words are placed directly, a burst and single loads find them up to the end of the 32-bit
space, and past it what the first addresses held before. What a burst stores is found directly up to
the end as well, and past it what was there before. So a workload whose words all end within the
space succeeds. -/
theorem placed_words_meet_bursts (h : e.Reachable) (hIdle : e.controller.isIdle = true)
    (hn : n.toNat ≤ 256)
    (hLimit : max (e.bus.latency + 1) (max 1 (n.toNat * (e.bus.latency + 2))) ≤ e.timeout) :
    (∀ ws : List UInt64, ws.length = n.toNat →
      let written := e.withMemory (e.memory.writeWords a.toUInt64 ws)
      let burst := written.execute (.burstLoad a n)
      let found := Architecture.upToEnd a (ws.getD · 0) fun i =>
        e.memory.peekWord (UInt64.ofNat ((a.toNat + 8 * i) % 2 ^ 32))
      burst.1 = .ok ⟨0, (Instruction.burstLoad a n).cost e.bus.latency⟩ ∧
      ∀ i : Fin scratchpadSize, i.val < n.toNat →
        let single := written.execute (.load (a + UInt32.ofNat i * 8))
        burst.2.controller.registers.scratchpad.words.get i = found i ∧
          single.1 = .ok ⟨0, e.bus.latency + 1⟩ ∧ single.2.car = found i) ∧
    (let stored := e.execute (.burstStore a n)
      let found := Architecture.upToEnd a
        (fun i => e.controller.registers.scratchpad.words.get (Architecture.slot i))
        fun i => e.memory.peekWord (a.toUInt64 + UInt64.ofNat (8 * i))
      stored.1 = .ok ⟨0, (Instruction.burstStore a n).cost e.bus.latency⟩ ∧
        stored.2.memory.readWords a.toUInt64 n.toNat = (List.range n.toNat).map found) ∧
    ((a &&& ~~~7).toNat + 8 * n.toNat ≤ 2 ^ 32 →
      (∀ p : Sweep.Parameters, p.base = a → p.seeds.length = n.toNat → p.steps.toNat ≤ e.timeout →
        ∃ report t, (Sweep.run p).run e = (.ok report, t)) ∧
      ∀ p : Capture.Parameters, p.destination = a → p.snapshots = n →
        p.interval.toNat ≤ e.timeout → ∃ report t, (Capture.run p).run e = (.ok report, t)) := by
  rw [max_le_iff] at hLimit
  obtain ⟨hLoad, hBurst⟩ := hLimit
  refine ⟨?_, h.reads_stored hIdle hn hBurst, ?_⟩
  · intro ws hLength
    exact h.loads_placed hIdle hn hLoad hBurst hLength
  · intro hFits
    constructor
    · rintro p rfl hLength hSteps
      rw [← hLength] at hn hBurst hFits
      obtain ⟨t, hRun, -⟩ := Sweep.achieves_run hn hSteps hLoad hBurst hFits e
        (h.rests hIdle ⟨rfl, rfl⟩)
      exact ⟨_, t, hRun⟩
    · rintro p rfl rfl hInterval
      obtain ⟨t, hRun, -⟩ := Capture.achieves_run hn hInterval hBurst hFits e
        (h.rests hIdle rfl)
      exact ⟨_, t, hRun⟩

/-- Two words at an address that is not aligned, after a transfer that was abandoned. -/
theorem placed_words_meet_bursts_unaligned :
    let e := (fresh .empty 1 9).actAll [.execute (.setLow 5), .issue (.load 8), .step, .reset]
    let written := e.withMemory (e.memory.writeWords 13 [7, 9])
    let burst := written.execute (.burstLoad 13 2)
    e.Reachable ∧ e.controller.isIdle = true ∧ (2 : UInt32).toNat ≤ 256 ∧
      max (e.bus.latency + 1) (max 1 ((2 : UInt32).toNat * (e.bus.latency + 2))) ≤ e.timeout ∧
      burst.2.controller.registers.scratchpad.words[1] = 9 ∧
      ∃ report t, (Sweep.run ⟨[7, 9], [30, 90], 3, 13⟩).run e = (.ok report, t) := by
  intro e written burst
  have hReachable : e.Reachable := ⟨_, _, _, _, rfl⟩
  have hIdle : e.controller.isIdle = true := rfl
  have hFits : (2 : UInt32).toNat ≤ 256 := by decide
  have hLimit : max (e.bus.latency + 1) (max 1 ((2 : UInt32).toNat * (e.bus.latency + 2))) ≤
      e.timeout := by decide
  obtain ⟨hPlaced, -, hWorkloads⟩ :=
    placed_words_meet_bursts (a := 13) hReachable hIdle hFits hLimit
  refine ⟨hReachable, hIdle, hFits, hLimit, ?_, ?_⟩
  · exact ((hPlaced [7, 9] rfl).2 ⟨1, by decide⟩ (by decide)).1
  · exact (hWorkloads (by decide)).1 ⟨[7, 9], [30, 90], 3, 13⟩ rfl rfl (by decide)

/-- A sweep that goes past the end takes the evolution of the first word of the memory for a wrong
one, if it differs from that of the seed. -/
theorem Reachable.sweep_past_end (h : e.Reachable) (hIdle : e.controller.isIdle = true)
    {p : Sweep.Parameters} {rule : UInt8} {rules : List UInt8} {k : Nat}
    (hSeeds : p.seeds.length ≤ 256) (hRules : p.rules = rule :: rules)
    (hLimit : max p.steps.toNat (e.bus.latency + 1) ≤ e.timeout) (hk : k < p.seeds.length)
    (hEnd : (p.base &&& ~~~7).toNat + 8 * k = 2 ^ 32)
    (hWrong : Automaton.ringReference rule p.steps.toNat (e.memory.peekWord 0) ≠
      Automaton.ringReference rule p.steps.toNat p.seeds[k]) :
    ((Sweep.run p).run e).1 = .error (.wrongEvolution rule p.seeds[k]
      (Automaton.ringReference rule p.steps.toNat (e.memory.peekWord 0))
      (Automaton.ringReference rule p.steps.toNat p.seeds[k])) := by
  rw [max_le_iff] at hLimit
  have hStart : e.Rests e.bus.latency e.timeout
      (Sweep.Stored e.memory.readByte e.architecture.scratchpad) := h.rests hIdle ⟨rfl, rfl⟩
  exact Sweep.fails_run hSeeds hLimit.1 hLimit.2 hRules hk hEnd hWrong e hStart

/-- A capture that goes past the end reads a word back that its burst did not reach, and takes it
for the snapshot. -/
theorem Reachable.capture_past_end (h : e.Reachable) (hIdle : e.controller.isIdle = true)
    {p : Capture.Parameters} {k : Nat} (hRoom : p.snapshots.toNat ≤ 256)
    (hLimit : max p.interval.toNat (max 1 (p.snapshots.toNat * (e.bus.latency + 2))) ≤ e.timeout)
    (hk : k < p.snapshots.toNat) (hEnd : (p.destination &&& ~~~7).toNat + 8 * k = 2 ^ 32)
    (hWrong : e.memory.peekWord 0x100000000 ≠
      Automaton.ringReference p.rule ((k + 1) * p.interval.toNat) p.initial) :
    ((Capture.run p).run e).1 = .error (.wrongSnapshot k (e.memory.peekWord 0x100000000)
      (Automaton.ringReference p.rule ((k + 1) * p.interval.toNat) p.initial)) := by
  rw [max_le_iff] at hLimit
  rw [Memory.peekWord_eq] at hWrong ⊢
  have hStart : e.Rests e.bus.latency e.timeout (·.memory = e.memory.readByte) := h.rests hIdle rfl
  exact Capture.fails_run hRoom hLimit.1 hLimit.2 hk hEnd hWrong e hStart

/-- The second of two words is the first one past the end: a burst finds another word in its place,
a sweep takes that word's evolution for a wrong one, and a capture does not find its snapshot. -/
theorem second_word_past_end :
    let e := fresh .empty 1 9
    let written := e.withMemory (e.memory.writeWords 0xFFFFFFF8 [1, 2])
    let burst := written.execute (.burstLoad 0xFFFFFFF8 2)
    e.Reachable ∧ e.controller.isIdle = true ∧ (2 : UInt32).toNat ≤ 256 ∧
      max (e.bus.latency + 1) (max 1 ((2 : UInt32).toNat * (e.bus.latency + 2))) ≤ e.timeout ∧
      burst.2.controller.registers.scratchpad.words[1] ≠ 2 ∧
      ((Sweep.run ⟨[1, 2], [30], 0, 0xFFFFFFF8⟩).run e).1 = .error (.wrongEvolution 30 2 0 2) ∧
      ((Capture.run ⟨5, 30, 2, 0, 0xFFFFFFF8⟩).run e).1 = .error (.wrongSnapshot 1 0 5) := by
  intro e written burst
  have hReachable : e.Reachable := ⟨.empty, 1, 9, [], rfl⟩
  have hIdle : e.controller.isIdle = true := rfl
  have hFits : (2 : UInt32).toNat ≤ 256 := by decide
  have hLimit : max (e.bus.latency + 1) (max 1 ((2 : UInt32).toNat * (e.bus.latency + 2))) ≤
      e.timeout := by decide
  have hBlank : ∀ b, e.memory.peekWord b = 0 := Memory.peekWord_empty
  have hNone : ∀ w, Automaton.ringReference 30 0 w = w := Automaton.ringReference_zero 30
  refine ⟨hReachable, hIdle, hFits, hLimit, ?_, ?_, ?_⟩
  · have hTwo : ([1, 2] : List UInt64).length = (2 : UInt32).toNat := rfl
    have hPlaced :=
      hReachable.loads_placed (a := 0xFFFFFFF8) hIdle hFits (by decide) (by decide) hTwo
    have hWord : burst.2.controller.registers.scratchpad.words[1] =
        e.memory.peekWord (Architecture.burstAddress 0xFFFFFFF8 1) :=
      (hPlaced.2 ⟨1, by decide⟩ (by decide)).1
    exact (hWord.trans (hBlank _)).trans_ne (by decide)
  · have hWrong : Automaton.ringReference 30 0 (e.memory.peekWord 0) ≠
        Automaton.ringReference 30 0 2 := by
      rw [hBlank, hNone, hNone]
      decide
    have hFailed : ((Sweep.run ⟨[1, 2], [30], 0, 0xFFFFFFF8⟩).run e).1 =
        .error (.wrongEvolution 30 2 (Automaton.ringReference 30 0 (e.memory.peekWord 0))
          (Automaton.ringReference 30 0 2)) :=
      hReachable.sweep_past_end (k := 1) hIdle (by decide) rfl (by decide) (by decide) (by decide)
        hWrong
    rwa [hBlank, hNone, hNone] at hFailed
  · have hWrong : e.memory.peekWord 0x100000000 ≠ Automaton.ringReference 30 ((1 + 1) * 0) 5 := by
      rw [hBlank, hNone]
      decide
    have hFailed : ((Capture.run ⟨5, 30, 2, 0, 0xFFFFFFF8⟩).run e).1 =
        .error (.wrongSnapshot 1 (e.memory.peekWord 0x100000000)
          (Automaton.ringReference 30 ((1 + 1) * 0) 5)) :=
      hReachable.capture_past_end (k := 1) hIdle (by decide) (by decide) (by decide) (by decide)
        hWrong
    rwa [hBlank, hNone] at hFailed

end Engine

end CellularCoprocessor
