import CellularCoprocessor.Proofs.Machine.Sessions
import CellularCoprocessor.Workload.Capture

/-!
# What a capture achieves

The snapshots that a capture leaves in memory are the configurations on the boards after one
interval, two intervals and so on. A later evolution does not touch the scratchpad words that are
taken already.
-/

namespace CellularCoprocessor.Capture

open Session (Achieves Fails)

variable {latency limit : Nat} {p : Parameters} {bytes : UInt64 → UInt8} {k n : Nat}

/-- The configuration after `k` intervals. -/
def Parameters.state (p : Parameters) (k : Nat) : UInt64 :=
  Automaton.ringReference p.rule (k * p.interval.toNat) p.initial

/-- The first `k` scratchpad words hold the first `k` snapshots. -/
structure Taken (p : Parameters) (bytes : UInt64 → UInt8) (car : UInt64) (k : Nat)
    (s : Architecture) : Prop where
  memory : s.memory = bytes
  car : s.car = car
  words : ∀ i < k, s.scratchpad (Architecture.slot i) = p.state (i + 1)

theorem Taken.perform_step {s : Architecture} (h : Taken p bytes (p.state k) n s) :
    ∃ t, s.perform (.step p.rule p.interval) = (0, t) ∧ Taken p bytes (p.state (k + 1)) n t := by
  obtain ⟨t, hPerform, hMemory, hScratchpad, hCar⟩ := s.exists_perform_step p.rule p.interval
  refine ⟨t, hPerform, hMemory.trans h.memory, ?_, hScratchpad ▸ h.words⟩
  rw [hCar, h.car, Parameters.state, Parameters.state, Nat.succ_mul, Automaton.ringReference_add]

theorem Taken.perform_carToScratch (hk : k < scratchpadSize) {s : Architecture}
    (h : Taken p bytes (p.state (k + 1)) k s) :
    ∃ t, s.perform (.carToScratch (UInt32.ofNat k)) = (0, t) ∧
      Taken p bytes (p.state (k + 1)) (k + 1) t := by
  refine ⟨_, s.perform_carToScratch _, h.memory, h.car, ?_⟩
  intro i hi
  rw [Architecture.toNat_ofNat_of_le hk.le]
  change Function.update s.scratchpad (Architecture.slot k) s.car (Architecture.slot i) = _
  by_cases hLast : i = k
  · rw [hLast, Function.update_self, h.car]
  · have hEarlier : i < k := by omega
    have hApart : Architecture.slot i ≠ Architecture.slot k := by
      intro hSame
      have hPlaces : i % scratchpadSize = k % scratchpadSize := congrArg Fin.val hSame
      rw [Nat.mod_eq_of_lt (hEarlier.trans hk), Nat.mod_eq_of_lt hk] at hPlaces
      exact hLast hPlaces
    rw [Function.update_of_ne hApart]
    exact h.words i hEarlier

theorem achieves_capture (hInterval : p.interval.toNat ≤ limit) (hRoom : k + n ≤ scratchpadSize) :
    Achieves latency limit (Taken p bytes (p.state k) k) (capture p (UInt32.ofNat k) n)
      (n * (p.interval.toNat + 2)) (Taken p bytes (p.state (k + n)) (k + n)) := by
  induction n generalizing k with
  | zero =>
    rw [Nat.zero_mul]
    exact Session.achieves_pure 0
  | succ n ih =>
    have hStep := Instruction.cost_step p.rule p.interval latency
    have hCopy := Instruction.cost_carToScratch (UInt32.ofNat k) latency
    have hEvolved := Session.achieves_execute Failure.engine (hStep.trans_le hInterval)
      fun s (h : Taken p bytes (p.state k) k s) => h.perform_step
    have hCopied := Session.achieves_execute Failure.engine (hCopy.trans_le (Nat.zero_le limit))
      fun s (h : Taken p bytes (p.state (k + 1)) k s) => h.perform_carToScratch (by omega)
    have hNext : UInt32.ofNat k + 1 = UInt32.ofNat (k + 1) := (UInt32.ofNat_add k 1).symm
    have hRest := ih (k := k + 1) (by omega)
    rw [← hNext, Nat.add_right_comm] at hRest
    have hTotal : Completion.cost ⟨0, (Instruction.step p.rule p.interval).cost latency⟩ +
        Completion.cost ⟨0, (Instruction.carToScratch (UInt32.ofNat k)).cost latency⟩ +
          n * (p.interval.toNat + 2) = (n + 1) * (p.interval.toNat + 2) := by
      rw [hStep, hCopy, Nat.succ_mul]
      change p.interval.toNat + 1 + (0 + 1) + n * (p.interval.toNat + 2) = _
      omega
    rw [← hTotal]
    exact hEvolved.bind (hCopied.bind (hRest.bind (Session.achieves_pure _)))

section Check

variable {P : Architecture → Prop} {index : Nat} {s : UInt64}

/-- One interval after another is the same as all of them at once. -/
theorem ringReference_interval (p : Parameters) (i : Nat) (s : UInt64) :
    Automaton.ringReference p.rule ((i + 1 + 1) * p.interval.toNat) s =
      Automaton.ringReference p.rule ((i + 1) * p.interval.toNat)
        (Automaton.ringReference p.rule p.interval.toNat s) := by
  rw [← Automaton.ringReference_add, Nat.succ_mul (i + 1), Nat.add_comm]

/-- Snapshots of the boards pass the comparison. -/
theorem achieves_check :
    Achieves latency limit P
      (check p index s ((List.range n).map fun i =>
        Automaton.ringReference p.rule ((i + 1) * p.interval.toNat) s)) () P := by
  induction n generalizing index s with
  | zero => exact Session.achieves_pure ()
  | succ n ih =>
    rw [List.range_succ_eq_map, List.map_cons, List.map_map]
    simp only [Function.comp_def, Nat.succ_eq_add_one, ringReference_interval, Nat.zero_add,
      Nat.one_mul]
    exact (Session.achieves_require (beq_self_eq_true _) _).bind ih

/-- The snapshots before `k` pass the comparison, and the one at `k` does not. -/
theorem fails_check {found : List UInt64} {k : Nat} (hk : k < found.length)
    (hRight : ∀ (i : Nat) (hi : i < k),
      found[i] = Automaton.ringReference p.rule ((i + 1) * p.interval.toNat) s)
    (hWrong : found[k] ≠ Automaton.ringReference p.rule ((k + 1) * p.interval.toNat) s) :
    Fails latency limit P (check p index s found)
      (.wrongSnapshot (index + k) found[k]
        (Automaton.ringReference p.rule ((k + 1) * p.interval.toNat) s)) := by
  induction found generalizing index s k with
  | nil => exact absurd hk (Nat.not_lt_zero k)
  | cons first rest ih =>
    cases k with
    | zero =>
      rw [List.getElem_cons_zero, Nat.zero_add, Nat.one_mul] at hWrong ⊢
      exact (Session.fails_require (beq_eq_false_iff_ne.mpr hWrong) _).bind _
    | succ k =>
      have hRoom : k < rest.length := Nat.lt_of_succ_lt_succ hk
      have hFirst := hRight 0 (Nat.succ_pos k)
      rw [List.getElem_cons_zero, Nat.zero_add, Nat.one_mul] at hFirst
      have hRest : ∀ (i : Nat) (hi : i < k), rest[i] =
          Automaton.ringReference p.rule ((i + 1) * p.interval.toNat)
            (Automaton.ringReference p.rule p.interval.toNat s) := by
        intro i hi
        rw [← ringReference_interval]
        exact hRight (i + 1) (Nat.succ_lt_succ hi)
      rw [List.getElem_cons_succ, ringReference_interval] at hWrong ⊢
      rw [← Nat.add_assoc, Nat.add_right_comm]
      exact (Session.achieves_require (beq_iff_eq.mpr hFirst) _).bind_fails (ih hRoom hRest hWrong)

end Check

/-- The bytes after the snapshots were stored. -/
def stored (p : Parameters) (bytes : UInt64 → UInt8) : UInt64 → UInt8 :=
  Architecture.storeWords p.destination (fun i => p.state (i + 1)) p.snapshots.toNat bytes

theorem Taken.perform_burstStore (hRoom : p.snapshots.toNat ≤ scratchpadSize) {s : Architecture}
    (h : Taken p bytes (p.state k) p.snapshots.toNat s) :
    ∃ t, s.perform (.burstStore p.destination p.snapshots) = (0, t) ∧
      t.memory = stored p bytes := by
  refine ⟨_, s.perform_burstStore p.destination hRoom, ?_⟩
  change Architecture.storeWords _ _ _ s.memory = _
  rw [h.memory]
  exact Architecture.storeWords_congr h.words

theorem wordIn_stored (hRoom : p.snapshots.toNat ≤ scratchpadSize) {i : Nat}
    (hi : i < p.snapshots.toNat) :
    Memory.wordIn (stored p bytes) (Architecture.burstAddress p.destination i) =
      p.state (i + 1) := by
  rw [scratchpadSize] at hRoom
  exact Architecture.wordIn_storeWords (by omega) hi

theorem stored_of_outside
    (hFits : (p.destination &&& ~~~7).toNat + 8 * p.snapshots.toNat ≤ 2 ^ 32) {b : UInt64}
    (hOutside : b.toNat < (p.destination &&& ~~~7).toNat ∨
      (p.destination &&& ~~~7).toNat + 8 * p.snapshots.toNat ≤ b.toNat) :
    stored p bytes b = bytes b := by
  apply Architecture.storeWords_of_ne
  intro i hi
  rw [Memory.toNat_and_not_seven] at hFits hOutside
  rw [Architecture.burstAddress_div]
  omega

/-- The snapshots as they are to be. -/
def Parameters.trajectory (p : Parameters) : List UInt64 :=
  (List.range p.snapshots.toNat).map fun i => p.state (i + 1)

/-- The words that are found where the snapshots are to be. -/
def found (p : Parameters) (bytes : UInt64 → UInt8) : List UInt64 :=
  (List.range p.snapshots.toNat).map (Architecture.upToEnd p.destination (fun i => p.state (i + 1))
    fun i => Memory.wordIn bytes (p.destination.toUInt64 + UInt64.ofNat (8 * i)))

theorem found_of_fits (hFits : (p.destination &&& ~~~7).toNat + 8 * p.snapshots.toNat ≤ 2 ^ 32) :
    found p bytes = p.trajectory := by
  apply List.map_congr_left
  intro i hi
  exact Architecture.upToEnd_of_fits hFits (List.mem_range.mp hi) _ _

theorem achieves_setCar :
    Achieves latency limit (·.memory = bytes)
      (Session.ofEngine Failure.engine (·.setCar p.initial) : Run Unit) ()
      (Taken p bytes (p.state 0) 0) := by
  apply Session.achieves_setCar
  intro s hMemory
  refine ⟨hMemory, ?_, fun i hi => absurd hi (Nat.not_lt_zero i)⟩
  rw [Parameters.state, Nat.zero_mul, Automaton.ringReference_zero]

/-- The end of a capture. -/
def readBack (p : Parameters) (captured store : Nat) : Run Report := do
  let e ← Session.engine
  let snapshots := e.memory.readWords p.destination.toUInt64 p.snapshots.toNat
  check p 0 p.initial snapshots
  return ⟨captured, store, snapshots⟩

section Run

variable (hRoom : p.snapshots.toNat ≤ scratchpadSize)

include hRoom

theorem achieves_readBack
    (hFits : (p.destination &&& ~~~7).toNat + 8 * p.snapshots.toNat ≤ 2 ^ 32)
    (captured store : Nat) :
    Achieves latency limit (·.memory = stored p bytes) (readBack p captured store)
      ⟨captured, store, p.trajectory⟩ (·.memory = stored p bytes) := by
  apply Session.achieves_engine
  intro e hRests
  have hRead : e.memory.readWords p.destination.toUInt64 p.snapshots.toNat = p.trajectory :=
    (Architecture.readWords_storeWords hRests.holds hRoom).trans (found_of_fits hFits)
  have hChecked : Achieves latency limit (·.memory = stored p bytes)
      (do check p 0 p.initial p.trajectory; return ⟨captured, store, p.trajectory⟩ : Run Report)
      ⟨captured, store, p.trajectory⟩ (·.memory = stored p bytes) :=
    achieves_check.bind (Session.achieves_pure _)
  simp only [hRead]
  exact hChecked e hRests

/-- The word at `k` is the first one past the end. -/
theorem fails_readBack {k : Nat} (hk : k < p.snapshots.toNat)
    (hEnd : (p.destination &&& ~~~7).toNat + 8 * k = 2 ^ 32)
    (hWrong : Memory.wordIn bytes 0x100000000 ≠ p.state (k + 1)) (captured store : Nat) :
    Fails latency limit (·.memory = stored p bytes) (readBack p captured store)
      (.wrongSnapshot k (Memory.wordIn bytes 0x100000000) (p.state (k + 1))) := by
  have hLength : k < (found p bytes).length := by
    rw [found, List.length_map, List.length_range]
    exact hk
  have hInside : ∀ (i : Nat) (hi : i < k), (found p bytes)[i] =
      Automaton.ringReference p.rule ((i + 1) * p.interval.toNat) p.initial := by
    intro i hi
    simp only [found, List.getElem_map, List.getElem_range]
    exact Architecture.upToEnd_of_fits (Nat.le_of_eq hEnd) hi _ _
  have hPast : (found p bytes)[k] = Memory.wordIn bytes 0x100000000 := by
    simp only [found, List.getElem_map, List.getElem_range]
    rw [Architecture.upToEnd_of_end hEnd]
    apply Memory.wordIn_of_div_eq
    rw [Memory.toNat_and_not_seven] at hEnd
    rw [UInt64.toNat_add, UInt64.toNat_ofNat', UInt32.toNat_toUInt64]
    simp only [UInt64.reduceToNat]
    omega
  have hChecked : Fails latency limit (·.memory = stored p bytes)
      (check p 0 p.initial (found p bytes)) _ :=
    fails_check hLength hInside (hPast ▸ hWrong)
  rw [Nat.zero_add, hPast] at hChecked
  apply Session.fails_engine
  intro e hRests
  have hRead : e.memory.readWords p.destination.toUInt64 p.snapshots.toNat = found p bytes :=
    Architecture.readWords_storeWords hRests.holds hRoom
  simp only [hRead]
  exact hChecked.bind _ e hRests

section Stages

variable (hInterval : p.interval.toNat ≤ limit)
  (hBurst : max 1 (p.snapshots.toNat * (latency + 2)) ≤ limit)

include hInterval in
theorem achieves_captureAll :
    Achieves latency limit (Taken p bytes (p.state 0) 0) (capture p 0 p.snapshots.toNat)
      (p.snapshots.toNat * (p.interval.toNat + 2))
      (Taken p bytes (p.state p.snapshots.toNat) p.snapshots.toNat) := by
  have hFromStart : Achieves latency limit (Taken p bytes (p.state 0) 0)
      (capture p (UInt32.ofNat 0) p.snapshots.toNat) _ _ :=
    achieves_capture hInterval ((Nat.zero_add _).trans_le hRoom)
  rwa [Nat.zero_add] at hFromStart

include hBurst in
theorem achieves_burstStore :
    Achieves latency limit (Taken p bytes (p.state p.snapshots.toNat) p.snapshots.toNat)
      (execute (.burstStore p.destination p.snapshots))
      ⟨0, (Instruction.burstStore p.destination p.snapshots).cost latency⟩
      (·.memory = stored p bytes) :=
  have hIsBurst := Instruction.operation_burstStore p.destination p.snapshots
  Session.achieves_execute Failure.engine (Instruction.cost_burst_le (.inr hIsBurst) hBurst)
    fun _ h => h.perform_burstStore hRoom

include hInterval hBurst

theorem achieves_run
    (hFits : (p.destination &&& ~~~7).toNat + 8 * p.snapshots.toNat ≤ 2 ^ 32) :
    Achieves latency limit (·.memory = bytes) (run p)
      ⟨p.snapshots.toNat * (p.interval.toNat + 2),
        Instruction.burstCycles latency p.snapshots.toNat, p.trajectory⟩
      (·.memory = stored p bytes) := by
  have hIsBurst := Instruction.operation_burstStore p.destination p.snapshots
  have hCost := Instruction.cost_burst (n := p.snapshots.toNat) (.inr hIsBurst) rfl hRoom 0 latency
  rw [← hCost]
  exact (Session.achieves_require (decide_eq_true hRoom) _).bind
    (achieves_setCar.bind ((achieves_captureAll hRoom hInterval).bind
      ((achieves_burstStore hRoom hBurst).bind
        ((Session.achieves_require rfl _).bind (achieves_readBack hRoom hFits _ _)))))

/-- A capture that goes past the end finds the word after the 32-bit space, which no burst reaches,
in place of the snapshot `k`. -/
theorem fails_run {k : Nat} (hk : k < p.snapshots.toNat)
    (hEnd : (p.destination &&& ~~~7).toNat + 8 * k = 2 ^ 32)
    (hWrong : Memory.wordIn bytes 0x100000000 ≠ p.state (k + 1)) :
    Fails latency limit (·.memory = bytes) (run p)
      (.wrongSnapshot k (Memory.wordIn bytes 0x100000000) (p.state (k + 1))) :=
  (Session.achieves_require (decide_eq_true hRoom) _).bind_fails
    (achieves_setCar.bind_fails ((achieves_captureAll hRoom hInterval).bind_fails
      ((achieves_burstStore hRoom hBurst).bind_fails
        ((Session.achieves_require rfl _).bind_fails (fails_readBack hRoom hk hEnd hWrong _ _)))))

end Stages

/-- The stored snapshots lie one after another from the word of the destination on. -/
theorem wordIn_stored_of_index
    (hFits : (p.destination &&& ~~~7).toNat + 8 * p.snapshots.toNat ≤ 2 ^ 32) {i : Nat}
    (hi : i < p.snapshots.toNat) :
    Memory.wordIn (stored p bytes)
      (UInt64.ofNat ((p.destination &&& ~~~7).toNat + 8 * i)) = p.state (i + 1) := by
  refine (Memory.wordIn_of_div_eq ?_).trans (wordIn_stored hRoom hi)
  rw [Memory.toNat_and_not_seven] at hFits ⊢
  rw [Architecture.burstAddress_div, UInt64.toNat_ofNat']
  omega

end Run

/-- With enough cycles, and a destination that leaves room within the 32-bit space, a capture
succeeds. Its snapshots are those of the boards, they lie in memory from the word of the destination
on, and no other byte changes. Snapshots that do not fit in the scratchpad are refused before
anything is done. -/
theorem run_captures (p : Parameters) :
    (∀ e : Engine, e.Reachable → e.controller.isIdle = true → p.snapshots.toNat ≤ 256 →
      max p.interval.toNat (max 1 (p.snapshots.toNat * (e.bus.latency + 2))) ≤ e.timeout →
      (p.destination &&& ~~~7).toNat + 8 * p.snapshots.toNat ≤ 2 ^ 32 →
      let n := p.snapshots.toNat
      let start := (p.destination &&& ~~~7).toNat
      let snapshot := fun i => Automaton.ringReference p.rule ((i + 1) * p.interval.toNat) p.initial
      ∃ (report : Report) (t : Engine), (run p).run e = (.ok report, t) ∧
        report.capture = n * (p.interval.toNat + 2) ∧
        report.store = (if n = 0 then 2 else 1 + n * (e.bus.latency + 2)) ∧
        report.snapshots = (List.range n).map snapshot ∧
        (∀ i < n, t.memory.peekWord (UInt64.ofNat (start + 8 * i)) = snapshot i) ∧
        ∀ b : UInt64, b.toNat < start ∨ start + 8 * n ≤ b.toNat →
          t.memory.readByte b = e.memory.readByte b) ∧
    (256 < p.snapshots.toNat →
      ∀ e : Engine, (run p).run e = (.error (.tooManySnapshots p.snapshots.toNat), e)) := by
  constructor
  · intro e hReachable hIdle hRoom hLimit hFits n start snapshot
    rw [max_le_iff] at hLimit
    obtain ⟨hInterval, hBurst⟩ := hLimit
    have hStart : e.Rests e.bus.latency e.timeout (·.memory = e.memory.readByte) :=
      hReachable.rests hIdle rfl
    obtain ⟨t, hRun, hEnd⟩ := achieves_run hRoom hInterval hBurst hFits e hStart
    have hBytes : t.memory.readByte = stored p e.memory.readByte := hEnd.holds
    refine ⟨_, t, hRun, rfl, rfl, rfl, ?_, ?_⟩
    · intro i hi
      rw [Memory.peekWord_eq, hBytes]
      exact wordIn_stored_of_index hRoom hFits hi
    · intro b hOutside
      rw [hBytes]
      exact stored_of_outside hFits hOutside
  · intro hMany e
    exact Session.run_require_bind (decide_eq_false (Nat.not_le.mpr hMany)) _ _ e

/-- Two snapshots in the last words of the 32-bit space, from a destination that is not aligned. -/
theorem run_captures_at_the_end :
    let e := (Engine.fresh .empty 1 9).actAll
      [.execute (.setLow 5), .issue (.load 8), .step, .reset]
    let p : Parameters := ⟨1, 30, 2, 3, 0xFFFFFFF5⟩
    let many : Parameters := ⟨1, 30, 257, 3, 0⟩
    e.Reachable ∧ e.controller.isIdle = true ∧ p.snapshots.toNat ≤ 256 ∧
      max p.interval.toNat (max 1 (p.snapshots.toNat * (e.bus.latency + 2))) ≤ e.timeout ∧
      (p.destination &&& ~~~7).toNat + 8 * p.snapshots.toNat ≤ 2 ^ 32 ∧
      256 < many.snapshots.toNat ∧
      (∃ (report : Report) (t : Engine), (run p).run e = (.ok report, t) ∧ report.capture = 10 ∧
        report.store = 7 ∧
        t.memory.peekWord 0xFFFFFFF8 = Automaton.ringReference 30 6 1) ∧
      (run many).run e = (.error (.tooManySnapshots 257), e) := by
  intro e p many
  have hReachable : e.Reachable := ⟨_, _, _, _, rfl⟩
  have hIdle : e.controller.isIdle = true := rfl
  have hRoom : p.snapshots.toNat ≤ 256 := by decide
  have hLimit : max p.interval.toNat (max 1 (p.snapshots.toNat * (e.bus.latency + 2))) ≤
      e.timeout := by decide
  have hFits : (p.destination &&& ~~~7).toNat + 8 * p.snapshots.toNat ≤ 2 ^ 32 := by decide
  have hMany : 256 < many.snapshots.toNat := by decide
  have hLast : UInt64.ofNat ((p.destination &&& ~~~7).toNat + 8 * 1) = 0xFFFFFFF8 := by decide
  obtain ⟨report, t, hRun, hCapture, hStore, -, hWords, -⟩ :=
    (run_captures p).1 e hReachable hIdle hRoom hLimit hFits
  refine ⟨hReachable, hIdle, hRoom, hLimit, hFits, hMany,
    ⟨report, t, hRun, hCapture, hStore, ?_⟩, ?_⟩
  · exact hLast ▸ hWords 1 (by decide)
  · exact (run_captures many).2 hMany e

end CellularCoprocessor.Capture
