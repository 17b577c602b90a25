import CellularCoprocessor.Proofs.Engine.Suspension
import CellularCoprocessor.Proofs.Machine.Sessions
import CellularCoprocessor.Workload.Bandwidth

/-!
# What a bandwidth measurement achieves

The samples of a measurement follow from the sizes and the latency alone. The memory is cleared
before each size, so in the end it holds the pattern of the last one, at both places, and nothing
else. A burst moves words between the memory and the scratchpad, and the configuration and its
history take no part in it.
-/

namespace CellularCoprocessor

section Cells

/-- A controller that is idle or in a burst, with the configuration and the history of `c`. -/
structure Controller.Spares (c d : Controller) : Prop where
  phase : d.phase = .idle ∨ d.phase = .bursting
  car : d.registers.car = c.registers.car
  history : d.registers.history = c.registers.history

variable {c d : Controller}

theorem Controller.Spares.advance (h : c.Spares d) (r : Response) : c.Spares (d.advance r).2 := by
  obtain ⟨hIdle | hBursting, hCar, hHistory⟩ := h
  · rw [advance_idle r hIdle]
    exact ⟨.inl hIdle, hCar, hHistory⟩
  · rw [advance_bursting r hBursting]
    simp only [advanceBurst]
    split
    · exact ⟨.inr hBursting, hCar, hHistory⟩
    · exact ⟨.inr hBursting, hCar, hHistory⟩
    · split
      · exact ⟨.inl rfl, hCar, hHistory⟩
      · exact ⟨.inr hBursting, hCar, hHistory⟩
    · exact ⟨.inl rfl, hCar, hHistory⟩

theorem Controller.Spares.beginBurst (h : c.Spares d) (direction : Direction)
    (base length : UInt32) : c.Spares (d.beginBurst direction base length).2 := by
  rw [Controller.beginBurst]
  split
  · exact ⟨.inr rfl, h.car, h.history⟩
  · exact ⟨.inl rfl, h.car, h.history⟩

theorem Controller.spares_begin (hIdle : c.phase = .idle) {i : Instruction}
    (hBurst : i.operation = .burstLoad ∨ i.operation = .burstStore) : c.Spares (c.begin i).2 := by
  have hAccepted : ∀ o, c.Spares { c.lowerReady with operation := some o } :=
    fun _ => ⟨.inl hIdle, rfl, rfl⟩
  rw [Controller.begin]
  rcases hBurst with hLoad | hStore
  · rw [hLoad]
    exact (hAccepted .burstLoad).beginBurst .load i.rs1 i.rs2
  · rw [hStore]
    exact (hAccepted .burstStore).beginBurst .store i.rs1 i.rs2

/-- The configuration and its history. -/
def Engine.cells (e : Engine) : UInt64 × History :=
  (e.controller.registers.car, e.controller.registers.history)

theorem Engine.spares_await {e : Engine} (h : c.Spares e.controller) (spent budget : Nat) :
    c.Spares (await spent budget e).2.controller := by
  induction budget generalizing spent e with
  | zero => exact h
  | succ budget ih =>
    have hStep : c.Spares e.step.2.controller := by
      rw [controller_step]
      exact h.advance _
    rw [await_succ]
    split
    · exact hStep
    · exact ih hStep (spent + 1)

/-- This holds whether the burst is refused, rejected, completed or cut short. -/
theorem Engine.cells_execute_burst (e : Engine) {i : Instruction}
    (hBurst : i.operation = .burstLoad ∨ i.operation = .burstStore) :
    (e.execute i).2.cells = e.cells := by
  by_cases hIdle : e.controller.phase = .idle
  · have hBegun : e.controller.Spares (e.dispatched i).controller := by
      rw [controller_dispatched]
      exact Controller.spares_begin hIdle hBurst
    have hDone : e.controller.Spares (e.execute i).2.controller := by
      simp only [execute, issue_of_idle hIdle]
      split
      · exact hBegun
      · exact spares_await hBegun _ _
    exact Prod.ext hDone.car hDone.history
  · rw [execute_of_busy hIdle]

end Cells

namespace Session

variable {ε α β γ : Type} {view : Engine → γ}

/-- Whatever the outcome of the session, the engine looks as before. -/
def Preserves (view : Engine → γ) (x : Session ε α) : Prop :=
  ∀ e, view (x.run e).2 = view e

theorem preserves_pure (a : α) : Preserves view (pure a : Session ε α) :=
  fun _ => rfl

theorem Preserves.bind {x : Session ε α} {f : α → Session ε β} (h : Preserves view x)
    (hRest : ∀ a, Preserves view (f a)) : Preserves view (x >>= f) := by
  intro e
  have hFirst := h e
  rcases hRun : x.run e with ⟨a | a, t⟩
  · rw [hRun] at hFirst
    rw [run_bind_error hRun]
    exact hFirst
  · rw [hRun] at hFirst
    rw [run_bind_ok hRun]
    exact (hRest a t).trans hFirst

theorem preserves_require (holds : Bool) (failure : ε) : Preserves view (require holds failure) := by
  intro e
  cases holds <;> rfl

theorem preserves_engine : Preserves view (engine : Session ε Engine) :=
  fun _ => rfl

end Session

namespace Bandwidth

open Session (Achieves Preserves)

variable {latency limit : Nat} {n : UInt32}

/-- The word `i` of the pattern. -/
def word (i : Nat) : UInt64 :=
  0xAA55AA5500000000 + UInt64.ofNat i

/-- The bytes after a pattern was written at its source. -/
def seeded (n : UInt32) : UInt64 → UInt8 :=
  (Memory.empty.writeWords source.toUInt64 (pattern n.toNat)).readByte

/-- The bytes after a pattern was copied to its destination. -/
def image (n : UInt32) : UInt64 → UInt8 :=
  Architecture.storeWords destination word n.toNat (seeded n)

/-- The bytes after sizes were measured, if there were some before the first one. -/
def left (bytes : UInt64 → UInt8) (sizes : List UInt32) : UInt64 → UInt8 :=
  sizes.getLast?.elim bytes image

theorem left_cons (bytes : UInt64 → UInt8) (n : UInt32) (sizes : List UInt32) :
    left bytes (n :: sizes) = left (image n) sizes := by
  rw [left, left, List.getLast?_cons]
  cases sizes.getLast? <;> rfl

/-- What is measured of a size. -/
def sample (latency : Nat) (n : UInt32) : Sample :=
  ⟨n, Instruction.burstCycles latency n.toNat, Instruction.burstCycles latency n.toNat⟩

theorem length_pattern (n : Nat) : (pattern n).length = n := by
  rw [pattern, List.length_map, List.length_range]

/-- Nothing is reported exactly when the words agree wherever both lists have one. -/
theorem mismatch_eq_none_iff (n : UInt32) (index : Nat) (stored expected : List UInt64) :
    mismatch n index stored expected = none ↔
      ∀ (i : Nat) (hs : i < stored.length) (he : i < expected.length), stored[i] = expected[i] := by
  fun_induction mismatch n index stored expected with
  | case1 index w stored expected ih =>
    rw [ih]
    constructor
    · intro hRest i hs he
      cases i with
      | zero => rfl
      | succ i => exact hRest i (Nat.lt_of_succ_lt_succ hs) (Nat.lt_of_succ_lt_succ he)
    · intro hAll i hs he
      exact hAll (i + 1) (Nat.succ_lt_succ hs) (Nat.succ_lt_succ he)
  | case2 index s stored w expected hDiffers =>
    constructor
    · intro hNone
      cases hNone
    · intro hAll
      exact absurd (hAll 0 (Nat.succ_pos _) (Nat.succ_pos _)) hDiffers
  | case3 index stored expected hEnd =>
    refine ⟨fun _ i hs he => ?_, fun _ => rfl⟩
    obtain ⟨s, stored, rfl⟩ := List.exists_cons_of_length_pos (Nat.zero_lt_of_lt hs)
    obtain ⟨w, expected, rfl⟩ := List.exists_cons_of_length_pos (Nat.zero_lt_of_lt he)
    exact absurd rfl (hEnd s stored w expected rfl)

theorem mismatch_self (n : UInt32) (index : Nat) (ws : List UInt64) :
    mismatch n index ws ws = none :=
  (mismatch_eq_none_iff n index ws ws).mpr fun _ _ _ => rfl

section Measure

variable (hRoom : n.toNat ≤ scratchpadSize)

include hRoom

theorem wordIn_seeded {i : Nat} (hi : i < n.toNat) :
    Memory.wordIn (seeded n) (Architecture.burstAddress source i) = word i := by
  have hLength := length_pattern n.toNat
  have hFits : (source &&& ~~~7).toNat + 8 * n.toNat ≤ 2 ^ 32 := by
    change 0x8000 + 8 * n.toNat ≤ 2 ^ 32
    rw [scratchpadSize] at hRoom
    omega
  rw [seeded, Architecture.wordIn_writeWords (hLength.trans_le hRoom) (hLength.symm ▸ hi),
    Architecture.upToEnd_of_fits hFits hi, List.getD_eq_getElem _ _ (hLength.symm ▸ hi)]
  simp only [pattern, List.getElem_map, List.getElem_range, word]

/-- The pattern is in memory and in the scratchpad. -/
structure Loaded (n : UInt32) (s : Architecture) : Prop where
  memory : s.memory = seeded n
  words : ∀ i < n.toNat, s.scratchpad (Architecture.slot i) = word i

theorem perform_burstLoad {s : Architecture} (h : s.memory = seeded n) :
    ∃ t, s.perform (.burstLoad source n) = (0, t) ∧ Loaded n t := by
  refine ⟨_, s.perform_burstLoad source hRoom, h, ?_⟩
  intro i hi
  have hSlot : (Architecture.slot i).val = i := Nat.mod_eq_of_lt (hi.trans_le hRoom)
  simp only [hSlot, if_pos hi]
  rw [h, wordIn_seeded hRoom hi]

theorem Loaded.perform_burstStore {s : Architecture} (h : Loaded n s) :
    ∃ t, s.perform (.burstStore destination n) = (0, t) ∧ t.memory = image n := by
  refine ⟨_, s.perform_burstStore destination hRoom, ?_⟩
  change Architecture.storeWords _ _ _ s.memory = _
  rw [h.memory]
  exact Architecture.storeWords_congr h.words

theorem readWords_image {m : Memory} (h : m.readByte = image n) :
    m.readWords destination.toUInt64 n.toNat = pattern n.toNat := by
  have hFits : (destination &&& ~~~7).toNat + 8 * n.toNat ≤ 2 ^ 32 := by
    change 0x9000 + 8 * n.toNat ≤ 2 ^ 32
    rw [scratchpadSize] at hRoom
    omega
  rw [Architecture.readWords_storeWords h hRoom]
  apply List.map_congr_left
  intro i hi
  exact Architecture.upToEnd_of_fits hFits (List.mem_range.mp hi) _ _

/-- One size is measured as it is whatever was there before. -/
theorem achieves_measure (hLimit : max 1 (n.toNat * (latency + 2)) ≤ limit) :
    Achieves latency limit (fun _ => True) (measure n) (sample latency n) (·.memory = image n) := by
  have hLoad := Instruction.operation_burstLoad source n
  have hStore := Instruction.operation_burstStore destination n
  have hWritten : Achieves latency limit (fun _ => True)
      (Session.updateMemory fun _ =>
        Memory.empty.writeWords source.toUInt64 (pattern n.toNat) : Run Unit) ()
      (·.memory = seeded n) :=
    Session.achieves_updateMemory fun _ _ _ _ => rfl
  have hLoaded : Achieves latency limit (·.memory = seeded n) (execute (.burstLoad source n)) _
      (Loaded n) :=
    Session.achieves_execute Failure.engine (Instruction.cost_burst_le (.inl hLoad) hLimit)
      fun s h => perform_burstLoad hRoom h
  have hStored : Achieves latency limit (Loaded n) (execute (.burstStore destination n)) _
      (·.memory = image n) :=
    Session.achieves_execute Failure.engine (Instruction.cost_burst_le (.inr hStore) hLimit)
      fun s h => h.perform_burstStore hRoom
  have hLoadCost := Instruction.cost_burst (n := n.toNat) (.inl hLoad) rfl hRoom 0 latency
  have hStoreCost := Instruction.cost_burst (n := n.toNat) (.inr hStore) rfl hRoom 0 latency
  refine (Session.achieves_require (decide_eq_true hRoom) _).bind (hWritten.bind (hLoaded.bind
    ((Session.achieves_require rfl _).bind (hStored.bind
      ((Session.achieves_require rfl _).bind (Session.achieves_engine ?_))))))
  intro e hRests
  have hRead : e.memory.readWords destination.toUInt64 n.toNat = pattern n.toNat :=
    readWords_image hRoom hRests.holds
  simp only [hRead, mismatch_self, hLoadCost, hStoreCost]
  exact Session.achieves_pure (sample latency n) e hRests

end Measure

section Sizes

variable {sizes : List UInt32}

theorem achieves_measureAll (hLimit : max 1 (256 * (latency + 2)) ≤ limit)
    (hRoom : ∀ n ∈ sizes, n.toNat ≤ scratchpadSize) (bytes : UInt64 → UInt8) :
    Achieves latency limit (·.memory = bytes) (measureAll sizes) (sizes.map (sample latency))
      (·.memory = left bytes sizes) := by
  induction sizes generalizing bytes with
  | nil => exact Session.achieves_pure []
  | cons n sizes ih =>
    obtain ⟨hFirst, hRest⟩ := List.forall_mem_cons.mp hRoom
    have hEnough : max 1 (n.toNat * (latency + 2)) ≤ limit :=
      (max_le_max_left 1 (Nat.mul_le_mul_right (latency + 2) hFirst)).trans hLimit
    have hMeasured : Achieves latency limit (·.memory = bytes) (measure n) (sample latency n)
        (·.memory = image n) :=
      (achieves_measure hFirst hEnough).weaken (fun _ _ => trivial) fun _ h => h
    rw [left_cons]
    exact hMeasured.bind ((ih hRest (image n)).bind (Session.achieves_pure _))

theorem run_measure_of_lt (hLong : scratchpadSize < n.toNat) (e : Engine) :
    (measure n).run e = (.error (.tooLong n), e) :=
  Session.run_require_bind (decide_eq_false (Nat.not_le.mpr hLong)) _ _ e

/-- The measurement ends with the first size that is too long, and what was measured before it
keeps its effect. -/
theorem run_measureAll_append (hLong : scratchpadSize < n.toNat) {e t : Engine}
    {samples : List Sample} (hRun : (measureAll sizes).run e = (.ok samples, t))
    (rest : List UInt32) :
    (measureAll (sizes ++ n :: rest)).run e = (.error (.tooLong n), t) := by
  induction sizes generalizing e samples with
  | nil =>
    cases hRun
    exact Session.run_bind_error (run_measure_of_lt hLong _) _
  | cons first sizes ih =>
    obtain ⟨sample, u, hFirst, hOthers⟩ := Session.run_bind_eq_ok_iff.mp hRun
    obtain ⟨samples', v, hOthers, hEnd⟩ := Session.run_bind_eq_ok_iff.mp hOthers
    cases hEnd
    exact (Session.run_bind_ok hFirst _).trans (Session.run_bind_error (ih hOthers) _)

theorem preserves_measure (n : UInt32) : Preserves Engine.cells (measure n) := by
  have hExecute : ∀ {i : Instruction}, i.operation = .burstLoad ∨ i.operation = .burstStore →
      Preserves Engine.cells (execute i) :=
    fun hBurst e => e.cells_execute_burst hBurst
  refine (Session.preserves_require _ _).bind fun _ => .bind (fun _ => rfl) fun _ => ?_
  refine (hExecute (.inl (Instruction.operation_burstLoad _ _))).bind fun _ => ?_
  refine (Session.preserves_require _ _).bind fun _ => ?_
  refine (hExecute (.inr (Instruction.operation_burstStore _ _))).bind fun _ => ?_
  refine (Session.preserves_require _ _).bind fun _ => Session.preserves_engine.bind fun e => ?_
  split
  · exact fun _ => rfl
  · exact Session.preserves_pure _

theorem preserves_measureAll (sizes : List UInt32) : Preserves Engine.cells (measureAll sizes) := by
  induction sizes with
  | nil => exact Session.preserves_pure []
  | cons n sizes ih =>
    exact (preserves_measure n).bind fun _ => ih.bind fun _ => Session.preserves_pure _

end Sizes

section Image

variable (hRoom : n.toNat ≤ scratchpadSize)

include hRoom

theorem burstAddress_source {i : Nat} (hi : i < n.toNat) :
    Architecture.burstAddress source i = UInt64.ofNat (source.toNat + 8 * i) := by
  have hSource : source.toNat = 0x8000 := rfl
  rw [scratchpadSize] at hRoom
  rw [Architecture.burstAddress, Nat.mod_eq_of_lt (by omega)]

theorem burstAddress_destination {i : Nat} (hi : i < n.toNat) :
    Architecture.burstAddress destination i = UInt64.ofNat (destination.toNat + 8 * i) := by
  have hDestination : destination.toNat = 0x9000 := rfl
  rw [scratchpadSize] at hRoom
  rw [Architecture.burstAddress, Nat.mod_eq_of_lt (by omega)]

/-- The copy leaves everything else as it is. -/
theorem image_eq_seeded {b : UInt64} (hOutside : ¬(destination.toNat / 8 ≤ b.toNat / 8 ∧
    b.toNat / 8 < destination.toNat / 8 + n.toNat)) : image n b = seeded n b := by
  have hDestination : destination.toNat = 0x9000 := rfl
  apply Architecture.storeWords_of_ne
  intro i hi
  rw [scratchpadSize] at hRoom
  rw [Architecture.burstAddress_div]
  omega

theorem wordIn_image_destination {i : Nat} (hi : i < n.toNat) :
    Memory.wordIn (image n) (UInt64.ofNat (destination.toNat + 8 * i)) = word i := by
  rw [← burstAddress_destination hRoom hi]
  rw [scratchpadSize] at hRoom
  exact Architecture.wordIn_storeWords (by omega) hi

theorem wordIn_image_source {i : Nat} (hi : i < n.toNat) :
    Memory.wordIn (image n) (UInt64.ofNat (source.toNat + 8 * i)) = word i := by
  have hSource : source.toNat = 0x8000 := rfl
  have hDestination : destination.toNat = 0x9000 := rfl
  have hSmall := hi.trans_le hRoom
  rw [← wordIn_seeded hRoom hi, burstAddress_source hRoom hi]
  apply Memory.wordIn_congr
  intro b hb
  apply image_eq_seeded hRoom
  rw [scratchpadSize] at hSmall
  rw [hb, UInt64.toNat_ofNat']
  omega

theorem image_of_outside {b : UInt64}
    (hSource : ¬(source.toNat ≤ b.toNat ∧ b.toNat < source.toNat + 8 * n.toNat))
    (hDestination : ¬(destination.toNat ≤ b.toNat ∧ b.toNat < destination.toNat + 8 * n.toNat)) :
    image n b = 0 := by
  have hAligned : source.toNat % 8 = 0 ∧ destination.toNat % 8 = 0 := ⟨rfl, rfl⟩
  have hLength := length_pattern n.toNat
  have hBlank : seeded n b = Memory.empty.readByte b := by
    apply Memory.readByte_writeWords_of_ne
    intro i hi
    have hLess := source.toNat_lt
    rw [scratchpadSize] at hRoom
    rw [UInt64.toNat_add, UInt64.toNat_ofNat', UInt32.toNat_toUInt64]
    omega
  rw [image_eq_seeded hRoom (by omega), hBlank]
  simp [Memory.readByte, Memory.empty]

end Image

/-- The memory after the last size was measured: its pattern at both places and zero elsewhere. -/
structure Holds (m : Memory) (n : UInt32) : Prop where
  loaded : ∀ i < n.toNat,
    m.peekWord (UInt64.ofNat (source.toNat + 8 * i)) = 0xAA55AA5500000000 + UInt64.ofNat i
  stored : ∀ i < n.toNat,
    m.peekWord (UInt64.ofNat (destination.toNat + 8 * i)) = 0xAA55AA5500000000 + UInt64.ofNat i
  blank : ∀ b : UInt64, ¬(source.toNat ≤ b.toNat ∧ b.toNat < source.toNat + 8 * n.toNat) →
    ¬(destination.toNat ≤ b.toNat ∧ b.toNat < destination.toNat + 8 * n.toNat) → m.readByte b = 0

theorem holds_of_image (hRoom : n.toNat ≤ scratchpadSize) {m : Memory}
    (h : m.readByte = image n) : Holds m n where
  loaded i hi := by rw [Memory.peekWord_eq, h, wordIn_image_source hRoom hi, word]
  stored i hi := by rw [Memory.peekWord_eq, h, wordIn_image_destination hRoom hi, word]
  blank b hSource hDestination := by rw [h, image_of_outside hRoom hSource hDestination]

section Run

variable {sizes : List UInt32} {e : Engine} (hReachable : e.Reachable)
  (hIdle : e.controller.isIdle = true) (hLimit : max 1 (256 * (e.bus.latency + 2)) ≤ e.timeout)

include hReachable hIdle hLimit

theorem exists_run_measureAll (hRoom : ∀ n ∈ sizes, n.toNat ≤ scratchpadSize) :
    ∃ t, (measureAll sizes).run e = (.ok (sizes.map (sample e.bus.latency)), t) ∧
      t.controller.isIdle = true ∧ t.memory.readByte = left e.memory.readByte sizes := by
  have hStart : e.Rests e.bus.latency e.timeout (·.memory = e.memory.readByte) :=
    hReachable.rests hIdle rfl
  obtain ⟨t, hRun, hEnd⟩ := achieves_measureAll hLimit hRoom e.memory.readByte e hStart
  exact ⟨t, hRun, decide_eq_true hEnd.idle, hEnd.holds⟩

end Run

theorem run_of_measureAll {sizes : List UInt32} {e t : Engine} {samples : List Sample}
    (h : (measureAll sizes).run e = (.ok samples, t)) :
    (run sizes).run e = (.ok ⟨e.bus.latency, samples⟩, t) :=
  Session.run_bind_ok h _

theorem run_of_measureAll_error {sizes : List UInt32} {e t : Engine} {failure : Failure}
    (h : (measureAll sizes).run e = (.error failure, t)) :
    (run sizes).run e = (.error failure, t) :=
  Session.run_bind_error h _

theorem message_tooLong (n : UInt32) : (Failure.tooLong n).message =
    s!"burst of {n.toNat} words exceeds the 256-word scratchpad" := by
  have hRoom : toString scratchpadSize = "256" := rfl
  change s!"burst of {n.toNat} words exceeds the {scratchpadSize}-word scratchpad" = _
  rw [hRoom, String.append_assoc, String.append_assoc]
  rfl

/-- On an idle engine with enough cycles sizes that fit in the scratchpad are all measured, each
with the cycles that follow from it and the latency, and what is in memory in the end is from the
last one. The first size that does not fit is reported, and those before it keep their effect.
The configuration and the history are never changed, whatever the engine and the sizes. -/
theorem run_measures (sizes : List UInt32) :
    (∀ e : Engine, e.Reachable → e.controller.isIdle = true →
      max 1 (256 * (e.bus.latency + 2)) ≤ e.timeout →
      let cycles := fun n : UInt32 => if n.toNat = 0 then 2 else 1 + n.toNat * (e.bus.latency + 2)
      ((∀ n ∈ sizes, n.toNat ≤ 256) →
        ∃ t, (run sizes).run e =
            (.ok ⟨e.bus.latency, sizes.map fun n => ⟨n, cycles n, cycles n⟩⟩, t) ∧
          t.controller.isIdle = true ∧ ∀ n, sizes.getLast? = some n → Holds t.memory n) ∧
      ∀ (k : Nat) (hk : k < sizes.length), (∀ n ∈ sizes.take k, n.toNat ≤ 256) →
        256 < sizes[k].toNat →
        ∃ report t, (run (sizes.take k)).run e = (.ok report, t) ∧
          (run sizes).run e = (.error (.tooLong sizes[k]), t)) ∧
    (∀ n : UInt32, (Failure.tooLong n).message =
      s!"burst of {n.toNat} words exceeds the 256-word scratchpad") ∧
    ∀ e : Engine,
      ((run sizes).run e).2.controller.registers.car = e.controller.registers.car ∧
      ((run sizes).run e).2.controller.registers.history = e.controller.registers.history := by
  refine ⟨?_, message_tooLong, ?_⟩
  · intro e hReachable hIdle hLimit cycles
    constructor
    · intro hRoom
      obtain ⟨t, hRun, hDone, hMemory⟩ := exists_run_measureAll hReachable hIdle hLimit hRoom
      refine ⟨t, run_of_measureAll hRun, hDone, ?_⟩
      intro n hLast
      rw [left, hLast] at hMemory
      exact holds_of_image (hRoom n (List.mem_of_getLast? hLast)) hMemory
    · intro k hk hRoom hLong
      obtain ⟨t, hRun, -, -⟩ := exists_run_measureAll hReachable hIdle hLimit hRoom
      refine ⟨_, t, run_of_measureAll hRun, run_of_measureAll_error ?_⟩
      have hSizes : sizes = sizes.take k ++ sizes[k] :: sizes.drop (k + 1) := by
        rw [List.getElem_cons_drop, List.take_append_drop]
      have hEnds := run_measureAll_append hLong hRun (sizes.drop (k + 1))
      rwa [← hSizes] at hEnds
  · intro e
    have hRun : Preserves Engine.cells (run sizes) :=
      Session.preserves_engine.bind fun e =>
        (preserves_measureAll sizes).bind fun _ => Session.preserves_pure _
    exact Prod.mk.inj (hRun e)

/-- Three words, none, and two, and then a size that is one too long. The engine has been used, and
its history is not empty. -/
theorem run_measures_shrinking :
    let e := (Engine.fresh .empty 1 768).actAll
      [.access (·.writeWord 0x9010 7), .execute (.setLow 5), .execute (.step 30 1),
        .issue (.load 8), .step, .reset, .execute (.setLow 9), .execute (.life 2)]
    let sizes : List UInt32 := [3, 0, 2]
    let long : List UInt32 := [3, 0, 2, 257, 1]
    e.Reachable ∧ e.controller.isIdle = true ∧ max 1 (256 * (e.bus.latency + 2)) ≤ e.timeout ∧
      (∀ n ∈ sizes, n.toNat ≤ 256) ∧ (∀ n ∈ long.take 3, n.toNat ≤ 256) ∧
      256 < long[3].toNat ∧ sizes.getLast? = some 2 ∧
      ∃ t, (run sizes).run e = (.ok ⟨1, [⟨3, 10, 10⟩, ⟨0, 2, 2⟩, ⟨2, 7, 7⟩]⟩, t) ∧
        Holds t.memory 2 ∧ (run long).run e = (.error (.tooLong 257), t) ∧
        t.controller.registers.history = e.controller.registers.history := by
  intro e sizes long
  have hReachable : e.Reachable := ⟨_, _, _, _, rfl⟩
  have hIdle : e.controller.isIdle = true := rfl
  have hLimit : max 1 (256 * (e.bus.latency + 2)) ≤ e.timeout := by decide
  have hRoom : ∀ n ∈ sizes, n.toNat ≤ 256 := by simp [sizes]
  have hBefore : ∀ n ∈ long.take 3, n.toNat ≤ 256 := by simp [long]
  have hLong : 256 < long[3].toNat := by decide
  obtain ⟨t, hRun, -, hHolds⟩ := ((run_measures sizes).1 e hReachable hIdle hLimit).1 hRoom
  obtain ⟨report, u, hFirst, hFails⟩ :=
    ((run_measures long).1 e hReachable hIdle hLimit).2 3 (by decide) hBefore hLong
  obtain ⟨-, hHistory⟩ := (run_measures sizes).2.2 e
  obtain rfl : t = u := congrArg Prod.snd (hRun.symm.trans hFirst)
  exact ⟨hReachable, hIdle, hLimit, hRoom, hBefore, hLong, rfl, t, hRun, hHolds 2 rfl, hFails,
    (congrArg (fun outcome => outcome.2.controller.registers.history) hRun).symm.trans hHistory⟩

end Bandwidth

end CellularCoprocessor
