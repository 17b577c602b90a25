import CellularCoprocessor.Engine.Session
import CellularCoprocessor.Proofs.Machine.HostAccess

/-!
# Sessions on a resting engine

On an idle engine with enough cycles no instruction fails. So a session on it can be described by
properties of the architecture alone: the one it starts from, and either the one it leads to with
its value or the failure it ends with. The rules follow the ways in which sessions are put together.
-/

namespace CellularCoprocessor

namespace Automaton

theorem ringReference_zero (rule : UInt8) (s : UInt64) : ringReference rule 0 s = s :=
  Board.toWord_ofWord s

/-- An evolution may be made in two parts. -/
theorem ringReference_add (rule : UInt8) (m n : Nat) (s : UInt64) :
    ringReference rule (m + n) s = ringReference rule n (ringReference rule m s) := by
  rw [← step_iterate, ← step_iterate, ← step_iterate, Nat.add_comm, Function.iterate_add_apply]

end Automaton

namespace Instruction

theorem operation_load (a : UInt32) : (load a).operation = .load :=
  (by decide : Operation.decode 0 0 = .load)

theorem operation_scratchToCar (index : UInt32) : (scratchToCar index).operation = .scratchToCar :=
  (by decide : Operation.decode 2 4 = .scratchToCar)

theorem operation_carToScratch (index : UInt32) : (carToScratch index).operation = .carToScratch :=
  (by decide : Operation.decode 3 4 = .carToScratch)

theorem operation_setLow (w : UInt32) : (setLow w).operation = .set .low :=
  (by decide : Operation.decode 3 0 = .set .low)

theorem operation_setHigh (w : UInt32) : (setHigh w).operation = .set .high :=
  (by decide : Operation.decode 3 2 = .set .high)

theorem operation_step (rule : UInt8) (n : UInt16) : (step rule n).operation = .step :=
  (by decide : Operation.decode 4 0 = .step)

theorem cost_load (a : UInt32) (latency : Nat) : (load a).cost latency = latency + 1 := by
  rw [cost, operation_load]

theorem cost_scratchToCar (index : UInt32) (latency : Nat) :
    (scratchToCar index).cost latency = 0 := by
  rw [cost, operation_scratchToCar]

theorem cost_carToScratch (index : UInt32) (latency : Nat) :
    (carToScratch index).cost latency = 0 := by
  rw [cost, operation_carToScratch]

theorem cost_setLow (w : UInt32) (latency : Nat) : (setLow w).cost latency = 0 := by
  rw [cost, operation_setLow]

theorem cost_setHigh (w : UInt32) (latency : Nat) : (setHigh w).cost latency = 0 := by
  rw [cost, operation_setHigh]

theorem cost_step (rule : UInt8) (n : UInt16) (latency : Nat) :
    (step rule n).cost latency = n.toNat := by
  have hLess := n.toNat_lt
  rw [cost, operation_step]
  simp only [step, UInt16.toNat_toUInt32]
  omega

/-- The cycles of a burst of `n` words, the dispatch included. -/
def burstCycles (latency n : Nat) : Nat :=
  if n = 0 then 2 else 1 + n * (latency + 2)

theorem cost_burst {i : Instruction}
    (hBurst : i.operation = .burstLoad ∨ i.operation = .burstStore) {n : Nat}
    (hLength : i.rs2.toNat = n) (hn : n ≤ scratchpadSize) (result : UInt32) (latency : Nat) :
    Completion.cost ⟨result, i.cost latency⟩ = burstCycles latency n := by
  have hShort : ¬n > 256 := Nat.not_lt.mpr hn
  rw [Completion.cost, burstCycles, cost]
  rcases hBurst with hLoad | hStore
  · simp only [hLoad, hLength, if_neg hShort]
    split <;> omega
  · simp only [hStore, hLength, if_neg hShort]
    split <;> omega

end Instruction

namespace Architecture

/-- The result of an instruction and the architecture after it. -/
def perform (s : Architecture) (i : Instruction) : UInt32 × Architecture :=
  s.execute i.rs1 i.rs2 i.operation

/-- The numbers of scratchpad words are 32-bit words. -/
theorem toNat_ofNat_of_le {n : Nat} (h : n ≤ scratchpadSize) : (UInt32.ofNat n).toNat = n := by
  rw [scratchpadSize] at h
  rw [UInt32.toNat_ofNat']
  omega

section Perform

variable (s : Architecture)

theorem perform_load (a : UInt32) :
    s.perform (.load a) = (0, { s with car := Memory.wordIn s.memory a.toUInt64 }) := by
  rw [perform, Instruction.operation_load]
  rfl

theorem perform_scratchToCar (index : UInt32) :
    s.perform (.scratchToCar index) = (0, { s with car := s.scratchpad (slot index.toNat) }) := by
  rw [perform, Instruction.operation_scratchToCar]
  rfl

theorem perform_carToScratch (index : UInt32) :
    s.perform (.carToScratch index) =
      (0, { s with scratchpad := Function.update s.scratchpad (slot index.toNat) s.car }) := by
  rw [perform, Instruction.operation_carToScratch]
  rfl

theorem perform_burstLoad (base : UInt32) {n : UInt32} (hn : n.toNat ≤ scratchpadSize) :
    s.perform (.burstLoad base n) = (0, { s with
      scratchpad := fun i =>
        if i.val < n.toNat then Memory.wordIn s.memory (burstAddress base i)
        else s.scratchpad i }) := by
  rw [perform, Instruction.operation_burstLoad]
  exact burst_load s base hn

theorem perform_burstStore (base : UInt32) {n : UInt32} (hn : n.toNat ≤ scratchpadSize) :
    s.perform (.burstStore base n) = (0, { s with
      memory := storeWords base (fun i => s.scratchpad (slot i)) n.toNat s.memory }) := by
  rw [perform, Instruction.operation_burstStore]
  exact burst_store s base hn

theorem perform_step (rule : UInt8) (n : UInt16) :
    s.perform (.step rule n) =
      (0, { s with rule }.evolve n.toNat (Automaton.ringReference rule n.toNat s.car)) := by
  have hRule : UInt8.ofNat (rule.toUInt32.toNat % 2 ^ 8) = rule := by
    apply UInt8.toNat_inj.mp
    simp
  have hSteps : n.toUInt32.toNat % 2 ^ 16 = n.toNat := by
    have hLess := n.toNat_lt
    rw [UInt16.toNat_toUInt32]
    omega
  rw [perform, Instruction.operation_step, Instruction.step, execute, hRule, hSteps]

theorem perform_setLow (w : UInt64) :
    s.perform (.setLow w.toUInt32) =
      (0, { s with car := UInt64.ofNat (w.toNat % 2 ^ 32), history := [] }) := by
  rw [perform, Instruction.operation_setLow]
  rfl

theorem perform_setHigh (w : UInt64) :
    s.perform (.setHigh (w >>> 32).toUInt32) =
      (0, { s with car := UInt64.ofNat (w.toNat / 2 ^ 32 * 2 ^ 32 + s.car.toNat % 2 ^ 32) }) := by
  have hHigh : (w >>> 32).toUInt32.toNat = w.toNat / 2 ^ 32 := by
    have hLess := w.toNat_lt
    rw [UInt64.toNat_toUInt32, UInt64.toNat_shiftRight, Nat.shiftRight_eq_div_pow]
    simp only [UInt64.reduceToNat, Nat.reduceMod]
    omega
  rw [perform, Instruction.operation_setHigh, Instruction.setHigh, execute, hHigh]

/-- An evolution moves the configuration and leaves the storage. One without passes moves nothing,
as on the boards. -/
theorem exists_perform_step (rule : UInt8) (n : UInt16) :
    ∃ t, s.perform (.step rule n) = (0, t) ∧ t.memory = s.memory ∧
      t.scratchpad = s.scratchpad ∧ t.car = Automaton.ringReference rule n.toNat s.car := by
  refine ⟨_, s.perform_step rule n, ?_⟩
  rw [evolve]
  split
  · rename_i hNone
    rw [hNone, Automaton.ringReference_zero]
    exact ⟨rfl, rfl, rfl⟩
  · exact ⟨rfl, rfl, rfl⟩

end Perform

end Architecture

/-- An idle engine over a bus of some latency. Its instructions may take `limit` cycles, and its
architecture has the property `P`. -/
structure Engine.Rests (latency limit : Nat) (P : Architecture → Prop) (e : Engine) : Prop where
  coherent : e.Coherent
  idle : e.controller.phase = .idle
  latency : e.bus.latency = latency
  timeout : e.timeout = limit
  holds : P e.architecture

namespace Engine

theorem Reachable.rests {e : Engine} (h : e.Reachable) (hIdle : e.controller.isIdle = true)
    {P : Architecture → Prop} (hHolds : P e.architecture) : e.Rests e.bus.latency e.timeout P :=
  ⟨h.coherent, of_decide_eq_true hIdle, rfl, rfl, hHolds⟩

variable {latency limit : Nat} {P Q : Architecture → Prop} {e : Engine}

theorem Rests.weaken (h : e.Rests latency limit P) (hPQ : ∀ s, P s → Q s) :
    e.Rests latency limit Q :=
  { h with holds := hPQ _ h.holds }

theorem Rests.execute (h : e.Rests latency limit P) {i : Instruction}
    (hCost : i.cost latency ≤ limit) :
    (e.execute i).1 = .ok ⟨(e.architecture.perform i).1, i.cost latency⟩ ∧
      (e.execute i).2.Rests latency limit (· = (e.architecture.perform i).2) := by
  obtain ⟨hCoherent, hIdle, hLatency, hTimeout, -⟩ := h
  rw [← hLatency, ← hTimeout] at hCost ⊢
  obtain ⟨hDone, hState, hCoherent', hIdle', hLatency', hTimeout'⟩ := hCoherent.refines hIdle hCost
  exact ⟨hDone, hCoherent', hIdle', hLatency', hTimeout', hState⟩

theorem Rests.withMemory (h : e.Rests latency limit P) {f : Memory → Memory}
    (hBytes : ∀ s, P s → ∀ m : Memory, m.readByte = s.memory →
      Q { s with memory := (f m).readByte }) :
    (e.withMemory (f e.memory)).Rests latency limit Q where
  coherent := h.coherent.coherent_move (.access f)
  idle := h.idle
  latency := h.latency
  timeout := h.timeout
  holds := hBytes _ h.holds e.memory rfl

end Engine

namespace Session

variable {ε α β : Type}

/-- On every resting engine with the property `P` the session succeeds with the value `a` and leaves
a resting engine with the property `Q`. -/
def Achieves (latency limit : Nat) (P : Architecture → Prop) (x : Session ε α) (a : α)
    (Q : Architecture → Prop) : Prop :=
  ∀ e, e.Rests latency limit P → ∃ t, x.run e = (.ok a, t) ∧ t.Rests latency limit Q

variable {latency limit : Nat} {P Q R : Architecture → Prop}

theorem achieves_pure (a : α) : Achieves latency limit P (pure a : Session ε α) a P :=
  fun e h => ⟨e, rfl, h⟩

theorem Achieves.bind {x : Session ε α} {a : α} {f : α → Session ε β} {b : β}
    (h : Achieves latency limit P x a Q) (hRest : Achieves latency limit Q (f a) b R) :
    Achieves latency limit P (x >>= f) b R := by
  intro e hRests
  obtain ⟨t, hRun, hMiddle⟩ := h e hRests
  rw [run_bind_ok hRun f]
  exact hRest t hMiddle

theorem Achieves.weaken {x : Session ε α} {a : α} {P' Q' : Architecture → Prop}
    (h : Achieves latency limit P x a Q) (hP : ∀ s, P' s → P s) (hQ : ∀ s, Q s → Q' s) :
    Achieves latency limit P' x a Q' := by
  intro e hRests
  obtain ⟨t, hRun, hLeft⟩ := h e (hRests.weaken hP)
  exact ⟨t, hRun, hLeft.weaken hQ⟩

theorem achieves_require {holds : Bool} (hHolds : holds = true) (failure : ε) :
    Achieves latency limit P (require holds failure) () P := by
  rw [require, if_pos hHolds]
  exact achieves_pure ()

theorem run_require (holds : Bool) (failure : ε) (e : Engine) :
    (require holds failure).run e = (if holds then .ok () else .error failure, e) := by
  rw [require]
  cases holds <;> rfl

/-- What is refused at the start is not begun. -/
theorem run_require_bind {holds : Bool} (hFails : holds = false) (failure : ε)
    (f : Unit → Session ε β) (e : Engine) :
    (require holds failure >>= f).run e = (.error failure, e) := by
  rw [require, hFails]
  rfl

theorem achieves_execute (wrap : EngineError → ε) {i : Instruction} {result : UInt32}
    (hCost : i.cost latency ≤ limit)
    (hEffect : ∀ s, P s → ∃ t, s.perform i = (result, t) ∧ Q t) :
    Achieves latency limit P (execute wrap i) ⟨result, i.cost latency⟩ Q := by
  intro e hRests
  obtain ⟨hDone, hLeft⟩ := hRests.execute hCost
  obtain ⟨t, hPerform, hQ⟩ := hEffect _ hRests.holds
  rw [hPerform] at hDone hLeft
  refine ⟨(e.execute i).2, ?_, hLeft.weaken fun s hs => hs ▸ hQ⟩
  rw [run_execute, hDone]
  rfl

theorem achieves_updateMemory {f : Memory → Memory}
    (hBytes : ∀ s, P s → ∀ m : Memory, m.readByte = s.memory →
      Q { s with memory := (f m).readByte }) :
    Achieves latency limit P (updateMemory f : Session ε Unit) () Q :=
  fun _ hRests => ⟨_, rfl, hRests.withMemory hBytes⟩

/-- Both halves of the configuration are set, and the history is lost with the lower one. -/
theorem achieves_setCar (wrap : EngineError → ε) (w : UInt64)
    (hEffect : ∀ s, P s → Q { s with car := w, history := [] }) :
    Achieves latency limit P (ofEngine wrap (·.setCar w)) () Q := by
  have hCost : ∀ {i : Instruction}, i.cost latency = 0 → i.cost latency ≤ limit :=
    fun hNone => hNone ▸ Nat.zero_le limit
  have hHalves : w.toNat / 2 ^ 32 * 2 ^ 32 +
      (UInt64.ofNat (w.toNat % 2 ^ 32)).toNat % 2 ^ 32 = w.toNat := by
    rw [UInt64.toNat_ofNat']
    omega
  intro e hRests
  obtain ⟨hLow, hMiddle⟩ := hRests.execute (hCost (Instruction.cost_setLow w.toUInt32 latency))
  rcases hFirst : e.execute (.setLow w.toUInt32) with ⟨outcome, t⟩
  rw [hFirst] at hLow hMiddle
  obtain ⟨hHigh, hLeft⟩ :=
    hMiddle.execute (hCost (Instruction.cost_setHigh (w >>> 32).toUInt32 latency))
  rcases hSecond : t.execute (.setHigh (w >>> 32).toUInt32) with ⟨outcome', u⟩
  rw [hSecond] at hHigh hLeft
  refine ⟨u, ?_, hLeft.weaken ?_⟩
  · have hSet : e.setCar w = (.ok (), u) := by
      simp only at hLow hHigh
      simp only [Engine.setCar, hFirst, hLow, hSecond, hHigh]
    simp only [run, ofEngine, hSet]
    rfl
  · rintro s rfl
    rw [hMiddle.holds, Architecture.perform_setLow, Architecture.perform_setHigh]
    simp only [hHalves, UInt64.ofNat_toNat]
    exact hEffect _ hRests.holds

/-- On every resting engine with the property `P` the session fails. -/
def Fails (latency limit : Nat) (P : Architecture → Prop) (x : Session ε α) (failure : ε) : Prop :=
  ∀ e, e.Rests latency limit P → (x.run e).1 = .error failure

theorem Fails.bind {x : Session ε α} {failure : ε} (h : Fails latency limit P x failure)
    (f : α → Session ε β) : Fails latency limit P (x >>= f) failure := by
  intro e hRests
  have hFailed : x.run e = (.error failure, (x.run e).2) := Prod.ext (h e hRests) rfl
  rw [run_bind_error hFailed f]

theorem Achieves.bind_fails {x : Session ε α} {a : α} {f : α → Session ε β} {failure : ε}
    (h : Achieves latency limit P x a Q) (hRest : Fails latency limit Q (f a) failure) :
    Fails latency limit P (x >>= f) failure := by
  intro e hRests
  obtain ⟨t, hRun, hMiddle⟩ := h e hRests
  rw [run_bind_ok hRun f]
  exact hRest t hMiddle

theorem fails_require {holds : Bool} (hFails : holds = false) (failure : ε) :
    Fails latency limit P (require holds failure) failure := by
  intro e _
  rw [require, hFails]
  rfl

/-- A session may go on with what it sees of the engine. -/
theorem achieves_engine {f : Engine → Session ε β} {b : β}
    (h : ∀ e, e.Rests latency limit P → ∃ t, (f e).run e = (.ok b, t) ∧ t.Rests latency limit Q) :
    Achieves latency limit P (engine >>= f) b Q :=
  h

theorem fails_engine {f : Engine → Session ε β} {failure : ε}
    (h : ∀ e, e.Rests latency limit P → ((f e).run e).1 = .error failure) :
    Fails latency limit P (engine >>= f) failure :=
  h

end Session

end CellularCoprocessor
