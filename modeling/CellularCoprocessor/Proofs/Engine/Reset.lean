import CellularCoprocessor.Program.Run
import CellularCoprocessor.Proofs.Engine.Timing
import Mathlib

/-!
# Nothing is left after a reset

After a reset an engine answers as a new one does that was given its memory, whatever is done with
it, programs and direct uses of the memory included. The counters of the engine and of the bus go on
from where they were, and this is the only difference.
-/

namespace CellularCoprocessor

namespace Tally

theorem count_empty (mnemonic : String) : empty.count mnemonic = 0 :=
  Std.TreeMap.getD_emptyc

theorem count_add (t : Tally) (o : Operation) (mnemonic : String) :
    (t.add o).count mnemonic = t.count mnemonic + if o.mnemonic = mnemonic then 1 else 0 := by
  rw [count, add, Std.TreeMap.getD_alter, count]
  by_cases hSame : o.mnemonic = mnemonic
  · rw [if_pos (Std.LawfulEqCmp.compare_eq_iff_eq.mpr hSame), if_pos hSame, hSame, increment,
      Std.TreeMap.getD_eq_getD_getElem?]
    rfl
  · rw [if_neg (fun h => hSame (Std.LawfulEqCmp.compare_eq_iff_eq.mp h)), if_neg hSame,
      Nat.add_zero]

end Tally

namespace Bus

/-- Buses in the same state. The one has counted what `past` had counted and what the other has. -/
structure Continues (past p q : Bus) : Prop where
  memory : p.memory = q.memory
  latency : p.latency = q.latency
  inFlight : p.inFlight = q.inFlight
  reads : p.reads = past.reads + q.reads
  writes : p.writes = past.writes + q.writes

variable {past p q : Bus}

theorem Continues.perform (h : Continues past p q) (r : Request) :
    (p.perform r).1 = (q.perform r).1 ∧ Continues past (p.perform r).2 (q.perform r).2 := by
  obtain ⟨hMemory, hLatency, hFlight, hReads, hWrites⟩ := h
  rcases r with ⟨a, _ | w⟩
  · refine ⟨?_, ?_, hLatency, rfl, ?_, hWrites⟩
    · simp only [Bus.perform, Memory.readWord, hMemory]
    · simp only [Bus.perform, Memory.readWord, hMemory]
    · simp only [Bus.perform, hReads, Nat.add_assoc]
  · refine ⟨rfl, ?_, hLatency, rfl, hReads, ?_⟩
    · simp only [Bus.perform, hMemory]
    · simp only [Bus.perform, hWrites, Nat.add_assoc]

theorem Continues.respond (h : Continues past p q) (presented : Option Request) :
    (p.respond presented).1 = (q.respond presented).1 ∧
      Continues past (p.respond presented).2 (q.respond presented).2 := by
  rw [respond.eq_def p, respond.eq_def q, h.inFlight]
  rcases q.inFlight with _ | ⟨r, _ | n⟩
  · rcases presented with _ | r
    · exact ⟨rfl, h⟩
    · simp only [h.latency]
      rcases q.latency with _ | n
      · exact h.perform r
      · exact ⟨rfl, h.memory, rfl, rfl, h.reads, h.writes⟩
  · exact h.perform r
  · exact ⟨rfl, h.memory, h.latency, rfl, h.reads, h.writes⟩

end Bus

namespace Engine

structure Continues (past e f : Engine) : Prop where
  controller : e.controller = f.controller
  bus : Bus.Continues past.bus e.bus f.bus
  timeout : e.timeout = f.timeout
  instructions : e.instructions = past.instructions + f.instructions
  cycles : e.cycles = past.cycles + f.cycles
  timeouts : e.timeouts = past.timeouts + f.timeouts
  completed : ∀ mnemonic,
    e.completed.count mnemonic = past.completed.count mnemonic + f.completed.count mnemonic

/-- Engines that differ in their counters only get the same answer and go on so. -/
def Respects {α : Type} (past : Engine) (action : Engine → α × Engine) : Prop :=
  ∀ e f, Continues past e f →
    (action e).1 = (action f).1 ∧ Continues past (action e).2 (action f).2

variable {past e f : Engine}

theorem Continues.settle (h : Continues past e f) (c : Controller) {p q : Bus}
    (hBus : Bus.Continues past.bus p q) (signals : Signals) :
    Continues past ({ e with controller := c, bus := p }.settle signals)
      ({ f with controller := c, bus := q }.settle signals) := by
  obtain ⟨_, _, hTimeout, hInstructions, hCycles, hTimeouts, hCompleted⟩ := h
  refine ⟨?_, ?_, ?_, ?_, ?_, ?_, ?_⟩
  · rw [settle_controller, settle_controller]
  · rw [settle_bus, settle_bus]
    exact hBus
  · rw [settle_timeout, settle_timeout, hTimeout]
  · rw [settle_instructions, settle_instructions, hInstructions, Nat.add_assoc]
  · rw [settle_cycles, settle_cycles, hCycles, Nat.add_assoc]
  · rw [settle_timeouts, settle_timeouts, hTimeouts]
  · intro mnemonic
    rw [settle_completed, settle_completed]
    split
    · cases c.operation with
      | none => exact hCompleted mnemonic
      | some o =>
        simp only [tallied, Tally.count_add, hCompleted, Nat.add_assoc]
    · exact hCompleted mnemonic

theorem respects_step : Respects past step := by
  intro e f h
  obtain ⟨hAnswer, hBus⟩ := h.bus.respond f.controller.request
  simp only [step, h.controller, hAnswer, true_and]
  exact h.settle _ hBus _

theorem Continues.issue (h : Continues past e f) (i : Instruction) :
    (∃ busy t u, e.issue i = .error ⟨busy, t⟩ ∧ f.issue i = .error ⟨busy, u⟩ ∧
        Continues past t u) ∨
      ∃ signals t u, e.issue i = .ok (signals, t) ∧ f.issue i = .ok (signals, u) ∧
        Continues past t u := by
  rw [Engine.issue, Engine.issue, h.controller]
  rcases f.controller.issue i with ⟨busy, c⟩ | ⟨signals, c⟩
  · exact .inl ⟨busy, _, _, rfl, rfl, { h with controller := rfl }⟩
  · exact .inr ⟨signals, _, _, rfl, rfl, h.settle c h.bus signals⟩

theorem respects_await (spent budget : Nat) : Respects past (await spent budget) := by
  induction budget generalizing spent with
  | zero =>
    rintro e f ⟨hController, hBus, hTimeout, hInstructions, hCycles, hTimeouts, hCompleted⟩
    refine ⟨rfl, hController, hBus, hTimeout, hInstructions, hCycles, ?_, hCompleted⟩
    simp only [await, hTimeouts, Nat.add_assoc]
  | succ budget ih =>
    intro e f h
    obtain ⟨hSignals, hNext⟩ := respects_step e f h
    rw [await_succ, await_succ, hSignals]
    split
    · exact ⟨rfl, hNext⟩
    · exact ih (spent + 1) _ _ hNext

theorem respects_execute (i : Instruction) : Respects past (·.execute i) := by
  intro e f h
  rcases h.issue i with
    ⟨busy, t, u, hRefused, hOther, hNext⟩ | ⟨signals, t, u, hAccepted, hOther, hNext⟩
  · simp only [execute, hRefused, hOther, true_and]
    exact hNext
  · simp only [execute, hAccepted, hOther, hNext.timeout]
    split
    · exact ⟨rfl, hNext⟩
    · exact respects_await 0 u.timeout t u hNext

theorem respects_executeWord (word rs1 rs2 : UInt32) :
    Respects past (·.executeWord word rs1 rs2) := by
  intro e f h
  simp only [executeWord]
  rcases InstructionWord.decode word with refusal | w
  · exact ⟨rfl, h⟩
  · exact respects_execute _ e f h

theorem Respects.andThen {ε α β : Type} {x : Session ε α} (hx : Respects past x)
    {k : α → Session ε β} (hk : ∀ a, Respects past (k a)) : Respects past (x.andThen k) := by
  intro e f h
  obtain ⟨hOutcome, hNext⟩ := hx e f h
  simp only [Session.andThen]
  rcases hOne : x e with ⟨failure | a, t⟩ <;> rcases hOther : x f with ⟨failure' | a', u⟩ <;>
    rw [hOne, hOther] at hOutcome hNext <;> cases hOutcome
  · exact ⟨rfl, hNext⟩
  · exact hk a t u hNext

theorem respects_succeed {ε α : Type} (a : α) : Respects past (Session.succeed a : Session ε α) :=
  fun _ _ h => ⟨rfl, h⟩

theorem respects_fail {ε α : Type} (failure : ε) :
    Respects past (Session.fail failure : Session ε α) :=
  fun _ _ h => ⟨rfl, h⟩

theorem setCar_eq (w : UInt64) : (·.setCar w) =
    Session.andThen (·.execute (.setLow w.toUInt32)) fun _ =>
      Session.andThen (·.execute (.setHigh (w >>> 32).toUInt32)) fun _ => Session.succeed () := by
  funext e
  simp only [setCar, Session.andThen]
  rcases e.execute (.setLow w.toUInt32) with ⟨_ | _, t⟩
  · rfl
  · simp only
    rcases t.execute (.setHigh (w >>> 32).toUInt32) with ⟨_ | _, u⟩ <;> rfl

theorem getCar_eq : getCar =
    Session.andThen (·.execute .getLow) fun low =>
      Session.andThen (·.execute .getHigh) fun high =>
        Session.succeed (high.result.toUInt64 <<< 32 ||| low.result.toUInt64) := by
  funext e
  simp only [getCar, Session.andThen]
  rcases e.execute .getLow with ⟨_ | _, t⟩
  · rfl
  · simp only
    rcases t.execute .getHigh with ⟨_ | _, u⟩ <;> rfl

theorem respects_setCar (w : UInt64) : Respects past (·.setCar w) := by
  rw [setCar_eq]
  exact (respects_execute _).andThen fun _ => (respects_execute _).andThen fun _ =>
    respects_succeed ()

theorem respects_getCar : Respects past getCar := by
  rw [getCar_eq]
  exact (respects_execute _).andThen fun _ => (respects_execute _).andThen fun _ =>
    respects_succeed _

section Program

open Program (Line Executed RunError)

theorem respects_sessionExecute {ε : Type} (wrap : EngineError → ε) (i : Instruction) :
    Respects past (Session.execute wrap i) := by
  intro e f h
  obtain ⟨hOutcome, hNext⟩ := respects_execute i e f h
  exact ⟨congrArg (Except.mapError wrap) hOutcome, hNext⟩

theorem respects_updateMemory {ε : Type} (g : Memory → Memory) :
    Respects past (Session.updateMemory g : Session ε Unit) := by
  rintro e f ⟨hController, hBus, hTimeout, hInstructions, hCycles, hTimeouts, hCompleted⟩
  obtain ⟨hMemory, hLatency, hFlight, hReads, hWrites⟩ := hBus
  exact ⟨rfl, hController, ⟨congrArg g hMemory, hLatency, hFlight, hReads, hWrites⟩, hTimeout,
    hInstructions, hCycles, hTimeouts, hCompleted⟩

theorem respects_require {ε : Type} (holds : Bool) (failure : ε) :
    Respects past (Session.require holds failure) := by
  rw [Session.require]
  split
  · exact respects_succeed ()
  · exact respects_fail failure

/-- A check of the configuration sees the same on both engines. -/
theorem Respects.engine_car {ε β : Type} {k : UInt64 → Session ε β}
    (hk : ∀ car, Respects past (k car)) : Respects past (Session.engine.andThen fun e => k e.car) := by
  intro e f h
  have hCar : e.car = f.car := congrArg (fun c => c.registers.car) h.controller
  change (k e.car e).1 = (k f.car f).1 ∧ Continues past (k e.car e).2 (k f.car f).2
  rw [hCar]
  exact hk f.car e f h

theorem respects_runLine (last : Option Executed) (line : Line) :
    Respects past (Program.runLine last line) := by
  rw [Program.runLine]
  cases line.statement with
  | execute i => exact (respects_sessionExecute _ i).andThen fun _ => respects_succeed _
  | preload address w => exact (respects_updateMemory _).andThen fun _ => respects_succeed _
  | expectResult expected =>
    cases last with
    | none => exact respects_fail _
    | some last => exact (respects_require _ _).andThen fun _ => respects_succeed _
  | expectCar expected =>
    refine Respects.engine_car (k := fun car =>
      (Session.require (car == expected) (RunError.wrongCar line.number expected car)).andThen
        fun _ => Session.succeed none) ?_
    exact fun _ => (respects_require _ _).andThen fun _ => respects_succeed _

theorem respects_runLines (last : Option Executed) (lines : List Line) :
    Respects past (Program.runLines last lines) := by
  induction lines generalizing last with
  | nil => exact respects_succeed []
  | cons line lines ih =>
    exact (respects_runLine last line).andThen fun _ =>
      (ih _).andThen fun _ => respects_succeed _

end Program

/-- What can be done with an engine. An access uses the memory directly. -/
inductive Call where
  | issue (i : Instruction)
  | step
  | execute (i : Instruction)
  | executeWord (word rs1 rs2 : UInt32)
  | setCar (w : UInt64)
  | getCar
  | reset
  | run (p : Program)
  | access (f : Memory → List UInt8 × Memory)

inductive Answer where
  | none
  | signals (outcome : Except Busy Signals)
  | completion (outcome : Except EngineError Completion)
  | stored (outcome : Except EngineError Unit)
  | word (outcome : Except EngineError UInt64)
  | trace (outcome : Except Program.RunError (List Program.Executed))
  | bytes (bs : List UInt8)

def answer : Call → Engine → Answer × Engine
  | .issue i, e =>
    match e.issue i with
    | .ok (signals, t) => (.signals (.ok signals), t)
    | .error refusal => (.signals (.error refusal.toBusy), refusal.state)
  | .step, e => (.signals (.ok e.step.1), e.step.2)
  | .execute i, e => (.completion (e.execute i).1, (e.execute i).2)
  | .executeWord word rs1 rs2, e =>
    (.completion (e.executeWord word rs1 rs2).1, (e.executeWord word rs1 rs2).2)
  | .setCar w, e => (.stored (e.setCar w).1, (e.setCar w).2)
  | .getCar, e => (.word e.getCar.1, e.getCar.2)
  | .reset, e => (.none, e.reset)
  | .run p, e => (.trace (p.run.run e).1, (p.run.run e).2)
  | .access f, e => (.bytes (f e.memory).1, e.withMemory (f e.memory).2)

/-- The answers to some calls, each with the engine after it. -/
def answers (e : Engine) : List Call → List (Answer × Engine)
  | [] => []
  | call :: calls => answer call e :: (answer call e).2.answers calls

theorem Respects.map {α β : Type} {action : Engine → α × Engine} (h : Respects past action)
    (g : α → β) : Respects past fun e => (g (action e).1, (action e).2) := by
  intro e f hContinues
  obtain ⟨hOutcome, hNext⟩ := h e f hContinues
  exact ⟨congrArg g hOutcome, hNext⟩

theorem respects_answer (call : Call) : Respects past (answer call) := by
  cases call with
  | issue i =>
    intro e f h
    rcases h.issue i with
      ⟨busy, t, u, hRefused, hOther, hNext⟩ | ⟨signals, t, u, hAccepted, hOther, hNext⟩
    · simp only [answer, hRefused, hOther, true_and]
      exact hNext
    · simp only [answer, hAccepted, hOther, true_and]
      exact hNext
  | step => exact respects_step.map fun signals => Answer.signals (.ok signals)
  | execute i => exact (respects_execute i).map _
  | executeWord word rs1 rs2 => exact (respects_executeWord word rs1 rs2).map _
  | setCar w => exact (respects_setCar w).map _
  | getCar => exact respects_getCar.map _
  | reset =>
    rintro e f ⟨_, hBus, hTimeout, hInstructions, hCycles, hTimeouts, hCompleted⟩
    exact ⟨rfl, rfl, ⟨hBus.memory, hBus.latency, rfl, hBus.reads, hBus.writes⟩, hTimeout,
      hInstructions, hCycles, hTimeouts, hCompleted⟩
  | run p => exact (respects_runLines none p.lines).map _
  | access g =>
    rintro e f ⟨hController, hBus, hTimeout, hInstructions, hCycles, hTimeouts, hCompleted⟩
    have hMemory : e.memory = f.memory := hBus.memory
    simp only [answer, hMemory, true_and]
    exact ⟨hController, ⟨rfl, hBus.latency, hBus.inFlight, hBus.reads, hBus.writes⟩, hTimeout,
      hInstructions, hCycles, hTimeouts, hCompleted⟩

theorem Continues.answers (h : Continues past e f) (calls : List Call) :
    List.Forall₂ (fun x y => x.1 = y.1 ∧ Continues past x.2 y.2) (e.answers calls)
      (f.answers calls) := by
  induction calls generalizing e f with
  | nil => exact .nil
  | cons call calls ih =>
    have hAnswer := respects_answer call e f h
    exact .cons hAnswer (ih hAnswer.2)

theorem Coherent.clock_of_idle (h : e.Coherent) (hIdle : e.controller.phase = .idle) (n : Nat) :
    (clock n e).memory = e.memory ∧ (clock n e).controller.phase = .idle := by
  induction n generalizing e with
  | zero => exact ⟨rfl, hIdle⟩
  | succ n ih =>
    have hRequest := (h.controller.idle hIdle).request
    have hStep := h.step_quiet hRequest
    rw [Controller.advance_idle _ hIdle] at hStep
    have hStill : e.step.2.controller.phase = .idle := by
      rw [hStep, settle_controller]
      exact hIdle
    obtain ⟨hMemory, hDone⟩ := ih h.coherent_step hStill
    refine ⟨?_, hDone⟩
    rw [clock, hMemory, hStep, memory, settle_bus]
    rfl

theorem continues_reset (e : Engine) :
    Continues e e.reset (fresh e.memory e.bus.latency e.timeout) := by
  refine ⟨rfl, ⟨rfl, rfl, rfl, rfl, rfl⟩, rfl, rfl, rfl, rfl, ?_⟩
  intro mnemonic
  exact (congrArg _ (Tally.count_empty mnemonic)).symm

/-- Whatever an engine was doing when it was reset, it answers every later use as a new engine over
the same memory does, and is in the same state after each. Its counters are ahead by what they were
at the reset. No write that was under way reaches the memory. -/
theorem answers_reset_eq_fresh (e : Engine) (calls : List Call) :
    List.Forall₂ (fun x y => x.1 = y.1 ∧ Continues e x.2 y.2) (e.reset.answers calls)
        ((fresh e.memory e.bus.latency e.timeout).answers calls) ∧
      ∀ n, (clock n e.reset).memory = e.memory := by
  refine ⟨(continues_reset e).answers calls, ?_⟩
  intro n
  exact (Coherent.clock_of_idle ⟨Controller.coherent_initial, fun t hFlight => by cases hFlight⟩ rfl
    n).1

end Engine

end CellularCoprocessor
