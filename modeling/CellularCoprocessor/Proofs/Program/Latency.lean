import CellularCoprocessor.Program.Run
import CellularCoprocessor.Proofs.Engine.Latency
import Mathlib

/-!
# Programs over memories of different latency

What a program does does not depend on the latency of the memory: it completes the same
instructions with the same results, or fails with the same message, and leaves the same state. Only
the cycles differ, by one latency for each word that is moved.
-/

namespace CellularCoprocessor

namespace Session

variable {ε α β : Type}

def Corresponds (E : ε → ε → Prop) (P : α → α → Prop) : Except ε α → Except ε α → Prop
  | .ok a, .ok b => P a b
  | .error s, .error t => E s t
  | _, _ => False

/-- Two sessions that keep engines in step. -/
def Tracks (l m : Nat) (E : ε → ε → Prop) (P : α → α → Prop) (x y : Session ε α) : Prop :=
  ∀ e f, Engine.InStep l m e f →
    Corresponds E P (x.run e).1 (y.run f).1 ∧ Engine.InStep l m (x.run e).2 (y.run f).2

variable {l m : Nat} {E : ε → ε → Prop} {P : α → α → Prop} {Q : β → β → Prop}

theorem tracks_pure {a b : α} (h : P a b) : Tracks l m E P (pure a) (pure b) :=
  fun _ _ hInStep => ⟨h, hInStep⟩

theorem tracks_fail {s t : ε} (h : E s t) : Tracks l m E P (fail s) (fail t) :=
  fun _ _ hInStep => ⟨h, hInStep⟩

theorem Tracks.bind {x y : Session ε α} (h : Tracks l m E P x y) {f g : α → Session ε β}
    (hRest : ∀ a b, P a b → Tracks l m E Q (f a) (g b)) : Tracks l m E Q (x >>= f) (y >>= g) := by
  intro e e' hInStep
  obtain ⟨hOutcome, hNext⟩ := h e e' hInStep
  rcases hx : x.run e with ⟨a | a, t⟩ <;> rcases hy : y.run e' with ⟨b | b, t'⟩ <;>
    rw [hx, hy] at hOutcome hNext
  · rw [run_bind_error hx, run_bind_error hy]
    exact ⟨hOutcome, hNext⟩
  · exact hOutcome.elim
  · exact hOutcome.elim
  · rw [run_bind_ok hx, run_bind_ok hy]
    exact hRest a b hOutcome t t' hNext

theorem tracks_engine : Tracks l m E (Engine.InStep l m) engine engine :=
  fun _ _ hInStep => ⟨hInStep, hInStep⟩

theorem tracks_updateMemory (g : Memory → Memory) :
    Tracks l m E (fun _ _ => True) (updateMemory g) (updateMemory g) :=
  fun _ _ hInStep => ⟨trivial, hInStep.withMemory g⟩

theorem tracks_require (holds : Bool) {s t : ε} (h : E s t) :
    Tracks l m E (fun _ _ => True) (require holds s) (require holds t) := by
  rw [require, require]
  cases holds with
  | true => exact tracks_pure trivial
  | false => exact tracks_fail h

end Session

namespace Program

/-- Two completions of an instruction whose cycles differ by `d` for each word moved. -/
structure Executed.Agrees (d : Int) (x y : Executed) : Prop where
  line : x.line = y.line
  instruction : x.instruction = y.instruction
  result : x.completion.result = y.completion.result
  cycles : (x.completion.cycles : Int) - y.completion.cycles = d * x.instruction.words

def SameMessage (s t : RunError) : Prop :=
  s.trail = t.trail

variable {l m : Nat}

theorem tracks_execute (n : Nat) (i : Instruction) :
    Session.Tracks l m SameMessage (fun c d => Executed.Agrees (l - m) ⟨n, i, c⟩ ⟨n, i, d⟩)
      (Session.execute (.engine n i) i) (Session.execute (.engine n i) i) := by
  intro e f hInStep
  have hNext := hInStep.execute i
  refine ⟨?_, hNext⟩
  have hController := hNext.agrees.controller
  have hCost := Engine.cost_sub_cost i l m
  rw [hInStep.ready.execute_eq i, hInStep.otherReady.execute_eq i] at hController
  rw [← hInStep.latency, ← hInStep.otherLatency] at hCost ⊢
  rw [Session.run_execute, Session.run_execute, hInStep.ready.execute_eq i,
    hInStep.otherReady.execute_eq i]
  exact ⟨rfl, rfl, congrArg (fun c => c.output.result) hController, hCost⟩

theorem tracks_runLine {last last' : Option Executed}
    (hLast : Option.Rel (Executed.Agrees (l - m)) last last') (line : Line) :
    Session.Tracks l m SameMessage (Option.Rel (Executed.Agrees (l - m)))
      (runLine last line) (runLine last' line) := by
  rw [runLine, runLine]
  cases line.statement with
  | execute i =>
    apply (tracks_execute line.number i).bind
    intro c d hAgrees
    exact Session.tracks_pure (.some hAgrees)
  | preload address w =>
    apply (Session.tracks_updateMemory _).bind
    intro _ _ _
    exact Session.tracks_pure .none
  | expectResult expected =>
    cases hLast with
    | none => exact Session.tracks_fail rfl
    | @some x y hAgrees =>
      have hMessage : SameMessage (.wrongResult line.number expected x)
          (.wrongResult line.number expected y) := by
        simp only [SameMessage, RunError.trail, hAgrees.instruction, hAgrees.result]
      simp only [hAgrees.result]
      apply (Session.tracks_require _ hMessage).bind
      intro _ _ _
      exact Session.tracks_pure .none
  | expectCar expected =>
    apply Session.tracks_engine.bind
    intro e f hInStep
    have hCar : e.car = f.car := congrArg (fun c => c.registers.car) hInStep.agrees.controller
    have hMessage : SameMessage (.wrongCar line.number expected f.car)
        (.wrongCar line.number expected f.car) := rfl
    rw [hCar]
    apply (Session.tracks_require _ hMessage).bind
    intro _ _ _
    exact Session.tracks_pure .none

theorem tracks_runLines {last last' : Option Executed}
    (hLast : Option.Rel (Executed.Agrees (l - m)) last last') (lines : List Line) :
    Session.Tracks l m SameMessage (List.Forall₂ (Executed.Agrees (l - m)))
      (runLines last lines) (runLines last' lines) := by
  induction lines generalizing last last' with
  | nil => exact Session.tracks_pure .nil
  | cons line lines ih =>
    rw [runLines, runLines]
    apply (tracks_runLine hLast line).bind
    intro now now' hNow
    cases hNow with
    | none =>
      apply (ih hLast).bind
      intro trace trace' hTrace
      exact Session.tracks_pure hTrace
    | some hAgrees =>
      apply (ih (.some hAgrees)).bind
      intro trace trace' hTrace
      exact Session.tracks_pure (.cons hAgrees hTrace)

def wordsOf (trace : List Executed) : Nat :=
  (trace.map fun x => x.instruction.words).sum

theorem wordsOf_append (trace rest : List Executed) :
    wordsOf (trace ++ rest) = wordsOf trace + wordsOf rest := by
  rw [wordsOf, List.map_append, List.sum_append, wordsOf, wordsOf]

theorem accesses_runLine {e t : Engine} (h : e.Ready) {last now : Option Executed} {line : Line}
    (hRun : (runLine last line).run e = (.ok now, t)) :
    t.Ready ∧ t.bus.accesses = e.bus.accesses + wordsOf now.toList := by
  -- A check leaves the engine as it is.
  have hRequire : ∀ {holds failure}, (do
      Session.require holds failure
      return none : Session RunError (Option Executed)).run e = (.ok now, t) →
      t.Ready ∧ t.bus.accesses = e.bus.accesses + wordsOf now.toList := by
    intro holds failure hCheck
    obtain ⟨_, u, hHolds, hNone⟩ := Session.run_bind_eq_ok_iff.mp hCheck
    cases hNone
    cases holds with
    | true =>
      cases hHolds
      exact ⟨h, rfl⟩
    | false => cases hHolds
  rw [runLine] at hRun
  cases hStatement : line.statement with
  | execute i =>
    rw [hStatement] at hRun
    obtain ⟨completion, u, hExecute, hNow⟩ := Session.run_bind_eq_ok_iff.mp hRun
    rw [Session.run_execute, Prod.mk.injEq] at hExecute
    cases hNow
    rw [← hExecute.2]
    exact ⟨h.ready_execute i, h.accesses_execute i⟩
  | preload address w =>
    rw [hStatement] at hRun
    obtain ⟨_, u, hUpdate, hNow⟩ := Session.run_bind_eq_ok_iff.mp hRun
    cases hUpdate
    cases hNow
    exact ⟨h.withMemory (·.writeWord address.toUInt64 w), rfl⟩
  | expectResult expected =>
    rw [hStatement] at hRun
    cases last with
    | none => cases hRun
    | some last => exact hRequire hRun
  | expectCar expected =>
    rw [hStatement] at hRun
    obtain ⟨_, u, hEngine, hCheck⟩ := Session.run_bind_eq_ok_iff.mp hRun
    cases hEngine
    exact hRequire hCheck

theorem accesses_runLines {e t : Engine} (h : e.Ready) {last : Option Executed} {lines : List Line}
    {trace : List Executed} (hRun : (runLines last lines).run e = (.ok trace, t)) :
    t.bus.accesses = e.bus.accesses + wordsOf trace := by
  induction lines generalizing e last trace with
  | nil =>
    cases hRun
    rfl
  | cons line lines ih =>
    rw [runLines] at hRun
    obtain ⟨now, u, hLine, hRest⟩ := Session.run_bind_eq_ok_iff.mp hRun
    obtain ⟨rest, v, hLines, hTrace⟩ := Session.run_bind_eq_ok_iff.mp hRest
    obtain ⟨hReady, hAccesses⟩ := accesses_runLine h hLine
    cases hTrace
    rw [wordsOf_append, ih hReady hLines, hAccesses, Nat.add_assoc]

/-- Two runs of a program with the same outcome over memories of latencies `l` and `m`, whose cycles
differ by one latency for each word that was moved. -/
structure SameRun (l m : Nat) (x y : Except RunError (List Executed) × Engine) : Prop where
  outcome : Session.Corresponds SameMessage (List.Forall₂ (Executed.Agrees (l - m))) x.1 y.1
  words : ∀ trace, x.1 = .ok trace → x.2.bus.reads + x.2.bus.writes = wordsOf trace
  controller : x.2.controller = y.2.controller
  memory : x.2.memory = y.2.memory
  reads : x.2.bus.reads = y.2.bus.reads
  writes : x.2.bus.writes = y.2.bus.writes
  cycles : (x.2.cycles : Int) - y.2.cycles = ((l : Int) - m) * (x.2.bus.reads + x.2.bus.writes)

/-- Two new engines over the same memory give a program the same outcome, whatever the latencies of
their buses. -/
theorem run_fresh_agrees (p : Program) (memory : Memory) {l m limit limit' : Nat}
    (hLimit : max 65535 (256 * (l + 2)) ≤ limit) (hOther : max 65535 (256 * (m + 2)) ≤ limit') :
    SameRun l m (p.run.run (Engine.fresh memory l limit))
      (p.run.run (Engine.fresh memory m limit')) := by
  have hFresh := Engine.inStep_fresh memory hLimit hOther
  obtain ⟨hOutcome, hInStep⟩ := tracks_runLines .none p.lines _ _ hFresh
  have hCycles := hInStep.cycles
  rw [Bus.accesses, Int.natCast_add] at hCycles
  exact {
    outcome := hOutcome
    words := by
      intro trace hTrace
      have hRun : (runLines none p.lines).run (Engine.fresh memory l limit) =
          (.ok trace, (p.run.run (Engine.fresh memory l limit)).2) := Prod.ext hTrace rfl
      exact (accesses_runLines hFresh.ready hRun).trans (Nat.zero_add _)
    controller := hInStep.agrees.controller
    memory := hInStep.agrees.bus.memory
    reads := hInStep.agrees.bus.reads
    writes := hInStep.agrees.bus.writes
    cycles := hCycles }

/-- Three words are moved, so a latency of three costs nine cycles more than none. -/
theorem run_fresh_agrees_burst :
    let p : Program := ⟨[⟨1, .preload 16 7⟩, ⟨2, .execute (.burstLoad 16 2)⟩,
      ⟨3, .execute (.load 16)⟩, ⟨4, .expectCar 7⟩, ⟨5, .execute .count⟩, ⟨6, .expectResult 3⟩]⟩
    let near := p.run.run (Engine.fresh .empty 0 65535)
    let far := p.run.run (Engine.fresh .empty 3 65535)
    max 65535 (256 * (0 + 2)) ≤ 65535 ∧ max 65535 (256 * (3 + 2)) ≤ 65535 ∧ SameRun 0 3 near far ∧
      near.1 = .ok [⟨2, .burstLoad 16 2, ⟨0, 4⟩⟩, ⟨3, .load 16, ⟨0, 1⟩⟩, ⟨5, .count, ⟨3, 0⟩⟩] ∧
      far.1 = .ok [⟨2, .burstLoad 16 2, ⟨0, 10⟩⟩, ⟨3, .load 16, ⟨0, 4⟩⟩, ⟨5, .count, ⟨3, 0⟩⟩] ∧
      near.2.cycles = 8 ∧ far.2.cycles = 17 := by
  intro p near far
  have hLimit : max 65535 (256 * (0 + 2)) ≤ 65535 := by decide
  have hOther : max 65535 (256 * (3 + 2)) ≤ 65535 := by decide
  have hSame : SameRun 0 3 near far := run_fresh_agrees p .empty hLimit hOther
  have hNear : near.2.cycles = 8 := by decide +kernel
  have hReads : near.2.bus.reads = 3 := by decide +kernel
  have hWrites : near.2.bus.writes = 0 := by decide +kernel
  have hFar : far.2.cycles = 17 := by
    have hCycles := hSame.cycles
    rw [hNear, hReads, hWrites] at hCycles
    omega
  exact ⟨hLimit, hOther, hSame, by decide +kernel, by decide +kernel, hNear, hFar⟩

end Program

end CellularCoprocessor
