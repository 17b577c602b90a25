import CellularCoprocessor.Engine.Execute

/-!
# Use of an engine

An engine is used through actions, and its memory may be accessed directly between them. Every
action is a sequence of moves: an instruction is presented, the clock ticks once, or the engine is
changed from outside. What every move preserves therefore holds of every reachable engine.
-/

namespace CellularCoprocessor.Engine

/-- What can be done with an engine. An access is any change of the memory, the counters of a
read included. -/
inductive Action where
  | issue (i : Instruction)
  | step
  | execute (i : Instruction)
  | executeWord (word rs1 rs2 : UInt32)
  | setCar (w : UInt64)
  | getCar
  | reset
  | access (f : Memory → Memory)
  | limit (timeout : Nat)

inductive Move where
  | issue (i : Instruction)
  | step
  | reset
  | access (f : Memory → Memory)
  | limit (timeout : Nat)
  /-- An instruction has run out of cycles. -/
  | expire

def move (e : Engine) : Move → Engine
  | .issue i =>
    match e.issue i with
    | .ok (_, issued) => issued
    | .error refusal => refusal.state
  | .step => e.step.2
  | .reset => e.reset
  | .access f => e.withMemory (f e.memory)
  | .limit timeout => { e with timeout }
  | .expire => { e with timeouts := e.timeouts + 1 }

def moveAll (e : Engine) (moves : List Move) : Engine :=
  moves.foldl move e

def act (e : Engine) : Action → Engine
  | .issue i => e.move (.issue i)
  | .step => e.step.2
  | .execute i => (e.execute i).2
  | .executeWord word rs1 rs2 => (e.executeWord word rs1 rs2).2
  | .setCar w => (e.setCar w).2
  | .getCar => e.getCar.2
  | .reset => e.reset
  | .access f => e.withMemory (f e.memory)
  | .limit timeout => { e with timeout }

def actAll (e : Engine) (actions : List Action) : Engine :=
  actions.foldl act e

def fresh (memory : Memory) (latency timeout : Nat) : Engine :=
  ofBus (.ofMemory memory latency) timeout

def Reachable (e : Engine) : Prop :=
  ∃ memory latency timeout actions, e = (fresh memory latency timeout).actAll actions

def awaitMoves : (budget : Nat) → Engine → List Move
  | 0, _ => [.expire]
  | budget + 1, e => .step :: if e.step.1.ready then [] else awaitMoves budget e.step.2

def executeMoves (e : Engine) (i : Instruction) : List Move :=
  .issue i :: match e.issue i with
    | .error _ => []
    | .ok (signals, issued) => if signals.ready then [] else awaitMoves issued.timeout issued

/-- The moves of one instruction and, if it completes, of a second one. -/
def executeTwoMoves (e : Engine) (i j : Instruction) : List Move :=
  match e.execute i with
  | (.error _, _) => e.executeMoves i
  | (.ok _, t) => e.executeMoves i ++ t.executeMoves j

def actionMoves (e : Engine) : Action → List Move
  | .issue i => [.issue i]
  | .step => [.step]
  | .execute i => e.executeMoves i
  | .executeWord word rs1 rs2 =>
    match InstructionWord.decode word with
    | .error _ => []
    | .ok w => e.executeMoves (w.withOperands rs1 rs2)
  | .setCar w => e.executeTwoMoves (.setLow w.toUInt32) (.setHigh (w >>> 32).toUInt32)
  | .getCar => e.executeTwoMoves .getLow .getHigh
  | .reset => [.reset]
  | .access f => [.access f]
  | .limit timeout => [.limit timeout]

def allMoves (e : Engine) : List Action → List Move
  | [] => []
  | action :: actions => e.actionMoves action ++ (e.act action).allMoves actions

@[simp] theorem moveAll_nil (e : Engine) : e.moveAll [] = e :=
  rfl

@[simp] theorem moveAll_cons (e : Engine) (m : Move) (moves : List Move) :
    e.moveAll (m :: moves) = (e.move m).moveAll moves :=
  rfl

theorem moveAll_append (e : Engine) (moves more : List Move) :
    e.moveAll (moves ++ more) = (e.moveAll moves).moveAll more :=
  List.foldl_append

theorem moveAll_awaitMoves (spent budget : Nat) (e : Engine) :
    e.moveAll (awaitMoves budget e) = (await spent budget e).2 := by
  induction budget generalizing spent e with
  | zero => rfl
  | succ budget ih =>
    rw [awaitMoves, await, moveAll_cons]
    cases hReady : e.step.1.ready with
    | true => simp [hReady, move]
    | false => simp [hReady, move, ih (spent + 1)]

theorem moveAll_executeMoves (e : Engine) (i : Instruction) :
    e.moveAll (e.executeMoves i) = (e.execute i).2 := by
  rw [executeMoves, execute, moveAll_cons]
  cases hIssue : e.issue i with
  | error refusal => simp [move, hIssue]
  | ok issued =>
    obtain ⟨signals, t⟩ := issued
    have hMove : e.move (.issue i) = t := by simp [move, hIssue]
    cases hReady : signals.ready with
    | true => simp [hReady, hMove]
    | false => simp [hReady, hMove, moveAll_awaitMoves 0]

theorem moveAll_executeTwoMoves (e : Engine) (i j : Instruction) :
    e.moveAll (e.executeTwoMoves i j) = match e.execute i with
      | (.error _, t) => t
      | (.ok _, t) => (t.execute j).2 := by
  have hFirst := moveAll_executeMoves e i
  rw [executeTwoMoves]
  rcases hExecute : e.execute i with ⟨outcome, t⟩
  rw [hExecute] at hFirst
  cases outcome with
  | error cause => exact hFirst
  | ok completion =>
    simp only [moveAll_append, hFirst, moveAll_executeMoves]

theorem moveAll_actionMoves (e : Engine) (action : Action) :
    e.moveAll (e.actionMoves action) = e.act action := by
  cases action with
  | execute i => exact moveAll_executeMoves e i
  | executeWord word rs1 rs2 =>
    simp only [actionMoves, act, executeWord]
    cases InstructionWord.decode word with
    | error refusal => rfl
    | ok w => exact moveAll_executeMoves e _
  | setCar w =>
    simp only [actionMoves, act, setCar, moveAll_executeTwoMoves]
    rcases e.execute (.setLow w.toUInt32) with ⟨_ | _, t⟩
    · rfl
    · simp only []
      rcases t.execute (.setHigh (w >>> 32).toUInt32) with ⟨_ | _, t'⟩ <;> rfl
  | getCar =>
    simp only [actionMoves, act, getCar, moveAll_executeTwoMoves]
    rcases e.execute .getLow with ⟨_ | _, t⟩
    · rfl
    · simp only []
      rcases t.execute .getHigh with ⟨_ | _, t'⟩ <;> rfl
  | _ => rfl

theorem moveAll_allMoves (e : Engine) (actions : List Action) :
    e.moveAll (e.allMoves actions) = e.actAll actions := by
  induction actions generalizing e with
  | nil => rfl
  | cons action actions ih =>
    rw [allMoves, moveAll_append, moveAll_actionMoves, ih]
    rfl

theorem moveAll_induction {P : Engine → Prop} (hMove : ∀ e m, P e → P (e.move m)) {e : Engine}
    (h : P e) (moves : List Move) : P (e.moveAll moves) := by
  induction moves generalizing e with
  | nil => exact h
  | cons m moves ih => exact ih (hMove e m h)

theorem Reachable.induction {P : Engine → Prop}
    (hFresh : ∀ memory latency timeout, P (fresh memory latency timeout))
    (hMove : ∀ e m, P e → P (e.move m)) {e : Engine} (h : e.Reachable) : P e := by
  obtain ⟨memory, latency, timeout, actions, rfl⟩ := h
  rw [← moveAll_allMoves]
  exact moveAll_induction hMove (hFresh memory latency timeout) _

end CellularCoprocessor.Engine
