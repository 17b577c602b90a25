import CellularCoprocessor.Engine.Basic
import CellularCoprocessor.Instruction.Word

/-!
# Running instructions to completion

An instruction is issued and the engine clocked until it is complete or its cycles are used up. An
instruction that runs out of cycles stays in flight.
-/

namespace CellularCoprocessor

inductive EngineError where
  | busy (refusal : Busy)
  | wrongOpcode (refusal : WrongOpcode)
  | timeout (cycles : Nat)
  deriving DecidableEq

def EngineError.message : EngineError → String
  | busy refusal => refusal.message
  | wrongOpcode refusal => refusal.message
  | timeout cycles => s!"instruction did not complete within {cycles} cycles"

structure Completion where
  result : UInt32
  /-- The cycles after the dispatch. -/
  cycles : Nat
  deriving DecidableEq

/-- All cycles of a completed instruction, its dispatch included. -/
def Completion.cost (c : Completion) : Nat :=
  c.cycles + 1

namespace Engine

/-- Clocks the engine until an instruction is complete, for at most `budget` cycles. `spent` is the
number of cycles before. -/
def await (spent : Nat) : (budget : Nat) → Engine → Except EngineError Completion × Engine
  | 0, e => (.error (.timeout spent), { e with timeouts := e.timeouts + 1 })
  | budget + 1, e =>
    let (signals, e) := e.step
    if signals.ready then (.ok ⟨signals.result, spent + 1⟩, e)
    else await (spent + 1) budget e

def execute (e : Engine) (i : Instruction) : Except EngineError Completion × Engine :=
  match e.issue i with
  | .error refusal => (.error (.busy refusal.toBusy), refusal.state)
  | .ok (signals, e) =>
    if signals.ready then (.ok ⟨signals.result, 0⟩, e) else await 0 e.timeout e

def executeWord (e : Engine) (word rs1 rs2 : UInt32) : Except EngineError Completion × Engine :=
  match InstructionWord.decode word with
  | .error refusal => (.error (.wrongOpcode refusal), e)
  | .ok w => e.execute (w.withOperands rs1 rs2)

/-- Sets all cells, the lower half first. -/
def setCar (e : Engine) (w : UInt64) : Except EngineError Unit × Engine :=
  match e.execute (.setLow w.toUInt32) with
  | (.error cause, e) => (.error cause, e)
  | (.ok _, e) =>
    match e.execute (.setHigh (w >>> 32).toUInt32) with
    | (.error cause, e) => (.error cause, e)
    | (.ok _, e) => (.ok (), e)

/-- Reads all cells, the lower half first. -/
def getCar (e : Engine) : Except EngineError UInt64 × Engine :=
  match e.execute .getLow with
  | (.error cause, e) => (.error cause, e)
  | (.ok low, e) =>
    match e.execute .getHigh with
    | (.error cause, e) => (.error cause, e)
    | (.ok high, e) => (.ok (high.result.toUInt64 <<< 32 ||| low.result.toUInt64), e)

end Engine

end CellularCoprocessor
