import CellularCoprocessor.Automaton.Evolution
import CellularCoprocessor.Instruction.Operation
import CellularCoprocessor.Memory.Handshake
import CellularCoprocessor.Register.File

/-!
# Controller state

The controller owns the registers. It is in one of four phases and accepts an instruction in the
idle phase only. Its output holds the signals of the last cycle.
-/

namespace CellularCoprocessor

inductive Phase where
  | idle
  | evolving (kind : Evolution)
  | accessing
  | bursting
  deriving DecidableEq

def Phase.name : Phase → String
  | idle => "Idle"
  | evolving .elementary => "Evolve"
  | evolving .life => "LifeEvolve"
  | accessing => "MemOp"
  | bursting => "DmaXfer"

/-- The result is meaningful only while `ready` is set. -/
structure Signals where
  ready : Bool
  result : UInt32
  deriving DecidableEq

namespace Signals

def busy : Signals := ⟨false, 0⟩

def done (result : UInt32) : Signals := ⟨true, result⟩

end Signals

/-- The result of an operation that has nothing to report. -/
def successResult : UInt32 := 0

/-- The result of a burst longer than the scratchpad. -/
def rejectedResult : UInt32 := 0xFFFFFFFF

structure Counters where
  passes : Nat
  snapshots : Nat
  undosApplied : Nat
  undosEmpty : Nat
  wordsMoved : Nat
  burstsRejected : Nat
  deriving DecidableEq

def Counters.zero : Counters := ⟨0, 0, 0, 0, 0, 0⟩

structure Controller where
  registers : Registers
  phase : Phase
  /-- The request presented on the memory bus. -/
  request : Option Request
  /-- The operation in flight, or the last one completed. -/
  operation : Option Operation
  /-- The ready flag of the last cycle and the last result. -/
  output : Signals
  counters : Counters
  deriving DecidableEq

structure Busy where
  phase : Phase
  deriving DecidableEq

def Busy.message (e : Busy) : String :=
  s!"controller busy in state {e.phase.name}; instructions are only accepted in Idle"

/-- A refusal, with what it leaves of the machine. -/
structure Refusal (σ : Type) extends Busy where
  state : σ
  deriving DecidableEq

namespace Controller

/-- All registers are zero. -/
def initial : Controller := ⟨.zero, .idle, none, none, .busy, .zero⟩

def isIdle (c : Controller) : Bool :=
  c.phase = .idle

def complete (c : Controller) (result : UInt32) : Signals × Controller :=
  (.done result, { c with phase := .idle, output := .done result })

def enter (c : Controller) (phase : Phase) : Signals × Controller :=
  (.busy, { c with phase })

def withCar (c : Controller) (w : UInt64) : Controller :=
  { c with registers := { c.registers with car := w } }

def present (c : Controller) (r : Request) : Controller :=
  { c with request := some r }

/-- At the start of a cycle the ready flag is down. -/
def lowerReady (c : Controller) : Controller :=
  { c with output := { c.output with ready := false } }

end Controller

end CellularCoprocessor
