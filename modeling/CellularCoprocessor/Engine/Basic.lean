import CellularCoprocessor.Controller.Advance
import CellularCoprocessor.Controller.Dispatch
import CellularCoprocessor.Engine.Tally
import CellularCoprocessor.Memory.Bus

/-!
# The engine

The engine clocks a controller together with its memory bus. In each cycle the bus answers the
request that the controller presents, and the controller advances with that answer. The dispatch
of an instruction is a cycle in which the bus does not take part.
-/

namespace CellularCoprocessor

structure Engine where
  controller : Controller
  bus : Bus
  /-- The cycles an instruction may take after its dispatch. -/
  timeout : Nat
  instructions : Nat
  cycles : Nat
  timeouts : Nat
  completed : Tally

namespace Engine

def ofBus (bus : Bus) (timeout : Nat) : Engine :=
  ⟨.initial, bus, timeout, 0, 0, 0, .empty⟩

def ofLatency (latency timeout : Nat) : Engine :=
  ofBus (.ofLatency latency) timeout

def car (e : Engine) : UInt64 :=
  e.controller.registers.car

def memory (e : Engine) : Memory :=
  e.bus.memory

def withMemory (e : Engine) (memory : Memory) : Engine :=
  { e with bus := { e.bus with memory } }

def tallied (t : Tally) : Option Operation → Tally
  | some o => t.add o
  | none => t

def retire (e : Engine) : Engine :=
  { e with
    instructions := e.instructions + 1
    completed := tallied e.completed e.controller.operation }

/-- Counts a cycle, and an instruction if the cycle completed one. -/
def settle (e : Engine) (signals : Signals) : Engine :=
  let counted := { e with cycles := e.cycles + 1 }
  if signals.ready then counted.retire else counted

def step (e : Engine) : Signals × Engine :=
  let (response, bus) := e.bus.respond e.controller.request
  let (signals, controller) := e.controller.advance response
  (signals, { e with bus, controller }.settle signals)

/-- Presents an instruction without waiting for it. A refused one is not counted as a cycle. -/
def issue (e : Engine) (i : Instruction) : Except (Refusal Engine) (Signals × Engine) :=
  match e.controller.issue i with
  | .ok (signals, controller) => .ok (signals, { e with controller }.settle signals)
  | .error refusal => .error ⟨refusal.toBusy, { e with controller := refusal.state }⟩

/-- Resets the controller and drops the transaction in flight. The memory and all counters of the
engine and the bus stay. -/
def reset (e : Engine) : Engine :=
  { e with controller := .initial, bus := e.bus.reset }

end Engine

end CellularCoprocessor
