import CellularCoprocessor.Memory.Handshake
import CellularCoprocessor.Memory.Paged

/-!
# A bus of fixed latency

A request that the bus sees while it is free is latched and answered `latency` cycles later; with
latency zero it is answered in the same cycle. While a transaction is in flight the bus does not
look at the request presented to it.
-/

namespace CellularCoprocessor

structure InFlight where
  request : Request
  remaining : Nat
  deriving DecidableEq

structure Bus where
  memory : Memory
  latency : Nat
  inFlight : Option InFlight
  reads : Nat
  writes : Nat

namespace Bus

def ofMemory (memory : Memory) (latency : Nat) : Bus :=
  ⟨memory, latency, none, 0, 0⟩

def ofLatency (latency : Nat) : Bus :=
  ofMemory .empty latency

def isBusy (p : Bus) : Bool :=
  p.inFlight.isSome

def perform (p : Bus) (r : Request) : Response × Bus :=
  match r.access with
  | .read =>
    let (w, memory) := p.memory.readWord r.address.toUInt64
    (.answer w, { p with memory, inFlight := none, reads := p.reads + 1 })
  | .write w =>
    let memory := p.memory.writeWord r.address.toUInt64 w
    (.answer 0, { p with memory, inFlight := none, writes := p.writes + 1 })

/-- One cycle: the answer to the request presented in it. -/
def respond (p : Bus) (presented : Option Request) : Response × Bus :=
  match p.inFlight, presented with
  | some ⟨r, 0⟩, _ => p.perform r
  | some ⟨r, n + 1⟩, _ => (.idle, { p with inFlight := some ⟨r, n⟩ })
  | none, none => (.idle, p)
  | none, some r =>
    match p.latency with
    | 0 => p.perform r
    | n + 1 => (.idle, { p with inFlight := some ⟨r, n⟩ })

/-- Drops the transaction in flight. The memory and the counters stay. -/
def reset (p : Bus) : Bus :=
  { p with inFlight := none }

end Bus

end CellularCoprocessor
