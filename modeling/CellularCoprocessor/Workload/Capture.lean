import CellularCoprocessor.Automaton.Reference
import CellularCoprocessor.Engine.Session

/-!
# Time-series capture

A configuration evolves, and after every interval it is copied to the next scratchpad word. At the
end one burst stores all snapshots in memory, where they are read back and compared with the
evolution on boards.
-/

namespace CellularCoprocessor.Capture

structure Parameters where
  initial : UInt64
  rule : UInt8
  snapshots : UInt32
  /-- The passes between two snapshots. -/
  interval : UInt16
  /-- Where the snapshots are stored in memory. -/
  destination : UInt32

def Parameters.standard : Parameters where
  initial := 1
  rule := 30
  snapshots := 32
  interval := 10
  destination := 0x6000

inductive Failure where
  | tooManySnapshots (n : Nat)
  | engine (cause : EngineError)
  | burstFailed (result : UInt32)
  | wrongSnapshot (index : Nat) (stored expected : UInt64)
  deriving DecidableEq

def Failure.message : Failure → String
  | tooManySnapshots n => s!"{n} snapshots do not fit in the {scratchpadSize}-word scratchpad"
  | engine cause => cause.message
  | burstFailed result => s!"DMA store returned 0x{Text.hex 8 result.toNat}"
  | wrongSnapshot index stored expected =>
    s!"snapshot {index} mismatch: stored 0x{Text.hex 16 stored.toNat}, " ++
      s!"expected 0x{Text.hex 16 expected.toNat}"

structure Report where
  /-- The cycles of the evolutions and the copies. -/
  capture : Nat
  /-- The cycles of the burst. -/
  store : Nat
  snapshots : List UInt64
  deriving DecidableEq

namespace Report

def total (r : Report) : Nat :=
  r.capture + r.store

def describe (r : Report) : String :=
  let capture := Text.alignRight 8 (toString r.capture)
  let store := Text.alignRight 8 (toString r.store)
  let total := Text.alignRight 8 (toString r.total)
  s!"Time-series capture: {r.snapshots.length} snapshots\n" ++
    s!"  evolve + capture: {capture} cycles\n" ++
    s!"  DMA store:        {store} cycles\n" ++
    s!"  total:            {total} cycles"

end Report

abbrev Run := Session Failure

def execute (i : Instruction) : Run Completion :=
  Session.execute .engine i

/-- Takes `n` snapshots, the first one into the word `index`, and gives the cycles. -/
def capture (p : Parameters) (index : UInt32) : (n : Nat) → Run Nat
  | 0 => pure 0
  | n + 1 => do
    let evolved ← execute (.step p.rule p.interval)
    let copied ← execute (.carToScratch index)
    let rest ← capture p (index + 1) n
    return evolved.cost + copied.cost + rest

/-- Compares snapshots with the evolution from `s`; `index` is the place of the first one. -/
def check (p : Parameters) (index : Nat) (s : UInt64) : List UInt64 → Run Unit
  | [] => pure ()
  | stored :: rest => do
    let expected := Automaton.ringReference p.rule p.interval.toNat s
    Session.require (stored == expected) (.wrongSnapshot index stored expected)
    check p (index + 1) expected rest

def run (p : Parameters) : Run Report := do
  let n := p.snapshots.toNat
  Session.require (n ≤ scratchpadSize) (.tooManySnapshots n)
  Session.ofEngine .engine (·.setCar p.initial)
  let captured ← capture p 0 n
  let store ← execute (.burstStore p.destination p.snapshots)
  Session.require (store.result == successResult) (.burstFailed store.result)
  let e ← Session.engine
  let snapshots := e.memory.readWords p.destination.toUInt64 n
  check p 0 p.initial snapshots
  return ⟨captured, store.cost, snapshots⟩

end CellularCoprocessor.Capture
