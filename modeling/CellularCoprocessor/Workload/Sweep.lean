import CellularCoprocessor.Automaton.Reference
import CellularCoprocessor.Engine.Session
import CellularCoprocessor.Text.Fixed

/-!
# Parameter sweep

Every seed is evolved under every rule, twice. The first time each seed is loaded from memory for
each evolution; the second time all seeds are brought into the scratchpad by one burst and taken
from there. Each evolution is compared with the one on boards, and the cycles of both methods are
reported.
-/

namespace CellularCoprocessor.Sweep

structure Parameters where
  seeds : List UInt64
  rules : List UInt8
  /-- The passes of each evolution. -/
  steps : UInt16
  /-- Where the seeds are in memory. -/
  base : UInt32

def Parameters.standard : Parameters where
  seeds := (List.range 16).map fun i => 1 <<< UInt64.ofNat i
  rules := [30, 110, 90, 150]
  steps := 100
  base := 0x4000

inductive Failure where
  | tooManySeeds (n : Nat)
  | engine (cause : EngineError)
  | wrongEvolution (rule : UInt8) (seed got expected : UInt64)
  | burstFailed (result : UInt32)
  deriving DecidableEq

def Failure.message : Failure → String
  | tooManySeeds n => s!"{n} seeds do not fit in the {scratchpadSize}-word scratchpad"
  | engine cause => cause.message
  | wrongEvolution rule seed got expected =>
    s!"rule {rule.toNat} from 0x{Text.hex 16 seed.toNat}: got 0x{Text.hex 16 got.toNat}, " ++
      s!"expected 0x{Text.hex 16 expected.toNat}"
  | burstFailed result => s!"DMA load returned 0x{Text.hex 8 result.toNat}"

/-- Cycle counts, dispatches included. -/
structure Report where
  /-- The evolutions made by each method. -/
  evolutions : Nat
  reload : Nat
  burst : Nat
  /-- The cycles of the second method, the burst included. -/
  scratchpad : Nat
  deriving DecidableEq

namespace Report

def float (n : Nat) : Float :=
  (UInt64.ofNat n).toFloat

def speedup (r : Report) : Float :=
  if r.scratchpad = 0 then 0 else float r.reload / float r.scratchpad

/-- The number that 64 bits hold in two's complement. -/
def signed (n : Nat) : Int :=
  Int.bmod n UInt64.size

def saved (r : Report) : Int :=
  signed r.reload - signed r.scratchpad

def describe (r : Report) : String :=
  let reload := Text.alignRight 8 (toString r.reload)
  let scratchpad := Text.alignRight 8 (toString r.scratchpad)
  let speedup := Text.fixed 2 r.speedup
  s!"Parameter sweep: {r.evolutions} evolutions per method\n" ++
    s!"  reload every seed:   {reload} cycles\n" ++
    s!"  DMA once + reuse:    {scratchpad} cycles ({r.burst} for the burst)\n" ++
    s!"  speedup {speedup}x, {r.saved} cycles saved"

end Report

abbrev Run := Session Failure

def execute (i : Instruction) : Run Completion :=
  Session.execute .engine i

/-- Compares the present configuration with the evolution of a seed on boards. -/
def check (p : Parameters) (rule : UInt8) (seed : UInt64) : Run Unit := do
  let e ← Session.engine
  let expected := Automaton.ringReference rule p.steps.toNat seed
  Session.require (e.car == expected) (.wrongEvolution rule seed e.car expected)

/-- Fetches a seed, evolves it and gives the cycles of both. -/
def evolve (p : Parameters) (fetch : UInt32 → Instruction) (rule : UInt8) (index : UInt32)
    (seed : UInt64) : Run Nat := do
  let fetched ← execute (fetch index)
  let evolved ← execute (.step rule p.steps)
  check p rule seed
  return fetched.cost + evolved.cost

/-- Evolves the seeds under one rule; `index` is the place of the first one. -/
def evolveSeeds (p : Parameters) (fetch : UInt32 → Instruction) (rule : UInt8) (index : UInt32) :
    List UInt64 → Run Nat
  | [] => pure 0
  | seed :: seeds => do
    let first ← evolve p fetch rule index seed
    let rest ← evolveSeeds p fetch rule (index + 1) seeds
    return first + rest

def evolveAll (p : Parameters) (fetch : UInt32 → Instruction) : List UInt8 → Run Nat
  | [] => pure 0
  | rule :: rules => do
    let first ← evolveSeeds p fetch rule 0 p.seeds
    let rest ← evolveAll p fetch rules
    return first + rest

/-- The address of a seed. -/
def Parameters.address (p : Parameters) (index : UInt32) : UInt32 :=
  p.base + index * 8

def run (p : Parameters) : Run Report := do
  let n := p.seeds.length
  Session.require (n ≤ scratchpadSize) (.tooManySeeds n)
  Session.updateMemory (·.writeWords p.base.toUInt64 p.seeds)
  let reload ← evolveAll p (fun index => .load (p.address index)) p.rules
  let burst ← execute (.burstLoad p.base (UInt32.ofNat n))
  Session.require (burst.result == successResult) (.burstFailed burst.result)
  let reuse ← evolveAll p .scratchToCar p.rules
  return ⟨n * p.rules.length, reload, burst.cost, burst.cost + reuse⟩

end CellularCoprocessor.Sweep
