import CellularCoprocessor.Burst.Sequencer
import CellularCoprocessor.Controller.Basic

/-!
# Work cycles

Every cycle after the dispatch performs one unit of work for the instruction in flight: a pass of
an evolution, a look at the answer of the memory bus, or one phase of a burst.
-/

namespace CellularCoprocessor.Controller

def evolve (c : Controller) (kind : Evolution) : Controller :=
  { c with
    registers :=
      { c.registers with
        car := kind.pass c.registers.rule c.registers.car
        steps := c.registers.steps - 1 }
    counters := { c.counters with passes := c.counters.passes + 1 } }

def advanceEvolution (c : Controller) (kind : Evolution) : Signals × Controller :=
  let evolved := c.evolve kind
  if evolved.registers.steps = 0 then evolved.complete successResult else (.busy, evolved)

/-- Withdraws the request and, if it was a read, takes over its data. -/
def receive (c : Controller) (data : UInt64) : Controller :=
  match c.request with
  | some ⟨_, .read⟩ => { c.withCar data with request := none }
  | _ => { c with request := none }

def advanceAccess (c : Controller) (r : Response) : Signals × Controller :=
  if r.ready then (c.receive r.data).complete successResult else (.busy, c)

def finishBurst (c : Controller) : Signals × Controller :=
  { c with
    counters :=
      { c.counters with
        wordsMoved := c.counters.wordsMoved + c.registers.burst.length.toNat } }.complete
    successResult

def advanceBurst (c : Controller) (r : Response) : Signals × Controller :=
  let (activation, burst, scratchpad) := c.registers.burst.advance c.registers.scratchpad r
  let c := { c with registers := { c.registers with burst, scratchpad } }
  match activation with
  | .issued request => (.busy, c.present request)
  | .waiting => (.busy, c)
  | .committed last =>
    let c := { c with request := none }
    if last then c.finishBurst else (.busy, c)
  | .done => c.finishBurst

def advance (c : Controller) (r : Response) : Signals × Controller :=
  let c := c.lowerReady
  match c.phase with
  | .idle => (.busy, c)
  | .evolving kind => c.advanceEvolution kind
  | .accessing => c.advanceAccess r
  | .bursting => c.advanceBurst r

end CellularCoprocessor.Controller
