import CellularCoprocessor.Automaton.Pattern
import CellularCoprocessor.Controller.Basic
import CellularCoprocessor.Instruction.Basic

/-!
# Dispatch

The cycle in which an instruction is presented. An operation that needs no further cycle is
complete at the end of it; the others leave the idle phase. An instruction presented in any other
phase is refused.
-/

namespace CellularCoprocessor.Controller

/-- Setting the lower half clears the upper one and forgets the history. -/
def setLow (c : Controller) (w : UInt32) : Controller :=
  { c with registers :=
      { c.registers with car := w.toUInt64, history := c.registers.history.clear } }

def setHigh (c : Controller) (w : UInt32) : Controller :=
  { c with registers := c.registers.setCarHigh w }

def storeScratch (c : Controller) (index : UInt32) : Controller :=
  { c with registers :=
      { c.registers with scratchpad := c.registers.scratchpad.write index c.registers.car } }

def latchRule (c : Controller) (rule : UInt8) : Controller :=
  { c with registers := { c.registers with rule } }

def latchSteps (c : Controller) (steps : UInt16) : Controller :=
  { c with registers := { c.registers with steps } }

def snapshot (c : Controller) : Controller :=
  { c with
    registers := { c.registers with history := c.registers.history.push c.registers.car }
    counters := { c.counters with snapshots := c.counters.snapshots + 1 } }

/-- An evolution of no passes completes at once and is not recorded. -/
def beginEvolution (c : Controller) (kind : Evolution) (steps : UInt16) : Signals × Controller :=
  let latched := c.latchSteps steps
  if steps = 0 then latched.complete successResult
  else latched.snapshot.enter (.evolving kind)

def undo (c : Controller) : Controller :=
  match c.registers.history.pop? with
  | some (w, history) =>
    { c with
      registers := { c.registers with car := w, history }
      counters := { c.counters with undosApplied := c.counters.undosApplied + 1 } }
  | none => { c with counters := { c.counters with undosEmpty := c.counters.undosEmpty + 1 } }

def rejectBurst (c : Controller) : Controller :=
  { c with counters := { c.counters with burstsRejected := c.counters.burstsRejected + 1 } }

def latchBurst (c : Controller) (b : Burst) : Controller :=
  { c with registers := { c.registers with burst := b } }

def beginBurst (c : Controller) (direction : Direction) (base length : UInt32) :
    Signals × Controller :=
  if Burst.lengthFits length then
    (c.latchBurst (.start base length direction)).enter .bursting
  else c.rejectBurst.complete rejectedResult

/-- Carries out the dispatch cycle of an operation with the operands `a` and `b`. -/
def dispatch (c : Controller) (a b : UInt32) : Operation → Signals × Controller
  | .load => (c.present (.read a)).enter .accessing
  | .store => (c.present (.write a c.registers.car)).enter .accessing
  | .get .low => c.complete c.registers.carLow
  | .get .high => c.complete c.registers.carHigh
  | .set .low => (c.setLow a).complete successResult
  | .set .high => (c.setHigh a).complete successResult
  | .scratchToCar => (c.withCar (c.registers.scratchpad.read a)).complete successResult
  | .carToScratch => (c.storeScratch a).complete successResult
  | .step => (c.latchRule a.toUInt8).beginEvolution .elementary b.toUInt16
  | .find => c.complete (Automaton.findResult c.registers.car a)
  | .count => c.complete (UInt32.ofNat (Automaton.population c.registers.car))
  | .life => c.beginEvolution .life b.toUInt16
  | .undo => c.undo.complete successResult
  | .burstLoad => c.beginBurst .load a b
  | .burstStore => c.beginBurst .store a b

def issue (c : Controller) (i : Instruction) :
    Except (Refusal Controller) (Signals × Controller) :=
  if c.phase = .idle then
    .ok ({ c.lowerReady with operation := some i.operation }.dispatch i.rs1 i.rs2 i.operation)
  else .error ⟨⟨c.phase⟩, c⟩

end CellularCoprocessor.Controller
