import CellularCoprocessor.Register.History
import CellularCoprocessor.Burst.Descriptor
import CellularCoprocessor.Text.Digits

/-!
# Register file

The architectural state of the coprocessor: the cellular automaton register with the current
configuration, the scratchpad, the undo history, the latched rule, the passes still to be made and
the burst descriptor. The configuration is accessible in halves of 32 bits.
-/

namespace CellularCoprocessor

structure Registers where
  car : UInt64
  scratchpad : Scratchpad
  history : History
  rule : UInt8
  steps : UInt16
  burst : Burst
  deriving DecidableEq

namespace Registers

def zero : Registers := ⟨0, .blank, .empty, 0, 0, .none⟩

def carLow (r : Registers) : UInt32 :=
  r.car.toUInt32

def carHigh (r : Registers) : UInt32 :=
  (r.car >>> 32).toUInt32

def setCarHigh (r : Registers) (w : UInt32) : Registers :=
  { r with car := r.carLow.toUInt64 ||| w.toUInt64 <<< 32 }

def describe (r : Registers) : String :=
  let car := Text.hexUpper 16 r.car.toNat
  s!"RegisterFile \x7b car: 0x{car}, rule: {r.rule.toNat}, steps: {r.steps.toNat}, " ++
    s!"history: {r.history.count}, scratchpad: {r.scratchpad.describe}, " ++
    s!"dma: {r.burst.describe} \x7d"

end Registers

end CellularCoprocessor
