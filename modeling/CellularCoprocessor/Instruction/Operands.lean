import CellularCoprocessor.Instruction.Basic

/-!
# Operands

In program text every operation takes a fixed list of operands. An operand is a quantity, and a
quantity has a name and a bound.
-/

namespace CellularCoprocessor

inductive Quantity where
  | operand
  | address
  | length
  | rule
  | stepCount
  | result
  | word
  deriving DecidableEq

namespace Quantity

def name : Quantity → String
  | operand => "operand"
  | address => "address"
  | length => "length"
  | rule => "rule"
  | stepCount => "step count"
  | result => "result"
  | word => "word"

/-- The values of a quantity are below its limit. -/
def limit : Quantity → Nat
  | operand | address | length | result => UInt32.size
  | rule => UInt8.size
  | stepCount => UInt16.size
  | word => UInt64.size

def fits (q : Quantity) (n : Nat) : Bool :=
  n < q.limit

end Quantity

namespace Operation

def all : List Operation :=
  [load, store, get .low, get .high, set .low, set .high, scratchToCar, carToScratch, step, find,
    count, life, undo, burstLoad, burstStore]

def ofMnemonic? (mnemonic : String) : Option Operation :=
  all.find? fun o => o.mnemonic == mnemonic

def operands : Operation → List Quantity
  | get _ | count | undo => []
  | load | store | set _ | scratchToCar | carToScratch | find => [.operand]
  | step => [.rule, .stepCount]
  | life => [.stepCount]
  | burstLoad | burstStore => [.address, .length]

end Operation

/-- The instruction of an operation whose operands have the values `a` and `b`, as far as it takes
that many. -/
def Instruction.ofOperation (a b : Nat) : Operation → Instruction
  | .load => .load (.ofNat a)
  | .store => .store (.ofNat a)
  | .get .low => .getLow
  | .get .high => .getHigh
  | .set .low => .setLow (.ofNat a)
  | .set .high => .setHigh (.ofNat a)
  | .scratchToCar => .scratchToCar (.ofNat a)
  | .carToScratch => .carToScratch (.ofNat a)
  | .step => .step (.ofNat a) (.ofNat b)
  | .find => .find (.ofNat a)
  | .count => .count
  | .life => .life (.ofNat a)
  | .undo => .undo
  | .burstLoad => .burstLoad (.ofNat a) (.ofNat b)
  | .burstStore => .burstStore (.ofNat a) (.ofNat b)

end CellularCoprocessor
