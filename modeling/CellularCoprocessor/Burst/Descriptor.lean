import CellularCoprocessor.Register.Scratchpad

/-!
# Burst descriptors

A burst moves up to 256 words between consecutive addresses in memory and the first scratchpad
words. The descriptor names the next word to move and records whether a request for it is pending.
Addresses wrap at 32 bits.
-/

namespace CellularCoprocessor

inductive Direction where
  | load
  | store
  deriving DecidableEq

def Direction.name : Direction → String
  | load => "Load"
  | store => "Store"

structure Burst where
  base : UInt32
  length : UInt32
  /-- The next word to move. -/
  index : UInt32
  direction : Direction
  /-- A request for the next word has been issued and is not answered yet. -/
  pending : Bool
  deriving DecidableEq

namespace Burst

def start (base length : UInt32) (direction : Direction) : Burst :=
  ⟨base, length, 0, direction, false⟩

def none : Burst := start 0 0 .load

def address (b : Burst) : UInt32 :=
  b.base + b.index * 8

def isExhausted (b : Burst) : Bool :=
  b.length ≤ b.index

def remaining (b : Burst) : Nat :=
  b.length.toNat - b.index.toNat

/-- A burst may not be longer than the scratchpad. -/
def lengthFits (length : UInt32) : Bool :=
  length.toNat ≤ scratchpadSize

def describe (b : Burst) : String :=
  s!"DmaDescriptor \x7b base_addr: {b.base.toNat}, length: {b.length.toNat}, " ++
    s!"index: {b.index.toNat}, direction: {b.direction.name}, pending: {b.pending} \x7d"

end Burst

end CellularCoprocessor
