/-!
# Operations

The low three bits of `funct3` select a class and the low three bits of `funct7` modify it. The
modifiers overlap, so the alternative operations of a class are looked for before its base
operation. All other bits are ignored.
-/

namespace CellularCoprocessor

inductive Half where
  | low
  | high
  deriving DecidableEq

def Half.select (upper : Bool) : Half :=
  if upper then .high else .low

inductive Operation where
  | load
  | store
  | get (half : Half)
  | set (half : Half)
  | scratchToCar
  | carToScratch
  | step
  | find
  | count
  | life
  | undo
  | burstLoad
  | burstStore
  deriving DecidableEq

namespace Operation

def mnemonic : Operation → String
  | load => "ca_load"
  | store => "ca_store"
  | get .low => "ca_get"
  | get .high => "ca_get_u"
  | set .low => "ca_set"
  | set .high => "ca_set_u"
  | scratchToCar => "ca_sp_load"
  | carToScratch => "ca_sp_store"
  | step => "ca_step"
  | find => "ca_find"
  | count => "ca_count"
  | life => "ca_life"
  | undo => "ca_undo"
  | burstLoad => "ca_dma_load"
  | burstStore => "ca_dma_store"

/-- Whether the operation may need cycles after its dispatch. -/
def isMultiCycle : Operation → Bool
  | load | store | step | life | burstLoad | burstStore => true
  | _ => false

/-- Whether the result of the operation has a meaning. -/
def returnsValue : Operation → Bool
  | get _ | find | count | burstLoad | burstStore => true
  | _ => false

structure Modifiers where
  alternate : Bool
  upper : Bool
  transfer : Bool

def Modifiers.ofFunct7 (funct7 : UInt8) : Modifiers :=
  ⟨funct7.toNat.testBit 0, funct7.toNat.testBit 1, funct7.toNat.testBit 2⟩

/-- Reading takes the upper half under either of two modifiers, writing under one only. -/
def ofClass (m : Modifiers) : Nat → Operation
  | 0 => if m.alternate then burstLoad else load
  | 1 => if m.alternate then burstStore else store
  | 2 => if m.transfer then scratchToCar else get (.select (m.upper || m.alternate))
  | 3 => if m.transfer then carToScratch else set (.select m.upper)
  | 4 => step
  | 5 => find
  | 6 => count
  | _ => if m.alternate then undo else life

def decode (funct3 funct7 : UInt8) : Operation :=
  ofClass (.ofFunct7 funct7) (funct3.toNat % 8)

end Operation

end CellularCoprocessor
