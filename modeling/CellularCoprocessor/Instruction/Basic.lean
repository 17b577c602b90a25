import CellularCoprocessor.Instruction.Operation
import CellularCoprocessor.Text.Digits

/-!
# Instructions

An instruction is the selector and modifier fields together with the values of the two source
registers. There is one constructor for each operation.
-/

namespace CellularCoprocessor

structure Instruction where
  funct3 : UInt8
  funct7 : UInt8
  rs1 : UInt32
  rs2 : UInt32
  deriving DecidableEq

namespace Instruction

def operation (i : Instruction) : Operation :=
  .decode i.funct3 i.funct7

def load (address : UInt32) : Instruction := ⟨0, 0, address, 0⟩

def store (address : UInt32) : Instruction := ⟨1, 0, address, 0⟩

def getLow : Instruction := ⟨2, 0, 0, 0⟩

def getHigh : Instruction := ⟨2, 1, 0, 0⟩

def setLow (w : UInt32) : Instruction := ⟨3, 0, w, 0⟩

def setHigh (w : UInt32) : Instruction := ⟨3, 2, w, 0⟩

def scratchToCar (index : UInt32) : Instruction := ⟨2, 4, index, 0⟩

def carToScratch (index : UInt32) : Instruction := ⟨3, 4, index, 0⟩

def step (rule : UInt8) (steps : UInt16) : Instruction := ⟨4, 0, rule.toUInt32, steps.toUInt32⟩

def find (pattern : UInt32) : Instruction := ⟨5, 0, pattern, 0⟩

def count : Instruction := ⟨6, 0, 0, 0⟩

def life (steps : UInt16) : Instruction := ⟨7, 0, 0, steps.toUInt32⟩

def undo : Instruction := ⟨7, 1, 0, 0⟩

def burstLoad (base length : UInt32) : Instruction := ⟨0, 1, base, length⟩

def burstStore (base length : UInt32) : Instruction := ⟨1, 1, base, length⟩

def describe (i : Instruction) : String :=
  s!"{i.operation.mnemonic} rs1=0x{Text.hex 8 i.rs1.toNat} rs2=0x{Text.hex 8 i.rs2.toNat}"

end Instruction

end CellularCoprocessor
