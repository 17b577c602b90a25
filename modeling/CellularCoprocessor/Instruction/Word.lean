import CellularCoprocessor.Instruction.Basic

/-!
# Instruction words

A 32-bit instruction word has, from the lowest bit upwards, an opcode of seven bits, the
destination register (5), `funct3` (3), the two source registers (5 each) and `funct7` (7).
Coprocessor instructions use one opcode only.
-/

namespace CellularCoprocessor

/-- The `bits` bits of a word from position `shift` upwards. -/
def extractField (word : UInt32) (shift bits : Nat) : UInt32 :=
  UInt32.ofNat (word.toNat >>> shift % 1 <<< bits)

structure InstructionWord where
  funct7 : UInt8
  rs2 : UInt8
  rs1 : UInt8
  funct3 : UInt8
  rd : UInt8
  deriving DecidableEq

structure WrongOpcode where
  opcode : UInt32
  word : UInt32
  deriving DecidableEq

def WrongOpcode.message (e : WrongOpcode) : String :=
  let opcode := Text.hexUpper 2 e.opcode.toNat
  let word := Text.hexUpper 8 e.word.toNat
  s!"opcode 0x{opcode} is not the custom-0 opcode (word 0x{word})"

namespace InstructionWord

def customOpcode : UInt32 := 0x0B

def decode (word : UInt32) : Except WrongOpcode InstructionWord :=
  let opcode := extractField word 0 7
  if opcode = customOpcode then
    .ok {
      funct7 := (extractField word 25 7).toUInt8
      rs2 := (extractField word 20 5).toUInt8
      rs1 := (extractField word 15 5).toUInt8
      funct3 := (extractField word 12 3).toUInt8
      rd := (extractField word 7 5).toUInt8 }
  else .error ⟨opcode, word⟩

def operation (w : InstructionWord) : Operation :=
  .decode w.funct3 w.funct7

def withOperands (w : InstructionWord) (rs1 rs2 : UInt32) : Instruction :=
  ⟨w.funct3, w.funct7, rs1, rs2⟩

end InstructionWord

end CellularCoprocessor
