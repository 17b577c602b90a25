/-!
# Scratchpad

Local storage of 256 words. An index is reduced modulo 256, so every index names a word.
-/

namespace CellularCoprocessor

def scratchpadSize : Nat := 256

structure Scratchpad where
  words : Vector UInt64 scratchpadSize
  deriving DecidableEq

namespace Scratchpad

def blank : Scratchpad := ⟨Vector.replicate scratchpadSize 0⟩

def slot (index : UInt32) : Fin scratchpadSize :=
  ⟨index.toNat % scratchpadSize, Nat.mod_lt _ (by decide)⟩

def read (s : Scratchpad) (index : UInt32) : UInt64 :=
  s.words[slot index]

def write (s : Scratchpad) (index : UInt32) (w : UInt64) : Scratchpad :=
  ⟨s.words.set (slot index) w (slot index).isLt⟩

theorem read_write (s : Scratchpad) (i j : UInt32) (w : UInt64) :
    (s.write i w).read j = if slot i = slot j then w else s.read j := by
  by_cases h : slot i = slot j
  · simp [read, write, h]
  · have hval : (slot i).val ≠ (slot j).val := fun he => h (Fin.ext he)
    simp [read, write, h, hval]

/-- The words that are not zero, each after its index, in ascending order. -/
def used (s : Scratchpad) : List (Nat × UInt64) :=
  ((List.range scratchpadSize).zip s.words.toList).filter fun entry => entry.2 != 0

def describe (s : Scratchpad) : String :=
  s!"Scratchpad \x7b {s.used.length} of {scratchpadSize} non-zero \x7d"

end Scratchpad

end CellularCoprocessor
