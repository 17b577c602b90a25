import CellularCoprocessor.Engine.Session
import CellularCoprocessor.Text.Fixed

/-!
# Burst bandwidth

For each size a pattern of that many words is loaded into the scratchpad by one burst and stored
at another address by a second one. Memory is cleared before each size, so the words found at the
destination were put there by the burst of that size.
-/

namespace CellularCoprocessor.Bandwidth

def standardSizes : List UInt32 := [8, 16, 32, 64, 128, 256]

def source : UInt32 := 0x8000

def destination : UInt32 := 0x9000

inductive Failure where
  | tooLong (words : UInt32)
  | engine (cause : EngineError)
  | loadFailed (words result : UInt32)
  | storeFailed (words result : UInt32)
  | wrongWord (words : UInt32) (index : Nat) (stored expected : UInt64)
  deriving DecidableEq

def Failure.message : Failure → String
  | tooLong words =>
    s!"burst of {words.toNat} words exceeds the {scratchpadSize}-word scratchpad"
  | engine cause => cause.message
  | loadFailed words result =>
    s!"DMA load of {words.toNat} words returned 0x{Text.hex 8 result.toNat}"
  | storeFailed words result =>
    s!"DMA store of {words.toNat} words returned 0x{Text.hex 8 result.toNat}"
  | wrongWord words index stored expected =>
    s!"{words.toNat}-word burst: word {index} stored as 0x{Text.hex 16 stored.toNat}, " ++
      s!"expected 0x{Text.hex 16 expected.toNat}"

/-- The cycles of both bursts of one size, dispatches included. -/
structure Sample where
  words : UInt32
  load : Nat
  store : Nat
  deriving DecidableEq

namespace Sample

def bytes (s : Sample) : Nat :=
  s.words.toNat * 8

def perCycle (bytes cycles : Nat) : Float :=
  (UInt64.ofNat bytes).toFloat / (UInt64.ofNat cycles).toFloat

def loadRate (s : Sample) : Float :=
  perCycle s.bytes s.load

def storeRate (s : Sample) : Float :=
  perCycle s.bytes s.store

end Sample

structure Report where
  latency : Nat
  samples : List Sample

/-- A table row of five columns. -/
def row (words load store loadRate storeRate : String) : String :=
  "\n  " ++ " | ".intercalate
    [Text.alignRight 6 words, Text.alignRight 10 load, Text.alignRight 10 store,
      Text.alignRight 9 loadRate, Text.alignRight 9 storeRate]

def rule : String :=
  "\n  " ++ "-+-".intercalate
    ([6, 10, 10, 9, 9].map fun width => String.ofList (List.replicate width '-'))

def Sample.row (s : Sample) : String :=
  Bandwidth.row (toString s.words.toNat) (toString s.load) (toString s.store)
    (Text.fixed 3 s.loadRate) (Text.fixed 3 s.storeRate)

def Report.describe (r : Report) : String :=
  s!"DMA bandwidth: memory latency {r.latency} cycles" ++
    row "words" "load cyc" "store cyc" "load B/c" "store B/c" ++ rule ++
    String.join (r.samples.map Sample.row)

abbrev Run := Session Failure

def execute (i : Instruction) : Run Completion :=
  Session.execute .engine i

def pattern (n : Nat) : List UInt64 :=
  (List.range n).map fun i => 0xAA55AA5500000000 + UInt64.ofNat i

/-- The first place where the stored words differ from the expected ones. -/
def mismatch (words : UInt32) (index : Nat) : (stored expected : List UInt64) → Option Failure
  | s :: stored, w :: expected =>
    if s = w then mismatch words (index + 1) stored expected
    else some (.wrongWord words index s w)
  | _, _ => none

def measure (words : UInt32) : Run Sample := do
  Session.require (words.toNat ≤ scratchpadSize) (.tooLong words)
  let expected := pattern words.toNat
  Session.updateMemory fun _ => Memory.empty.writeWords source.toUInt64 expected
  let load ← execute (.burstLoad source words)
  Session.require (load.result == successResult) (.loadFailed words load.result)
  let store ← execute (.burstStore destination words)
  Session.require (store.result == successResult) (.storeFailed words store.result)
  let e ← Session.engine
  match mismatch words 0 (e.memory.readWords destination.toUInt64 words.toNat) expected with
  | some failure => Session.fail failure
  | none => return ⟨words, load.cost, store.cost⟩

def measureAll : List UInt32 → Run (List Sample)
  | [] => pure []
  | words :: sizes => do
    let sample ← measure words
    let samples ← measureAll sizes
    return sample :: samples

def run (sizes : List UInt32) : Run Report := do
  let e ← Session.engine
  let samples ← measureAll sizes
  return ⟨e.bus.latency, samples⟩

end CellularCoprocessor.Bandwidth
