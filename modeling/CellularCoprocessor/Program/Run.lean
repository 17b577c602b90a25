import CellularCoprocessor.Engine.Session
import CellularCoprocessor.Program.Source

/-!
# Running a program

The statements are carried out in order. The run ends with the first instruction that the engine
does not complete and with the first check that fails; what came before keeps its effect. The
trace lists the completed instructions.
-/

namespace CellularCoprocessor.Program

structure Executed where
  line : Nat
  instruction : Instruction
  completion : Completion
  deriving DecidableEq

inductive RunError where
  | engine (line : Nat) (i : Instruction) (cause : EngineError)
  | noResult (line : Nat)
  | wrongResult (line : Nat) (expected : UInt32) (last : Executed)
  | wrongCar (line : Nat) (expected found : UInt64)
  deriving DecidableEq

def RunError.trail : RunError → List String
  | engine line i cause => [s!"line {line}: {i.describe}", cause.message]
  | noResult line => [s!"line {line}: expect before any instruction"]
  | wrongResult line expected last =>
    let wanted := Text.hex 8 expected.toNat
    let got := Text.hex 8 last.completion.result.toNat
    [s!"line {line}: expected 0x{wanted}, {last.instruction.describe} returned 0x{got}"]
  | wrongCar line expected found =>
    [s!"line {line}: expected CAR 0x{Text.hex 16 expected.toNat}, " ++
      s!"found 0x{Text.hex 16 found.toNat}"]

/-- Carries out one line. `last` is the last instruction completed before; the answer is the
instruction completed by this line. -/
def runLine (last : Option Executed) (line : Line) : Session RunError (Option Executed) :=
  match line.statement with
  | .execute i => do
    let completion ← Session.execute (.engine line.number i) i
    return some ⟨line.number, i, completion⟩
  | .preload address w => do
    Session.updateMemory (·.writeWord address.toUInt64 w)
    return none
  | .expectResult expected =>
    match last with
    | none => Session.fail (.noResult line.number)
    | some last => do
      Session.require (last.completion.result == expected)
        (.wrongResult line.number expected last)
      return none
  | .expectCar expected => do
    let e ← Session.engine
    Session.require (e.car == expected) (.wrongCar line.number expected e.car)
    return none

def runLines (last : Option Executed) : List Line → Session RunError (List Executed)
  | [] => pure []
  | line :: lines => do
    let now ← runLine last line
    let trace ← runLines (now <|> last) lines
    return now.toList ++ trace

def run (p : Program) : Session RunError (List Executed) :=
  runLines none p.lines

end CellularCoprocessor.Program
