import CellularCoprocessor.CommandLine.Commands

/-!
# The program

Answers a call with the files and the environment of the system it runs on.
-/

namespace CellularCoprocessor.CommandLine

/-- The system's reason why a file cannot be read. -/
def faultOf : IO.Error → ReadFault
  | .noFileOrDirectory _ code details => .system details code.toNat
  | .inappropriateType _ code details => .system details code.toNat
  | .permissionDenied _ code details => .system details code.toNat
  | .invalidArgument _ code details => .system details code.toNat
  | .resourceExhausted _ code details => .system details code.toNat
  | .otherError code details => .system details code.toNat
  | other => .system (toString other) 5

def readSystemFile (path : String) : IO (Except ReadFault String) := do
  try
    let bytes ← IO.FS.readBinFile path
    match String.fromUTF8? bytes with
    | some text => return .ok text
    | none => return .error .notText
  catch e => return .error (faultOf e)

def systemHost : Host IO where
  fetch := readSystemFile
  environment := fun name => IO.getEnv name
  home? := do return (← IO.getEnv "HOME").filter (· ≠ "")

end CellularCoprocessor.CommandLine

def main (args : List String) : IO UInt32 := do
  let answer ← CellularCoprocessor.CommandLine.answer
    CellularCoprocessor.CommandLine.systemHost args
  IO.print answer.out
  IO.eprint answer.err
  return answer.status
