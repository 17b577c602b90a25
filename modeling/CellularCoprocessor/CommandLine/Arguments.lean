/-!
# Arguments

Options may stand anywhere among the arguments. They are looked at in order: a call for help and
an unknown option each end the reading.
-/

namespace CellularCoprocessor.CommandLine

inductive Arguments where
  | help
  | unknownOption (flag : String)
  | words (dumpState : Bool) (ws : List String)
  deriving DecidableEq

namespace Arguments

/-- Puts a word in front of those that follow. -/
def addWord (w : String) : Arguments → Arguments
  | words dumpState ws => words dumpState (w :: ws)
  | other => other

def addDump : Arguments → Arguments
  | words _ ws => words true ws
  | other => other

def read : List String → Arguments
  | [] => words false []
  | a :: rest =>
    if a = "--dump-state" then (read rest).addDump
    else if a = "-h" ∨ a = "--help" then help
    else if a.startsWith "-" then unknownOption a
    else (read rest).addWord a

end Arguments

end CellularCoprocessor.CommandLine
