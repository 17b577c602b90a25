import CellularCoprocessor.Engine.Execute
import CellularCoprocessor.Program.Run

/-!
# Displays

The texts of the command line: how to call it, the report of an error with its causes, the trace
of a program and the state of the coprocessor. Every line ends with a line feed.
-/

namespace CellularCoprocessor.CommandLine

def unlines (lines : List String) : String :=
  String.join (lines.map (· ++ "\n"))

def usage : String :=
  unlines [
    "Usage: ca-coproc <command> [--dump-state]",
    "",
    "Commands:",
    "  run <file>   execute a program and print each result",
    "  sweep        parameter sweep: reload vs DMA + scratchpad reuse",
    "  capture      time-series capture through the scratchpad",
    "  bandwidth    DMA load/store cycles for bursts of 8 to 256 words",
    "  config       print a sample configuration file",
    "",
    "Environment: CA_COPROC_MEM_LATENCY, CA_COPROC_TIMEOUT, RUST_LOG"]

/-- The causes of an error. Several are numbered. -/
def causeLines : List String → List String
  | [] => []
  | [cause] => ["", "Caused by:", "    " ++ cause]
  | causes =>
    "" :: "Caused by:" :: causes.zipIdx.map fun (cause, i) =>
      Text.alignRight 5 (toString i) ++ ": " ++ cause

/-- An error and the causes below it, the outermost first. -/
def errorReport : List String → String
  | [] => ""
  | outermost :: causes => unlines (("Error: " ++ outermost) :: causeLines causes)

def resultText (x : Program.Executed) : String :=
  if x.instruction.operation.returnsValue then
    "0x" ++ Text.hexUpper 8 x.completion.result.toNat
  else "-"

def traceLine (x : Program.Executed) : String :=
  let line := Text.alignRight 4 (toString x.line)
  let instruction := Text.alignLeft 28 x.instruction.describe
  let result := Text.alignLeft 10 (resultText x)
  s!"{line}  {instruction} -> {result}  ({x.completion.cycles} cycles)"

def scratchpadLine (entry : Nat × UInt64) : String :=
  s!"  [{Text.alignRight 3 (toString entry.1)}] 0x{Text.hexUpper 16 entry.2.toNat}"

def operationLines : List (String × Nat) → List String
  | [] => []
  | entries => "Operations:" :: entries.map fun (mnemonic, count) =>
    s!"  {Text.alignLeft 14 mnemonic} {count}"

def stateDisplay (e : Engine) : String :=
  let c := e.controller
  let used := c.registers.scratchpad.used
  unlines <|
    ["",
      "Coprocessor State",
      "=================",
      s!"State:   {c.phase.name}",
      s!"CAR:     0x{Text.hexUpper 16 c.registers.car.toNat}",
      s!"Rule:    {c.registers.rule.toNat}",
      s!"Steps:   {c.registers.steps.toNat}",
      s!"History: {c.registers.history.count} snapshot(s)",
      s!"DMA:     {c.registers.burst.describe}",
      s!"Scratchpad: {used.length} non-zero word(s)"] ++
    used.map scratchpadLine ++
    [s!"Memory:  {e.bus.reads} read(s), {e.bus.writes} write(s)"] ++
    operationLines e.completed.entries

end CellularCoprocessor.CommandLine
