import CellularCoprocessor.Engine.Basic
import CellularCoprocessor.Text.Blank
import CellularCoprocessor.Text.Natural
import CellularCoprocessor.Toml.Document

/-!
# Settings

The latency of the memory, the cycles an instruction may take, and whether evolutions are traced.
Each may be left open. Of several sources the later ones prevail, setting by setting; what none of
them sets has a default. A file that is not a document or sets one of the three to something else
than its kind counts as absent.
-/

namespace CellularCoprocessor

structure Settings where
  latency : Option Nat
  timeout : Option Nat
  trace : Option Bool
  deriving DecidableEq

namespace Settings

def defaultLatency : Nat := 10

def defaultTimeout : Nat := 100000

def empty : Settings := ⟨none, none, none⟩

/-- The settings of `s` where it has them, else those of `under`. -/
def withFallback (s under : Settings) : Settings :=
  ⟨s.latency <|> under.latency, s.timeout <|> under.timeout, s.trace <|> under.trace⟩

def latencyOrDefault (s : Settings) : Nat :=
  s.latency.getD defaultLatency

def timeoutOrDefault (s : Settings) : Nat :=
  s.timeout.getD defaultTimeout

def traceOrDefault (s : Settings) : Bool :=
  s.trace.getD false

def engine (s : Settings) : Engine :=
  .ofLatency s.latencyOrDefault s.timeoutOrDefault

/-- Reads an entry that may be missing. The outer option is `none` when it is of a wrong kind. -/
def entry? {α : Type} (read : Toml.Item → Option α) (key : String) (entries : Toml.Entries) :
    Option (Option α) :=
  match entries.find? key with
  | none => some none
  | some item => (read item).map some

def natural? (limit : Nat) : Toml.Item → Option Nat
  | .integer (.ofNat n) => if n < limit then some n else none
  | _ => none

def boolean? : Toml.Item → Option Bool
  | .boolean b => some b
  | _ => none

def ofText? (source : String) : Option Settings := do
  let entries ← Toml.parse? source
  let latency ← entry? (natural? UInt32.size) "memory_latency" entries
  let timeout ← entry? (natural? UInt64.size) "timeout_cycles" entries
  let trace ← entry? boolean? "trace_evolution" entries
  return ⟨latency, timeout, trace⟩

/-- A number in the environment. Anything else there is ignored. -/
def ofVariable? (limit : Nat) (raw : Option String) : Option Nat :=
  (raw.bind fun s => Text.natural? 10 (Text.trim s.toList)).filter (· < limit)

def ofVariables (latency timeout : Option String) : Settings :=
  ⟨ofVariable? UInt32.size latency, ofVariable? UInt64.size timeout, none⟩

def sampleLines : List String :=
  ["# ca-coproc configuration",
    "# Place this file at ~/.config/ca-coproc/config.toml or ./ca-coproc.toml",
    "",
    "# Cycles between a memory request and its ready pulse (default 10)",
    "memory_latency = 10",
    "",
    "# Give up on a single instruction after this many cycles (default 100000)",
    "timeout_cycles = 100000",
    "",
    "# Log CAR after every evolution pass at trace level (RUST_LOG=trace)",
    "# trace_evolution = true"]

/-- A settings file that sets the defaults. -/
def sample : String :=
  String.join (sampleLines.map (· ++ "\n"))

end Settings

end CellularCoprocessor
