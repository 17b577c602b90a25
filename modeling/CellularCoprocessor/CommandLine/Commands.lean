import CellularCoprocessor.CommandLine.Arguments
import CellularCoprocessor.CommandLine.Display
import CellularCoprocessor.CommandLine.Host
import CellularCoprocessor.Settings
import CellularCoprocessor.Workload.Bandwidth
import CellularCoprocessor.Workload.Capture
import CellularCoprocessor.Workload.Sweep

/-!
# Commands

A call of the command line: it reads the settings and perhaps a program from its host, carries out
one command on a fresh engine, and answers with an exit status and the two outputs. The state is
displayed only after a command that succeeds.
-/

namespace CellularCoprocessor.CommandLine

structure Answer where
  status : UInt32
  out : String
  err : String
  deriving DecidableEq

def Answer.failure (out : String) (trail : List String) : Answer :=
  ⟨1, out, errorReport trail⟩

/-- What a command has written before it ended, how it failed if it did, and its engine. -/
structure Ending where
  out : String
  failure : Option (List String)
  engine : Engine

def Ending.answer (dumpState : Bool) (x : Ending) : Answer :=
  match x.failure with
  | some trail => .failure x.out trail
  | none => ⟨0, x.out ++ (if dumpState then stateDisplay x.engine else ""), ""⟩

/-- Runs a session whose value is displayed when it succeeds. -/
def conclude {ε α : Type} (session : Session ε α) (trail : ε → List String)
    (display : α → Engine → String) (out : String) (e : Engine) : Ending :=
  match session.run e with
  | (.ok a, e) => ⟨out ++ display a e, none, e⟩
  | (.error failure, e) => ⟨out, some (trail failure), e⟩

def sweep (e : Engine) : Ending :=
  conclude (Sweep.run .standard) (fun failure => [failure.message])
    (fun report _ => unlines [report.describe]) "" e

def capture (e : Engine) : Ending :=
  conclude (Capture.run .standard) (fun failure => [failure.message])
    (fun report _ => unlines [report.describe, "  verified against software model"]) "" e

def bandwidth (e : Engine) : Ending :=
  conclude (Bandwidth.run Bandwidth.standardSizes) (fun failure => [failure.message])
    (fun report _ => unlines [report.describe]) "" e

def traceDisplay (trace : List Program.Executed) (e : Engine) : String :=
  unlines (trace.map traceLine ++ ["", s!"{e.instructions} instructions, {e.cycles} cycles"])

def runFile (path : String) (source : Except ReadFault String) (e : Engine) : Ending :=
  match source with
  | .error fault => ⟨"", some [s!"Failed to read {path}", fault.message], e⟩
  | .ok source =>
    match Program.parse source with
    | .error fault => ⟨"", some (s!"in {path}" :: fault.trail), e⟩
    | .ok program =>
      conclude program.run Program.RunError.trail traceDisplay
        (unlines [s!"Loading: {path} ({program.instructionCount} instructions)", ""]) e

variable {m : Type → Type} [Monad m]

def userSettingsPath (host : Host m) : m (Option String) := do
  let preferred ← host.environment "XDG_CONFIG_HOME"
  let home ← host.home?
  return userSettingsPath? preferred home

/-- The settings in a file, if it can be read and makes sense. -/
def settingsAt (host : Host m) (path : String) : m (Option Settings) := do
  match ← host.fetch path with
  | .ok source => return Settings.ofText? source
  | .error _ => return none

/-- The settings of the user, from the file that the environment and the home directory lead to. -/
def userSettings (host : Host m) : m (Option Settings) := do
  match ← userSettingsPath host with
  | some path => settingsAt host path
  | none => return none

def localSettings (host : Host m) : m (Option Settings) :=
  settingsAt host localSettingsPath

/-- The settings that hold: those of the environment over those of the working directory over
those of the user. -/
def loadSettings (host : Host m) : m Settings := do
  let user ← userSettings host
  let here ← localSettings host
  let latency ← host.environment "CA_COPROC_MEM_LATENCY"
  let timeout ← host.environment "CA_COPROC_TIMEOUT"
  return (Settings.ofVariables latency timeout).withFallback
    ((here.getD .empty).withFallback (user.getD .empty))

def showSample (host : Host m) : m Answer := do
  match ← userSettingsPath host with
  | some path => return ⟨0, Settings.sample, unlines [s!"# user config location: {path}"]⟩
  | none => return ⟨0, Settings.sample, ""⟩

def carryOut (host : Host m) (dumpState : Bool) (e : Engine) : List String → m Answer
  | "run" :: path :: _ => do
    let source ← host.fetch path
    return (runFile path source e).answer dumpState
  | ["run"] => return .failure "" ["run needs a program file"]
  | "sweep" :: _ => return (sweep e).answer dumpState
  | "capture" :: _ => return (capture e).answer dumpState
  | "bandwidth" :: _ => return (bandwidth e).answer dumpState
  | other :: _ => return ⟨1, "", usage ++ errorReport [s!"unknown command '{other}'"]⟩
  | [] => return ⟨0, "", usage⟩

def answer (host : Host m) (args : List String) : m Answer := do
  match Arguments.read args with
  | .help => return ⟨0, "", usage⟩
  | .unknownOption flag => return .failure "" [s!"unknown option '{flag}'"]
  | .words _ [] => return ⟨0, "", usage⟩
  | .words _ ("config" :: _) => showSample host
  | .words dumpState ws => do
    let settings ← loadSettings host
    carryOut host dumpState settings.engine ws

end CellularCoprocessor.CommandLine
