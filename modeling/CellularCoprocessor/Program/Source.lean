import CellularCoprocessor.Program.Statement
import CellularCoprocessor.Text.Lines

/-!
# Program text

A program text has at most one statement on a line. Lines are numbered from one, blank lines and
comments included. The first line that cannot be read is reported with its number and its text.
-/

namespace CellularCoprocessor

namespace Program

structure Line where
  number : Nat
  statement : Statement
  deriving DecidableEq

structure SyntaxError where
  number : Nat
  text : String
  cause : StatementError
  deriving DecidableEq

/-- The line at fault, and what is wrong with it. -/
def SyntaxError.trail (e : SyntaxError) : List String :=
  [s!"line {e.number}: '{e.text}'", e.cause.message]

end Program

structure Program where
  lines : List Program.Line
  deriving DecidableEq

namespace Program

def readLine (number : Nat) (text : List Char) : Except SyntaxError (Option Line) :=
  match Statement.read text with
  | .ok statement => .ok (statement.map fun s => ⟨number, s⟩)
  | .error cause => .error ⟨number, String.ofList (Text.trim text), cause⟩

/-- Reads lines of which the first has the given number. -/
def readLines (number : Nat) : List (List Char) → Except SyntaxError (List Line)
  | [] => .ok []
  | text :: texts => do
    let line ← readLine number text
    let lines ← readLines (number + 1) texts
    return line.toList ++ lines

def parse (source : String) : Except SyntaxError Program :=
  (readLines 1 (Text.lines source.toList)).map Program.mk

def isInstruction (line : Line) : Bool :=
  match line.statement with
  | .execute _ => true
  | _ => false

def instructionCount (p : Program) : Nat :=
  p.lines.countP isInstruction

end Program

end CellularCoprocessor
