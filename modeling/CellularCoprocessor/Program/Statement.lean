import CellularCoprocessor.Instruction.Operands
import CellularCoprocessor.Program.Numeral
import CellularCoprocessor.Text.Blank

/-!
# Statements

A statement is a head followed by numerals. The head is the mnemonic of an operation or one of
three directives, which preload a memory word, check the last result, and check the configuration.
Heads are read without regard to case. The number of operands is checked first, then every numeral
is read, and then the values are compared with their bounds.
-/

namespace CellularCoprocessor.Program

inductive Statement where
  | execute (i : Instruction)
  | preload (address : UInt32) (w : UInt64)
  | expectResult (result : UInt32)
  | expectCar (w : UInt64)
  deriving DecidableEq

inductive StatementError where
  | unknownMnemonic (mnemonic : String)
  | operandCount (mnemonic : String) (expected found : Nat)
  | invalidNumber (token : String)
  | outOfRange (quantity : Quantity) (value : Nat)
  deriving DecidableEq

def StatementError.message : StatementError → String
  | unknownMnemonic mnemonic => s!"unknown mnemonic '{mnemonic}'"
  | operandCount mnemonic expected found =>
    s!"{mnemonic} takes {expected} operand(s), found {found}"
  | invalidNumber token => s!"invalid number '{token}'"
  | outOfRange quantity value => s!"{quantity.name} 0x{Text.hex 1 value} out of range"

inductive Head where
  | operation (o : Operation)
  | preload
  | expectResult
  | expectCar
  deriving DecidableEq

namespace Head

def name : Head → String
  | operation o => o.mnemonic
  | preload => "mem"
  | expectResult => "expect"
  | expectCar => "expect_car"

def ofName? (name : String) : Option Head :=
  if name = "mem" then some preload
  else if name = "expect" then some expectResult
  else if name = "expect_car" then some expectCar
  else (Operation.ofMnemonic? name).map operation

def operands : Head → List Quantity
  | operation o => o.operands
  | preload => [.address, .word]
  | expectResult => [.result]
  | expectCar => [.word]

/-- The statement whose operands have the values `a` and `b`. -/
def statement (a b : Nat) : Head → Statement
  | operation o => .execute (.ofOperation a b o)
  | preload => .preload (.ofNat a) (.ofNat b)
  | expectResult => .expectResult (.ofNat a)
  | expectCar => .expectCar (.ofNat a)

end Head

def readNumber (token : List Char) : Except StatementError Nat :=
  match numeral? token with
  | some n => .ok n
  | none => .error (.invalidNumber (String.ofList token))

def readNumbers : List (List Char) → Except StatementError (List Nat)
  | [] => .ok []
  | token :: tokens => do
    let n ← readNumber token
    let ns ← readNumbers tokens
    return n :: ns

/-- Reports the first value beyond the bound of its quantity. -/
def checkBounds : List (Quantity × Nat) → Except StatementError Unit
  | [] => .ok ()
  | (q, n) :: rest => if q.fits n then checkBounds rest else .error (.outOfRange q n)

def readOperands (head : Head) (tokens : List (List Char)) : Except StatementError (List Nat) := do
  if tokens.length ≠ head.operands.length then
    throw (.operandCount head.name head.operands.length tokens.length)
  let values ← readNumbers tokens
  checkBounds (head.operands.zip values)
  return values

/-- The part of a line in front of a comment, which starts with `#` or `//`. -/
def beforeComment : List Char → List Char
  | [] => []
  | '#' :: _ => []
  | '/' :: '/' :: _ => []
  | c :: cs => c :: beforeComment cs

def readWords : List (List Char) → Except StatementError (Option Statement)
  | [] => .ok none
  | first :: tokens =>
    let name := String.ofList (first.map Char.toLower)
    match Head.ofName? name with
    | none => .error (.unknownMnemonic name)
    | some head => do
      let values ← readOperands head tokens
      return some (head.statement (values.getD 0 0) (values.getD 1 0))

/-- The statement on a line, if the line is not blank. -/
def Statement.read (line : List Char) : Except StatementError (Option Statement) :=
  readWords (Text.words (beforeComment line))

end CellularCoprocessor.Program
