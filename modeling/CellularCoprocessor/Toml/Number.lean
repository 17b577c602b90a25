import CellularCoprocessor.Toml.Item
import CellularCoprocessor.Toml.Reader

/-!
# Numbers and times

Decimal digits may be grouped by single underscores. Integers have 64 bits with sign; the other
bases have no sign. Of times only the form is read.
-/

namespace CellularCoprocessor.Toml.Number

open Reader

def digit : Reader Char :=
  satisfying (isDigitOf 10)

/-- Digits with single underscores between them. -/
def grouped (digit : Reader Char) : Reader (List Char) := do
  let first ← digit
  let rest ← many (digit <|> char '_' *> digit)
  return first :: rest

def sign : Reader Bool := do
  match ← optional (satisfying fun c => c == '+' || c == '-') with
  | some '-' => return true
  | _ => return false

def decimal : Reader (List Char) := do
  let digits ← grouped digit
  match digits with
  | '0' :: _ :: _ => failure
  | digits => return digits

/-- A number that 64 bits hold in two's complement. -/
def inRange (n : Int) : Reader Item :=
  if n.bmod UInt64.size = n then return .integer n else failure

def based (letter : Char) (base : Nat) : Reader Item := do
  literal ['0', letter]
  let digits ← grouped (satisfying (isDigitOf base))
  inRange (number base digits)

def integer : Reader Item :=
  based 'x' 16 <|> based 'o' 8 <|> based 'b' 2 <|> do
    let negative ← sign
    let digits ← decimal
    let n := number 10 digits
    inRange (if negative then -n else n)

def fraction : Reader (List Char) :=
  char '.' *> grouped digit

def exponent : Reader Int := do
  discard (satisfying fun c => c == 'e' || c == 'E')
  let negative ← sign
  let digits ← grouped digit
  let n : Int := number 10 digits
  return if negative then -n else n

/-- The double nearest to `digits * 10 ^ power`. -/
def scaled (digits : Nat) (power : Int) : Float :=
  if digits = 0 then 0
  else if power > 400 then 1 / 0
  else if power + (Nat.toDigits 10 digits).length < -400 then 0
  else Float.ofScientific digits (power < 0) power.natAbs

/-- A positive number too large for a double is refused, a negative one is minus infinity. -/
def float : Reader Item := do
  let negative ← sign
  let whole ← decimal
  let places ← optional fraction
  let power ← optional exponent
  if places.isNone ∧ power.isNone then failure
  let shown := places.getD []
  let x := scaled (number 10 (whole ++ shown)) (power.getD 0 - shown.length)
  if negative then return .float (-x)
  else if x.isInf then failure
  else return .float x

def special : Reader Item := do
  let negative ← sign
  let x ← (do literal ['i', 'n', 'f']; return 1 / 0) <|> (do literal ['n', 'a', 'n']; return 0 / 0)
  return .float (if negative then -x else x)

/-- A number of two or more digits within bounds. -/
def bounded (digits low high : Nat) : Reader Nat := do
  let ds ← times digits digit
  let n := number 10 ds
  if low ≤ n ∧ n ≤ high then return n else failure

def isLeapYear (year : Nat) : Bool :=
  year % 4 == 0 && (year % 100 != 0 || year % 400 == 0)

def daysIn (year month : Nat) : Nat :=
  if month = 2 then if isLeapYear year then 29 else 28
  else if month = 4 ∨ month = 6 ∨ month = 9 ∨ month = 11 then 30
  else 31

def date : Reader Unit := do
  let year ← bounded 4 0 9999
  char '-'
  let month ← bounded 2 1 12
  char '-'
  discard (bounded 2 1 (daysIn year month))

def clock : Reader Unit := do
  discard (bounded 2 0 23)
  char ':'
  discard (bounded 2 0 59)
  char ':'
  discard (bounded 2 0 60)
  discard (optional (char '.' *> many1 digit))

def offset : Reader Unit :=
  discard (satisfying fun c => c == 'Z' || c == 'z') <|> do
    discard (satisfying fun c => c == '+' || c == '-')
    discard (bounded 2 0 23)
    char ':'
    discard (bounded 2 0 59)

/-- A date, a date with a clock time and perhaps an offset, or a clock time. -/
def time : Reader Item := do
  clock <|> do
    date
    discard (optional do
      discard (satisfying fun c => c == 'T' || c == 't' || c == ' ')
      clock
      optional offset)
  return .time

def item : Reader Item :=
  time <|> float <|> special <|> integer

end CellularCoprocessor.Toml.Number
