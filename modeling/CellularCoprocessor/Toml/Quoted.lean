import CellularCoprocessor.Toml.Reader

/-!
# Quoted text

Text between double quotes has escapes, text between single quotes has none. Three quotes open
text that may extend over lines; a line end right after them does not belong to it, and up to two
quotes in a row do.
-/

namespace CellularCoprocessor.Toml.Quoted

open Reader

/-- A character given by its code, which must not be a surrogate. -/
def code (digits : Nat) : Reader (List Char) := do
  let ds ← times digits (satisfying (isDigitOf 16))
  let n := number 16 ds
  if n.isValidChar then return [Char.ofNat n] else failure

def escape : Reader (List Char) := do
  char '\\'
  match ← next with
  | 'b' => return ['\x08']
  | 't' => return ['\t']
  | 'n' => return ['\n']
  | 'f' => return ['\x0c']
  | 'r' => return ['\r']
  | '"' => return ['"']
  | '\\' => return ['\\']
  | 'u' => code 4
  | 'U' => code 8
  | _ => failure

/-- One character of text other than the quote and, where there are escapes, the backslash. -/
def plain (quote : Char) (escapes : Bool) : Reader (List Char) := do
  let c ← satisfying fun c => isText c && c != quote && !(escapes && c == '\\')
  return [c]

def unit (quote : Char) (escapes : Bool) : Reader (List Char) :=
  plain quote escapes <|> if escapes then escape else failure

def singleLine (quote : Char) (escapes : Bool) : Reader String := do
  char quote
  let parts ← many (unit quote escapes)
  char quote
  return String.ofList parts.flatten

def lineBreak : Reader (List Char) := do
  newline
  return ['\n']

/-- A backslash at the end of a line joins it with the next text. -/
def joint : Reader (List Char) := do
  char '\\'
  spaces
  newline
  discard (many (discard (satisfying isSpace) <|> newline))
  return []

/-- One or two quotes that something else follows. -/
def innerQuotes (quote : Char) : Reader (List Char) := fun cs =>
  match cs.takeWhile (· == quote), cs.dropWhile (· == quote) with
  | [q], rest => some ([q], rest)
  | [q, r], rest => some ([q, r], rest)
  | _, _ => none

/-- Three closing quotes, with up to two quotes of the text in front of them. -/
def closing (quote : Char) : Reader (List Char) := do
  let quotes ← span (· == quote)
  if 3 ≤ quotes.length ∧ quotes.length ≤ 5 then return quotes.drop 3 else failure

def multiLine (quote : Char) (escapes : Bool) : Reader String := do
  literal [quote, quote, quote]
  discard (optional newline)
  let joints := if escapes then joint else failure
  let parts ← many (unit quote escapes <|> lineBreak <|> joints <|> innerQuotes quote)
  let last ← closing quote
  return String.ofList (parts.flatten ++ last)

/-- Quoted text on one line, as in keys. -/
def key : Reader String :=
  singleLine '"' true <|> singleLine '\'' false

def text : Reader String :=
  multiLine '"' true <|> singleLine '"' true <|> multiLine '\'' false <|> singleLine '\'' false

end CellularCoprocessor.Toml.Quoted
