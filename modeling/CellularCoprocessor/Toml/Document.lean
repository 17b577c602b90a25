import CellularCoprocessor.Toml.Number
import CellularCoprocessor.Toml.Quoted

/-!
# Documents

A document is a list of lines. A line is blank, adds an item under a key, or is a header that opens
the table to which the lines below it add. A document is refused as a whole if one line cannot be
read or contradicts an earlier one.
-/

namespace CellularCoprocessor.Toml

open Reader

/-- Arrays and inline tables may be nested this deep. -/
def nestingLimit : Nat := 79

/-- A dotted key may have this many parts. -/
def keyLimit : Nat := 79

def isBareKey (c : Char) : Bool :=
  c.isAlphanum || c == '-' || c == '_'

def simpleKey : Reader String :=
  Quoted.key <|> do
    let cs ← many1 (satisfying isBareKey)
    return String.ofList cs

/-- A key of one or more parts with dots between them: the path to its table, and the last part. -/
def dottedKey : Reader (List String × String) := do
  let first :: rest ← separated (spaces *> simpleKey <* spaces) (char '.') | failure
  let parts := first :: rest
  if parts.length ≤ keyLimit then return (parts.dropLast, parts.getLast (by simp [parts]))
  else failure

def boolean : Reader Item :=
  (do literal ['t', 'r', 'u', 'e']; return .boolean true) <|>
    do literal ['f', 'a', 'l', 's', 'e']; return .boolean false

def scalar : Reader Item :=
  .text <$> Quoted.text <|> Number.item <|> boolean

/-- An array of items, perhaps with a comma after the last one. -/
def array (item : Reader Item) : Reader Item := do
  char '['
  gap
  let items ← optional (separated (gap *> item <* gap) (char ',') <* optional (char ','))
  gap
  char ']'
  return .array (items.getD [])

def pair (item : Reader Item) : Reader ((List String × String) × Item) := do
  let key ← dottedKey
  char '='
  spaces
  let item ← item
  return (key, item)

def collect : List ((List String × String) × Item) → Entries → Option Entries
  | [], entries => some entries
  | ((path, key), item) :: pairs, entries => do
    let entries ← Entries.insertDotted? path key item entries
    collect pairs entries

def inlineTable (item : Reader Item) : Reader Item := do
  char '\x7b'
  spaces
  let pairs ← optional (separated (pair item <* spaces) (char ','))
  char '\x7d'
  let entries ← collect (pairs.getD []) []
  return .table .inline entries

/-- An item that is nested at most `depth` levels deep. -/
def item : (depth : Nat) → Reader Item
  | 0 => scalar
  | depth + 1 => scalar <|> array (item depth) <|> inlineTable (item depth)

inductive Entry where
  | blank
  | item (path : List String) (key : String) (value : Item)
  | header (path : List String) (key : String)
  | repeatedHeader (path : List String) (key : String)

def header : Reader Entry := do
  char '['
  let (path, key) ← dottedKey
  char ']'
  return .header path key

def repeatedHeader : Reader Entry := do
  literal ['[', '[']
  let (path, key) ← dottedKey
  literal [']', ']']
  return .repeatedHeader path key

def keyed : Reader Entry := do
  let ((path, key), value) ← pair (item nestingLimit)
  return .item path key value

/-- One line with its end. The end of the text is no line. -/
def line : Reader Entry := do
  spaces
  let entry ← repeatedHeader <|> header <|> keyed <|> pure .blank
  lineEnd
  return entry

structure State where
  root : Entries
  /-- The path of the table that keys are added to. -/
  current : List String

def State.initial : State := ⟨[], []⟩

/-- Adds to the table under the last header. -/
def State.add (s : State) (path : List String) (key : String) (value : Item) : Option State := do
  let root ← Entries.update? .implied (fun _ entries => entries.insertDotted? path key value)
    s.current .header s.root
  return { s with root }

def State.enter (s : State) : Entry → Option State
  | .blank => some s
  | .item path key value => s.add path key value
  | .header path key => do
    let root ← Entries.openTable? path key s.root
    return ⟨root, path ++ [key]⟩
  | .repeatedHeader path key => do
    let root ← Entries.openElement? path key s.root
    return ⟨root, path ++ [key]⟩

/-- A byte order mark at the start of the text is not part of the document. -/
def withoutMark : List Char → List Char
  | '\ufeff' :: cs => cs
  | cs => cs

/-- Enters the lines of a text that has been read to its end. -/
def enterAll (s : State) : List Entry → Option State
  | [] => some s
  | entry :: entries => do
    let s ← s.enter entry
    enterAll s entries

def parse? (source : String) : Option Entries := do
  let (entries, rest) ← many line (withoutMark source.toList)
  if rest.isEmpty then
    let s ← enterAll .initial entries
    return s.root
  else none

end CellularCoprocessor.Toml
