import CellularCoprocessor.Text.Natural

/-!
# Readers

A reader takes characters off the front of a text or refuses it. A refused alternative leaves the
text as it was.
-/

namespace CellularCoprocessor.Toml

abbrev Reader (α : Type) := StateT (List Char) Option α

namespace Reader

variable {α β : Type}

def next : Reader Char
  | [] => none
  | c :: cs => some (c, cs)

def satisfying (p : Char → Bool) : Reader Char := do
  let c ← next
  if p c then return c else failure

def char (c : Char) : Reader Unit :=
  discard (satisfying (· == c))

def literal : List Char → Reader Unit
  | [] => pure ()
  | c :: cs => do
    char c
    literal cs

def finished : Reader Unit
  | [] => some ((), [])
  | _ :: _ => none

/-- The characters in front of the first one that does not satisfy `p`. -/
def span (p : Char → Bool) : Reader (List Char) :=
  fun cs => some (cs.takeWhile p, cs.dropWhile p)

/-- Reads as often as the reader takes something off the text. -/
def repeated (r : Reader α) (cs : List Char) : List α × List Char :=
  match r cs with
  | none => ([], cs)
  | some (a, rest) =>
    if rest.length < cs.length then
      let (as, rest) := repeated r rest
      (a :: as, rest)
    else ([], cs)
  termination_by cs.length

def many (r : Reader α) : Reader (List α) :=
  fun cs => some (repeated r cs)

def many1 (r : Reader α) : Reader (List α) := do
  let a ← r
  let as ← many r
  return a :: as

/-- One or more readings with a separator between them. -/
def separated (r : Reader α) (separator : Reader β) : Reader (List α) := do
  let a ← r
  let as ← many (separator *> r)
  return a :: as

def times (n : Nat) (r : Reader α) : Reader (List α) :=
  match n with
  | 0 => pure []
  | n + 1 => do
    let a ← r
    let as ← times n r
    return a :: as

def isSpace (c : Char) : Bool :=
  c == ' ' || c == '\t'

/-- Characters of text: all but the control characters other than the tab. -/
def isText (c : Char) : Bool :=
  c == '\t' || (' ' ≤ c && c != '\x7f')

def isDigitOf (base : Nat) (c : Char) : Bool :=
  (Text.digit? base c).isSome

def number (base : Nat) (digits : List Char) : Nat :=
  (Text.digits? base digits).getD 0

def spaces : Reader Unit :=
  discard (span isSpace)

def newline : Reader Unit :=
  char '\n' <|> literal ['\r', '\n']

def comment : Reader Unit := do
  char '#'
  discard (span isText)

/-- What may follow on a line that is complete. -/
def lineEnd : Reader Unit := do
  spaces
  discard (optional comment)
  newline <|> finished

/-- Blank space that may extend over lines, with comments. -/
def gap : Reader Unit :=
  discard (many (discard (satisfying isSpace) <|> newline <|> comment *> newline))

end Reader

end CellularCoprocessor.Toml
