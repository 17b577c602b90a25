/-!
# Items

A document is a table of items. A table remembers how it came about, because that decides what may
still be added to it: a header may open a table that was only implied by longer headers, a dotted
key may extend tables that dotted keys made, and an inline table is complete where it is written.
-/

namespace CellularCoprocessor.Toml

inductive Origin where
  | header
  | implied
  | dotted
  | inline
  deriving DecidableEq

inductive Item where
  | text (s : String)
  | integer (n : Int)
  | float (x : Float)
  | boolean (b : Bool)
  | time
  | array (items : List Item)
  | table (origin : Origin) (entries : List (String × Item))
  /-- The tables under a repeated header, the last one first. -/
  | tables (elements : List (List (String × Item)))

/-- The entries of a table in the order of their first mention. -/
abbrev Entries := List (String × Item)

namespace Entries

def find? (key : String) : Entries → Option Item
  | [] => none
  | (k, item) :: entries => if k = key then some item else find? key entries

/-- Sets the item of a key; a new key goes to the end. -/
def put (key : String) (item : Item) : Entries → Entries
  | [] => [(key, item)]
  | (k, old) :: entries =>
    if k = key then (k, item) :: entries else (k, old) :: put key item entries

/-- Adds an item under a key that is not in use. -/
def insert? (key : String) (item : Item) (entries : Entries) : Option Entries :=
  match find? key entries with
  | none => some (put key item entries)
  | some _ => none

/-- Changes the table at the end of a path. Tables missing on the way are made with the origin
`made`. Of repeated tables the last one is followed. A path of dotted keys does not lead through a
table that was defined by a header. -/
def update? (made : Origin) (change : Origin → Entries → Option Entries) :
    (path : List String) → Origin → Entries → Option Entries
  | [], origin, entries => change origin entries
  | key :: path, _, entries =>
    match find? key entries with
    | none => do
      let inner ← update? made change path made []
      return put key (.table made inner) entries
    | some (.table .inline _) => none
    | some (.table origin inner) =>
      if made = .dotted ∧ origin = .header then none
      else do
        let inner ← update? made change path origin inner
        return put key (.table origin inner) entries
    | some (.tables (last :: earlier)) => do
      let last ← update? made change path .header last
      return put key (.tables (last :: earlier)) entries
    | some _ => none

/-- Adds an item under a dotted key. Its table is the one at hand, or one that dotted keys made. -/
def insertDotted? (path : List String) (key : String) (item : Item) : Entries → Option Entries :=
  update? .dotted (fun origin entries =>
    if path ≠ [] ∧ origin ≠ .dotted then none else insert? key item entries) path .header

def openTable? (path : List String) (key : String) : Entries → Option Entries :=
  update? .implied (fun _ entries =>
    match find? key entries with
    | none => some (put key (.table .header []) entries)
    | some (.table .implied inner) => some (put key (.table .header inner) entries)
    | some _ => none) path .header

/-- Opens one more table under a repeated header. -/
def openElement? (path : List String) (key : String) : Entries → Option Entries :=
  update? .implied (fun _ entries =>
    match find? key entries with
    | none => some (put key (.tables [[]]) entries)
    | some (.tables elements) => some (put key (.tables ([] :: elements)) entries)
    | some _ => none) path .header

end Entries

end CellularCoprocessor.Toml
