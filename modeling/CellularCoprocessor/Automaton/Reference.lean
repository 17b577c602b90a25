/-!
# Boards

A board lists its 64 cells as truth values, and one generation is read off the definition of the
automaton cell by cell. Nothing here is shared with the word-parallel passes, so an evolution
on boards checks an evolution on words. A word is unpacked once before the first generation and
packed once after the last.
-/

namespace CellularCoprocessor.Automaton

abbrev Board := Vector Bool 64

namespace Board

def ofWord (s : UInt64) : Board :=
  Vector.ofFn fun i => s.toNat.testBit i

/-- Position `i` weighs `2 ^ i`. -/
def toWord (b : Board) : UInt64 :=
  UInt64.ofNat (b.toList.foldr (fun alive n => 2 * n + alive.toNat) 0)

/-- The neighbours of position `i` on the ring of 64. -/
def previous (i : Fin 64) : Fin 64 := i - 1

def next (i : Fin 64) : Fin 64 := i + 1

/-- The number whose binary digits are the cell's left neighbour, the cell and its right one. -/
def ringNumber (b : Board) (i : Fin 64) : Nat :=
  4 * b[previous i].toNat + 2 * b[i].toNat + b[next i].toNat

def ringStep (rule : UInt8) (b : Board) : Board :=
  Vector.ofFn fun i => rule.toNat.testBit (ringNumber b i)

def column (i : Fin 64) : Fin 8 := ⟨i % 8, Nat.mod_lt _ (by decide)⟩

def row (i : Fin 64) : Fin 8 := ⟨i / 8, by omega⟩

def position (x y : Fin 8) : Fin 64 := ⟨8 * y + x, by omega⟩

/-- A cell and the eight around it, the cell itself included. -/
def block (x y : Fin 8) : List (Fin 64) :=
  [y - 1, y, y + 1].flatMap fun v => [x - 1, x, x + 1].map fun u => position u v

def torusStep (b : Board) : Board :=
  Vector.ofFn fun i =>
    let around := (block (column i) (row i)).countP fun j => j ≠ i ∧ b[j]
    if b[i] then around == 2 || around == 3 else around == 3

def iterate (generation : Board → Board) : Nat → Board → Board
  | 0, b => b
  | n + 1, b => iterate generation n (generation b)

end Board

/-- The configuration after `n` generations of an elementary rule, computed on boards. -/
def ringReference (rule : UInt8) (n : Nat) (s : UInt64) : UInt64 :=
  ((Board.ofWord s).iterate (Board.ringStep rule) n).toWord

/-- The configuration after `n` generations of Life, computed on boards. -/
def torusReference (n : Nat) (s : UInt64) : UInt64 :=
  ((Board.ofWord s).iterate Board.torusStep n).toWord

end CellularCoprocessor.Automaton
