import CellularCoprocessor.Memory.Word
import CellularCoprocessor.Text.Digits
import Std.Data.TreeMap

/-!
# Paged memory

Memory is a map from byte addresses to bytes that is zero until written. It is stored in pages of
4096 bytes, and a page exists once a byte of it has been written. Two counters record the bytes
written and the bytes read by counted word reads. Word accesses ignore the three lowest address
bits, and addresses wrap at `2 ^ 64`.
-/

namespace CellularCoprocessor

def pageSize : Nat := 4096

abbrev Page := Vector UInt8 pageSize

structure Memory where
  pages : Std.TreeMap Nat Page
  bytesWritten : Nat
  bytesRead : Nat

namespace Memory

def empty : Memory := ⟨∅, 0, 0⟩

def pageNumber (address : UInt64) : Nat :=
  address.toNat / pageSize

def pageOffset (address : UInt64) : Fin pageSize :=
  ⟨address.toNat % pageSize, Nat.mod_lt _ (by decide)⟩

def wordAddress (address : UInt64) : UInt64 :=
  address &&& ~~~7

def blankPage : Page := Vector.replicate pageSize 0

def readByte (m : Memory) (address : UInt64) : UInt8 :=
  match m.pages[pageNumber address]? with
  | some page => page[pageOffset address]
  | none => 0

/-- The number of bytes from an address to the end of its page. -/
def pageRoom (address : UInt64) : Nat :=
  pageSize - pageOffset address

theorem pageRoom_pos (address : UInt64) : 0 < pageRoom address :=
  Nat.sub_pos_of_lt (pageOffset address).isLt

/-- The page after bytes were copied over it from an offset on. -/
def overlay (page : Page) (offset : Nat) : List UInt8 → Page
  | [] => page
  | b :: bs => overlay (page.setIfInBounds offset b) (offset + 1) bs

/-- Stores bytes in the page of an address, without counting them. -/
def putPiece (m : Memory) (address : UInt64) (bs : List UInt8) : Memory :=
  { m with
    pages := m.pages.alter (pageNumber address) fun page =>
      some (overlay (page.getD blankPage) (pageOffset address) bs) }

/-- Stores bytes page after page, without counting them. The address that follows a piece wraps at
`2 ^ 64`; code that checks its sums for overflow stops after the last page, even with no byte left to
store. -/
def putBytes (m : Memory) (address : UInt64) (bs : List UInt8) : Memory :=
  if bs = [] then m
  else
    let n := min bs.length (pageRoom address)
    putBytes (m.putPiece address (bs.take n)) (address + UInt64.ofNat n) (bs.drop n)
termination_by bs.length
decreasing_by
  have hBytes : 0 < bs.length := List.length_pos_iff.mpr (by assumption)
  have hRoom := pageRoom_pos address
  rw [List.length_drop]
  omega

def writeBytes (m : Memory) (address : UInt64) (bs : List UInt8) : Memory :=
  let stored := m.putBytes address bs
  { stored with bytesWritten := stored.bytesWritten + bs.length }

/-- Bytes of the page of an address; those of a page that does not exist are zero. -/
def readPiece (m : Memory) (address : UInt64) (n : Nat) : List UInt8 :=
  match m.pages[pageNumber address]? with
  | some page => (page.extract (pageOffset address) (pageOffset address + n)).toList
  | none => List.replicate n 0

/-- Reads bytes page after page, with addresses that wrap as those of `putBytes` do. -/
def readBytes (m : Memory) (address : UInt64) (n : Nat) : List UInt8 :=
  if n = 0 then []
  else
    let count := min n (pageRoom address)
    m.readPiece address count ++ m.readBytes (address + UInt64.ofNat count) (n - count)
termination_by n
decreasing_by
  have hRoom := pageRoom_pos address
  omega

def writeWord (m : Memory) (address w : UInt64) : Memory :=
  m.writeBytes (wordAddress address) (bytesOfWord w)

/-- The word at an address, read without being counted. -/
def peekWord (m : Memory) (address : UInt64) : UInt64 :=
  wordOfBytes (m.readBytes (wordAddress address) 8)

def readWord (m : Memory) (address : UInt64) : UInt64 × Memory :=
  (m.peekWord address, { m with bytesRead := m.bytesRead + 8 })

def writeWords (m : Memory) (address : UInt64) : List UInt64 → Memory
  | [] => m
  | w :: ws => writeWords (m.writeWord address w) (address + 8) ws

def readWords (m : Memory) (address : UInt64) : Nat → List UInt64
  | 0 => []
  | n + 1 => m.peekWord address :: m.readWords (address + 8) n

def pageCount (m : Memory) : Nat :=
  m.pages.size

def clear (m : Memory) : Memory :=
  { m with pages := ∅, bytesWritten := 0, bytesRead := 0 }

/-- One line for each word: its address and its value. -/
def dumpFrom (m : Memory) (address : UInt64) : Nat → String
  | 0 => ""
  | n + 1 =>
    Text.hex 8 address.toNat ++ ": " ++ Text.hex 16 (m.peekWord address).toNat ++ "\n" ++
      m.dumpFrom (address + 8) n

def dump (m : Memory) (address : UInt64) (n : Nat) : String :=
  m.dumpFrom (wordAddress address) n

def describe (m : Memory) : String :=
  s!"HostMemory \x7b allocated_pages: {m.pageCount}, total_bytes_written: {m.bytesWritten}, " ++
    s!"total_bytes_read: {m.bytesRead} \x7d"

end Memory

end CellularCoprocessor
