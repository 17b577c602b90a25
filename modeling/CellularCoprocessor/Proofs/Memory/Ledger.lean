import CellularCoprocessor.Proofs.Memory.Bytes

/-!
# A memory and the ledger of its writes

The ledger of a memory lists the bytes written since the memory was last cleared. It is kept byte by
byte and not by pages, and all that can be read from the memory or its counters follows from it.
Addresses wrap at the end of the address space on both sides.
-/

namespace CellularCoprocessor

namespace Memory

/-- The uses of a memory that may change it. -/
inductive Command where
  | writeBytes (address : UInt64) (bs : List UInt8)
  | writeWord (address w : UInt64)
  | writeWords (address : UInt64) (ws : List UInt64)
  | readWord (address : UInt64)
  | clear

def perform (m : Memory) : Command → Memory
  | .writeBytes address bs => m.writeBytes address bs
  | .writeWord address w => m.writeWord address w
  | .writeWords address ws => m.writeWords address ws
  | .readWord address => (m.readWord address).2
  | .clear => m.clear

def performAll (m : Memory) (cs : List Command) : Memory :=
  cs.foldl perform m

def bytesIn (w : UInt64) : List UInt8 :=
  (List.range 8).map fun i => UInt8.ofNat (w.toNat / 256 ^ i)

theorem bytesOfWord_eq (w : UInt64) : bytesOfWord w = bytesIn w := by
  apply List.ext_getElem?
  intro i
  by_cases hi : i < 8
  · rw [bytesOfWord, getElem?_lowBytes 8 w hi, bytesIn, List.getElem?_map,
      List.getElem?_range hi, Option.map_some]
  · have hBytes : (bytesOfWord w).length = 8 := length_lowBytes 8 w
    rw [List.getElem?_eq_none (by omega), List.getElem?_eq_none (by simp [bytesIn]; omega)]

theorem length_bytesIn (w : UInt64) : (bytesIn w).length = 8 := by
  rw [bytesIn, List.length_map, List.length_range]

theorem wordAddress_add_eight (a : UInt64) : wordAddress (a + 8) = wordAddress a + 8 := by
  apply UInt64.toNat_inj.mp
  have ha := a.toNat_lt
  rw [toNat_wordAddress, UInt64.toNat_add, UInt64.toNat_add, toNat_wordAddress]
  simp only [UInt64.reduceToNat]
  omega

end Memory

/-- The bytes written to a memory, the latest first, and the number of its counted reads. -/
structure Ledger where
  written : List (UInt64 × UInt8) := []
  wordsRead : Nat := 0

namespace Ledger

open Memory (Command wordAddress bytesIn placed)

/-- The byte written to an address last. -/
def byte (l : Ledger) (address : UInt64) : UInt8 :=
  (l.written.lookup address).getD 0

def pages (l : Ledger) : Finset Nat :=
  (l.written.map fun x => x.1.toNat / 4096).toFinset

def write (l : Ledger) (address : UInt64) (bs : List UInt8) : Ledger :=
  { l with written := (placed address bs).reverse ++ l.written }

def perform (l : Ledger) : Command → Ledger
  | .writeBytes address bs => l.write address bs
  | .writeWord address w => l.write (address &&& ~~~7) (bytesIn w)
  | .writeWords address ws => l.write (address &&& ~~~7) (ws.flatMap bytesIn)
  | .readWord _ => { l with wordsRead := l.wordsRead + 1 }
  | .clear => {}

def performAll (l : Ledger) (cs : List Command) : Ledger :=
  cs.foldl perform l

theorem write_append (l : Ledger) (a : UInt64) (bs cs : List UInt8) :
    l.write a (bs ++ cs) = (l.write a bs).write (a + UInt64.ofNat bs.length) cs := by
  rw [write, Memory.placed_append, List.reverse_append, List.append_assoc]
  rfl

theorem mem_pages {l : Ledger} {n : Nat} :
    n ∈ l.pages ↔ ∃ x ∈ l.written, Memory.pageNumber x.1 = n := by
  rw [pages, List.mem_toFinset, List.mem_map]
  rfl

end Ledger

namespace Memory

/-- A memory that holds what its ledger says. -/
structure Records (m : Memory) (l : Ledger) : Prop where
  bytes : m.readByte = l.byte
  pages : ∀ n, n ∈ m.pages ↔ n ∈ l.pages
  bytesWritten : m.bytesWritten = l.written.length
  bytesRead : m.bytesRead = 8 * l.wordsRead

variable {m : Memory} {l : Ledger}

theorem records_empty : Records .empty {} where
  bytes := by
    funext a
    simp [readByte, empty, Ledger.byte]
  pages n := by simp [empty, Ledger.pages]
  bytesWritten := rfl
  bytesRead := rfl

theorem Records.writeBytes (h : Records m l) (a : UInt64) (bs : List UInt8) :
    Records (m.writeBytes a bs) (l.write a bs) where
  bytes := by
    funext b
    rw [readByte_writeBytes, readByte_putBytes_eq_lookup, h.bytes, Ledger.byte, Ledger.byte,
      Ledger.write, List.lookup_append, Option.getD_or]
  pages n := by
    rw [Ledger.mem_pages]
    simp only [Memory.writeBytes, mem_pages_putBytes, h.pages, Ledger.mem_pages, Ledger.write,
      List.mem_append, List.mem_reverse, or_and_right, exists_or]
  bytesWritten := by
    rw [Memory.writeBytes, (counters_putBytes m a bs).1, h.bytesWritten, Ledger.write,
      List.length_append, List.length_reverse, length_placed, Nat.add_comm]
  bytesRead := by
    rw [Memory.writeBytes, (counters_putBytes m a bs).2, h.bytesRead, Ledger.write]

theorem Records.writeWord (h : Records m l) (a w : UInt64) :
    Records (m.writeWord a w) (l.write (wordAddress a) (bytesIn w)) := by
  rw [Memory.writeWord, bytesOfWord_eq]
  exact h.writeBytes (wordAddress a) (bytesIn w)

theorem Records.writeWords (h : Records m l) (a : UInt64) (ws : List UInt64) :
    Records (m.writeWords a ws) (l.write (wordAddress a) (ws.flatMap bytesIn)) := by
  induction ws generalizing m l a with
  | nil => exact h
  | cons w ws ih =>
    have hRest := ih (h.writeWord a w) (a + 8)
    rw [wordAddress_add_eight] at hRest
    rw [List.flatMap_cons, Ledger.write_append, length_bytesIn]
    exact hRest

theorem Records.perform (h : Records m l) (c : Command) :
    Records (m.perform c) (l.perform c) := by
  cases c with
  | writeBytes address bs => exact h.writeBytes address bs
  | writeWord address w => exact h.writeWord address w
  | writeWords address ws => exact h.writeWords address ws
  | readWord address =>
    exact ⟨h.bytes, h.pages, h.bytesWritten, congrArg (· + 8) h.bytesRead⟩
  | clear => exact records_empty

theorem Records.performAll (h : Records m l) (cs : List Command) :
    Records (m.performAll cs) (l.performAll cs) := by
  induction cs generalizing m l with
  | nil => exact h
  | cons c cs ih => exact ih (h.perform c)

theorem Records.readBytes_eq (h : Records m l) (a : UInt64) (n : Nat) :
    m.readBytes a n = (List.range n).map fun i => l.byte (a + UInt64.ofNat i) := by
  rw [readBytes_eq_map, h.bytes]

theorem Records.peekWord_eq (h : Records m l) (a : UInt64) : m.peekWord a = wordIn l.byte a := by
  rw [Memory.peekWord_eq, h.bytes]

theorem Records.pageCount_eq (h : Records m l) : m.pageCount = l.pages.card := by
  have hPages : l.pages = m.pages.keys.toFinset := by
    ext n
    rw [List.mem_toFinset, Std.TreeMap.mem_keys, h.pages]
  rw [hPages, List.toFinset_card_of_nodup Std.TreeMap.nodup_keys, Std.TreeMap.length_keys, pageCount]

theorem word_after (a : UInt64) (i : Nat) :
    a + UInt64.ofNat (8 * (i + 1)) = a + 8 + UInt64.ofNat (8 * i) := by
  rw [Nat.mul_succ, Nat.add_comm, UInt64.ofNat_add, ← UInt64.add_assoc]
  rfl

theorem map_range_words {α : Type} (f : UInt64 → α) (a : UInt64) (n : Nat) :
    (List.range (n + 1)).map (fun i => f (a + UInt64.ofNat (8 * i))) =
      f a :: (List.range n).map fun i => f (a + 8 + UInt64.ofNat (8 * i)) := by
  have hFirst : a + UInt64.ofNat (8 * 0) = a := UInt64.add_zero a
  simp only [List.range_succ_eq_map, List.map_cons, List.map_map, Function.comp_def,
    Nat.succ_eq_add_one, word_after, hFirst]

theorem readWords_eq_map (m : Memory) (a : UInt64) (n : Nat) :
    m.readWords a n = (List.range n).map fun i => m.peekWord (a + UInt64.ofNat (8 * i)) := by
  induction n generalizing a with
  | zero => rfl
  | succ n ih => rw [readWords, ih, map_range_words]

def dumpLine (address w : UInt64) : String :=
  Text.hex 8 address.toNat ++ ": " ++ Text.hex 16 w.toNat ++ "\n"

theorem dumpFrom_eq_join (m : Memory) (a : UInt64) (n : Nat) :
    m.dumpFrom a n = String.join ((List.range n).map fun i =>
      dumpLine (a + UInt64.ofNat (8 * i)) (m.peekWord (a + UInt64.ofNat (8 * i)))) := by
  induction n generalizing a with
  | zero => rfl
  | succ n ih =>
    rw [dumpFrom, ih, map_range_words fun b => dumpLine b (m.peekWord b), String.join_cons]
    rfl

/-- All that can be read from a memory, as its ledger has it. A counted read changes its own counter
and nothing else; the other reads leave the memory as it is. -/
structure Shows (m : Memory) (l : Ledger) : Prop where
  readBytes : ∀ a n, m.readBytes a n = (List.range n).map fun i => l.byte (a + UInt64.ofNat i)
  peekWord : ∀ a, m.peekWord a = wordIn l.byte a
  readWord : ∀ a, m.readWord a = (wordIn l.byte a, { m with bytesRead := m.bytesRead + 8 })
  readWords : ∀ a n, m.readWords a n =
    (List.range n).map fun i => wordIn l.byte (a + UInt64.ofNat (8 * i))
  dump : ∀ a n, m.dump a n = String.join ((List.range n).map fun i =>
    dumpLine (wordAddress a + UInt64.ofNat (8 * i))
      (wordIn l.byte (wordAddress a + UInt64.ofNat (8 * i))))
  pageCount : m.pageCount = l.pages.card
  bytesWritten : m.bytesWritten = l.written.length
  bytesRead : m.bytesRead = 8 * l.wordsRead

/-- A memory is a flat map from addresses to bytes: after any uses of a new memory, what can be read
from it is what the ledger of these uses has. -/
theorem performAll_empty_shows (cs : List Command) :
    Shows (performAll .empty cs) (Ledger.performAll {} cs) := by
  have h := records_empty.performAll cs
  exact {
    readBytes := h.readBytes_eq
    peekWord := h.peekWord_eq
    readWord := fun a => Prod.ext (h.peekWord_eq a) rfl
    readWords := by
      intro a n
      simp only [readWords_eq_map, h.peekWord_eq]
    dump := by
      intro a n
      simp only [Memory.dump, dumpFrom_eq_join, h.peekWord_eq]
    pageCount := h.pageCount_eq
    bytesWritten := h.bytesWritten
    bytesRead := h.bytesRead }

end Memory

end CellularCoprocessor
