import CellularCoprocessor.Proofs.Machine.Bursts
import CellularCoprocessor.Proofs.Memory.Ledger

/-!
# Direct access to the words of a burst

Words written to the memory directly lie at 64-bit addresses, those of a burst at addresses that
wrap at 32 bits. The two agree as long as the last word ends within the 32-bit space. Past its end
a burst goes on at the first addresses and direct access does not.
-/

namespace CellularCoprocessor

namespace Memory

theorem readByte_writeWords_congr {m other : Memory} (h : m.readByte = other.readByte) (a : UInt64)
    (ws : List UInt64) : (m.writeWords a ws).readByte = (other.writeWords a ws).readByte := by
  induction ws generalizing m other a with
  | nil => exact h
  | cons w ws ih =>
    have hFirst : (m.writeWord a w).readByte = (other.writeWord a w).readByte := by
      rw [readByte_writeWord, readByte_writeWord, h]
    exact ih hFirst (a + 8)

theorem readByte_writeWords_of_ne (m : Memory) {a b : UInt64} {ws : List UInt64}
    (h : ∀ i < ws.length, b.toNat / 8 ≠ (a + UInt64.ofNat (8 * i)).toNat / 8) :
    (m.writeWords a ws).readByte b = m.readByte b := by
  induction ws generalizing m a with
  | nil => rfl
  | cons w ws ih =>
    have hFirst := h 0 (Nat.succ_pos _)
    rw [Nat.mul_zero, show a + UInt64.ofNat 0 = a from UInt64.add_zero a] at hFirst
    rw [writeWords, ih, readByte_writeWord, replaceWord, if_neg hFirst]
    intro i hi
    rw [← word_after]
    exact h (i + 1) (Nat.succ_lt_succ hi)

theorem wordIn_writeWords (m : Memory) (a : UInt64) {ws : List UInt64}
    (hLength : ws.length < 2 ^ 60) {i : Nat} (hi : i < ws.length) :
    wordIn (m.writeWords a ws).readByte (a + UInt64.ofNat (8 * i)) = ws[i] := by
  induction ws generalizing m a i with
  | nil => exact absurd hi (Nat.not_lt_zero i)
  | cons w ws ih =>
    rw [List.length_cons] at hLength hi
    rw [writeWords]
    cases i with
    | zero =>
      have hFirst : a + UInt64.ofNat (8 * 0) = a := UInt64.add_zero a
      have hKept : wordIn ((m.writeWord a w).writeWords (a + 8) ws).readByte a =
          wordIn (m.writeWord a w).readByte a := by
        apply wordIn_congr
        intro b hb
        apply readByte_writeWords_of_ne
        intro j hj
        rw [hb, UInt64.toNat_add, UInt64.toNat_add, UInt64.toNat_ofNat']
        simp only [UInt64.reduceToNat]
        omega
      rw [hFirst, hKept, readByte_writeWord, wordIn_replaceWord, List.getElem_cons_zero]
    | succ i =>
      rw [word_after]
      exact ih _ _ (by omega) (by omega)

end Memory

namespace Architecture

variable {base : UInt32} {n i : Nat}

theorem toUInt64_add_mul_eight (base index : UInt32) :
    (base + index * 8).toUInt64 = burstAddress base index.toNat :=
  (burstAddress_index ⟨base, 0, index, .load, false⟩).symm

/-- The words from a base on that are `inside` up to the end of the 32-bit space and `past` it
others. -/
def upToEnd (base : UInt32) (inside past : Nat → UInt64) (i : Nat) : UInt64 :=
  if (base &&& ~~~7).toNat + 8 * i < 2 ^ 32 then inside i else past i

theorem upToEnd_of_fits (hFits : (base &&& ~~~7).toNat + 8 * n ≤ 2 ^ 32) (hi : i < n)
    (inside past : Nat → UInt64) : upToEnd base inside past i = inside i :=
  if_pos (by omega)

theorem upToEnd_of_end (hEnd : (base &&& ~~~7).toNat + 8 * n = 2 ^ 32)
    (inside past : Nat → UInt64) : upToEnd base inside past n = past n :=
  if_neg (by omega)

/-- What a burst finds where words were written directly. Past the end it goes on at the first
addresses, and none of them is there. -/
theorem wordIn_writeWords {ws : List UInt64} (hLength : ws.length ≤ 256) (hi : i < ws.length)
    (m : Memory) :
    Memory.wordIn (m.writeWords base.toUInt64 ws).readByte (burstAddress base i) =
      upToEnd base (ws.getD · 0) (fun i => Memory.wordIn m.readByte (burstAddress base i)) i := by
  have hBase := base.toNat_lt
  have hPlace := burstAddress_div base i
  rw [upToEnd, Memory.toNat_and_not_seven]
  split
  · rename_i hInside
    rw [List.getD_eq_getElem ws 0 hi, ← Memory.wordIn_writeWords m base.toUInt64 (by omega) hi]
    apply Memory.wordIn_of_div_eq
    rw [hPlace, UInt64.toNat_add, UInt64.toNat_ofNat', UInt32.toNat_toUInt64]
    omega
  · rename_i hPast
    apply Memory.wordIn_congr
    intro b hb
    apply Memory.readByte_writeWords_of_ne
    intro j hj
    rw [hb, hPlace, UInt64.toNat_add, UInt64.toNat_ofNat', UInt32.toNat_toUInt64]
    omega

/-- What is found directly where a burst stored words. -/
theorem readWords_storeWords {f : Nat → UInt64} {bytes : UInt64 → UInt8} {m : Memory}
    (hStored : m.readByte = storeWords base f n bytes) (hn : n ≤ 256) :
    m.readWords base.toUInt64 n = (List.range n).map (upToEnd base f fun i =>
      Memory.wordIn bytes (base.toUInt64 + UInt64.ofNat (8 * i))) := by
  have hBase := base.toNat_lt
  rw [Memory.readWords_eq_map]
  apply List.map_congr_left
  intro i hMember
  have hi := List.mem_range.mp hMember
  have hPlace : (base.toUInt64 + UInt64.ofNat (8 * i)).toNat / 8 = base.toNat / 8 + i := by
    rw [UInt64.toNat_add, UInt64.toNat_ofNat', UInt32.toNat_toUInt64]
    omega
  rw [Memory.peekWord_eq, hStored, upToEnd, Memory.toNat_and_not_seven]
  split
  · rename_i hInside
    have hWord : Memory.wordIn (storeWords base f n bytes) (burstAddress base i) = f i :=
      wordIn_storeWords (by omega) hi
    rw [← hWord]
    apply Memory.wordIn_of_div_eq
    rw [hPlace, burstAddress_div]
    omega
  · rename_i hPast
    apply Memory.wordIn_congr
    intro b hb
    apply storeWords_of_ne
    intro j hj
    rw [hb, hPlace, burstAddress_div]
    omega

end Architecture

end CellularCoprocessor
