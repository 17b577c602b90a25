import CellularCoprocessor.Proofs.Memory.Pages
import Mathlib

/-!
# Memory as bytes

Seen from outside a memory is a map from addresses to bytes. The words of the memory are the
little-endian numbers of eight bytes that share their address divided by eight.
-/

namespace CellularCoprocessor.Memory

/-- The number that a list of bytes stands for, the least significant byte first. -/
def littleEndian (bs : List UInt8) : Nat :=
  bs.foldr (fun b n => b.toNat + 256 * n) 0

/-- The word that holds the byte at an address. -/
def wordIn (bytes : UInt64 → UInt8) (address : UInt64) : UInt64 :=
  UInt64.ofNat (littleEndian
    ((List.range 8).map fun i => bytes (UInt64.ofNat (address.toNat / 8 * 8 + i))))

/-- The bytes after the word at an address was replaced. -/
def replaceWord (bytes : UInt64 → UInt8) (address w : UInt64) : UInt64 → UInt8 :=
  fun b => if b.toNat / 8 = address.toNat / 8 then UInt8.ofNat (w.toNat / 256 ^ (b.toNat % 8))
    else bytes b

/-- A mask that clears the three lowest bits, for numbers of `k + 3` bits. -/
theorem and_mask {k n : Nat} (hn : n < 2 ^ (k + 3)) : n &&& (2 ^ k - 1) * 8 = n / 8 * 8 := by
  have hDiv : (n &&& (2 ^ k - 1) * 8) / 2 ^ 3 = n / 2 ^ 3 := by
    have hLess : n / 2 ^ 3 < 2 ^ k := Nat.div_lt_of_lt_mul (by rwa [← Nat.pow_add, Nat.add_comm])
    rw [Nat.and_div_two_pow, Nat.mul_div_cancel _ (by decide)]
    exact Nat.and_two_pow_sub_one_of_lt_two_pow hLess
  have hMod : (n &&& (2 ^ k - 1) * 8) % 2 ^ 3 = 0 := by
    rw [Nat.and_mod_two_pow, Nat.mul_mod_left]
    exact Nat.and_zero _
  omega

theorem toNat_wordAddress (a : UInt64) : (wordAddress a).toNat = a.toNat / 8 * 8 :=
  and_mask (k := 61) a.toNat_lt

theorem wordAddress_eq_iff {a b : UInt64} :
    wordAddress a = wordAddress b ↔ a.toNat / 8 = b.toNat / 8 := by
  rw [← UInt64.toNat_inj, toNat_wordAddress, toNat_wordAddress]
  omega

theorem toNat_and_not_seven (a : UInt32) : (a &&& ~~~7).toNat = a.toNat / 8 * 8 :=
  and_mask (k := 29) a.toNat_lt

theorem littleEndian_lt (bs : List UInt8) : littleEndian bs < 256 ^ bs.length := by
  induction bs with
  | nil => decide
  | cons b bs ih =>
    have hByte := b.toNat_lt
    change b.toNat + 256 * littleEndian bs < 256 ^ (bs.length + 1)
    rw [Nat.pow_succ]
    omega

theorem or_mul_of_lt {a b : Nat} (ha : a < 256) : (a ||| b * 256) = a + 256 * b := by
  rw [Nat.or_comm, show b * 256 = b <<< 8 by rw [Nat.shiftLeft_eq],
    ← Nat.shiftLeft_add_eq_or_of_lt (by omega) b, Nat.shiftLeft_eq]
  omega

theorem toNat_wordOfBytes {bs : List UInt8} (h : bs.length ≤ 8) :
    (wordOfBytes bs).toNat = littleEndian bs := by
  induction bs with
  | nil => rfl
  | cons b bs ih =>
    simp only [List.length_cons] at h
    have hRest : (wordOfBytes bs).toNat = littleEndian bs := ih (by omega)
    have hShift : (wordOfBytes bs <<< 8).toNat = littleEndian bs * 256 := by
      have hLess := littleEndian_lt bs
      have hPow : 256 ^ bs.length ≤ 256 ^ 7 := Nat.pow_le_pow_right (by decide) (by omega)
      rw [UInt64.toNat_shiftLeft, hRest, Nat.shiftLeft_eq]
      apply Nat.mod_eq_of_lt
      simp only [UInt64.reduceToNat, Nat.reduceMod, Nat.reducePow]
      omega
    rw [wordOfBytes, UInt64.toNat_or, hShift, UInt8.toNat_toUInt64, or_mul_of_lt b.toNat_lt]
    rfl

theorem getElem?_lowBytes (n : Nat) (w : UInt64) {i : Nat} (hi : i < n) :
    (lowBytes n w)[i]? = some (UInt8.ofNat (w.toNat / 256 ^ i)) := by
  induction n generalizing w i with
  | zero => omega
  | succ n ih =>
    cases i with
    | zero => simp [lowBytes]
    | succ i =>
      rw [lowBytes, List.getElem?_cons_succ, ih _ (by omega), Nat.pow_succ']
      rw [← Nat.div_div_eq_div_mul]
      simp [Nat.shiftRight_eq_div_pow]

theorem wordAddress_eq (a : UInt64) : wordAddress a = UInt64.ofNat (a.toNat / 8 * 8) := by
  apply UInt64.toNat_inj.mp
  have := a.toNat_lt
  rw [toNat_wordAddress, UInt64.toNat_ofNat']
  omega

theorem peekWord_eq (m : Memory) (a : UInt64) : m.peekWord a = wordIn m.readByte a := by
  have hBytes : m.readBytes (wordAddress a) 8 =
      (List.range 8).map fun i => m.readByte (UInt64.ofNat (a.toNat / 8 * 8 + i)) := by
    simp only [readBytes_eq_map, wordAddress_eq, UInt64.ofNat_add]
  have hLess := littleEndian_lt (m.readBytes (wordAddress a) 8)
  rw [hBytes] at hLess
  apply UInt64.toNat_inj.mp
  rw [peekWord, toNat_wordOfBytes (by simp [hBytes]), wordIn, hBytes, UInt64.toNat_ofNat']
  exact (Nat.mod_eq_of_lt (by simpa using hLess)).symm

theorem peekWord_empty (a : UInt64) : Memory.empty.peekWord a = 0 := by
  have hBytes : Memory.empty.readByte = fun _ => 0 := by
    funext b
    simp [readByte, empty]
  rw [peekWord_eq, hBytes]
  simp [wordIn, littleEndian, List.range_succ]

theorem readByte_writeBytes (m : Memory) (a b : UInt64) (bs : List UInt8) :
    (m.writeBytes a bs).readByte b = (m.putBytes a bs).readByte b :=
  rfl

theorem readByte_writeWord (m : Memory) (a w : UInt64) :
    (m.writeWord a w).readByte = replaceWord m.readByte a w := by
  funext b
  have hAddress := toNat_wordAddress a
  have hLength : (bytesOfWord w).length = 8 := length_lowBytes 8 w
  have hFits : (wordAddress a).toNat + (bytesOfWord w).length ≤ UInt64.size := by
    have := a.toNat_lt
    rw [hAddress, hLength]
    simp only [UInt64.size]
    omega
  rw [writeWord, readByte_writeBytes, readByte_putBytes _ _ _ _ hFits, hAddress, replaceWord]
  by_cases hWord : b.toNat / 8 = a.toNat / 8
  · have hIndex : b.toNat - a.toNat / 8 * 8 = b.toNat % 8 := by omega
    rw [if_pos (by omega), if_pos hWord, hIndex, bytesOfWord,
      getElem?_lowBytes 8 w (Nat.mod_lt _ (by decide)), Option.getD_some]
  · rw [if_neg hWord]
    split
    · have hPast : (bytesOfWord w).length ≤ b.toNat - a.toNat / 8 * 8 := by omega
      rw [List.getElem?_eq_none hPast, Option.getD_none]
    · rfl

theorem readByte_readWord (m : Memory) (a : UInt64) : (m.readWord a).2.readByte = m.readByte :=
  rfl

section Words

variable {bytes other : UInt64 → UInt8} {a b : UInt64}

theorem wordIn_congr (h : ∀ c : UInt64, c.toNat / 8 = a.toNat / 8 → bytes c = other c) :
    wordIn bytes a = wordIn other a := by
  have hBytes : ∀ i ∈ List.range 8, bytes (UInt64.ofNat (a.toNat / 8 * 8 + i)) =
      other (UInt64.ofNat (a.toNat / 8 * 8 + i)) := by
    intro i hi
    have hLess := List.mem_range.mp hi
    have ha := a.toNat_lt
    apply h
    rw [UInt64.toNat_ofNat']
    omega
  rw [wordIn, wordIn, List.map_congr_left hBytes]

theorem wordIn_of_div_eq (h : a.toNat / 8 = b.toNat / 8) : wordIn bytes a = wordIn bytes b := by
  rw [wordIn, wordIn, h]

theorem wordIn_replaceWord_of_ne (h : a.toNat / 8 ≠ b.toNat / 8) (w : UInt64) :
    wordIn (replaceWord bytes b w) a = wordIn bytes a := by
  apply wordIn_congr
  intro c hc
  rw [replaceWord, if_neg (by omega)]

theorem wordIn_replaceWord (bytes : UInt64 → UInt8) (a w : UInt64) :
    wordIn (replaceWord bytes a w) a = w := by
  have hBytes : (List.range 8).map (fun i =>
      replaceWord bytes a w (UInt64.ofNat (a.toNat / 8 * 8 + i))) = bytesOfWord w := by
    apply List.ext_getElem?
    intro i
    by_cases hi : i < 8
    · have ha := a.toNat_lt
      have hNat : (UInt64.ofNat (a.toNat / 8 * 8 + i)).toNat = a.toNat / 8 * 8 + i := by
        rw [UInt64.toNat_ofNat']
        omega
      have hOffset : (a.toNat / 8 * 8 + i) % 8 = i := by omega
      rw [bytesOfWord, getElem?_lowBytes 8 w hi, List.getElem?_map, List.getElem?_range hi,
        Option.map_some, replaceWord, hNat, if_pos (by omega), hOffset]
    · rw [List.getElem?_eq_none (by simpa using hi),
        List.getElem?_eq_none (by simpa [bytesOfWord] using hi)]
  have hLength : (bytesOfWord w).length ≤ 8 := by simp [bytesOfWord]
  apply UInt64.toNat_inj.mp
  rw [wordIn, hBytes, ← toNat_wordOfBytes hLength, wordOfBytes_bytesOfWord, UInt64.ofNat_toNat]

end Words

end CellularCoprocessor.Memory
