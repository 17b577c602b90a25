/-!
# Words as bytes

A 64-bit word occupies eight bytes, the least significant first.
-/

namespace CellularCoprocessor.Memory

/-- The lowest `n` bytes of a word. -/
def lowBytes : (n : Nat) → UInt64 → List UInt8
  | 0, _ => []
  | n + 1, w => w.toUInt8 :: lowBytes n (w >>> 8)

def bytesOfWord (w : UInt64) : List UInt8 :=
  lowBytes 8 w

def wordOfBytes : List UInt8 → UInt64
  | [] => 0
  | b :: bs => b.toUInt64 ||| wordOfBytes bs <<< 8

theorem toNat_wordOfBytes_lowBytes {n : Nat} (hn : n ≤ 8) (w : UInt64) :
    (wordOfBytes (lowBytes n w)).toNat = w.toNat % Nat.pow 256 n := by
  induction n generalizing w with
  | zero => simp [lowBytes, wordOfBytes, Nat.mod_one]
  | succ n ih =>
    have hdiv : (w >>> 8).toNat = w.toNat / 256 := by simp [Nat.shiftRight_eq_div_pow]
    have hlt : (w >>> 8).toNat % Nat.pow 256 n < 72057594037927936 := by
      have hle := Nat.mod_le (w >>> 8).toNat (Nat.pow 256 n)
      have hw := w.toNat_lt
      omega
    have hshift : (wordOfBytes (lowBytes n (w >>> 8)) <<< 8).toNat =
        (w >>> 8).toNat % Nat.pow 256 n * 256 := by
      rw [UInt64.toNat_shiftLeft, ih (by omega), Nat.shiftLeft_eq]
      generalize (w >>> 8).toNat % Nat.pow 256 n = low at hlt
      exact Nat.mod_eq_of_lt (by simp; omega)
    have hor : ∀ a b : Nat, a < 256 → (a ||| b * 256) = b * 256 + a := by
      intro a b ha
      rw [Nat.or_comm, show b * 256 = b <<< 8 by rw [Nat.shiftLeft_eq]]
      exact (Nat.shiftLeft_add_eq_or_of_lt (by omega) b).symm
    have hbyte : w.toUInt8.toUInt64.toNat = w.toNat % 256 := by simp
    rw [lowBytes, wordOfBytes, UInt64.toNat_or, hshift, hbyte, hor _ _ (by omega), hdiv,
      show Nat.pow 256 (n + 1) = 256 * Nat.pow 256 n from Nat.mul_comm _ _, Nat.mod_mul]
    omega

theorem wordOfBytes_bytesOfWord (w : UInt64) : wordOfBytes (bytesOfWord w) = w := by
  apply UInt64.toNat_inj.mp
  rw [bytesOfWord, toNat_wordOfBytes_lowBytes (Nat.le_refl 8)]
  exact Nat.mod_eq_of_lt w.toNat_lt

@[simp] theorem length_lowBytes (n : Nat) (w : UInt64) : (lowBytes n w).length = n := by
  induction n generalizing w with
  | zero => rfl
  | succ n ih => simp [lowBytes, ih]

end CellularCoprocessor.Memory
