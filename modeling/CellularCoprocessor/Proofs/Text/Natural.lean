import CellularCoprocessor.Text.Natural
import Mathlib

/-!
# What the reader of whole numbers accepts

A text is read as `n` if it is written with the digits of `n`, in either letter case, with any
number of zeros and at most one plus sign in front of them.
-/

namespace CellularCoprocessor.Text

section Digit

theorem toNat_toLower (c : Char) : c.toLower.toNat =
    if 65 ≤ c.toNat ∧ c.toNat ≤ 90 then c.toNat + 32 else c.toNat := by
  have hRange : (c.val ≥ 'A'.val ∧ c.val ≤ 'Z'.val) ↔ 65 ≤ c.toNat ∧ c.toNat ≤ 90 := by
    simp only [ge_iff_le, UInt32.le_iff_toNat_le]
    exact Iff.rfl
  have hOffset : ('a'.val - 'A'.val).toNat = 32 := by decide
  rw [Char.toLower]
  split
  · rename_i h
    rw [if_pos (hRange.mp h), Char.toNat_mk, UInt32.toNat_add, Char.toNat_val, hOffset]
    have hLarge := (hRange.mp h).2
    omega
  · rename_i h
    rw [if_neg (mt hRange.mpr h)]

theorem toNat_digitChar {d : Nat} (hd : d < 16) :
    (Nat.digitChar d).toNat = if d < 10 then 48 + d else 87 + d := by
  revert d
  decide

theorem hexValue?_eq_some_iff {c : Char} {d : Nat} :
    hexValue? c = some d ↔ d < 16 ∧ c.toLower = Nat.digitChar d := by
  have hLe : ∀ a b : Char, a ≤ b ↔ a.toNat ≤ b.toNat := fun a b => UInt32.le_iff_toNat_le
  have hLower := toNat_toLower c
  simp only [hexValue?, hLe, Char.reduceToNat]
  constructor
  · intro h
    have hd : d < 16 := by grind
    refine ⟨hd, Char.toNat_inj.mp ?_⟩
    rw [hLower, toNat_digitChar hd]
    grind
  · rintro ⟨hd, hc⟩
    rw [hc, toNat_digitChar hd] at hLower
    grind

theorem digit?_eq_some_iff {base : Nat} (hBase : base ≤ 16) {c : Char} {d : Nat} :
    digit? base c = some d ↔ d < base ∧ c.toLower = Nat.digitChar d := by
  rw [digit?, Option.filter_eq_some_iff, hexValue?_eq_some_iff, decide_eq_true_iff]
  constructor
  · rintro ⟨⟨_, hc⟩, hd⟩
    exact ⟨hd, hc⟩
  · rintro ⟨hd, hc⟩
    exact ⟨⟨by omega, hc⟩, hd⟩

end Digit

/-- The digits of `n` in a base, in either letter case and with any number of zeros in front. -/
def Digits (base n : Nat) (cs : List Char) : Prop :=
  ∃ zeros, cs.map Char.toLower = List.replicate zeros '0' ++ Nat.toDigits base n

/-- Digits after at most one plus sign. -/
inductive Natural (base n : Nat) : List Char → Prop
  | unsigned {cs : List Char} : Digits base n cs → Natural base n cs
  | plus {cs : List Char} : Digits base n cs → Natural base n ('+' :: cs)

theorem Digits.toDigits (n : Nat) : Digits 10 n (Nat.toDigits 10 n) := by
  refine ⟨0, ?_⟩
  rw [List.replicate_zero, List.nil_append]
  refine (List.map_congr_left fun c hc => ?_).trans (List.map_id _)
  have hDigit := Char.isDigit_iff_toNat.mp (Nat.isDigit_of_mem_toDigits (by decide) (by decide) hc)
  simp only [Char.reduceToNat] at hDigit
  rw [id, ← Char.toNat_inj, toNat_toLower, if_neg (by omega)]

section Reader

variable {base n : Nat} {cs : List Char}

theorem not_digits_nil : ¬ Digits base n [] := by
  rintro ⟨zeros, h⟩
  simp at h

/-- The last digit counts once and those before it count `base` times. With nothing before it the
rest is zero. -/
theorem digits_concat_iff (hBase : 1 < base) {c : Char} :
    Digits base n (cs ++ [c]) ↔ ∃ m d, (cs = [] ∧ m = 0 ∨ Digits base m cs) ∧
      (d < base ∧ c.toLower = Nat.digitChar d) ∧ n = m * base + d := by
  constructor
  · rintro ⟨zeros, h⟩
    rw [List.map_append, List.map_singleton, Nat.toDigits_eq_if hBase] at h
    split at h
    · rename_i hSmall
      obtain ⟨hFront, hLast⟩ := List.append_inj' h rfl
      refine ⟨0, n, ?_, ⟨hSmall, List.singleton_inj.mp hLast⟩, by omega⟩
      cases zeros with
      | zero => exact .inl ⟨List.map_eq_nil_iff.mp hFront, rfl⟩
      | succ zeros =>
        exact .inr ⟨zeros, by rw [hFront, Nat.toDigits_zero, List.replicate_succ']⟩
    · rw [← List.append_assoc] at h
      obtain ⟨hFront, hLast⟩ := List.append_inj' h rfl
      refine ⟨n / base, n % base, .inr ⟨zeros, hFront⟩, ⟨Nat.mod_lt _ (by omega), ?_⟩, ?_⟩
      · exact List.singleton_inj.mp hLast
      · rw [Nat.mul_comm, Nat.div_add_mod]
  · rintro ⟨m, d, hFront, ⟨hd, hc⟩, rfl⟩
    have hLast : [c].map Char.toLower = Nat.toDigits base d := by
      rw [List.map_singleton, hc, Nat.toDigits_of_lt_base hd]
    rcases hFront with ⟨rfl, rfl⟩ | ⟨zeros, hFront⟩
    · exact ⟨0, by simpa using hLast⟩
    · rcases Nat.eq_zero_or_pos m with rfl | hm
      · refine ⟨zeros + 1, ?_⟩
        rw [List.map_append, hFront, hLast, Nat.toDigits_zero, List.replicate_succ', Nat.zero_mul,
          Nat.zero_add]
      · refine ⟨zeros, ?_⟩
        rw [List.map_append, hFront, hLast, List.append_assoc,
          Nat.toDigits_append_toDigits hBase hm hd, Nat.mul_comm]

theorem appendDigits?_concat (m : Nat) (c : Char) :
    appendDigits? base m (cs ++ [c]) =
      (appendDigits? base m cs).bind fun k => (digit? base c).map (k * base + ·) := by
  induction cs generalizing m with
  | nil => cases h : digit? base c <;> simp [appendDigits?, h]
  | cons b cs ih => cases h : digit? base b <;> simp [appendDigits?, h, ih]

theorem appendDigits?_zero_eq_some_iff (hBase : 1 < base) (hHex : base ≤ 16) :
    appendDigits? base 0 cs = some n ↔ cs = [] ∧ n = 0 ∨ Digits base n cs := by
  induction cs using List.reverseRecOn generalizing n with
  | nil => simp [appendDigits?, not_digits_nil, eq_comm]
  | append_singleton cs c ih =>
    rw [appendDigits?_concat, digits_concat_iff hBase]
    simp only [Option.bind_eq_some_iff, Option.map_eq_some_iff, ih, digit?_eq_some_iff hHex]
    constructor
    · rintro ⟨m, hm, d, hd, hSum⟩
      exact .inr ⟨m, d, hm, hd, hSum.symm⟩
    · rintro (⟨hNil, _⟩ | ⟨m, d, hm, hd, hSum⟩)
      · simp at hNil
      · exact ⟨m, hm, d, hd, hSum.symm⟩

theorem digits?_eq_some_iff (hBase : 1 < base) (hHex : base ≤ 16) :
    digits? base cs = some n ↔ Digits base n cs := by
  cases cs with
  | nil => simp [digits?, not_digits_nil]
  | cons c cs =>
    rw [digits?, appendDigits?_zero_eq_some_iff hBase hHex]
    · simp
    · simp

theorem natural?_eq_some_iff (hBase : 1 < base) (hHex : base ≤ 16) :
    natural? base cs = some n ↔ Natural base n cs := by
  constructor
  · fun_cases natural? base cs with
    | case1 cs => exact fun h => .plus ((digits?_eq_some_iff hBase hHex).mp h)
    | case2 => exact fun h => .unsigned ((digits?_eq_some_iff hBase hHex).mp h)
  · rintro (h | h)
    · rw [← digits?_eq_some_iff hBase hHex] at h
      fun_cases natural? base cs with
      | case1 cs => simp [digits?, appendDigits?, digit?, hexValue?] at h
      | case2 => exact h
    · rw [natural?]
      exact (digits?_eq_some_iff hBase hHex).mpr h

theorem exists_digit_of_mem {m : Nat} (h : appendDigits? base m cs = some n) {c : Char}
    (hc : c ∈ cs) : ∃ d, digit? base c = some d := by
  induction cs generalizing m with
  | nil => simp at hc
  | cons b cs ih =>
    rw [appendDigits?] at h
    split at h
    · rename_i d hd
      rcases List.mem_cons.mp hc with rfl | hc
      · exact ⟨d, hd⟩
      · exact ih h hc
    · cases h

theorem Natural.mem (h : Natural base n cs) (hBase : 1 < base) (hHex : base ≤ 16) {c : Char}
    (hc : c ∈ cs) : c = '+' ∨ ∃ d, digit? base c = some d := by
  have hDigit : ∀ ds : List Char, Digits base n ds → c ∈ ds → ∃ d, digit? base c = some d := by
    intro ds hDigits hMem
    have hRead := (appendDigits?_zero_eq_some_iff hBase hHex).mpr (.inr hDigits)
    exact exists_digit_of_mem hRead hMem
  rcases h with h | h
  · exact .inr (hDigit _ h hc)
  · rcases List.mem_cons.mp hc with rfl | hc
    · exact .inl rfl
    · exact .inr (hDigit _ h hc)

end Reader

end CellularCoprocessor.Text
