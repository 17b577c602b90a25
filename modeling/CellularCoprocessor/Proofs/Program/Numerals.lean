import CellularCoprocessor.Proofs.Program.Notation

/-!
# What a numeral denotes

The value of a numeral is the sum of its digits, each times the power of the base that belongs to
its place. The reader accepts a token exactly if it has such a value below the limit, and then
reads that value and no other.
-/

namespace CellularCoprocessor

namespace Text

/-- At least one digit of the base, in either letter case. The last digit counts once, and every
other one counts `base` times what it would count one place further right. -/
def Denotes (base : Nat) (cs : List Char) (n : Nat) : Prop :=
  cs ≠ [] ∧ ∃ ds, List.Forall₂ (fun c d => d < base ∧ c.toLower = Nat.digitChar d) cs.reverse ds ∧
    Nat.ofDigits base ds = n

section Positional

variable {base n : Nat} {cs : List Char}

theorem digits_iff_denotes (hBase : 1 < base) : Digits base n cs ↔ Denotes base cs n := by
  induction cs using List.reverseRecOn generalizing n with
  | nil => exact iff_of_false not_digits_nil fun h => h.1 rfl
  | append_singleton cs c ih =>
    have hFront : ∀ m, cs = [] ∧ m = 0 ∨ Digits base m cs ↔
        ∃ ds, List.Forall₂ (fun c d => d < base ∧ c.toLower = Nat.digitChar d) cs.reverse ds ∧
          Nat.ofDigits base ds = m := by
      intro m
      rw [ih, Denotes]
      cases cs with
      | nil => simp [eq_comm]
      | cons b cs => simp
    rw [digits_concat_iff hBase, Denotes, List.reverse_append, List.reverse_singleton,
      List.singleton_append, and_iff_right (List.append_ne_nil_of_right_ne_nil cs (by simp))]
    simp only [hFront, List.forall₂_cons_left_iff]
    constructor
    · rintro ⟨_, d, ⟨ds, hDigits, rfl⟩, hLast, rfl⟩
      refine ⟨d :: ds, ⟨d, ds, hLast, hDigits, rfl⟩, ?_⟩
      rw [Nat.ofDigits_cons, Nat.mul_comm, Nat.add_comm]
    · rintro ⟨_, ⟨d, ds, hLast, hDigits, rfl⟩, rfl⟩
      refine ⟨_, d, ⟨ds, hDigits, rfl⟩, hLast, ?_⟩
      rw [Nat.ofDigits_cons, Nat.mul_comm, Nat.add_comm]

theorem Digits.zeros_append (h : Digits base n cs) (zeros : Nat) :
    Digits base n (List.replicate zeros '0' ++ cs) := by
  obtain ⟨more, hDigits⟩ := h
  refine ⟨zeros + more, ?_⟩
  rw [List.map_append, hDigits, List.map_replicate, List.replicate_add, List.append_assoc]
  rfl

/-- Digits that denote `n`, after at most one plus sign. -/
def Signed (base : Nat) (cs : List Char) (n : Nat) : Prop :=
  ∃ digits, (cs = digits ∨ cs = '+' :: digits) ∧ Denotes base digits n

theorem natural_iff_signed (hBase : 1 < base) : Natural base n cs ↔ Signed base cs n := by
  constructor
  · rintro (h | h)
    · exact ⟨_, .inl rfl, (digits_iff_denotes hBase).mp h⟩
    · exact ⟨_, .inr rfl, (digits_iff_denotes hBase).mp h⟩
  · rintro ⟨digits, rfl | rfl, h⟩
    · exact .unsigned ((digits_iff_denotes hBase).mpr h)
    · exact .plus ((digits_iff_denotes hBase).mpr h)

end Positional

end Text

namespace Program

/-- The rest of a text that starts with the mark of a hexadecimal numeral. -/
inductive Marked : List Char → List Char → Prop
  | lower (rest : List Char) : Marked ('0' :: 'x' :: rest) rest
  | upper (rest : List Char) : Marked ('0' :: 'X' :: rest) rest

/-- A hexadecimal numeral if the text starts with a mark, and a decimal one otherwise. -/
def Numeral (cs : List Char) (n : Nat) : Prop :=
  (∃ rest, Marked cs rest ∧ Text.Signed 16 rest n) ∨
    (∀ rest, ¬ Marked cs rest) ∧ Text.Signed 10 cs n

section Numeral

variable {cs token : List Char} {n : Nat}

/-- Neither mark holds a decimal digit. -/
theorem not_marked_of_natural (h : Text.Natural 10 n cs) (rest : List Char) : ¬ Marked cs rest := by
  have hRead := (Text.natural?_eq_some_iff (by decide) (by decide)).mpr h
  rintro (_ | _)
  · cases hRead
  · cases hRead

theorem spelling_iff_numeral : Spelling n cs ↔ Numeral cs n := by
  constructor
  · rintro (h | ⟨rfl | rfl, h⟩)
    · exact .inr ⟨not_marked_of_natural h, (Text.natural_iff_signed (by decide)).mp h⟩
    · exact .inl ⟨_, .lower _, (Text.natural_iff_signed (by decide)).mp h⟩
    · exact .inl ⟨_, .upper _, (Text.natural_iff_signed (by decide)).mp h⟩
  · rintro (⟨rest, _ | _, h⟩ | ⟨_, h⟩)
    · exact .hexadecimal (.inl rfl) ((Text.natural_iff_signed (by decide)).mpr h)
    · exact .hexadecimal (.inr rfl) ((Text.natural_iff_signed (by decide)).mpr h)
    · exact .decimal ((Text.natural_iff_signed (by decide)).mpr h)

theorem readNumber_eq_ok_iff_numeral :
    readNumber token = .ok n ↔ Numeral (token.filter (· ≠ '_')) n ∧ n < 2 ^ 64 := by
  rw [readNumber_eq_ok_iff, numeral?_eq_some_iff, Spells, spelling_iff_numeral]
  exact Iff.rfl

theorem readNumber_eq_error (h : ∀ n, readNumber token ≠ .ok n) :
    readNumber token = .error (.invalidNumber (String.ofList token)) := by
  cases hRead : numeral? token with
  | some n => exact absurd (readNumber_eq_ok_iff.mpr hRead) (h n)
  | none => rw [readNumber, hRead]

theorem readNumber_of_spelling {w : UInt64} (h : Spelling w.toNat (token.filter (· ≠ '_'))) :
    readNumber token = .ok w.toNat :=
  readNumber_eq_ok_iff_numeral.mpr ⟨spelling_iff_numeral.mp h, w.toNat_lt⟩

end Numeral

/-- A token is read as a number exactly if, without its underscores, it is a numeral of that number,
and the number fits in 64 bits. Any other token is an error that names it. So every word can be
written in either base, with any zeros in front and underscores anywhere. -/
theorem numerals_read_exactly :
    (∀ token n, readNumber token = .ok n ↔ Numeral (token.filter (· ≠ '_')) n ∧ n < 2 ^ 64) ∧
    (∀ token, (∀ n, Numeral (token.filter (· ≠ '_')) n → 2 ^ 64 ≤ n) →
      readNumber token = .error (.invalidNumber (String.ofList token))) ∧
    (∀ (w : UInt64) (zeros : Nat) (token : List Char),
      token.filter (· ≠ '_') = List.replicate zeros '0' ++ Nat.toDigits 10 w.toNat →
        readNumber token = .ok w.toNat) ∧
    (∀ (w : UInt64) (zeros : Nat) (mark : Char) (digits token : List Char),
      mark = 'x' ∨ mark = 'X' → digits.map Char.toLower = Nat.toDigits 16 w.toNat →
      token.filter (· ≠ '_') = '0' :: mark :: (List.replicate zeros '0' ++ digits) →
        readNumber token = .ok w.toNat) := by
  refine ⟨fun token n => readNumber_eq_ok_iff_numeral, ?_, ?_, ?_⟩
  · intro token hLarge
    apply readNumber_eq_error
    intro n hRead
    obtain ⟨hNumeral, hLess⟩ := readNumber_eq_ok_iff_numeral.mp hRead
    exact absurd hLess (Nat.not_lt.mpr (hLarge n hNumeral))
  · intro w zeros token hToken
    apply readNumber_of_spelling
    rw [hToken]
    exact .decimal (.unsigned ((Text.Digits.toDigits w.toNat).zeros_append zeros))
  · intro w zeros mark digits token hMark hDigits hToken
    have hSpelled : Text.Digits 16 w.toNat digits := ⟨0, hDigits⟩
    apply readNumber_of_spelling
    rw [hToken]
    exact .hexadecimal hMark (.unsigned (hSpelled.zeros_append zeros))

/-- The largest word in mixed letter case, and the number after it, which does not fit. -/
theorem numerals_read_exactly_largest :
    readNumber "_0X00_fFfF_FFFF_ffffFFFF__".toList = .ok (2 ^ 64 - 1) ∧
      readNumber "0x1_0000_0000_0000_0000".toList =
        .error (.invalidNumber "0x1_0000_0000_0000_0000") := by
  obtain ⟨hExact, hError, -, hHexadecimal⟩ := numerals_read_exactly
  have hLargest : (2 ^ 64 - 1 : Nat) = (0xFFFFFFFFFFFFFFFF : UInt64).toNat := rfl
  constructor
  · rw [hLargest]
    exact hHexadecimal 0xFFFFFFFFFFFFFFFF 2 'X' "fFfFFFFFffffFFFF".toList _ (.inr rfl)
      (by decide) (by decide)
  · apply hError
    intro n hNumeral
    by_contra hLess
    cases (hExact _ n).mpr ⟨hNumeral, Nat.not_le.mp hLess⟩

end Program

end CellularCoprocessor
