/-!
# Decimal places of a binary fraction

A finite double is `m * 2 ^ q` for whole numbers `m` and `q`. It is written with a fixed number
of decimal places: the exact value is rounded to the nearest multiple of the last place, and a
value half-way between two multiples goes to the even one.
-/

namespace CellularCoprocessor.Text

/-- The multiple of one nearest to `a / b`, the even one of two that are equally near. -/
def roundHalfEven (a b : Nat) : Nat :=
  let q := a / b
  let twice := 2 * (a % b)
  if twice < b then q
  else if b < twice then q + 1
  else q + q % 2

/-- The rounded quotient is at most half a unit away from the exact one. -/
theorem roundHalfEven_near (a : Nat) {b : Nat} (hb : 0 < b) :
    2 * (b * roundHalfEven a b) ≤ 2 * a + b ∧ 2 * a ≤ 2 * (b * roundHalfEven a b) + b := by
  have hdiv := Nat.div_add_mod a b
  have hmod := Nat.mod_lt a hb
  have hup : b * (a / b + 1) = b * (a / b) + b := by rw [Nat.mul_add, Nat.mul_one]
  simp only [roundHalfEven]
  split
  · omega
  · split
    · rw [hup]; omega
    · rcases Nat.mod_two_eq_zero_or_one (a / b) with h | h
      · rw [h, Nat.add_zero]; omega
      · rw [h, hup]; omega

/-- Of two multiples at the same distance the even one is taken. -/
theorem roundHalfEven_even {a b : Nat} (h : 2 * (a % b) = b) : roundHalfEven a b % 2 = 0 := by
  simp only [roundHalfEven, h, Nat.lt_irrefl, if_false]
  omega

/-- The decimal text of `n / 10 ^ places`. -/
def withPoint (places n : Nat) : String :=
  let digits := (Nat.toDigits 10 n).leftpad (places + 1) '0'
  let whole := digits.length - places
  String.ofList (digits.take whole) ++ "." ++ String.ofList (digits.drop whole)

inductive Binary where
  | finite (negative : Bool) (mantissa : Nat) (exponent : Int)
  | infinite (negative : Bool)
  | notANumber

/-- Reads the sign bit, eleven exponent bits and 52 fraction bits of a double. -/
def Binary.ofBits (bits : UInt64) : Binary :=
  let negative := bits >>> 63 == 1
  let exponent := (bits >>> 52 &&& 0x7FF).toNat
  let fraction := (bits &&& 0xFFFFFFFFFFFFF).toNat
  if exponent == 2047 then
    if fraction == 0 then .infinite negative else .notANumber
  else if exponent == 0 then .finite negative fraction (-1074)
  else .finite negative (1 <<< 52 + fraction) (exponent - 1075)

/-- The value in units of the last place, rounded. -/
def scaled (places mantissa : Nat) : Int → Nat
  | .ofNat q => mantissa <<< q * Nat.pow 10 places
  | .negSucc q => roundHalfEven (mantissa * Nat.pow 10 places) (1 <<< (q + 1))

def Binary.fixed (places : Nat) : Binary → String
  | .finite negative mantissa exponent =>
    (if negative then "-" else "") ++ withPoint places (scaled places mantissa exponent)
  | .infinite negative => if negative then "-inf" else "inf"
  | .notANumber => "NaN"

def fixed (places : Nat) (x : Float) : String :=
  (Binary.ofBits x.toBits).fixed places

end CellularCoprocessor.Text
