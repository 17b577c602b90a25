/-!
# Blank characters

The characters with the Unicode property White_Space, and the operations on lines of text that
depend on them: trimming and cutting into words.
-/

namespace CellularCoprocessor.Text

def isBlank (c : Char) : Bool :=
  let n := c.toNat
  (9 ≤ n && n ≤ 13) || n == 32 || n == 0x85 || n == 0xA0 || n == 0x1680 ||
    (0x2000 ≤ n && n ≤ 0x200A) || n == 0x2028 || n == 0x2029 || n == 0x202F || n == 0x205F ||
    n == 0x3000

def trim (cs : List Char) : List Char :=
  ((cs.dropWhile isBlank).reverse.dropWhile isBlank).reverse

/-- Puts a character in front of the first word. -/
def extendFirst (c : Char) : List (List Char) → List (List Char)
  | [] => [[c]]
  | w :: ws => (c :: w) :: ws

/-- The maximal runs of characters that are not blank. -/
def words : List Char → List (List Char)
  | [] => []
  | [c] => if isBlank c then [] else [[c]]
  | c :: d :: cs =>
    if isBlank c then words (d :: cs)
    else if isBlank d then [c] :: words (d :: cs)
    else extendFirst c (words (d :: cs))

theorem words_cons_blank {b : Char} (hb : isBlank b) (cs : List Char) :
    words (b :: cs) = words cs := by
  cases cs <;> simp [words, hb]

theorem words_word {w : List Char} (hw : w ≠ []) (hs : ∀ c ∈ w, isBlank c = false) :
    words w = [w] := by
  induction w with
  | nil => exact absurd rfl hw
  | cons c cs ih =>
    have hc : isBlank c = false := hs c (by simp)
    cases cs with
    | nil => simp [words, hc]
    | cons d cs =>
      have hd : isBlank d = false := hs d (by simp)
      rw [words, ih (by simp) (fun x hx => hs x (by simp [hx]))]
      simp [hc, hd, extendFirst]

/-- A blank cuts the text: the words before it and after it are found on their own. -/
theorem words_append {w : List Char} {b : Char} (hw : w ≠ [])
    (hs : ∀ c ∈ w, isBlank c = false) (hb : isBlank b) (cs : List Char) :
    words (w ++ b :: cs) = w :: words cs := by
  induction w with
  | nil => exact absurd rfl hw
  | cons c w ih =>
    have hc : isBlank c = false := hs c (by simp)
    cases w with
    | nil => simp [words, hc, hb, words_cons_blank hb]
    | cons d w =>
      have hd : isBlank d = false := hs d (by simp)
      have hrest := ih (by simp) (fun x hx => hs x (by simp [hx]))
      simp only [List.cons_append] at hrest ⊢
      rw [words, hrest]
      simp [hc, hd, extendFirst]

end CellularCoprocessor.Text
