/-!
# Numbers in columns

Decimal and hexadecimal numerals of a given width, and decimal fractions without trailing zeros.
-/

namespace DurableLog.Text

/-- `s` filled up on the left with `c` to at least `w` characters. -/
def padLeft (w : Nat) (c : Char) (s : List Char) : List Char :=
  List.replicate (w - s.length) c ++ s

theorem length_padLeft (w : Nat) (c : Char) (s : List Char) :
    (padLeft w c s).length = max w s.length := by
  simp only [padLeft, List.length_append, List.length_replicate]
  omega

/-- The decimal numeral of `n`. -/
def numeral (n : Nat) : List Char := Nat.toDigits 10 n

/-- `n` in decimal, right-aligned by blanks in `w` columns. -/
def column (w n : Nat) : String := String.ofList (padLeft w ' ' (numeral n))

/-- `n` in decimal with zeros in front, at least `w` digits. -/
def zeroPadded (w n : Nat) : String := String.ofList (padLeft w '0' (numeral n))

/-- `n` in lower-case hexadecimal with zeros in front, at least `w` digits. -/
def hexPadded (w n : Nat) : String := String.ofList (padLeft w '0' (Nat.toDigits 16 n))

/-- The part behind the decimal point of `n / 10 ^ w`: the point and the fewest digits that are
exact, nothing for a whole number. -/
def fraction (w n : Nat) : String :=
  let digits := (padLeft w '0' (numeral n)).reverse.dropWhile (· == '0')
  if digits.isEmpty then "" else String.ofList ('.' :: digits.reverse)

end DurableLog.Text
