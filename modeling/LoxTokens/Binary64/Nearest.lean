import LoxTokens.Binary64.Basic

/-!
The binary64 number nearest to a ratio of natural numbers.

Among the patterns of one binade the magnitudes are evenly spaced, so the nearest pattern is a
quotient rounded to a whole number, where an exact half goes to the even neighbour. A carry out of
the binade lands on the first pattern of the next, and one out of the last binade on infinity.
-/

namespace LoxTokens.Binary64

/-- The whole number nearest to a quotient; an exact half goes to the even neighbour. -/
def roundHalfEven (num den : Nat) : Nat :=
  let below := num / den
  let twice := 2 * (num % den)
  if twice < den then below
  else if den < twice then below + 1
  else below + below % 2

/-- How often the spacing of magnitudes has doubled at a magnitude of so many units. -/
def doublings (magnitude : Nat) : Nat := magnitude.log2 - 52

/-- The pattern nearest to the ratio `num / den`. -/
def nearestPattern (num den : Nat) : Nat :=
  let scaled := num * unitsPerOne
  let spacing := doublings (scaled / den)
  min infinityPattern (spacing * binadeSize + roundHalfEven scaled (den * Nat.pow 2 spacing))

/-- The number nearest to the ratio `num / den`, ties to the even pattern. -/
def ofRatio (num den : Nat) : Binary64 := ofPattern (nearestPattern num den)

/-- The natural number that decimal digits denote. -/
def digitsValue (digits : List Char) : Nat :=
  digits.foldl (fun n c => 10 * n + (c.toNat - '0'.toNat)) 0

/-- The number nearest to a decimal with the given digits before and after its point. -/
def ofDecimal (whole fraction : List Char) : Binary64 :=
  ofRatio (digitsValue (whole ++ fraction)) (Nat.pow 10 fraction.length)

theorem nearestPattern_le (num den : Nat) : nearestPattern num den ≤ infinityPattern :=
  Nat.min_le_left ..

theorem isNaN_ofDecimal (whole fraction : List Char) : (ofDecimal whole fraction).isNaN = false :=
  isNaN_ofPattern (nearestPattern_le ..)

example : ofDecimal ['1'] ['5'] = ⟨0x3FF8000000000000⟩ := by decide +kernel
example : ofDecimal ['0'] ['1'] = ⟨0x3FB999999999999A⟩ := by decide +kernel

end LoxTokens.Binary64
