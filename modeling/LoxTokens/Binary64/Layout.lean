import LoxTokens.Binary64.Shortest
import LoxTokens.Text.Basic

/-!
The text of a binary64 number.

A layout says between which powers of ten a number is written in plain digits, where it has at least
one digit after its point; beyond them it is written in scientific form, a single digit standing
without a point.
-/

namespace LoxTokens

/-- How numbers are written. -/
structure NumberLayout where
  /-- The least power of ten of a first digit that is written plainly. -/
  leastPlain : Int
  /-- The greatest power of ten of a first digit that is written plainly. -/
  greatestPlain : Int
  /-- What stands before the power of ten in scientific form. -/
  exponentMark : Char
  infinity : Text
  notANumber : Text

namespace NumberLayout

/-- The digits of a whole number, with a minus sign where it is negative. -/
def wholeText (i : Int) : Text :=
  if i < 0 then '-' :: Nat.toDigits 10 i.natAbs else Nat.toDigits 10 i.natAbs

/-- Digits with the point after the digit of the power zero; `lead` is the power of the first one. -/
def plain (digits : Text) (lead : Int) : Text :=
  if lead < 0 then "0." ++ List.replicate (-lead - 1).toNat '0' ++ digits
  else
    let places := lead.toNat + 1
    let whole := (digits ++ List.replicate (places - digits.length) '0').take places
    let fraction := digits.drop places
    whole ++ ['.'] ++ (if fraction.isEmpty then ['0'] else fraction)

/-- Digits with the point after the first one, and the power of the first digit. -/
def scientific (layout : NumberLayout) (digits : Text) (lead : Int) : Text :=
  let mantissa := match digits with
    | first :: second :: rest => first :: '.' :: second :: rest
    | short => short
  mantissa ++ [layout.exponentMark] ++ wholeText lead

/-- The text of a decimal. -/
def decimal (layout : NumberLayout) (d : Decimal) : Text :=
  let digits := Nat.toDigits 10 d.digits
  let lead := d.exponent + digits.length - 1
  if layout.leastPlain ≤ lead ∧ lead ≤ layout.greatestPlain then plain digits lead
  else layout.scientific digits lead

/-- The text of a number. -/
def write (layout : NumberLayout) (x : Binary64) : Text :=
  if x.isNaN then layout.notANumber
  else
    let sign : Text := if x.isNegative then ['-'] else []
    sign ++
      if x.pattern = 0 then layout.decimal ⟨0, 0⟩
      else if x.pattern = Binary64.infinityPattern then layout.infinity
      else layout.decimal (Binary64.shortest x.pattern)

end NumberLayout

end LoxTokens
