import LoxTokens.Binary64.Nearest
import LoxTokens.Binary64.Shortest
import LoxTokens.Text.Basic

/-!
Numbers read from their texts.

A numeral is digits with at most one point before, among or behind them, and perhaps a power of ten
behind a mark. It denotes a decimal, and the number nearest to that decimal is read. Infinity and
NaN have names, in any mix of cases, and a sign may stand in front. Nothing else is read.
-/

namespace LoxTokens

namespace Decimal

/-- The natural number that digits denote; `none` for anything but digits. -/
def natural? (t : Text) : Option Nat :=
  if t.isEmpty || !t.all Char.isDigit then none else some (Binary64.digitsValue t)

/-- The whole number that digits denote, behind a sign or alone. -/
def whole? : Text → Option Int
  | '-' :: t => (natural? t).map fun (n : Nat) => -(n : Int)
  | '+' :: t => (natural? t).map fun (n : Nat) => (n : Int)
  | t => (natural? t).map fun (n : Nat) => (n : Int)

/-- The power of ten behind the digits of a numeral. -/
def power? : Text → Option Int
  | [] => some 0
  | mark :: t => if mark = 'e' ∨ mark = 'E' then whole? t else none

/-- The digits before and behind the point of a numeral, and what follows them. -/
def splitDigits (t : Text) : Text × Text × Text :=
  match t.dropWhile Char.isDigit with
  | '.' :: behind =>
      (t.takeWhile Char.isDigit, behind.takeWhile Char.isDigit, behind.dropWhile Char.isDigit)
  | rest => (t.takeWhile Char.isDigit, [], rest)

/-- The decimal that a numeral denotes. -/
def ofText? (t : Text) : Option Decimal :=
  let (whole, fraction, rest) := splitDigits t
  if whole.isEmpty && fraction.isEmpty then none
  else (power? rest).map fun power =>
    ⟨Binary64.digitsValue (whole ++ fraction), power - fraction.length⟩

end Decimal

namespace Binary64

/-- The pattern nearest to a decimal. -/
def nearestTo (d : Decimal) : Nat :=
  nearestPattern (d.digits * Nat.pow 10 d.exponent.toNat) (Nat.pow 10 (-d.exponent).toNat)

/-- The pattern that is read as NaN. -/
def notANumberPattern : Nat := infinityPattern + Nat.pow 2 51

/-- The pattern that a text without a sign stands for. -/
def pattern? (t : Text) : Option Nat :=
  let name := t.map Char.toLower
  if name = "inf" ∨ name = "infinity" then some infinityPattern
  else if name = "nan" then some notANumberPattern
  else (Decimal.ofText? t).map nearestTo

/-- The number that a text stands for. -/
def read? : Text → Option Binary64
  | '-' :: t => (pattern? t).map fun p => ofPattern (Nat.pow 2 63 + p)
  | '+' :: t => (pattern? t).map ofPattern
  | t => (pattern? t).map ofPattern

example : read? "-.5E1" = some ⟨0xC014000000000000⟩ := by decide +kernel
example : read? "1e" = none := by decide +kernel

end Binary64

end LoxTokens
