import LoxTokens.Binary64.Basic

/-!
The shortest decimal of a binary64 magnitude.

A decimal reads back as a magnitude when it lies between the midpoints to the two neighbours, or on
one of them where the pattern is even. On the grid of each power of ten only the two points next to
the magnitude matter: if any point of the grid lies in that interval, so does one of these two. The
coarsest grid with a hit gives the fewest digits; of two hits the nearer is taken, and of two equally
near the larger.
-/

namespace LoxTokens

/-- The decimal `digits · 10 ^ exponent`. -/
structure Decimal where
  digits : Nat
  exponent : Int
  deriving DecidableEq, Repr

namespace Decimal

/-- The number of decimal digits of a natural number, none for zero. -/
def width (n : Nat) : Nat := if n = 0 then 0 else width (n / 10) + 1

/-- The same decimal without zeros at the end of its digits. -/
def stripped (d : Decimal) : Decimal :=
  if 0 < d.digits ∧ d.digits % 10 = 0 then stripped ⟨d.digits / 10, d.exponent + 1⟩ else d
termination_by d.digits

end Decimal

namespace Binary64

/-- The power of ten of the first digit of a positive magnitude: the `e` with
`10 ^ e ≤ magnitude < 10 ^ (e + 1)`. -/
def leadingExponent (p : Nat) : Int :=
  if unitsPerOne ≤ units p then (Decimal.width (units p / unitsPerOne) : Int) - 1
  else -(Decimal.width ((unitsPerOne - 1) / units p) : Int)

/-- Whether `numerator / scale`, in half units of 2^-1074, reads back as the pattern `p`. -/
def readsBack (p numerator scale : Nat) : Bool :=
  let low := (units (p - 1) + units p) * scale
  let high := (units p + units (p + 1)) * scale
  if p % 2 = 0 then low ≤ numerator && numerator ≤ high
  else low < numerator && numerator < high

/-- The point of the grid of `10 ^ g` nearest to the magnitude of `p` among those that read back. -/
def onGrid? (p : Nat) (g : Int) : Option Nat :=
  let scale := Nat.pow 10 (-g).toNat
  let step := Nat.pow 10 g.toNat * unitsPerOne
  let value := units p * scale
  let below := value / step
  match readsBack p (2 * below * step) scale, readsBack p (2 * (below + 1) * step) scale with
  | true, true => some (if 2 * (value % step) < step then below else below + 1)
  | true, false => some below
  | false, true => some (below + 1)
  | false, false => none

/-- The most digits that a shortest decimal can need. -/
def mostDigits : Nat := 17

/-- The exact decimal of a magnitude. -/
def exactDecimal (p : Nat) : Decimal := ⟨units p * Nat.pow 5 1074, -1074⟩

/-- The decimal of the fewest digits that reads back as a positive magnitude, and of those the
nearest to it. -/
def shortest (p : Nat) : Decimal :=
  let lead := leadingExponent p
  let hit := (List.range mostDigits).findSome? fun (k : Nat) =>
    let grid := lead - k
    (onGrid? p grid).map fun digits => Decimal.mk digits grid
  (hit.getD (exactDecimal p)).stripped

end Binary64

end LoxTokens
