/-!
Numbers in the IEEE binary64 format, as their bit patterns.

A pattern without its sign is a natural number, and larger patterns stand for larger magnitudes.
`units` gives the magnitude exactly: every finite magnitude is a whole number of units of 2^-1074,
the least positive one. The pattern of infinity counts 2^1024 there, the value where an unbounded
exponent would go on, so that rounding needs no case of its own at the top.
-/

namespace LoxTokens

/-- A number in the binary64 format. -/
structure Binary64 where
  bits : UInt64
  deriving DecidableEq, Repr

namespace Binary64

/-- The number of patterns that share one exponent. -/
def binadeSize : Nat := Nat.pow 2 52

/-- The pattern of positive infinity; the patterns above it are not numbers. -/
def infinityPattern : Nat := 2047 * binadeSize

/-- The least positive magnitude is one part in this many. -/
def unitsPerOne : Nat := Nat.pow 2 1074

/-- The number with a given pattern and no sign. -/
def ofPattern (p : Nat) : Binary64 := ⟨.ofNat p⟩

/-- The pattern of a number without its sign. -/
def pattern (x : Binary64) : Nat := x.bits.toNat % Nat.pow 2 63

/-- Whether the sign is set. -/
def isNegative (x : Binary64) : Bool := decide (Nat.pow 2 63 ≤ x.bits.toNat)

/-- Whether the pattern stands for no number. -/
def isNaN (x : Binary64) : Bool := decide (infinityPattern < x.pattern)

/-- The magnitude that a pattern stands for, in units of 2^-1074. -/
def units (p : Nat) : Nat :=
  if p / binadeSize = 0 then p else (binadeSize + p % binadeSize) * Nat.pow 2 (p / binadeSize - 1)

/-- Equality of numbers: a pattern that is no number differs from all, and the two zeros are
equal. -/
def agrees (x y : Binary64) : Bool :=
  !x.isNaN && !y.isNaN && (x == y || x.pattern == 0 && y.pattern == 0)

/-- Up to that of infinity, a pattern is the pattern of its number. -/
theorem pattern_ofPattern {p : Nat} (h : p ≤ infinityPattern) : (ofPattern p).pattern = p := by
  have fits : p < Nat.pow 2 63 := Nat.lt_of_le_of_lt h (by decide)
  have bits : (ofPattern p).bits.toNat = p :=
    UInt64.toNat_ofNat_of_lt' (Nat.lt_trans fits (by decide))
  rw [pattern, bits, Nat.mod_eq_of_lt fits]

theorem isNaN_ofPattern {p : Nat} (h : p ≤ infinityPattern) : (ofPattern p).isNaN = false := by
  rw [isNaN, pattern_ofPattern h, decide_eq_false_iff_not, Nat.not_lt]
  exact h

/-- A number that is not NaN agrees with itself. -/
theorem agrees_self {x : Binary64} : x.agrees x = !x.isNaN := by
  cases h : x.isNaN <;> simp [agrees, h]

end Binary64

end LoxTokens
