import LoxTokens.Binary64.Basic
import Mathlib.Algebra.Order.Field.Basic
import Mathlib.Algebra.Order.AbsoluteValue.Basic
import Mathlib.Data.Rat.Cast.Order
import Mathlib.Tactic.FieldSimp
import Mathlib.Tactic.Linarith
import Mathlib.Tactic.NormNum
import Mathlib.Tactic.Positivity
import Mathlib.Tactic.Ring

/-!
The magnitudes of patterns, and the rationals around each of them.

Patterns are ordered like their magnitudes, and the step from one to the next is a power of two that
grows by binades. A rational belongs to the pattern whose magnitude is nearest: the ends of its
range are the midpoints to the two neighbours, and each end goes to the even one of the two patterns
that meet there.

* `units_succ` — the step from one magnitude to the next.
* `Covers.mono` — greater rationals belong to greater patterns, so each belongs to at most one.
* `Covers.distance_le` — no magnitude is nearer than that of the pattern to which a rational belongs.
-/

namespace LoxTokens.Binary64

/-! ### Units -/

theorem binadeSize_eq : binadeSize = 4503599627370496 := rfl

theorem units_zero : units 0 = 0 := rfl

/-- A binade is a grid: its patterns count equal steps, and its end is the start of the next one. -/
theorem units_grid {doubled count : Nat} (normal : doubled = 0 ∨ binadeSize ≤ count)
    (within : count ≤ 2 * binadeSize) :
    units (doubled * binadeSize + count) = count * 2 ^ doubled := by
  have size := binadeSize_eq
  rcases Nat.lt_or_ge count binadeSize with below | start
  · obtain rfl : doubled = 0 := normal.resolve_right (Nat.not_le_of_gt below)
    simp [units, Nat.div_eq_of_lt below]
  rcases Nat.lt_or_ge count (2 * binadeSize) with inside | stop
  · have exponent : (doubled * binadeSize + count) / binadeSize = doubled + 1 := by
      rw [size] at start inside ⊢; omega
    have fraction : (doubled * binadeSize + count) % binadeSize = count - binadeSize := by
      rw [size] at start inside ⊢; omega
    rw [units, exponent, fraction, if_neg (Nat.succ_ne_zero _), Nat.add_sub_cancel,
      Nat.add_sub_of_le start]
    rfl
  · obtain rfl : count = 2 * binadeSize := Nat.le_antisymm within stop
    have exponent : (doubled * binadeSize + 2 * binadeSize) / binadeSize = doubled + 2 := by
      rw [size]; omega
    have fraction : (doubled * binadeSize + 2 * binadeSize) % binadeSize = 0 := by
      rw [size]; omega
    rw [units, exponent, fraction, if_neg (Nat.succ_ne_zero _), Nat.add_zero,
      Nat.add_succ_sub_one, Nat.pow_eq, pow_succ]
    ring

/-- Each pattern is a place on the grid of its binade. -/
theorem exists_grid (p : Nat) : ∃ doubled count, p = doubled * binadeSize + count ∧
    (doubled = 0 ∨ binadeSize ≤ count) ∧ count < 2 * binadeSize := by
  have size := binadeSize_eq
  rcases Nat.lt_or_ge p (2 * binadeSize) with first | later
  · exact ⟨0, p, by omega, Or.inl rfl, first⟩
  · refine ⟨p / binadeSize - 1, p % binadeSize + binadeSize, ?_, Or.inr ?_, ?_⟩ <;>
      (rw [size] at later ⊢; omega)

/-- The step from one magnitude to the next. -/
theorem units_succ {doubled count : Nat} (normal : doubled = 0 ∨ binadeSize ≤ count)
    (within : count < 2 * binadeSize) :
    units (doubled * binadeSize + count + 1) =
      units (doubled * binadeSize + count) + 2 ^ doubled := by
  have next := units_grid (normal.imp_right Nat.le_succ_of_le) (Nat.succ_le_of_lt within)
  rw [Nat.add_assoc, next, units_grid normal (Nat.le_of_lt within), Nat.succ_mul]

theorem units_strictMono : StrictMono units := by
  apply strictMono_nat_of_lt_succ
  intro p
  obtain ⟨doubled, count, rfl, normal, within⟩ := exists_grid p
  rw [units_succ normal within]
  exact Nat.lt_add_of_pos_right (Nat.two_pow_pos doubled)

theorem unitsPerOne_eq : unitsPerOne = 2 ^ 1074 := by decide +kernel

theorem unitsPerOne_pos : (0 : ℚ) < unitsPerOne := by
  rw [unitsPerOne_eq, Nat.cast_pow]
  exact pow_pos Nat.ofNat_pos 1074

/-! ### Magnitudes -/

/-- The magnitude that a pattern stands for. -/
def magnitude (p : Nat) : ℚ := units p / unitsPerOne

theorem magnitude_zero : magnitude 0 = 0 := by
  rw [magnitude, units_zero, Nat.cast_zero, zero_div]

theorem magnitude_strictMono : StrictMono magnitude := by
  intro p r less
  have units_lt : (units p : ℚ) < units r := by exact_mod_cast units_strictMono less
  exact div_lt_div_of_pos_right units_lt unitsPerOne_pos

theorem magnitude_nonneg (p : Nat) : 0 ≤ magnitude p :=
  div_nonneg (Nat.cast_nonneg _) unitsPerOne_pos.le

/-! ### The rationals that belong to a pattern -/

/-- The least rational that is no nearer to the magnitude below: half way to it. -/
def lowEnd (p : Nat) : ℚ := (magnitude (p - 1) + magnitude p) / 2

/-- The rationals to which a pattern is nearest, and those half way to the next if it is even. -/
structure Covers (p : Nat) (q : ℚ) : Prop where
  low : lowEnd p ≤ q
  high : q ≤ lowEnd (p + 1)
  even : q = lowEnd p ∨ q = lowEnd (p + 1) → p % 2 = 0

theorem lowEnd_succ (p : Nat) : lowEnd (p + 1) = (magnitude p + magnitude (p + 1)) / 2 := rfl

theorem lowEnd_le (p : Nat) : lowEnd p ≤ magnitude p := by
  have le := magnitude_strictMono.monotone (Nat.sub_le p 1)
  rw [lowEnd]
  linarith

theorem lt_lowEnd_succ (p : Nat) : magnitude p < lowEnd (p + 1) := by
  have less := magnitude_strictMono (Nat.lt_succ_self p)
  rw [lowEnd_succ]
  linarith

theorem lowEnd_strictMono : StrictMono lowEnd :=
  strictMono_nat_of_lt_succ fun p => (lowEnd_le p).trans_lt (lt_lowEnd_succ p)

theorem covers_magnitude (p : Nat) : Covers p (magnitude p) := by
  refine ⟨lowEnd_le p, (lt_lowEnd_succ p).le, ?_⟩
  rintro (atLow | atHigh)
  · -- only zero is the end of its own range
    rcases Nat.eq_zero_or_pos p with rfl | positive
    · rfl
    · have less := magnitude_strictMono (Nat.sub_one_lt_of_lt positive)
      rw [lowEnd] at atLow
      linarith
  · exact absurd atHigh (lt_lowEnd_succ p).ne

namespace Covers

variable {p r : Nat} {q q' : ℚ}

/-- Greater rationals belong to greater patterns. -/
theorem mono (hp : Covers p q) (hr : Covers r q') (le : q ≤ q') : p ≤ r := by
  by_contra less
  rw [Nat.not_le] at less
  have ends : lowEnd (r + 1) ≤ lowEnd p := lowEnd_strictMono.monotone less
  -- the ranges meet in one point, which only an even pattern takes, and of neighbours one is odd
  have meet : lowEnd (r + 1) = lowEnd p :=
    le_antisymm ends (hp.low.trans (le.trans hr.high))
  have neighbours : r + 1 = p := lowEnd_strictMono.injective meet
  have even := hp.even (Or.inl (le_antisymm (le.trans (hr.high.trans ends)) hp.low))
  have even' := hr.even (Or.inr (le_antisymm hr.high (ends.trans (hp.low.trans le))))
  omega

theorem unique (hp : Covers p q) (hr : Covers r q) : p = r :=
  Nat.le_antisymm (hp.mono hr le_rfl) (hr.mono hp le_rfl)

theorem nonneg (h : Covers p q) : 0 ≤ q := by
  refine le_trans ?_ h.low
  have below := magnitude_nonneg (p - 1)
  have here := magnitude_nonneg p
  rw [lowEnd]
  linarith

/-- A magnitude below is not nearer, and is as near only where the pattern is even. -/
theorem distance_of_lt (h : Covers p q) (less : r < p) :
    |magnitude p - q| ≤ |magnitude r - q| ∧
      (|magnitude r - q| = |magnitude p - q| → p % 2 = 0) := by
  have below : magnitude r ≤ magnitude (p - 1) :=
    magnitude_strictMono.monotone (Nat.le_sub_one_of_lt less)
  have above := magnitude_strictMono less
  have low : (magnitude (p - 1) + magnitude p) / 2 ≤ q := h.low
  have far : |magnitude r - q| = q - magnitude r := by
    rw [abs_sub_comm, abs_of_nonneg]
    linarith
  rw [far]
  refine ⟨abs_le.mpr ⟨by linarith, by linarith⟩, fun tie => h.even (Or.inl ?_)⟩
  rw [lowEnd]
  rcases abs_cases (magnitude p - q) with ⟨same, _⟩ | ⟨same, _⟩ <;> linarith

/-- A magnitude above is not nearer, and is as near only where the pattern is even. -/
theorem distance_of_gt (h : Covers p q) (less : p < r) :
    |magnitude p - q| ≤ |magnitude r - q| ∧
      (|magnitude r - q| = |magnitude p - q| → p % 2 = 0) := by
  have above : magnitude (p + 1) ≤ magnitude r := magnitude_strictMono.monotone less
  have below := magnitude_strictMono less
  have high : q ≤ (magnitude p + magnitude (p + 1)) / 2 := h.high
  have far : |magnitude r - q| = magnitude r - q := by
    rw [abs_of_nonneg]
    linarith
  rw [far]
  refine ⟨abs_le.mpr ⟨by linarith, by linarith⟩, fun tie => h.even (Or.inr ?_)⟩
  rw [lowEnd_succ]
  rcases abs_cases (magnitude p - q) with ⟨same, _⟩ | ⟨same, _⟩ <;> linarith

theorem distance_le (h : Covers p q) (r : Nat) : |magnitude p - q| ≤ |magnitude r - q| := by
  rcases Nat.lt_trichotomy r p with less | rfl | more
  · exact (h.distance_of_lt less).1
  · exact le_rfl
  · exact (h.distance_of_gt more).1

theorem even_of_distance_eq (h : Covers p q) (different : r ≠ p)
    (tie : |magnitude r - q| = |magnitude p - q|) : p % 2 = 0 := by
  rcases Nat.lt_or_gt_of_ne different with less | more
  · exact (h.distance_of_lt less).2 tie
  · exact (h.distance_of_gt more).2 tie

end Covers

end LoxTokens.Binary64
