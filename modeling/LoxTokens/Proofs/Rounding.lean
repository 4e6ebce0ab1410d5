import LoxTokens.Binary64.Nearest
import LoxTokens.Proofs.Magnitudes
import Mathlib.Algebra.Order.Field.Power

/-!
Rounding to the nearest number.

`IsNearest` says which number a rational is rounded to, in terms of the values of numbers alone: the
nearest of all finite ones, of two the one whose last bit is zero, and infinity from a bound on.
There is one such number at most, and `ofRatio` gives it.

* `nearestPattern_eq_of_covers` — the pattern that is computed is the one the rational belongs to.
* `IsNearest.unique` — a rational has one nearest number.
* `isNearest_ofRatio` — the number that is computed is that one.
-/

namespace LoxTokens.Binary64

/-! ### Rounding to whole numbers -/

/-- A whole number next to a rational, at most a half away; a half goes to the even one. -/
structure HalfEven (n : Nat) (v : ℚ) : Prop where
  low : n - 1 / 2 ≤ v
  high : v ≤ n + 1 / 2
  even : v = n - 1 / 2 ∨ v = n + 1 / 2 → n % 2 = 0

theorem halfEven_roundHalfEven (num : Nat) {den : Nat} (positive : 0 < den) :
    HalfEven (roundHalfEven num den) (num / den) := by
  have positive' : (0 : ℚ) < den := Nat.cast_pos.mpr positive
  have split : (num : ℚ) = den * ↑(num / den) + ↑(num % den) := by
    exact_mod_cast (Nat.div_add_mod num den).symm
  have quotient : (num / den : ℚ) = ↑(num / den) + ↑(num % den) / den := by
    rw [split, add_div, mul_div_cancel_left₀ _ positive'.ne']
  have part : ((num % den : Nat) : ℚ) / den < 1 := by
    rw [div_lt_one positive']
    exact_mod_cast Nat.mod_lt num positive
  have nonneg : (0 : ℚ) ≤ ((num % den : Nat) : ℚ) / den := by positivity
  have under : 2 * (num % den) < den ↔ ((num % den : Nat) : ℚ) / den < 1 / 2 := by
    rw [div_lt_div_iff₀ positive' two_pos, one_mul, mul_comm]
    exact_mod_cast Iff.rfl
  have more : den < 2 * (num % den) ↔ 1 / 2 < ((num % den : Nat) : ℚ) / den := by
    rw [div_lt_div_iff₀ two_pos positive', one_mul, mul_comm _ 2]
    exact_mod_cast Iff.rfl
  rw [quotient, roundHalfEven]
  generalize ((num % den : Nat) : ℚ) / den = rest at *
  generalize num / den = below
  split
  · next small =>
      have small' := under.mp small
      exact ⟨by linarith, by linarith, by rintro (h | h) <;> linarith⟩
  split
  · next large =>
      have large' := more.mp large
      have next : ((below + 1 : Nat) : ℚ) = below + 1 := Nat.cast_succ below
      exact ⟨by linarith, by linarith, by rintro (h | h) <;> linarith⟩
  · next notSmall notLarge =>
      have half : rest = 1 / 2 :=
        le_antisymm (not_lt.mp (mt more.mpr notLarge)) (not_lt.mp (mt under.mpr notSmall))
      rcases Nat.mod_two_eq_zero_or_one below with even | odd
      · rw [even, Nat.add_zero]
        exact ⟨by linarith, by linarith, fun _ => even⟩
      · have next : ((below + 1 : Nat) : ℚ) = below + 1 := Nat.cast_succ below
        rw [odd]
        exact ⟨by linarith, by linarith, fun _ => by omega⟩

namespace HalfEven

variable {n : Nat} {v : ℚ}

theorem ge_of_ge (h : HalfEven n v) {bound : Nat} (le : (bound : ℚ) ≤ v) : bound ≤ n := by
  have less : (bound : ℚ) < ((n + 1 : Nat) : ℚ) := by
    rw [Nat.cast_succ]
    linarith [h.high]
  exact Nat.lt_succ_iff.mp (Nat.cast_lt.mp less)

theorem le_of_lt (h : HalfEven n v) {bound : Nat} (less : v < bound) : n ≤ bound := by
  have less' : (n : ℚ) < ((bound + 1 : Nat) : ℚ) := by
    rw [Nat.cast_succ]
    linarith [h.low]
  exact Nat.lt_succ_iff.mp (Nat.cast_lt.mp less')

end HalfEven

/-! ### Rounding within a binade -/

/-- The step of a grid. -/
def gridStep (doubled : Nat) : ℚ := 2 ^ doubled / unitsPerOne

/-- Behind the units the steps are powers of two. -/
theorem gridStep_add (k : Nat) : gridStep (1074 + k) = 2 ^ k := by
  rw [gridStep, unitsPerOne_eq, pow_add, Nat.cast_pow]
  exact mul_div_cancel_left₀ _ (pow_ne_zero _ two_ne_zero)

theorem gridStep_pos (doubled : Nat) : 0 < gridStep doubled :=
  div_pos (pow_pos two_pos _) unitsPerOne_pos

section Grid

variable {doubled count : Nat}

theorem magnitude_grid (normal : doubled = 0 ∨ binadeSize ≤ count)
    (within : count ≤ 2 * binadeSize) :
    magnitude (doubled * binadeSize + count) = count * gridStep doubled := by
  rw [magnitude, units_grid normal within, gridStep]
  push_cast
  ring

/-- Behind a place on a grid the magnitudes go on with its step or, behind its end, a longer one. -/
theorem le_magnitude_succ (normal : doubled = 0 ∨ binadeSize ≤ count)
    (within : count ≤ 2 * binadeSize) :
    (count + 1) * gridStep doubled ≤ magnitude (doubled * binadeSize + count + 1) := by
  rcases Nat.lt_or_eq_of_le within with inside | rfl
  · rw [Nat.add_assoc,
      magnitude_grid (normal.imp_right Nat.le_succ_of_le) (Nat.succ_le_of_lt inside)]
    push_cast
    exact le_rfl
  · have end_ : doubled * binadeSize + 2 * binadeSize + 1 =
        (doubled + 1) * binadeSize + (binadeSize + 1) := by ring
    have size := binadeSize_eq
    have step : gridStep (doubled + 1) = 2 * gridStep doubled := by
      rw [gridStep, gridStep, pow_succ]
      ring
    rw [end_, magnitude_grid (Or.inr (Nat.le_succ _)) (by omega), step]
    push_cast
    linarith [gridStep_pos doubled]

variable {v : ℚ} (rounded : HalfEven count v) (normal : doubled = 0 ∨ binadeSize ≤ count)
  (within : count ≤ 2 * binadeSize)

include rounded normal within

theorem HalfEven.le_end : v * gridStep doubled ≤ lowEnd (doubled * binadeSize + count + 1) ∧
    (v * gridStep doubled = lowEnd (doubled * binadeSize + count + 1) → count % 2 = 0) := by
  have step := gridStep_pos doubled
  have here := magnitude_grid normal within
  have next := le_magnitude_succ normal within
  have le := mul_le_mul_of_nonneg_right rounded.high step.le
  rw [lowEnd_succ, here]
  refine ⟨by linarith, fun tie => rounded.even (Or.inr ?_)⟩
  exact mul_right_cancel₀ step.ne' (by linarith)

theorem HalfEven.end_le (nonneg : 0 ≤ v) (start : doubled = 0 ∨ (binadeSize : ℚ) ≤ v) :
    lowEnd (doubled * binadeSize + count) ≤ v * gridStep doubled ∧
      (v * gridStep doubled = lowEnd (doubled * binadeSize + count) → count % 2 = 0) := by
  have step := gridStep_pos doubled
  have here := magnitude_grid normal within
  rcases Nat.eq_zero_or_pos count with rfl | positive
  · -- the range of zero starts at zero
    obtain rfl : doubled = 0 := normal.resolve_right (by decide)
    have zero : lowEnd (0 * binadeSize + 0) = 0 := by simp [lowEnd, magnitude_zero]
    rw [zero]
    exact ⟨mul_nonneg nonneg step.le, fun _ => rfl⟩
  by_cases inside : doubled = 0 ∨ binadeSize ≤ count - 1
  · have before := magnitude_grid inside ((Nat.sub_le count 1).trans within)
    rw [Nat.cast_pred positive] at before
    have le := mul_le_mul_of_nonneg_right rounded.low step.le
    rw [lowEnd, Nat.add_sub_assoc positive, before, here]
    refine ⟨by linarith, fun tie => rounded.even (Or.inl ?_)⟩
    exact mul_right_cancel₀ step.ne' (by linarith)
  · -- at the start of a binade the step before is shorter, but the rational is not below the start
    rw [not_or] at inside
    obtain rfl : count = binadeSize := by
      have := normal.resolve_left inside.1
      omega
    have less := magnitude_strictMono (Nat.sub_one_lt_of_lt (Nat.add_pos_right
      (doubled * binadeSize) positive))
    have le := mul_le_mul_of_nonneg_right (start.resolve_left inside.1) step.le
    rw [← here] at le
    rw [lowEnd]
    exact ⟨by linarith, fun tie => by linarith⟩

/-- A rational that is rounded on the grid of its binade belongs to the pattern found there. -/
theorem HalfEven.covers (nonneg : 0 ≤ v) (start : doubled = 0 ∨ (binadeSize : ℚ) ≤ v) :
    Covers (doubled * binadeSize + count) (v * gridStep doubled) := by
  have high := rounded.le_end normal within
  have low := rounded.end_le normal within nonneg start
  refine ⟨low.1, high.1, fun tie => ?_⟩
  have even : count % 2 = 0 := tie.elim low.2 high.2
  rw [binadeSize_eq]
  omega

end Grid

/-! ### The nearest pattern -/

section Ratio

variable {num den p : Nat} (positive : 0 < den)

include positive

/-- The binade of a ratio, told by the length of its whole part. -/
theorem doublings_spec (num : Nat) :
    num < 2 * binadeSize * (den * 2 ^ doublings (num / den)) ∧
      (doublings (num / den) = 0 ∨ binadeSize * (den * 2 ^ doublings (num / den)) ≤ num) := by
  have size : binadeSize = 2 ^ 52 := rfl
  have span (k : Nat) : 2 ^ 52 * (den * 2 ^ k) = 2 ^ (k + 52) * den := by ring
  rw [size, mul_assoc, span, doublings]
  generalize length : (num / den).log2 - 52 = doubled
  constructor
  · have less : num / den < 2 ^ (doubled + 52 + 1) := by
      apply Nat.lt_log2_self.trans_le
      exact Nat.pow_le_pow_right Nat.two_pos (by omega)
    rw [Nat.div_lt_iff_lt_mul positive, pow_succ] at less
    linarith
  · rcases Nat.eq_zero_or_pos doubled with zero | more
    · exact Or.inl zero
    · have exact_ : doubled + 52 = (num / den).log2 := by omega
      rw [exact_, ← Nat.le_div_iff_mul_le positive]
      exact Or.inr (Nat.log2_self_le (by rintro zero; simp [zero] at exact_))

/-- A ratio belongs to a pattern, and that pattern or infinity is computed. -/
theorem exists_covers (num : Nat) :
    ∃ p, Covers p (num / den) ∧ nearestPattern num den = min infinityPattern p := by
  refine ⟨_, ?_, rfl⟩
  obtain ⟨within, normal⟩ := doublings_spec positive (num * unitsPerOne)
  generalize doublings (num * unitsPerOne / den) = doubled at *
  have positive' : (0 : ℚ) < ((den * 2 ^ doubled : Nat) : ℚ) :=
    Nat.cast_pos.mpr (Nat.mul_pos positive (Nat.two_pow_pos doubled))
  have rounded := halfEven_roundHalfEven (num * unitsPerOne) (Nat.cast_pos.mp positive')
  have start : doubled = 0 ∨
      (binadeSize : ℚ) ≤ (num * unitsPerOne : Nat) / (den * 2 ^ doubled : Nat) := by
    refine normal.imp_right fun le => ?_
    rw [le_div_iff₀ positive']
    exact_mod_cast le
  have stop : ((num * unitsPerOne : Nat) / (den * 2 ^ doubled : Nat) : ℚ) <
      (2 * binadeSize : Nat) := by
    rw [div_lt_iff₀ positive']
    exact_mod_cast within
  have covers := rounded.covers (start.imp_right rounded.ge_of_ge) (rounded.le_of_lt stop)
    (div_nonneg (Nat.cast_nonneg _) (Nat.cast_nonneg _)) start
  have same : (num / den : ℚ) =
      (num * unitsPerOne : Nat) / (den * 2 ^ doubled : Nat) * gridStep doubled := by
    have nonzero := unitsPerOne_pos.ne'
    have nonzero' : (den : ℚ) ≠ 0 := Nat.cast_ne_zero.mpr positive.ne'
    rw [gridStep]
    push_cast
    field_simp
  rw [same]
  exact covers

theorem nearestPattern_eq_of_covers (h : Covers p (num / den)) :
    nearestPattern num den = min infinityPattern p := by
  obtain ⟨r, covers, computed⟩ := exists_covers positive num
  rw [computed, h.unique covers]

/-- Below infinity the ratio belongs to the pattern that is computed. -/
theorem covers_nearestPattern (finite : nearestPattern num den ≠ infinityPattern) :
    Covers (nearestPattern num den) (num / den) := by
  obtain ⟨p, covers, computed⟩ := exists_covers positive num
  rw [computed] at finite ⊢
  rwa [min_eq_right]
  by_contra above
  exact finite (min_eq_left (Nat.le_of_not_le above))

/-- Infinity is computed from half way between the greatest magnitude and the next one on. -/
theorem nearestPattern_eq_infinity_iff :
    nearestPattern num den = infinityPattern ↔ lowEnd infinityPattern ≤ num / den := by
  obtain ⟨p, covers, computed⟩ := exists_covers positive num
  rw [computed, min_eq_left_iff]
  constructor
  · intro le
    exact (lowEnd_strictMono.monotone le).trans covers.low
  · intro le
    by_contra less
    rw [Nat.not_le] at less
    -- the range below ends where that of infinity starts, and that end is not its own
    have ends : lowEnd (p + 1) ≤ lowEnd infinityPattern := lowEnd_strictMono.monotone less
    have last : p + 1 = infinityPattern :=
      lowEnd_strictMono.injective (le_antisymm ends (le.trans covers.high))
    have even := covers.even (Or.inr (le_antisymm covers.high (ends.trans le)))
    have parity : infinityPattern % 2 = 0 := rfl
    omega

end Ratio

/-- The bound for infinity: half way between the greatest finite magnitude and 2^1024. -/
theorem lowEnd_infinityPattern : lowEnd infinityPattern = 2 ^ 1024 - 2 ^ 970 := by
  have size := binadeSize_eq
  have here : infinityPattern = 2045 * binadeSize + 2 * binadeSize := rfl
  have before : infinityPattern - 1 = 2045 * binadeSize + (2 * binadeSize - 1) := rfl
  have step : gridStep 2045 = 2 ^ 971 := gridStep_add 971
  have double : (2 : ℚ) ^ 971 = 2 * 2 ^ 970 := pow_succ' ..
  have top : (2 : ℚ) ^ 1024 = 2 ^ 54 * 2 ^ 970 := by rw [← pow_add]
  rw [lowEnd, before, here, magnitude_grid (Or.inr (by omega)) (by omega),
    magnitude_grid (Or.inr (by omega)) le_rfl, step, double, top, size]
  generalize (2 : ℚ) ^ 970 = unit
  push_cast
  ring

/-! ### Values -/

/-- The value of a number, from its sign, its exponent and its fraction. Infinity gets the value that
the next exponent would stand for. -/
def value (x : Binary64) : ℚ :=
  let exponent : Nat := x.pattern / 2 ^ 52
  let fraction : Nat := x.pattern % 2 ^ 52
  let absolute : ℚ :=
    if exponent = 0 then fraction * 2 ^ (-1074 : ℤ)
    else (2 ^ 52 + fraction) * 2 ^ ((exponent : ℤ) - 1075)
  if x.isNegative then -absolute else absolute

/-- Positive infinity. -/
def infinity : Binary64 := ofPattern infinityPattern

/-- Whether a number is neither infinite nor NaN. -/
def IsFinite (x : Binary64) : Prop := x.pattern < infinityPattern

/-- The number that a rational is rounded to: the nearest, and of two the one whose last bit is zero.
It has no sign, and is infinite from half way between the greatest finite value and 2^1024 on. -/
structure IsNearest (x : Binary64) (q : ℚ) : Prop where
  notNaN : x.isNaN = false
  notNegative : x.isNegative = false
  infinite_iff : x = infinity ↔ 2 ^ 1024 - 2 ^ 970 ≤ q
  nearest : x ≠ infinity → ∀ y : Binary64, y.IsFinite → |x.value - q| ≤ |y.value - q|
  even : x ≠ infinity → ∀ y : Binary64, y.IsFinite → y.value ≠ x.value →
    |y.value - q| = |x.value - q| → x.bits.toNat % 2 = 0

theorem magnitude_eq (p : Nat) : magnitude p =
    if p / 2 ^ 52 = 0 then ((p % 2 ^ 52 : Nat) : ℚ) * 2 ^ (-1074 : ℤ)
    else (2 ^ 52 + ((p % 2 ^ 52 : Nat) : ℚ)) * 2 ^ (((p / 2 ^ 52 : Nat) : ℤ) - 1075) := by
  have size : binadeSize = 2 ^ 52 := rfl
  have scale : (2 : ℚ) ^ (-1074 : ℤ) = (unitsPerOne : ℚ)⁻¹ := by
    rw [unitsPerOne_eq, zpow_neg, Nat.cast_pow]
    rfl
  rw [magnitude, units, size, div_eq_mul_inv, ← scale]
  split
  · next subnormal =>
      rw [Nat.mod_eq_of_lt ((Nat.div_eq_zero_iff_lt (Nat.two_pow_pos 52)).mp subnormal)]
  · next normal =>
      have exponent : ((p / 2 ^ 52 : Nat) : ℤ) - 1075 = (p / 2 ^ 52 - 1 : Nat) + -1074 := by
        rw [Nat.cast_sub (Nat.one_le_iff_ne_zero.mpr normal)]
        ring
      rw [exponent, zpow_add₀ two_ne_zero, zpow_natCast, Nat.pow_eq]
      generalize (2 : ℚ) ^ (-1074 : ℤ) = unit
      push_cast
      ring

theorem value_eq (x : Binary64) :
    x.value = if x.isNegative then -magnitude x.pattern else magnitude x.pattern := by
  rw [magnitude_eq]
  rfl

theorem value_of_notNegative {x : Binary64} (h : x.isNegative = false) :
    x.value = magnitude x.pattern := by
  simp [value_eq, h]

theorem isNegative_ofPattern {p : Nat} (h : p ≤ infinityPattern) :
    (ofPattern p).isNegative = false := by
  have fits : p < Nat.pow 2 63 := Nat.lt_of_le_of_lt h (by decide)
  have bits : (ofPattern p).bits.toNat = p :=
    UInt64.toNat_ofNat_of_lt' (Nat.lt_trans fits (by decide))
  rw [isNegative, bits, decide_eq_false_iff_not]
  exact Nat.not_le_of_lt fits

theorem toNat_bits_of_notNegative {x : Binary64} (h : x.isNegative = false) :
    x.bits.toNat = x.pattern := by
  rw [isNegative, decide_eq_false_iff_not, Nat.not_le] at h
  exact (Nat.mod_eq_of_lt h).symm

/-- A number without its sign set is that of its pattern. -/
theorem ofPattern_pattern {x : Binary64} (h : x.isNegative = false) : ofPattern x.pattern = x := by
  rw [← toNat_bits_of_notNegative h, ofPattern, UInt64.ofNat_toNat]

theorem ofPattern_eq_infinity_iff {p : Nat} (h : p ≤ infinityPattern) :
    ofPattern p = infinity ↔ p = infinityPattern := by
  constructor
  · intro same
    have patterns := congrArg pattern same
    rwa [infinity, pattern_ofPattern h, pattern_ofPattern le_rfl] at patterns
  · rintro rfl
    rfl

namespace Covers

variable {p : Nat} {q : ℚ}

/-- No finite value is nearer, with a sign or without. -/
theorem value_distance_le (h : Covers p q) (y : Binary64) :
    |magnitude p - q| ≤ |y.value - q| := by
  rw [value_eq]
  split
  · have nearest := h.distance_le y.pattern
    have magnitude_nonneg := magnitude_nonneg y.pattern
    have nonneg := h.nonneg
    rw [abs_of_nonpos (by linarith : -magnitude y.pattern - q ≤ 0)]
    exact nearest.trans (abs_le.mpr ⟨by linarith, by linarith⟩)
  · exact h.distance_le y.pattern

theorem even_of_value_distance_eq (h : Covers p q) {y : Binary64}
    (different : y.value ≠ magnitude p) (tie : |y.value - q| = |magnitude p - q|) :
    p % 2 = 0 := by
  rw [value_eq] at different tie
  split at different
  · next negative =>
      rw [if_pos negative] at tie
      -- nothing below zero is as near as zero itself
      have magnitude_nonneg := magnitude_nonneg y.pattern
      have zero := h.distance_le 0
      have nonneg := h.nonneg
      rw [magnitude_zero, zero_sub, abs_neg, abs_of_nonneg nonneg] at zero
      rw [abs_of_nonpos (by linarith : -magnitude y.pattern - q ≤ 0)] at tie
      have none : magnitude y.pattern = 0 := by linarith
      rw [none, neg_zero, ← magnitude_zero] at different
      refine h.even_of_distance_eq (r := 0) (by rintro rfl; exact different rfl) ?_
      rw [magnitude_zero, zero_sub, abs_neg, abs_of_nonneg nonneg]
      linarith
  · next positive =>
      rw [if_neg positive] at tie
      exact h.even_of_distance_eq (fun same => different (by rw [same])) tie

end Covers

/-- The number that is computed for a ratio is the nearest. -/
theorem isNearest_ofRatio (num : Nat) {den : Nat} (positive : 0 < den) :
    IsNearest (ofRatio num den) (num / den) := by
  have le := nearestPattern_le num den
  have pattern : (ofRatio num den).pattern = nearestPattern num den := pattern_ofPattern le
  have notNegative : (ofRatio num den).isNegative = false := isNegative_ofPattern le
  have infinite_iff : ofRatio num den = infinity ↔ nearestPattern num den = infinityPattern :=
    ofPattern_eq_infinity_iff le
  have value := value_of_notNegative notNegative
  rw [pattern] at value
  refine ⟨isNaN_ofPattern le, notNegative, ?_, ?_, ?_⟩
  · rw [infinite_iff, nearestPattern_eq_infinity_iff positive, lowEnd_infinityPattern]
  · intro finite y _
    rw [value]
    exact (covers_nearestPattern positive (mt infinite_iff.mpr finite)).value_distance_le y
  · intro finite y _ different tie
    rw [value] at different tie
    rw [toNat_bits_of_notNegative notNegative, pattern]
    exact (covers_nearestPattern positive
      (mt infinite_iff.mpr finite)).even_of_value_distance_eq different tie

namespace IsNearest

variable {x y : Binary64} {q : ℚ}

theorem isFinite (h : IsNearest x q) (finite : x ≠ infinity) : x.IsFinite := by
  have notNaN := h.notNaN
  rw [isNaN, decide_eq_false_iff_not, Nat.not_lt] at notNaN
  refine lt_of_le_of_ne notNaN fun same => finite ?_
  rw [← ofPattern_pattern h.notNegative, same, infinity]

theorem not_lt (hx : IsNearest x q) (hy : IsNearest y q) (finite : x ≠ infinity)
    (finite' : y ≠ infinity) : ¬ x.pattern < y.pattern := by
  intro less
  have valueX := value_of_notNegative hx.notNegative
  have valueY := value_of_notNegative hy.notNegative
  have apart : x.value < y.value := by
    rw [valueX, valueY]
    exact magnitude_strictMono less
  have tie : |y.value - q| = |x.value - q| :=
    le_antisymm (hy.nearest finite' x (hx.isFinite finite))
      (hx.nearest finite y (hy.isFinite finite'))
  have half : q - x.value = y.value - q := by
    rcases abs_eq_abs.mp tie with same | opposite
    · exact absurd (sub_left_injective same) apart.ne'
    · linarith
  rcases Nat.lt_or_eq_of_le (Nat.succ_le_of_lt less) with between | next
  · -- a number between them would be nearer than both
    have small : x.pattern + 1 < infinityPattern := between.trans (hy.isFinite finite')
    have pattern : (ofPattern (x.pattern + 1)).pattern = x.pattern + 1 :=
      pattern_ofPattern small.le
    have value := value_of_notNegative (isNegative_ofPattern small.le)
    have nearest := hx.nearest finite (ofPattern (x.pattern + 1)) (by rwa [IsFinite, pattern])
    have above := magnitude_strictMono (Nat.lt_succ_self x.pattern)
    have below := magnitude_strictMono between
    rw [pattern] at value
    rw [← valueX, Nat.succ_eq_add_one, ← value] at above
    rw [← valueY, Nat.succ_eq_add_one, ← value] at below
    rw [abs_of_nonpos (by linarith : x.value - q ≤ 0)] at nearest
    rcases abs_cases ((ofPattern (x.pattern + 1)).value - q) with ⟨same, _⟩ | ⟨same, _⟩ <;> linarith
  · -- neighbours are not both even
    have evenX := hx.even finite y (hy.isFinite finite') apart.ne' tie
    have evenY := hy.even finite' x (hx.isFinite finite) apart.ne tie.symm
    rw [toNat_bits_of_notNegative hx.notNegative] at evenX
    rw [toNat_bits_of_notNegative hy.notNegative] at evenY
    omega

/-- A rational has one nearest number. -/
theorem unique (hx : IsNearest x q) (hy : IsNearest y q) : x = y := by
  by_cases infinite : x = infinity
  · rw [infinite, hy.infinite_iff.mpr (hx.infinite_iff.mp infinite)]
  · have infinite' : y ≠ infinity := fun same =>
      infinite (hx.infinite_iff.mpr (hy.infinite_iff.mp same))
    have patterns : x.pattern = y.pattern :=
      Nat.le_antisymm (Nat.not_lt.mp (hy.not_lt hx infinite' infinite))
        (Nat.not_lt.mp (hx.not_lt hy infinite infinite'))
    rw [← ofPattern_pattern hx.notNegative, patterns, ofPattern_pattern hy.notNegative]

end IsNearest

end LoxTokens.Binary64
