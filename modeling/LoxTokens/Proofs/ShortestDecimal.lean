import LoxTokens.Proofs.Numerals

/-!
The decimal that is chosen for a number belongs to it.

The search for few digits compares whole numbers. What it compares are the ends of the range of a
pattern (`Covers`), so each hit belongs to the pattern, and so does the exact decimal that stands in
where there is no hit. Zeros taken off the end of the digits do not change the value.

* `readsBack_iff` — the comparison of the search is that with the ends of the range.
* `covers_shortest` — the decimal that is chosen belongs to the pattern it is chosen for.
-/

namespace LoxTokens

theorem Decimal.value_stripped (d : Decimal) : d.stripped.value = d.value := by
  fun_induction Decimal.stripped d with
  | case1 d zero ih =>
      have ten : (d.digits : ℚ) = (d.digits / 10 : Nat) * 10 := by
        exact_mod_cast (Nat.div_mul_cancel (Nat.dvd_of_mod_eq_zero zero.2)).symm
      rw [ih, value, value, ten, zpow_add_one₀ (by norm_num : (10 : ℚ) ≠ 0)]
      ring
  | case2 => rfl

namespace Binary64

variable {p : Nat}

/-! ### The search compares with the ends of a range -/

theorem lowEnd_eq (p : Nat) :
    lowEnd p = (units (p - 1) + units p : Nat) / (2 * unitsPerOne) := by
  have nonzero := unitsPerOne_pos.ne'
  rw [lowEnd, magnitude, magnitude]
  push_cast
  field_simp

/-- Ratios to a common unit compare like their numerators. -/
theorem lowEnd_le_iff (p numerator : Nat) {scale : Nat} (positive : 0 < scale) :
    (lowEnd p ≤ numerator / (2 * unitsPerOne * scale) ↔
      (units (p - 1) + units p) * scale ≤ numerator) ∧
    ((numerator : ℚ) / (2 * unitsPerOne * scale) ≤ lowEnd p ↔
      numerator ≤ (units (p - 1) + units p) * scale) := by
  have unit : (0 : ℚ) < 2 * unitsPerOne := mul_pos two_pos unitsPerOne_pos
  have positive' : (0 : ℚ) < scale := Nat.cast_pos.mpr positive
  have ratio : (numerator : ℚ) / (2 * unitsPerOne * scale) =
      numerator / scale / (2 * unitsPerOne) := by rw [div_div, mul_comm]
  rw [lowEnd_eq, ratio, div_le_div_iff_of_pos_right unit, div_le_div_iff_of_pos_right unit,
    le_div_iff₀ positive', div_le_iff₀ positive']
  norm_cast

theorem readsBack_iff {numerator scale : Nat} (positive : 0 < scale) :
    readsBack p numerator scale = true ↔ Covers p (numerator / (2 * unitsPerOne * scale)) := by
  obtain ⟨low, low'⟩ := lowEnd_le_iff p numerator positive
  obtain ⟨high, high'⟩ := lowEnd_le_iff (p + 1) numerator positive
  rw [Nat.add_sub_cancel] at high high'
  have covers : Covers p (numerator / (2 * unitsPerOne * scale)) ↔
      (units (p - 1) + units p) * scale ≤ numerator ∧
        numerator ≤ (units p + units (p + 1)) * scale ∧
        (numerator = (units (p - 1) + units p) * scale ∨
          numerator = (units p + units (p + 1)) * scale → p % 2 = 0) := by
    have atLow := le_antisymm_iff.trans ((and_congr low' low).trans le_antisymm_iff.symm)
    have atHigh := le_antisymm_iff.trans ((and_congr high' high).trans le_antisymm_iff.symm)
    rw [← low, ← high', ← atLow, ← atHigh]
    exact ⟨fun h => ⟨h.low, h.high, h.even⟩, fun h => ⟨h.1, h.2.1, h.2.2⟩⟩
  rw [covers, readsBack]
  split
  · next even => simp [even]
  · next odd =>
      simp only [Bool.and_eq_true, decide_eq_true_eq, odd, imp_false, not_or]
      omega

/-! ### Each hit belongs to the pattern -/

theorem covers_of_onGrid? {grid : Int} {digits : Nat} (h : onGrid? p grid = some digits) :
    Covers p (Decimal.value ⟨digits, grid⟩) := by
  have positive : 0 < Nat.pow 10 (-grid).toNat := Nat.pow_pos (by decide)
  have hit : readsBack p (2 * digits * (Nat.pow 10 grid.toNat * unitsPerOne))
      (Nat.pow 10 (-grid).toNat) = true := by
    unfold onGrid? at h
    dsimp only at h
    split at h
    · next below above =>
        obtain rfl := Option.some.inj h
        split
        · exact below
        · exact above
    · next below _ =>
        obtain rfl := Option.some.inj h
        exact below
    · next _ above =>
        obtain rfl := Option.some.inj h
        exact above
    · contradiction
  rw [readsBack_iff positive] at hit
  have nonzero := unitsPerOne_pos.ne'
  have nonzero' : ((Nat.pow 10 (-grid).toNat : Nat) : ℚ) ≠ 0 := Nat.cast_ne_zero.mpr positive.ne'
  rw [← Decimal.value_eq]
  convert hit using 1
  push_cast
  field_simp

/-- A part of a power of two is a part of a power of ten. -/
theorem mul_pow_five (a : ℚ) (n : Nat) : a * 5 ^ n * 10 ^ (-(n : ℤ)) = a / 2 ^ n := by
  have ten : (10 : ℚ) ^ n = 5 ^ n * 2 ^ n := by
    rw [← mul_pow]
    norm_num
  have nonzero : (5 : ℚ) ^ n ≠ 0 := pow_ne_zero _ (by norm_num)
  rw [zpow_neg, zpow_natCast, ten]
  field_simp

theorem value_exactDecimal (p : Nat) : (exactDecimal p).value = magnitude p := by
  have scaled := mul_pow_five (units p) 1074
  have fives : Nat.pow 5 1074 = 5 ^ 1074 := by decide +kernel
  rw [Decimal.value, magnitude, unitsPerOne_eq, Nat.cast_pow, Nat.cast_ofNat, ← scaled,
    exactDecimal, fives, Nat.cast_mul, Nat.cast_pow, Nat.cast_ofNat]
  rfl

/-- The decimal that is chosen belongs to the pattern. -/
theorem covers_shortest (p : Nat) : Covers p (shortest p).value := by
  rw [shortest, Decimal.value_stripped]
  dsimp only
  generalize found : List.findSome? _ _ = hit
  cases hit with
  | none =>
      rw [Option.getD_none, value_exactDecimal]
      exact covers_magnitude p
  | some d =>
      obtain ⟨k, -, mapped⟩ := List.exists_of_findSome?_eq_some found
      obtain ⟨digits, onGrid, rfl⟩ := Option.map_eq_some_iff.mp mapped
      exact covers_of_onGrid? onGrid

end Binary64

end LoxTokens
