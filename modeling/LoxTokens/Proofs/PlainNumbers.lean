import LoxTokens.Proofs.NumberTexts

/-!
The numbers that are written without a power of ten.

The text of a number has a point among its digits exactly where the number is zero, or at least
10^-4 and less than 10^16. The layout compares the power of ten of the first digit that is written,
not the number; at the two ends the number itself is written with the single digit one, so no number
below an end is rounded up to it. A text with a point is scanned as one number again. Scanning the
other texts ends the number before the mark of the power of ten, or finds a name.

* `Binary64.NumberText.scansAsNumber_iff` — scanning gives the number back where there is a point.
* `Binary64.le_lead_iff` — from which pattern on the first digit has a power of ten or a higher one.
* `pointed_number_texts` — which number tokens have a text with a point.
-/

namespace LoxTokens

/-- Digits, a point and digits. -/
def Pointed (t : Text) : Prop :=
  ∃ whole fraction : Text, t = whole ++ '.' :: fraction ∧
    (whole ≠ [] ∧ ∀ c ∈ whole, Digit c) ∧ (fraction ≠ [] ∧ ∀ c ∈ fraction, Digit c)

/-- Whether scanning gives one number token with the value `x`, the token that marks the end, and no
fault. -/
def ScansAsNumber (t : Text) (x : Binary64) : Prop :=
  ∃ u : Token, scan t = ⟨[u, closingToken t], []⟩ ∧ u.kind = .number ∧ u.literal = some (.number x)

/-- The numbers that are written in plain digits: zero, and from 10^-4 up to but not including
10^16. -/
def Binary64.IsPlain (x : Binary64) : Prop :=
  x.value = 0 ∨ 10 ^ (-4 : ℤ) ≤ x.value ∧ x.value < 10 ^ (16 : ℤ)

/-! ### Scanning the text of a number -/

theorem Pointed.digit_or_point {t : Text} (h : Pointed t) : ∀ c ∈ t, Digit c ∨ c = '.' := by
  obtain ⟨whole, fraction, rfl, ⟨-, digits⟩, -, fractional⟩ := h
  rw [List.forall_mem_append, List.forall_mem_cons]
  exact ⟨fun c member => Or.inl (digits c member), Or.inr rfl,
    fun c member => Or.inl (fractional c member)⟩

theorem Numeral.exists_piece {t : Text} {q : ℚ} (h : Numeral t q) :
    ∃ whole fraction, (Piece.number whole fraction).WellFormed ∧
      (Piece.number whole fraction).text = t := by
  cases h with
  | whole nonempty digits => exact ⟨t, [], ⟨nonempty, digits, by simp⟩, rfl⟩
  | @decimal whole fraction nonempty digits nonempty' fractional =>
      exact ⟨whole, fraction, ⟨nonempty, digits, fractional⟩, by simp [Piece.text, nonempty']⟩

/-- Scanning digits with a point among them. -/
theorem scansAsNumber_pointed {whole fraction : Text} (nonempty : whole ≠ [])
    (digits : ∀ c ∈ whole, Digit c) (nonempty' : fraction ≠ [])
    (fractional : ∀ c ∈ fraction, Digit c) :
    ScansAsNumber (whole ++ '.' :: fraction) (.ofDecimal whole fraction) := by
  have text : (Piece.number whole fraction).text = whole ++ '.' :: fraction := by
    simp [Piece.text, nonempty']
  have read := Piece.first?_number ⟨nonempty, digits, fractional⟩
    (Piece.not_grows_nil (.number whole fraction))
  have pieces := pieces_append read
  rw [List.append_nil, pieces_nil, text] at pieces
  refine ⟨⟨.number, whole ++ '.' :: fraction, some (.number (.ofDecimal whole fraction)), 1,
    ⟨0, Text.byteLength (whole ++ '.' :: fraction)⟩⟩, ?_, rfl, rfl⟩
  rw [scan_eq, pieces, tokensFrom_cons, faultsFrom_cons]
  simp [Segment.token?, Segment.fault?, Segment.span, Piece.kind?, Piece.literal?, text, tokensFrom,
    faultsFrom, segmentsFrom]

/-- A numeral ends before the mark of a power of ten, and another token starts there. -/
theorem length_tokens_of_power {t : Text} {q : ℚ} (h : Numeral t q) (power : Text) :
    3 ≤ (scan (t ++ 'e' :: power)).tokens.length := by
  obtain ⟨whole, fraction, formed, rfl⟩ := h.exists_piece
  have stays : (Piece.number whole fraction).grows ('e' :: power) = false := by
    simp [Piece.grows, startsFraction]
  have word : Piece.first? ('e' :: power) =
      some (.word (('e' :: power).takeWhile continuesWord)) := rfl
  have behind := Piece.text_append_of_first? word
  rw [scan_eq, pieces_append (Piece.first?_number formed stays), ← behind, pieces_append
    (behind.symm ▸ word), tokensFrom_cons, tokensFrom_cons]
  simp [Segment.token?, Piece.kind?]

namespace Binary64

/-- The text of a number is scanned as that number exactly where it has a point. -/
theorem NumberText.scansAsNumber_iff {t : Text} {x : Binary64} (h : NumberText t x) :
    ScansAsNumber t x ↔ Pointed t := by
  constructor
  · rintro ⟨u, scanned, number, -⟩
    cases h with
    | plain numeral point _ =>
        cases numeral with
        | whole _ digits => exact absurd (digits '.' point).1 (by decide)
        | decimal nonempty digits nonempty' fractional =>
            exact ⟨_, _, rfl, ⟨nonempty, digits⟩, nonempty', fractional⟩
    | @scientific _ _ power _ numeral _ =>
        have long := length_tokens_of_power numeral (NumberLayout.wholeText power)
        rw [scanned] at long
        exact absurd long (by simp)
    | infinity =>
        have name : (scan "inf").tokens.head?.map (·.kind) = some .identifier := by
          decide +kernel
        rw [scanned, List.head?_cons, Option.map_some, number] at name
        contradiction
  · rintro ⟨whole, fraction, rfl, ⟨nonempty, digits⟩, nonempty', fractional⟩
    have read := h.read?_eq
    rw [read?_pointed nonempty digits fractional] at read
    rw [← Option.some.inj read]
    exact scansAsNumber_pointed nonempty digits nonempty' fractional

end Binary64

/-! ### The power of ten of the first digit -/

namespace Decimal

theorem lead_one (power : Int) : lead ⟨1, power⟩ = power := by
  show power + ((Nat.toDigits 10 1).length : Int) - 1 = power
  have digits : (Nat.toDigits 10 1).length = 1 := rfl
  rw [digits]
  exact Int.add_sub_cancel ..

theorem lead_bounds {d : Decimal} (positive : 0 < d.digits) :
    10 ^ d.lead ≤ d.value ∧ d.value < 10 ^ (d.lead + 1) := by
  obtain ⟨n, length⟩ : ∃ n, (Nat.toDigits 10 d.digits).length = n + 1 :=
    Nat.exists_eq_succ_of_ne_zero Nat.length_toDigits_pos.ne'
  have less : d.digits < 10 ^ (n + 1) :=
    (Nat.length_toDigits_le_iff (by decide) n.succ_pos).mp length.le
  have le : 10 ^ n ≤ d.digits := by
    rcases Nat.eq_zero_or_pos n with rfl | many
    · exact positive
    · have long := mt (Nat.length_toDigits_le_iff (b := 10) (n := d.digits) (by decide) many).mpr
      exact Nat.not_lt.mp (long (by omega))
  have lead : d.lead = n + d.exponent := by
    rw [lead_eq, length]
    omega
  have ten : (10 : ℚ) ≠ 0 := by norm_num
  have unit : (0 : ℚ) < 10 ^ d.exponent := zpow_pos (by norm_num) _
  rw [lead, value, add_right_comm, zpow_add₀ ten, zpow_add₀ ten, zpow_natCast,
    ← Nat.cast_succ, zpow_natCast]
  exact ⟨mul_le_mul_of_nonneg_right (by exact_mod_cast le) unit.le,
    mul_lt_mul_of_pos_right (by exact_mod_cast less) unit⟩

end Decimal

namespace Binary64

variable {p bound : Nat} {power : Int}

theorem shortest_digits_pos (positive : 0 < p) : 0 < (shortest p).digits := by
  by_contra none
  have value : (shortest p).value = magnitude 0 := by
    rw [Decimal.value, Nat.eq_zero_of_not_pos none, magnitude_zero, Nat.cast_zero, zero_mul]
  have covers := covers_shortest p
  rw [value] at covers
  exact positive.ne' (covers.unique (covers_magnitude 0))

/-- Where a pattern is written with the digit one alone, at a power of ten, the patterns from it on
are those whose digits start at that power or above. -/
theorem le_lead_iff (positive : 0 < p) (single : shortest bound = ⟨1, power⟩) :
    power ≤ (shortest p).lead ↔ bound ≤ p := by
  have covers := covers_shortest p
  have covers' : Covers bound (10 ^ power) := by
    have covers := covers_shortest bound
    rwa [single, Decimal.value, Nat.cast_one, one_mul] at covers
  have one_le : (1 : ℚ) ≤ 10 := by norm_num
  obtain ⟨low, high⟩ := Decimal.lead_bounds (shortest_digits_pos positive)
  constructor
  · intro le
    exact covers'.mono covers ((zpow_le_zpow_right₀ one_le le).trans low)
  · intro le
    by_contra less
    have small := high.le.trans (zpow_le_zpow_right₀ one_le (show _ + 1 ≤ power by omega))
    obtain rfl : p = bound := Nat.le_antisymm (covers.mono covers' small) le
    rw [single, Decimal.lead_one] at less
    exact less le_rfl

theorem div_le_magnitude_iff {num den : Nat} (positive : 0 < den) :
    (num : ℚ) / den ≤ magnitude p ↔ num * unitsPerOne ≤ units p * den := by
  rw [magnitude, div_le_div_iff₀ (Nat.cast_pos.mpr positive) unitsPerOne_pos]
  norm_cast

/-- The patterns from one on are those whose magnitudes reach what the pattern alone reaches. -/
theorem le_iff_magnitude {num den : Nat} (positive : 0 < den)
    (below : units (bound - 1) * den < num * unitsPerOne)
    (least : num * unitsPerOne ≤ units bound * den) :
    bound ≤ p ↔ (num : ℚ) / den ≤ magnitude p := by
  constructor
  · intro le
    exact ((div_le_magnitude_iff positive).mpr least).trans (magnitude_strictMono.monotone le)
  · intro reaches
    by_contra less
    have before := magnitude_strictMono.monotone (Nat.le_sub_one_of_lt (Nat.not_le.mp less))
    have reaches' := (div_le_magnitude_iff positive).mp (reaches.trans before)
    exact absurd reaches' (Nat.not_le_of_lt below)

theorem least_le_lead_iff (positive : 0 < p) :
    -4 ≤ (shortest p).lead ↔ 10 ^ (-4 : ℤ) ≤ magnitude p := by
  have single : shortest 0x3F1A36E2EB1C432D = ⟨1, -4⟩ := by decide +kernel
  have ratio : (10 : ℚ) ^ (-4 : ℤ) = (1 : Nat) / (10000 : Nat) := by norm_num
  rw [le_lead_iff positive single, ratio]
  exact le_iff_magnitude (by decide) (by decide +kernel) (by decide +kernel)

theorem lead_le_greatest_iff (positive : 0 < p) :
    (shortest p).lead ≤ 15 ↔ magnitude p < 10 ^ (16 : ℤ) := by
  have single : shortest 0x4341C37937E08000 = ⟨1, 16⟩ := by decide +kernel
  have ratio : (10 : ℚ) ^ (16 : ℤ) = (10000000000000000 : Nat) / (1 : Nat) := by norm_num
  rw [← Int.lt_add_one_iff, ← not_le, ← not_le, ratio]
  refine not_congr ((le_lead_iff positive single).trans ?_)
  exact le_iff_magnitude (by decide) (by decide +kernel) (by decide +kernel)

/-! ### Which texts have a point -/

theorem pointed_decimal_iff {layout : NumberLayout} (mark : layout.exponentMark = 'e')
    {d : Decimal} :
    Pointed (layout.decimal d) ↔ layout.leastPlain ≤ d.lead ∧ d.lead ≤ layout.greatestPlain := by
  rcases layout.decimal_cases d with
    ⟨plain, whole, fraction, text, before, behind, -⟩ | ⟨scientific, mantissa, q, text, -, -⟩
  · exact iff_of_true ⟨whole, fraction, text, before, behind⟩ plain
  · refine iff_of_false (fun pointed => ?_) scientific
    have digit := pointed.digit_or_point 'e' (by simp [text, mark])
    exact absurd digit (by unfold Digit; decide)

theorem pointed_write_iff {x : Binary64} (notNaN : x.isNaN = false)
    (notNegative : x.isNegative = false) :
    Pointed (Literal.numberLayout.write x) ↔ x.IsPlain := by
  rw [IsPlain, value_of_notNegative notNegative, write_eq notNaN notNegative]
  split
  · next zero =>
      refine iff_of_true ?_ (Or.inl (by rw [zero, magnitude_zero]))
      exact (pointed_decimal_iff rfl).mpr (by decide)
  · next nonzero =>
      have positive := Nat.pos_of_ne_zero nonzero
      have apart : magnitude x.pattern ≠ 0 := by
        rw [← magnitude_zero]
        exact (magnitude_strictMono positive).ne'
      rw [or_iff_right apart]
      split
      · next top =>
          refine iff_of_false (fun pointed => ?_) (fun range => ?_)
          · have digit := pointed.digit_or_point 'i' (by decide)
            exact absurd digit (by unfold Digit; decide)
          · have large : (10 : ℚ) ^ (16 : ℤ) ≤ magnitude infinityPattern := by
              have ratio : (10 : ℚ) ^ (16 : ℤ) = (10000000000000000 : Nat) / (1 : Nat) := by
                norm_num
              rw [ratio, div_le_magnitude_iff (by decide)]
              decide +kernel
            rw [top] at range
            exact absurd range.2 (not_lt.mpr large)
      · rw [← least_le_lead_iff positive, ← lead_le_greatest_iff positive]
        exact pointed_decimal_iff rfl

end Binary64

open Binary64 (NumberText)

/-- **Which number texts have a point.** The text of the value of a number token is digits, a point
and digits, and scanning it gives that value again as one number token, in both cases exactly where
the value is zero, or at least 10^-4 and less than 10^16. -/
theorem pointed_number_texts {t : Token} (scanned : t.Scanned) (number : t.kind = .number) :
    ∃ x, t.literal = some (.number x) ∧
      (Pointed (Token.renderLiteral t.literal) ↔ x.IsPlain) ∧
      (ScansAsNumber (Token.renderLiteral t.literal) x ↔ x.IsPlain) := by
  obtain ⟨x, value, notNaN, notNegative⟩ := scanned.exists_number number
  have text := Binary64.numberText_write notNaN notNegative
  have pointed := Binary64.pointed_write_iff notNaN notNegative
  refine ⟨x, value, ?_⟩
  rw [value]
  exact ⟨pointed, text.scansAsNumber_iff.trans pointed⟩

/-- The least positive number whose text has a point. -/
theorem least_positive_pointed_number :
    let t : Token := ⟨.number, "0.0001", some (.number ⟨0x3F1A36E2EB1C432D⟩), 1, ⟨0, 6⟩⟩
    t.Scanned ∧ t.kind = .number ∧ Token.renderLiteral t.literal = "0.0001" ∧
      ∃ x, t.literal = some (.number x) ∧
        (Pointed (Token.renderLiteral t.literal) ↔ x.IsPlain) ∧
        (ScansAsNumber (Token.renderLiteral t.literal) x ↔ x.IsPlain) := by
  intro t
  have scanned : t.Scanned := ⟨"0.0001", by decide +kernel⟩
  have text : Token.renderLiteral t.literal = "0.0001" := by decide +kernel
  exact ⟨scanned, rfl, text, pointed_number_texts scanned rfl⟩

/-- From 10^16 on the text has no point, and scanning it gives two tokens and the end. -/
theorem large_number_has_no_point :
    let t : Token := ⟨.number, "10000000000000000", some (.number ⟨0x4341C37937E08000⟩), 1, ⟨0, 17⟩⟩
    t ∈ (scan "10000000000000000").tokens ∧ t.kind = .number ∧
      Token.renderLiteral t.literal = "1e16" ∧ ¬ Pointed (Token.renderLiteral t.literal) ∧
      (scan (Token.renderLiteral t.literal)).tokens.map (·.lexeme) = ["1", "e16", ""] ∧
      ∀ x, ¬ ScansAsNumber (Token.renderLiteral t.literal) x := by
  intro t
  have text : Token.renderLiteral t.literal = "1e16" := by decide +kernel
  rw [text]
  have lexemes : (scan "1e16").tokens.map (·.lexeme) = ["1", "e16", ""] := by decide +kernel
  refine ⟨by decide +kernel, rfl, rfl, fun pointed => ?_, lexemes, ?_⟩
  · exact absurd (pointed.digit_or_point 'e' (by decide)) (by unfold Digit; decide)
  · rintro x ⟨u, scanned, -⟩
    rw [scanned] at lexemes
    exact absurd lexemes (by simp)

end LoxTokens
