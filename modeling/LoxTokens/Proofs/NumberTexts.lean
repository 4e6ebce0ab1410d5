import LoxTokens.Proofs.ShortestDecimal

/-!
Numbers read back from their texts.

A number is written with the digits of a decimal that belongs to it, in plain digits or with a power
of ten. Read as a numeral the text denotes that decimal again, so the number nearest to it is the
one that was written, bit for bit.

* `NumberLayout.exists_plain`, `NumberLayout.exists_scientific` — either form denotes the decimal
  that it is written for.
* `Binary64.NumberText.read?_eq` — a text is read as the number it stands for.
* `Binary64.numberText_write` — what is written for a number stands for it.
* `number_text_reads_back` — so the texts of two number tokens are equal only if their values are.
-/

namespace LoxTokens

open Binary64 (digitsValue digitsValue_append digitsValue_zeros digitsValue_toDigits
  cast_digitsValue digitsValue_append_div)

/-! ### Decimals from their texts -/

namespace Decimal

/-- Zeros at the end of the digits count for as much as a higher power of ten. -/
theorem value_shifted (digits n : Nat) (exponent : Int) :
    value ⟨digits * 10 ^ n, exponent - n⟩ = value ⟨digits, exponent⟩ := by
  have nonzero : (10 : ℚ) ≠ 0 := by norm_num
  rw [value, value, zpow_sub₀ nonzero, zpow_natCast]
  push_cast
  field_simp

/-- The power of ten of the first digit that is written for a decimal. -/
def lead (d : Decimal) : Int := d.exponent + (Nat.toDigits 10 d.digits).length - 1

theorem lead_eq (d : Decimal) : d.lead = d.exponent + (Nat.toDigits 10 d.digits).length - 1 := rfl

theorem value_pointed (whole fraction : Text) :
    value ⟨digitsValue (whole ++ fraction), -fraction.length⟩ =
      wholeValue whole + fractionValue fraction := by
  rw [← digitsValue_append_div, value, zpow_neg, zpow_natCast, div_eq_mul_inv]

theorem natural?_toDigits (n : Nat) : natural? (Nat.toDigits 10 n) = some n := by
  have digits : (Nat.toDigits 10 n).all Char.isDigit = true :=
    List.all_eq_true.mpr (all_isDigit (digit_toDigits n))
  simp [natural?, digits, digitsValue_toDigits, Nat.toDigits_ne_nil]

theorem whole?_wholeText (i : Int) : whole? (NumberLayout.wholeText i) = some i := by
  unfold NumberLayout.wholeText
  split
  · next negative =>
      rw [whole?, natural?_toDigits, Option.map_some]
      congr 1
      omega
  · next positive =>
      have unsigned : whole? (Nat.toDigits 10 i.natAbs) = some (i.natAbs : Int) := by
        have all := all_isDigit (digit_toDigits i.natAbs)
        unfold whole?
        split
        · next start => exact absurd (all '-' (by simp [start])) (by decide)
        · next start => exact absurd (all '+' (by simp [start])) (by decide)
        · rw [natural?_toDigits, Option.map_some]
      rw [unsigned]
      congr 1
      omega

end Decimal

namespace NumberLayout

variable {digits : Text} {exponent lead : Int}

/-! ### Plain digits -/

theorem digit_zeros (n : Nat) : ∀ c ∈ List.replicate n '0', Digit c := by
  intro c member
  rw [List.eq_of_mem_replicate member]
  exact ⟨by decide, by decide⟩

theorem plain_of_neg (small : lead < 0) :
    plain digits lead = ['0'] ++ '.' :: (List.replicate (-lead - 1).toNat '0' ++ digits) := by
  rw [plain, if_pos small]
  rfl

theorem plain_of_length_le (large : 0 ≤ lead) (short : digits.length ≤ lead.toNat + 1) :
    plain digits lead =
      (digits ++ List.replicate (lead.toNat + 1 - digits.length) '0') ++ '.' :: ['0'] := by
  have whole : (digits ++ List.replicate (lead.toNat + 1 - digits.length) '0').length =
      lead.toNat + 1 := by
    rw [List.length_append, List.length_replicate]
    omega
  rw [plain, if_neg (not_lt.mpr large)]
  dsimp only
  rw [List.take_of_length_le whole.le, List.drop_eq_nil_of_le short]
  simp

theorem plain_of_lt_length (large : 0 ≤ lead) (long : lead.toNat + 1 < digits.length) :
    plain digits lead = digits.take (lead.toNat + 1) ++ '.' :: digits.drop (lead.toNat + 1) := by
  have fraction : (digits.drop (lead.toNat + 1)).isEmpty = false := by
    rw [List.isEmpty_eq_false_iff, ← List.length_pos_iff, List.length_drop]
    omega
  rw [plain, if_neg (not_lt.mpr large)]
  dsimp only
  rw [fraction, List.take_append_of_le_length long.le]
  simp

/-- Plain digits have a point among them, and denote the decimal that they are written for. -/
theorem exists_plain (nonempty : digits ≠ []) (all : ∀ c ∈ digits, Digit c)
    (first : lead = exponent + digits.length - 1) :
    ∃ whole fraction : Text, plain digits lead = whole ++ '.' :: fraction ∧
      (whole ≠ [] ∧ ∀ c ∈ whole, Digit c) ∧ (fraction ≠ [] ∧ ∀ c ∈ fraction, Digit c) ∧
      wholeValue whole + fractionValue fraction =
        Decimal.value ⟨digitsValue digits, exponent⟩ := by
  have length := List.length_pos_iff.mpr nonempty
  rcases lt_or_ge lead 0 with small | large
  · refine ⟨_, _, plain_of_neg small, ⟨by simp, digit_zeros 1⟩,
      ⟨by simp [nonempty], List.forall_mem_append.mpr ⟨digit_zeros _, all⟩⟩, ?_⟩
    have power : -((List.replicate (-lead - 1).toNat '0' ++ digits).length : Int) = exponent := by
      rw [List.length_append, List.length_replicate]
      omega
    rw [← Decimal.value_pointed, power, ← List.append_assoc, digitsValue_append,
      ← List.replicate_one, ← List.replicate_add, digitsValue_zeros, Nat.zero_mul, Nat.zero_add]
  · rcases le_or_gt digits.length (lead.toNat + 1) with short | long
    · refine ⟨_, _, plain_of_length_le large short,
        ⟨by simp [nonempty], List.forall_mem_append.mpr ⟨all, digit_zeros _⟩⟩,
        ⟨by simp, digit_zeros 1⟩, ?_⟩
      have power : -((['0'] : Text).length : Int) =
          exponent - (lead.toNat + 1 - digits.length + 1 : Nat) := by
        rw [List.length_singleton]
        omega
      rw [← Decimal.value_pointed, power, List.append_assoc, digitsValue_append,
        ← List.replicate_succ', digitsValue_zeros, List.length_replicate, Nat.add_zero,
        Decimal.value_shifted]
    · have power : -((digits.drop (lead.toNat + 1)).length : Int) = exponent := by
        rw [List.length_drop]
        omega
      refine ⟨_, _, plain_of_lt_length large long,
        ⟨by simp [nonempty], fun c member => all c (List.mem_of_mem_take member)⟩,
        ⟨?_, fun c member => all c (List.mem_of_mem_drop member)⟩, ?_⟩
      · rw [ne_eq, List.drop_eq_nil_iff]
        omega
      · rw [← Decimal.value_pointed, power, List.take_append_drop]

/-! ### Scientific form -/

/-- Scientific form is a numeral, the mark and the power of ten that it is to be taken by. -/
theorem exists_scientific (layout : NumberLayout) (nonempty : digits ≠ [])
    (all : ∀ c ∈ digits, Digit c) (first : lead = exponent + digits.length - 1) :
    ∃ mantissa q, layout.scientific digits lead =
        mantissa ++ layout.exponentMark :: wholeText lead ∧
      Numeral mantissa q ∧ q * 10 ^ lead = Decimal.value ⟨digitsValue digits, exponent⟩ := by
  match digits with
  | [c] =>
      refine ⟨[c], _, by simp [scientific], .whole nonempty all, ?_⟩
      have power : lead = exponent := by
        rw [List.length_singleton] at first
        omega
      rw [power, ← cast_digitsValue, Decimal.value]
  | c :: d :: more =>
      obtain ⟨one, others⟩ := List.forall_mem_cons.mp all
      refine ⟨[c] ++ '.' :: (d :: more), _, by simp [scientific],
        .decimal (List.cons_ne_nil _ _) (by simpa) (List.cons_ne_nil _ _) others, ?_⟩
      have power : lead = exponent + (d :: more).length := by
        rw [List.length_cons] at first
        omega
      have nonzero : (10 : ℚ) ≠ 0 := by norm_num
      rw [power, ← digitsValue_append_div, Decimal.value, zpow_add₀ nonzero, zpow_natCast,
        List.singleton_append]
      field_simp

/-- A decimal is written plainly where its first digit has a power of ten within the bounds, and in
scientific form elsewhere. -/
theorem decimal_cases (layout : NumberLayout) (d : Decimal) :
    ((layout.leastPlain ≤ d.lead ∧ d.lead ≤ layout.greatestPlain) ∧
      ∃ whole fraction : Text, layout.decimal d = whole ++ '.' :: fraction ∧
        (whole ≠ [] ∧ ∀ c ∈ whole, Digit c) ∧ (fraction ≠ [] ∧ ∀ c ∈ fraction, Digit c) ∧
        wholeValue whole + fractionValue fraction = d.value) ∨
    (¬ (layout.leastPlain ≤ d.lead ∧ d.lead ≤ layout.greatestPlain) ∧
      ∃ mantissa q, layout.decimal d = mantissa ++ layout.exponentMark :: wholeText d.lead ∧
        Numeral mantissa q ∧ q * 10 ^ d.lead = d.value) := by
  have nonempty : Nat.toDigits 10 d.digits ≠ [] := Nat.toDigits_ne_nil
  have all := digit_toDigits d.digits
  have text : layout.decimal d = if layout.leastPlain ≤ d.lead ∧ d.lead ≤ layout.greatestPlain
      then plain (Nat.toDigits 10 d.digits) d.lead
      else layout.scientific (Nat.toDigits 10 d.digits) d.lead := rfl
  have value : Decimal.value ⟨digitsValue (Nat.toDigits 10 d.digits), d.exponent⟩ = d.value := by
    rw [digitsValue_toDigits]
  rw [text, ← value]
  split
  · next bounds => exact Or.inl ⟨bounds, exists_plain nonempty all d.lead_eq⟩
  · next beyond => exact Or.inr ⟨beyond, exists_scientific layout nonempty all d.lead_eq⟩

end NumberLayout

/-! ### What a text of a number stands for -/

namespace Binary64

/-- The texts of numbers, each with the number it stands for: a numeral with a point, a numeral that
is to be taken by a power of ten, and the name of infinity. -/
inductive NumberText : Text → Binary64 → Prop where
  | plain {t : Text} {q : ℚ} {x : Binary64} :
      Numeral t q → '.' ∈ t → x.IsNearest q → NumberText t x
  | scientific {t : Text} {q : ℚ} {power : Int} {x : Binary64} :
      Numeral t q → x.IsNearest (q * 10 ^ power) →
      NumberText (t ++ 'e' :: NumberLayout.wholeText power) x
  | infinity : NumberText "inf" infinity

end Binary64

/-- A numeral, and perhaps a power of ten behind it, denotes a decimal. -/
theorem Numeral.exists_decimal {t rest : Text} {q : ℚ} {power : Int} (h : Numeral t q)
    (stop : rest.head?.any Char.isDigit = false) (noPoint : rest.head? ≠ some '.')
    (read : Decimal.power? rest = some power) :
    ∃ d, Decimal.ofText? (t ++ rest) = some d ∧ d.value = q * 10 ^ power := by
  cases h with
  | whole nonempty digits =>
      refine ⟨_, (Decimal.ofText?_digits nonempty (all_isDigit digits) stop noPoint).trans
        (by rw [read, Option.map_some]), ?_⟩
      rw [Decimal.value, cast_digitsValue]
  | @decimal whole fraction nonempty digits _ fractional =>
      rw [List.append_assoc, List.cons_append]
      refine ⟨_, (Decimal.ofText?_pointed nonempty (all_isDigit digits) (all_isDigit fractional)
        stop).trans (by rw [read, Option.map_some]), ?_⟩
      rw [← digitsValue_append_div, Decimal.value, sub_eq_add_neg, add_comm,
        zpow_add₀ (by norm_num : (10 : ℚ) ≠ 0), zpow_neg, zpow_natCast, div_eq_mul_inv, mul_assoc]

theorem Numeral.exists_digit {t : Text} {q : ℚ} (h : Numeral t q) :
    ∃ c more, t = c :: more ∧ c.isDigit = true := by
  have start {s : Text} (nonempty : s ≠ []) (all : ∀ c ∈ s, Digit c) :
      ∃ c more, s = c :: more ∧ c.isDigit = true := by
    obtain ⟨c, more, rfl⟩ := List.exists_cons_of_ne_nil nonempty
    exact ⟨c, more, rfl, all_isDigit all c List.mem_cons_self⟩
  cases h with
  | whole nonempty digits => exact start nonempty digits
  | decimal nonempty digits _ _ =>
      obtain ⟨c, more, rfl, digit⟩ := start nonempty digits
      exact ⟨c, _, rfl, digit⟩

namespace Binary64

theorem isNearest_nearestTo (d : Decimal) : IsNearest (ofPattern (nearestTo d)) d.value := by
  rw [← d.value_eq]
  exact isNearest_ofRatio _ (Nat.pow_pos (by decide))

/-- A pattern stands for the number nearest to a decimal that belongs to it. -/
theorem Covers.isNearest {p : Nat} {d : Decimal} (h : Covers p d.value)
    (le : p ≤ infinityPattern) : IsNearest (ofPattern p) d.value := by
  have positive : 0 < Nat.pow 10 (-d.exponent).toNat := Nat.pow_pos (by decide)
  have nearest : nearestTo d = p := by
    rw [← d.value_eq] at h
    rw [nearestTo, nearestPattern_eq_of_covers positive h, Nat.min_eq_right le]
  rw [← nearest]
  exact isNearest_nearestTo d

/-- A numeral, and perhaps a power of ten behind it, is read as the number nearest to what they
denote; there is only one. -/
theorem read?_numeral {t rest : Text} {q : ℚ} {power : Int} {x : Binary64} (h : Numeral t q)
    (stop : rest.head?.any Char.isDigit = false) (noPoint : rest.head? ≠ some '.')
    (read : Decimal.power? rest = some power) (nearest : x.IsNearest (q * 10 ^ power)) :
    read? (t ++ rest) = some x := by
  obtain ⟨d, denoted, value⟩ := h.exists_decimal stop noPoint read
  obtain ⟨c, more, rfl, digit⟩ := h.exists_digit
  rw [← value] at nearest
  rw [List.cons_append] at denoted ⊢
  rw [read?_of_digit digit, denoted, Option.map_some, (isNearest_nearestTo d).unique nearest]

/-- The text of a number is read as the number it stands for. -/
theorem NumberText.read?_eq {t : Text} {x : Binary64} (h : NumberText t x) : read? t = some x := by
  cases h with
  | @plain t q _ h _ nearest =>
      have one : x.IsNearest (q * 10 ^ (0 : Int)) := by rwa [zpow_zero, mul_one]
      rw [← List.append_nil t]
      exact read?_numeral h rfl (by simp) rfl one
  | @scientific t q power _ h nearest =>
      have read : Decimal.power? ('e' :: NumberLayout.wholeText power) = some power := by
        simp [Decimal.power?, Decimal.whole?_wholeText]
      exact read?_numeral h rfl (by simp) read nearest
  | infinity => decide +kernel

/-! ### The text that is written stands for the number -/

variable {layout : NumberLayout} {x : Binary64}

theorem numberText_decimal (mark : layout.exponentMark = 'e') {d : Decimal}
    (nearest : x.IsNearest d.value) : NumberText (layout.decimal d) x := by
  rcases layout.decimal_cases d with
    ⟨-, whole, fraction, text, before, behind, denoted⟩ | ⟨-, mantissa, q, text, numeral, denoted⟩
  · rw [← denoted] at nearest
    rw [text]
    exact .plain (.decimal before.1 before.2 behind.1 behind.2) (by simp) nearest
  · rw [← denoted] at nearest
    rw [text, mark]
    exact .scientific numeral nearest

/-- A number without a sign is written as zero, as infinity or as the decimal chosen for it. -/
theorem write_eq (notNaN : x.isNaN = false) (notNegative : x.isNegative = false) :
    layout.write x = if x.pattern = 0 then layout.decimal ⟨0, 0⟩
      else if x.pattern = infinityPattern then layout.infinity
      else layout.decimal (shortest x.pattern) := by
  rw [NumberLayout.write, notNaN, notNegative]
  rfl

/-- What is written for a number that has no sign and is not NaN stands for it. -/
theorem numberText_write (notNaN : x.isNaN = false) (notNegative : x.isNegative = false) :
    NumberText (Literal.numberLayout.write x) x := by
  have le : x.pattern ≤ infinityPattern := by
    rwa [isNaN, decide_eq_false_iff_not, Nat.not_lt] at notNaN
  rw [write_eq notNaN notNegative]
  split
  · next zero =>
      have covers : Covers x.pattern (Decimal.value ⟨0, 0⟩) := by
        rw [zero, Decimal.value, Nat.cast_zero, zero_mul, ← magnitude_zero]
        exact covers_magnitude 0
      rw [← ofPattern_pattern notNegative]
      exact numberText_decimal rfl (covers.isNearest le)
  · split
    · next top =>
        rw [← ofPattern_pattern notNegative, top]
        exact .infinity
    · have covers := covers_shortest x.pattern
      rw [← ofPattern_pattern notNegative, pattern_ofPattern le]
      exact numberText_decimal rfl (covers.isNearest le)

end Binary64

open Binary64 (NumberText read?)

/-- A number token has a value, which is not NaN and has no sign. -/
theorem Token.Scanned.exists_number {t : Token} (h : t.Scanned) (number : t.kind = .number) :
    ∃ x, t.literal = some (.number x) ∧ x.isNaN = false ∧ x.isNegative = false := by
  obtain ⟨q, x, -, -, value, nearest⟩ := (h.lexeme_of_number number).exists_numeral
  exact ⟨x, value, nearest.notNaN, nearest.notNegative⟩

/-- **Number texts read back.** The text of the value of a number token stands for exactly that
number, bit for bit. So two number tokens, of whichever sources, have one text exactly where they
have one value. -/
theorem number_text_reads_back {t u : Token} (ht : t.Scanned) (hu : u.Scanned)
    (number : t.kind = .number) (number' : u.kind = .number) :
    ∃ x y, t.literal = some (.number x) ∧ u.literal = some (.number y) ∧
      NumberText (Token.renderLiteral t.literal) x ∧
      read? (Token.renderLiteral t.literal) = some x ∧
      (Token.renderLiteral t.literal = Token.renderLiteral u.literal ↔ x = y) := by
  obtain ⟨x, value, notNaN, notNegative⟩ := ht.exists_number number
  obtain ⟨y, value', notNaN', notNegative'⟩ := hu.exists_number number'
  have text := Binary64.numberText_write notNaN notNegative
  have text' := Binary64.numberText_write notNaN' notNegative'
  rw [value, value']
  refine ⟨x, y, rfl, rfl, text, text.read?_eq, fun same => ?_, fun same => by rw [same]⟩
  have same' : Literal.numberLayout.write x = Literal.numberLayout.write y := same
  exact Option.some.inj (by rw [← text.read?_eq, same', text'.read?_eq])

/-- Two numerals that are rounded to one number have one text, with a power of ten. -/
theorem rounded_numerals_have_one_text :
    let t : Token := ⟨.number, "100000000000000000000000",
      some (.number ⟨0x44B52D02C7E14AF6⟩), 1, ⟨0, 24⟩⟩
    let u : Token := ⟨.number, "99999999999999991611392",
      some (.number ⟨0x44B52D02C7E14AF6⟩), 1, ⟨0, 23⟩⟩
    t.Scanned ∧ u.Scanned ∧ t.kind = .number ∧ u.kind = .number ∧
      Token.renderLiteral t.literal = "1e23" ∧
      ∃ x y, t.literal = some (.number x) ∧ u.literal = some (.number y) ∧
        NumberText (Token.renderLiteral t.literal) x ∧
        read? (Token.renderLiteral t.literal) = some x ∧
        (Token.renderLiteral t.literal = Token.renderLiteral u.literal ↔ x = y) := by
  intro t u
  have scanned : t.Scanned := ⟨"100000000000000000000000", by decide +kernel⟩
  have scanned' : u.Scanned := ⟨"99999999999999991611392", by decide +kernel⟩
  have text : Token.renderLiteral t.literal = "1e23" := by decide +kernel
  exact ⟨scanned, scanned', rfl, rfl, text, number_text_reads_back scanned scanned' rfl rfl⟩

end LoxTokens
