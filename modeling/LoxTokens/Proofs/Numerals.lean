import LoxTokens.Binary64.Numeral
import LoxTokens.Proofs.Rounding
import LoxTokens.Proofs.TokenIdentity
import Mathlib.Tactic.NormNum.Inv

/-!
Numerals and the numbers of number tokens.

`Numeral` says which texts are digits with at most one point among them, and which rational each
denotes, place by place. Such a text is always read, and the number read is the one nearest to what
the text denotes; no default stands in for it.

* `Decimal.value_eq` — the ratio that is rounded for a decimal is its value.
* `Decimal.ofText?_digits`, `Decimal.ofText?_pointed` — the decimal that a numeral denotes.
* `number_tokens_nearest` — the value of a number token is the number nearest to its lexeme.
-/

namespace LoxTokens

/-! ### Digits and places -/

/-- The number that a digit stands for. -/
def digitValue (c : Char) : Nat := c.toNat - '0'.toNat

/-- What digits before a point denote: each counts ten times as much as the next. -/
def wholeValue : Text → ℚ
  | [] => 0
  | c :: t => digitValue c * 10 ^ t.length + wholeValue t

/-- What digits behind a point denote: each counts a tenth of the one before. -/
def fractionValue : Text → ℚ
  | [] => 0
  | c :: t => (digitValue c + fractionValue t) / 10

/-- The texts that are digits with at most one point among them, each with what it denotes. -/
inductive Numeral : Text → ℚ → Prop where
  | whole {digits : Text} : digits ≠ [] → (∀ c ∈ digits, Digit c) →
      Numeral digits (wholeValue digits)
  | decimal {whole fraction : Text} : whole ≠ [] → (∀ c ∈ whole, Digit c) →
      fraction ≠ [] → (∀ c ∈ fraction, Digit c) →
      Numeral (whole ++ '.' :: fraction) (wholeValue whole + fractionValue fraction)

theorem all_isDigit {t : Text} (digits : ∀ c ∈ t, Digit c) : ∀ c ∈ t, c.isDigit = true :=
  fun c member => isDigit_iff.mpr (digits c member)

theorem digit_toDigits (n : Nat) : ∀ c ∈ Nat.toDigits 10 n, Digit c :=
  fun _ member => isDigit_iff.mp (Nat.isDigit_of_mem_toDigits (by decide) le_rfl member)

namespace Binary64

theorem digitsValue_eq (t : Text) : digitsValue t = Nat.ofDigitChars 10 t 0 :=
  Nat.ofDigitChars_eq_foldl.symm

theorem digitsValue_append (s t : Text) :
    digitsValue (s ++ t) = digitsValue s * 10 ^ t.length + digitsValue t := by
  rw [digitsValue_eq, Nat.ofDigitChars_append, Nat.ofDigitChars_eq_ofDigitChars_zero,
    ← digitsValue_eq, ← digitsValue_eq, Nat.mul_comm]

theorem digitsValue_singleton (c : Char) : digitsValue [c] = digitValue c := by
  simp [digitsValue, digitValue]

theorem digitsValue_cons (c : Char) (t : Text) :
    digitsValue (c :: t) = digitValue c * 10 ^ t.length + digitsValue t := by
  rw [← List.singleton_append, digitsValue_append, digitsValue_singleton]

theorem digitsValue_toDigits (n : Nat) : digitsValue (Nat.toDigits 10 n) = n := by
  rw [digitsValue_eq, Nat.ofDigitChars_ten_toDigits]

theorem digitsValue_zeros (n : Nat) : digitsValue (List.replicate n '0') = 0 := by
  rw [digitsValue_eq, Nat.ofDigitChars_replicate_zero, Nat.mul_zero]

theorem cast_digitsValue (t : Text) : (digitsValue t : ℚ) = wholeValue t := by
  induction t with
  | nil => rfl
  | cons c t ih =>
      rw [digitsValue_cons, wholeValue, ← ih]
      push_cast
      rfl

theorem digitsValue_div (t : Text) : (digitsValue t : ℚ) / 10 ^ t.length = fractionValue t := by
  induction t with
  | nil => exact zero_div _
  | cons c t ih =>
      rw [digitsValue_cons, fractionValue, ← ih, List.length_cons, pow_succ]
      push_cast
      field_simp

/-- What digits before and behind a point denote together. -/
theorem digitsValue_append_div (whole fraction : Text) :
    (digitsValue (whole ++ fraction) : ℚ) / 10 ^ fraction.length =
      wholeValue whole + fractionValue fraction := by
  have shift : (10 : ℚ) ^ fraction.length ≠ 0 := pow_ne_zero _ (by norm_num)
  rw [digitsValue_append, Nat.cast_add, add_div, digitsValue_div, ← cast_digitsValue]
  push_cast
  rw [mul_div_cancel_right₀ _ shift]

theorem isNearest_ofDecimal (whole fraction : Text) :
    IsNearest (ofDecimal whole fraction) (wholeValue whole + fractionValue fraction) := by
  rw [← digitsValue_append_div]
  have nearest := isNearest_ofRatio (digitsValue (whole ++ fraction))
    (Nat.pow_pos (n := fraction.length) (by decide : 0 < 10))
  rwa [Nat.cast_pow] at nearest

end Binary64

/-! ### Decimals -/

namespace Decimal

/-- What a decimal stands for. -/
def value (d : Decimal) : ℚ := d.digits * 10 ^ d.exponent

/-- The ratio that is rounded for a decimal is what it stands for. -/
theorem value_eq (d : Decimal) :
    ((d.digits * Nat.pow 10 d.exponent.toNat : Nat) : ℚ) / (Nat.pow 10 (-d.exponent).toNat : Nat) =
      d.value := by
  obtain ⟨digits, exponent⟩ := d
  rw [value]
  rcases Int.eq_nat_or_neg exponent with ⟨n, rfl | rfl⟩
  · simp
  · simp [div_eq_mul_inv]

theorem splitDigits_digits {whole rest : Text} (digits : ∀ c ∈ whole, c.isDigit = true)
    (stop : rest.head?.any Char.isDigit = false) (noPoint : rest.head? ≠ some '.') :
    splitDigits (whole ++ rest) = (whole, [], rest) := by
  rw [splitDigits, dropWhile_append_of_stop digits stop, takeWhile_append_of_stop digits stop]
  split
  · next behind => exact absurd rfl noPoint
  · rfl

theorem splitDigits_pointed {whole fraction rest : Text} (digits : ∀ c ∈ whole, c.isDigit = true)
    (fractional : ∀ c ∈ fraction, c.isDigit = true) (stop : rest.head?.any Char.isDigit = false) :
    splitDigits (whole ++ '.' :: (fraction ++ rest)) = (whole, fraction, rest) := by
  have point : ('.' :: (fraction ++ rest)).head?.any Char.isDigit = false := rfl
  rw [splitDigits, dropWhile_append_of_stop digits point, takeWhile_append_of_stop digits point]
  show (whole, (fraction ++ rest).takeWhile _, (fraction ++ rest).dropWhile _) = _
  rw [dropWhile_append_of_stop fractional stop, takeWhile_append_of_stop fractional stop]

variable {whole fraction rest : Text} (nonempty : whole ≠ [])
  (digits : ∀ c ∈ whole, c.isDigit = true)

include nonempty digits

/-- Digits alone, and perhaps a power of ten behind them. -/
theorem ofText?_digits (stop : rest.head?.any Char.isDigit = false)
    (noPoint : rest.head? ≠ some '.') :
    ofText? (whole ++ rest) =
      (power? rest).map fun power => ⟨Binary64.digitsValue whole, power⟩ := by
  rw [ofText?, splitDigits_digits digits stop noPoint]
  simp [nonempty]

/-- Digits before and behind a point, and perhaps a power of ten behind them. -/
theorem ofText?_pointed (fractional : ∀ c ∈ fraction, c.isDigit = true)
    (stop : rest.head?.any Char.isDigit = false) :
    ofText? (whole ++ '.' :: (fraction ++ rest)) = (power? rest).map fun power =>
      ⟨Binary64.digitsValue (whole ++ fraction), power - fraction.length⟩ := by
  rw [ofText?, splitDigits_pointed digits fractional stop]
  simp [nonempty]

end Decimal

/-! ### Numerals are read -/

namespace Binary64

/-- What starts with a digit is no name, in whatever case. -/
theorem map_toLower_ne {c d : Char} {t name : Text} (digit : c.isDigit = true)
    (noDigit : d.isDigit = false) : (c :: t).map Char.toLower ≠ d :: name := by
  have same : c.toLower = c := by
    apply toLower_of_not_upper
    rintro ⟨lower, -⟩
    exact absurd (Char.le_trans lower (isDigit_iff.mp digit).2) (by decide)
  intro start
  rw [← (List.cons.inj start).1, same, digit] at noDigit
  contradiction

theorem pattern?_of_digit {c : Char} (digit : c.isDigit = true) (t : Text) :
    pattern? (c :: t) = (Decimal.ofText? (c :: t)).map nearestTo := by
  have noName : ¬ ((c :: t).map Char.toLower = "inf" ∨ (c :: t).map Char.toLower = "infinity") :=
    not_or.mpr ⟨map_toLower_ne digit rfl, map_toLower_ne digit rfl⟩
  have noName' : ¬ (c :: t).map Char.toLower = "nan" := map_toLower_ne digit rfl
  rw [pattern?, if_neg noName, if_neg noName']

theorem read?_unsigned {c : Char} (noMinus : c ≠ '-') (noPlus : c ≠ '+') (t : Text) :
    read? (c :: t) = (pattern? (c :: t)).map ofPattern := by
  unfold read?
  split
  · next start => exact absurd (List.cons.inj start).1 noMinus
  · next start => exact absurd (List.cons.inj start).1 noPlus
  · rfl

/-- What starts with a digit is read as a numeral without a sign. -/
theorem read?_of_digit {c : Char} (digit : c.isDigit = true) (t : Text) :
    read? (c :: t) = (Decimal.ofText? (c :: t)).map fun d => ofPattern (nearestTo d) := by
  have noMinus : c ≠ '-' := by rintro rfl; contradiction
  have noPlus : c ≠ '+' := by rintro rfl; contradiction
  rw [read?_unsigned noMinus noPlus, pattern?_of_digit digit, Option.map_map]
  rfl

/-- Digits without a point are read. -/
theorem read?_digits {digits : Text} (nonempty : digits ≠ []) (all : ∀ c ∈ digits, Digit c) :
    read? digits = some (ofDecimal digits []) := by
  have all' := all_isDigit all
  have denoted : Decimal.ofText? digits = some ⟨digitsValue digits, 0⟩ := by
    have read : Decimal.ofText? (digits ++ []) = some ⟨digitsValue digits, 0⟩ :=
      Decimal.ofText?_digits nonempty all' rfl (by simp)
    rwa [List.append_nil] at read
  obtain ⟨c, more, rfl⟩ := List.exists_cons_of_ne_nil nonempty
  rw [read?_of_digit (all' c List.mem_cons_self), denoted]
  simp [ofDecimal, ofRatio, nearestTo]

/-- Digits with a point among them are read. -/
theorem read?_pointed {whole fraction : Text} (nonempty : whole ≠ [])
    (digits : ∀ c ∈ whole, Digit c) (fractional : ∀ c ∈ fraction, Digit c) :
    read? (whole ++ '.' :: fraction) = some (ofDecimal whole fraction) := by
  have digits' := all_isDigit digits
  have fractional' := all_isDigit fractional
  have denoted : Decimal.ofText? (whole ++ '.' :: fraction) =
      some ⟨digitsValue (whole ++ fraction), -fraction.length⟩ := by
    have read : Decimal.ofText? (whole ++ '.' :: (fraction ++ [])) =
        some ⟨digitsValue (whole ++ fraction), 0 - fraction.length⟩ :=
      Decimal.ofText?_pointed nonempty digits' fractional' rfl
    rwa [List.append_nil, Int.zero_sub] at read
  obtain ⟨c, more, rfl⟩ := List.exists_cons_of_ne_nil nonempty
  rw [List.cons_append] at denoted ⊢
  rw [read?_of_digit (digits' c List.mem_cons_self), denoted]
  simp [ofDecimal, ofRatio, nearestTo]

end Binary64

/-- A number lexeme is a numeral, and its value is what is read, which is the nearest number. -/
theorem Lexeme.exists_numeral {t : Text} {literal : Option Literal}
    (h : Lexeme t .number literal) :
    ∃ q x, Numeral t q ∧ Binary64.read? t = some x ∧ literal = some (.number x) ∧
      x.IsNearest q := by
  cases h with
  | whole nonempty digits =>
      refine ⟨_, _, .whole nonempty digits, Binary64.read?_digits nonempty digits, rfl, ?_⟩
      have nearest := Binary64.isNearest_ofDecimal t []
      rwa [fractionValue, add_zero] at nearest
  | decimal nonempty digits nonempty' fractional =>
      exact ⟨_, _, .decimal nonempty digits nonempty' fractional,
        Binary64.read?_pointed nonempty digits fractional, rfl, Binary64.isNearest_ofDecimal _ _⟩

theorem Token.Scanned.lexeme_of_number {t : Token} (h : t.Scanned) (number : t.kind = .number) :
    Lexeme t.lexeme .number t.literal := by
  have lexical := h.lexical
  obtain ⟨kind, lexeme, literal, line, span⟩ := t
  subst number
  cases lexical with
  | lexeme lexical => exact lexical

/-- **The value of a number token.** Its lexeme is a numeral, which is always read, and the value is
the number nearest to what the numeral denotes. -/
theorem number_tokens_nearest {source : Text} {t : Token} (member : t ∈ (scan source).tokens)
    (number : t.kind = .number) :
    ∃ q x, Numeral t.lexeme q ∧ Binary64.read? t.lexeme = some x ∧ t.literal = some (.number x) ∧
      x.IsNearest q := by
  have scanned : t.Scanned := ⟨source, member⟩
  exact (scanned.lexeme_of_number number).exists_numeral

/-- A whole number half way between two others: the value is the even one. -/
theorem half_way_number_is_even :
    let t : Token := ⟨.number, "9007199254740993", some (.number ⟨0x4340000000000000⟩), 1, ⟨0, 16⟩⟩
    t ∈ (scan "9007199254740993").tokens ∧ t.kind = .number ∧
      ∃ q x, Numeral t.lexeme q ∧ Binary64.read? t.lexeme = some x ∧ t.literal = some (.number x) ∧
        x.IsNearest q := by
  intro t
  have member : t ∈ (scan "9007199254740993").tokens := by decide +kernel
  exact ⟨member, rfl, number_tokens_nearest member rfl⟩

end LoxTokens
