import LoxTokens.Proofs.Dissection
import Mathlib.Logic.Relation

/-!
The lines of tokens and faults.

A token is listed on the line of its first character and a refused character on its own line. An
unclosed string is reported on the last line of the source, since only there it is known to be
unclosed. All of these are one more than the line ends before a place of the source.

A fault does not say where its character stands, so the places of refused characters are found by
the grammar alone: `RefusedAt` walks over a source by longest matches (`Step`), and
`Reading.exists_places` lists exactly the places it finds, in order.
-/

namespace LoxTokens

/-! ### Places of refused characters -/

/-- One step over a source that is parted into what has been passed and what is left: past the
longest match, or past one character where there is none. -/
inductive Step : Text × Text → Text × Text → Prop where
  | known {before t rest : Text} : Longest t (t ++ rest) →
      Step (before, t ++ rest) (before ++ t, rest)
  | refused {before rest : Text} {c : Char} : c ≠ '"' → Unmatched (c :: rest) →
      Step (before, c :: rest) (before ++ [c], rest)

/-- On the way from a place a character `c` is refused that stands after `before`. -/
def RefusedAt (place : Text × Text) (before : Text) (c : Char) : Prop :=
  ∃ rest, Relation.ReflTransGen Step place (before, c :: rest) ∧ c ≠ '"' ∧ Unmatched (c :: rest)

theorem Step.prefix_of_reaches {p q : Text × Text} (h : Relation.ReflTransGen Step p q) :
    p.1 <+: q.1 := by
  induction h with
  | refl => exact List.prefix_refl _
  | tail _ step ih =>
      refine ih.trans ?_
      cases step with
      | known => exact List.prefix_append ..
      | refused => exact List.prefix_append ..

/-- Where there is a match the step is past it. -/
theorem Step.eq_of_longest {before t rest : Text} {q : Text × Text} (longest : Longest t (t ++ rest))
    (h : Step (before, t ++ rest) q) : q = (before ++ t, rest) := by
  generalize place : (before, t ++ rest) = p at h
  cases h with
  | known other =>
      obtain ⟨rfl, source⟩ := Prod.mk.inj place
      obtain rfl := longest.unique (source ▸ other)
      rw [List.append_cancel_left source]
  | refused _ unmatched =>
      rw [(Prod.mk.inj place).2] at longest
      exact absurd unmatched longest.not_unmatched

/-- Where there is no match the step is past one character, and a quote is no such character. -/
theorem Step.eq_of_unmatched {before rest : Text} {c : Char} {q : Text × Text}
    (unmatched : Unmatched (c :: rest)) (h : Step (before, c :: rest) q) :
    q = (before ++ [c], rest) ∧ c ≠ '"' := by
  generalize place : (before, c :: rest) = p at h
  cases h with
  | known other =>
      rw [(Prod.mk.inj place).2] at unmatched
      exact absurd unmatched other.not_unmatched
  | refused noQuote _ =>
      obtain ⟨rfl, source⟩ := Prod.mk.inj place
      obtain ⟨rfl, rfl⟩ := List.cons.inj source
      exact ⟨rfl, noQuote⟩

theorem not_step_nil {before : Text} {q : Text × Text} : ¬ Step (before, []) q := by
  intro h
  generalize place : (before, ([] : Text)) = p at h
  cases h with
  | @known _ t rest longest =>
      have empty := (List.append_eq_nil_iff.mp (Prod.mk.inj place).2.symm).1
      exact longest.known.ne_nil empty
  | refused => exact absurd (Prod.mk.inj place).2 (by simp)

section RefusedAt

variable {before rest front : Text} {c d : Char}

theorem not_refusedAt_nil : ¬ RefusedAt (before, []) front d := by
  rintro ⟨more, reaches, -, -⟩
  rcases reaches.cases_head with same | ⟨place, step, -⟩
  · exact absurd (Prod.mk.inj same).2 (by simp)
  · exact not_step_nil step

theorem not_refusedAt_unclosed (unmatched : Unmatched ('"' :: rest)) :
    ¬ RefusedAt (before, '"' :: rest) front d := by
  rintro ⟨more, reaches, noQuote, -⟩
  rcases reaches.cases_head with same | ⟨place, step, -⟩
  · exact noQuote (List.cons.inj (Prod.mk.inj same).2).1.symm
  · exact (Step.eq_of_unmatched unmatched step).2 rfl

theorem refusedAt_known {t : Text} (longest : Longest t (t ++ rest)) :
    RefusedAt (before, t ++ rest) front d ↔ RefusedAt (before ++ t, rest) front d := by
  constructor
  · rintro ⟨more, reaches, noQuote, unmatched⟩
    rcases reaches.cases_head with same | ⟨place, step, later⟩
    · rw [(Prod.mk.inj same).2] at longest
      exact absurd unmatched longest.not_unmatched
    · rw [Step.eq_of_longest longest step] at later
      exact ⟨more, later, noQuote, unmatched⟩
  · rintro ⟨more, later, noQuote, unmatched⟩
    exact ⟨more, .head (.known longest) later, noQuote, unmatched⟩

theorem refusedAt_refused (noQuote : c ≠ '"') (unmatched : Unmatched (c :: rest)) :
    RefusedAt (before, c :: rest) front d ↔
      (front, d) = (before, c) ∨ RefusedAt (before ++ [c], rest) front d := by
  constructor
  · rintro ⟨more, reaches, other⟩
    rcases reaches.cases_head with same | ⟨place, step, later⟩
    · obtain ⟨rfl, source⟩ := Prod.mk.inj same
      exact Or.inl (by rw [(List.cons.inj source).1])
    · rw [(Step.eq_of_unmatched unmatched step).1] at later
      exact Or.inr ⟨more, later, other⟩
  · rintro (same | ⟨more, later, other⟩)
    · obtain ⟨rfl, rfl⟩ := Prod.mk.inj same
      exact ⟨rest, .refl, noQuote, unmatched⟩
    · exact ⟨more, .head (.refused noQuote unmatched) later, other⟩

end RefusedAt

/-! ### The lines of a reading -/

namespace Reading

variable {before rest : Text} {tokens : List Token} {faults : List Fault}

/-- Every token starts after some front of the source, and its line is the one after that front. -/
theorem exists_front (h : Reading before rest tokens faults) : ∀ t ∈ tokens, ∃ front back,
    before ++ rest = front ++ back ∧ t.span.start = Text.byteLength front ∧
      t.line = lineAfter front := by
  induction h with
  | @done before =>
      intro t member
      rw [List.mem_singleton.mp member]
      exact ⟨before, [], rfl, rfl, rfl⟩
  | skip _ _ _ ih =>
      rw [List.append_assoc] at ih
      exact ih
  | @token before t rest kind literal tokens faults _ _ _ ih =>
      intro u member
      rcases List.mem_cons.mp member with rfl | member
      · exact ⟨before, t ++ rest, rfl, rfl, rfl⟩
      · rw [List.append_assoc] at ih
        exact ih u member
  | refused _ _ _ ih =>
      rw [List.append_assoc] at ih
      exact ih
  | @unclosed before body =>
      intro t member
      rw [List.mem_singleton.mp member]
      exact ⟨before ++ '"' :: body, [], by simp, rfl, rfl⟩

/-- The faults of a reading are those of the places where a character is refused, in order, and
perhaps one for an unclosed string. -/
theorem exists_places (h : Reading before rest tokens faults) :
    ∃ (places : List (Text × Char)) (unclosed : List Fault),
      faults = places.map (fun place => .unexpectedCharacter (lineAfter place.1) place.2) ++ unclosed ∧
        (unclosed = [] ∨ unclosed = [.unterminatedString (lineAfter (before ++ rest))]) ∧
        (∀ front c, (front, c) ∈ places ↔ RefusedAt (before, rest) front c) ∧
        places.Pairwise fun p q => p.1.length < q.1.length := by
  induction h with
  | done =>
      refine ⟨[], [], rfl, Or.inl rfl, ?_, List.Pairwise.nil⟩
      intro front c
      simp [not_refusedAt_nil]
  | skip _ longest _ ih | token _ longest _ ih =>
      obtain ⟨places, unclosed, same, ended, exact, sorted⟩ := ih
      rw [List.append_assoc] at ended
      refine ⟨places, unclosed, same, ended, ?_, sorted⟩
      intro front c
      exact (exact front c).trans (refusedAt_known longest).symm
  | @refused before rest c tokens faults noQuote unmatched _ ih =>
      obtain ⟨places, unclosed, same, ended, exact, sorted⟩ := ih
      rw [List.append_assoc] at ended
      refine ⟨(before, c) :: places, unclosed, by rw [same]; rfl, ended, ?_, ?_⟩
      · intro front d
        rw [List.mem_cons, exact, refusedAt_refused noQuote unmatched]
      · apply List.Pairwise.cons _ sorted
        intro place member
        obtain ⟨more, reaches, -⟩ := (exact place.1 place.2).mp member
        have longer := (Step.prefix_of_reaches reaches).length_le
        rw [List.length_append] at longer
        exact longer
  | unclosed unmatched =>
      refine ⟨[], _, rfl, Or.inr rfl, ?_, List.Pairwise.nil⟩
      intro front c
      simp [not_refusedAt_unclosed unmatched]

end Reading

/-- The lines that scanning a source gives are counted from its line ends. -/
structure NumbersLines (source : Text) (result : Scan) : Prop where
  /-- A token is on the line of its first character. -/
  tokens : ∀ t ∈ result.tokens, ∃ before,
    Text.takeBytes? t.span.start source = some before ∧ t.line = lineAfter before
  /-- The end is on the last line. -/
  closing : ∃ front, result.tokens = front ++ [closingToken source]
  /-- Refused characters are on their own lines, and an unclosed string is on the last. -/
  faults : ∃ (places : List (Text × Char)) (unclosed : List Fault),
    result.faults =
        places.map (fun place => .unexpectedCharacter (lineAfter place.1) place.2) ++ unclosed ∧
      (unclosed = [] ∨ unclosed = [.unterminatedString (lineAfter source)]) ∧
      (∀ before c, (before, c) ∈ places ↔ RefusedAt ([], source) before c) ∧
      places.Pairwise fun p q => p.1.length < q.1.length

/-- **Every line is one more than the line ends before its place.** -/
theorem scan_numbersLines (source : Text) : NumbersLines source (scan source) := by
  have reading := Reading.of_scan source
  refine ⟨?_, ?_, reading.exists_places⟩
  · intro t member
    obtain ⟨front, back, parted, start, line⟩ := reading.exists_front t member
    rw [List.nil_append] at parted
    exact ⟨front, by rw [parted, start, Text.takeBytes?_append], line⟩
  · obtain ⟨d, -, same, -⟩ := reading.exists_dissection
    exact ⟨d.tokens, same⟩

end LoxTokens
