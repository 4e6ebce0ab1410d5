import LoxTokens.Proofs.Grammar

/-!
The piece at a place of a source is the longest match of the lexical grammar there.

The walk over a source chooses a piece from one or two characters of lookahead; the grammar speaks
of whole texts and their lengths. The two meet at one place of a source:

* `Piece.known_of_first?` — a piece that is read is a text of the grammar, of its kind and with its
  value, unless it is a stray character or the tail of an unclosed string.
* `Piece.covers_lexeme`, `Piece.covers_skipped` — where a text of the grammar stands, the piece that is
  read is no shorter.
* `Piece.longest_of_first?`, `Piece.unmatched_of_first?` — so the piece is the longest match, and
  there is none exactly where a fault is reported.
-/

namespace LoxTokens

/-! ### The ways to read a piece -/

namespace Piece

/-- Whether a piece is no fault. -/
def Accepted : Piece → Prop
  | .stray _ | .openString _ => False
  | _ => True

/-- How a piece at the start of a text is chosen. -/
theorem first?_cases {source : Text} {p : Piece} (h : first? source = some p) :
    (∃ rest, source = '/' :: '/' :: rest ∧ p = .comment (rest.takeWhile (· != '\n'))) ∨
    (∃ rest, source = '"' :: rest ∧ p = quoted rest) ∨
    ∃ c rest, source = c :: rest ∧ c ≠ '"' ∧
      ((separates c = true ∧ p = .blank c) ∨
        (c.isDigit = true ∧ p = numeric (c :: rest)) ∨
        (startsWord c = true ∧ p = .word ((c :: rest).takeWhile continuesWord)) ∨
        (∃ m, Mark.first? (c :: rest) = some m ∧ p = .mark m) ∨
        p = .stray c) := by
  unfold first? at h
  split at h
  · contradiction
  · cases h
    exact Or.inl ⟨_, rfl, rfl⟩
  · cases h
    exact Or.inr (Or.inl ⟨_, rfl, rfl⟩)
  · next c rest _ noQuote =>
      refine Or.inr (Or.inr ⟨c, rest, rfl, fun quote => noQuote quote, ?_⟩)
      split at h
      · next blank => exact Or.inl ⟨blank, (Option.some.inj h).symm⟩
      split at h
      · next digit => exact Or.inr (Or.inl ⟨digit, (Option.some.inj h).symm⟩)
      split at h
      · next letter => exact Or.inr (Or.inr (Or.inl ⟨letter, (Option.some.inj h).symm⟩))
      split at h
      · next m found => exact Or.inr (Or.inr (Or.inr (Or.inl ⟨m, found, (Option.some.inj h).symm⟩)))
      · exact Or.inr (Or.inr (Or.inr (Or.inr (Option.some.inj h).symm)))

/-- A number takes all digits at its start, and perhaps a fraction. -/
theorem exists_numeric_eq (source : Text) : ∃ fraction,
    numeric source = .number (source.takeWhile Char.isDigit) fraction ∧
      ∀ c ∈ fraction, Digit c := by
  unfold numeric
  split
  · exact ⟨_, rfl, fun c hc => isDigit_iff.mp (List.mem_takeWhile_imp hc)⟩
  · exact ⟨[], rfl, by simp⟩

/-- After a quote stands a string up to the next quote, or the rest where there is no other. -/
theorem quoted_cases (rest : Text) :
    (∃ body, quoted rest = .string body ∧ '"' ∉ body) ∨ quoted rest = .openString rest := by
  unfold quoted
  dsimp only
  split
  · refine Or.inl ⟨_, rfl, ?_⟩
    intro quote
    simpa using List.mem_takeWhile_imp quote
  · next short =>
      have whole := (List.takeWhile_prefix (l := rest) (· != '"')).eq_of_length_le (by omega)
      exact Or.inr (by rw [whole])

/-- The kind of a word: a keyword where it is spelled like one, else an identifier. -/
theorem lexeme_word {t : Text} (h : Word t) :
    Lexeme t (((Keyword.ofText? t).map Kind.keyword).getD .identifier) none := by
  cases found : Keyword.ofText? t with
  | none =>
      apply Lexeme.identifier h
      intro k same
      rw [← same, Keyword.ofText?_spelling] at found
      contradiction
  | some k =>
      rw [← Keyword.spelling_of_ofText? found]
      exact .keyword k

/-- A piece that is no fault is a text of the grammar: it is passed over, or it is a token of its
kind and with its value. -/
theorem known_of_first? {source : Text} {p : Piece} (h : first? source = some p)
    (accepted : p.Accepted) :
    (p.kind? = none ∧ Skipped p.text) ∨
      ∃ kind, p.kind? = some kind ∧ Lexeme p.text kind p.literal? := by
  rcases first?_cases h with ⟨rest, rfl, rfl⟩ | ⟨rest, rfl, rfl⟩ | ⟨c, rest, rfl, -, choice⟩
  · refine Or.inl ⟨rfl, .comment ?_⟩
    intro newline
    simpa using List.mem_takeWhile_imp newline
  · rcases quoted_cases rest with ⟨body, same, inside⟩ | same
    · rw [same]
      exact Or.inr ⟨_, rfl, .string inside⟩
    · rw [same] at accepted
      exact accepted.elim
  · rcases choice with ⟨blank, rfl⟩ | ⟨digit, rfl⟩ | ⟨letter, rfl⟩ | ⟨m, -, rfl⟩ | rfl
    · exact Or.inl ⟨rfl, .blank (separates_iff.mp blank)⟩
    · obtain ⟨fraction, same, fractional⟩ := exists_numeric_eq (c :: rest)
      have nonempty : (c :: rest).takeWhile Char.isDigit ≠ [] := by simp [digit]
      have digits : ∀ d ∈ (c :: rest).takeWhile Char.isDigit, Digit d := by
        intro d hd
        exact isDigit_iff.mp (List.mem_takeWhile_imp hd)
      rw [same]
      refine Or.inr ⟨_, rfl, ?_⟩
      by_cases none : fraction = []
      · subst none
        exact .whole nonempty digits
      · simpa [text, literal?, none] using Lexeme.decimal nonempty digits none fractional
    · refine Or.inr ⟨_, rfl, lexeme_word ⟨c, rest.takeWhile continuesWord, ?_, ?_, ?_⟩⟩
      · simp [text, continuesWord, letter]
      · exact startsWord_iff.mp letter
      · intro d hd
        exact continuesWord_iff.mp (List.mem_takeWhile_imp hd)
    · exact Or.inr ⟨_, rfl, .mark m⟩
    · exact accepted.elim

/-- Where a fault is read, it is the one character or the tail after a quote. -/
theorem fault_of_first? {source : Text} {p : Piece} (h : first? source = some p)
    (rejected : ¬ p.Accepted) :
    (∃ c rest, source = c :: rest ∧ c ≠ '"' ∧ p = .stray c) ∨
      ∃ body, source = '"' :: body ∧ p = .openString body := by
  rcases first?_cases h with ⟨rest, rfl, rfl⟩ | ⟨rest, rfl, rfl⟩ | ⟨c, rest, rfl, noQuote, choice⟩
  · exact absurd trivial rejected
  · rcases quoted_cases rest with ⟨body, same, -⟩ | same
    · rw [same] at rejected
      exact absurd trivial rejected
    · exact Or.inr ⟨rest, rfl, same⟩
  · rcases choice with ⟨-, rfl⟩ | ⟨-, rfl⟩ | ⟨-, rfl⟩ | ⟨m, -, rfl⟩ | rfl
    · exact absurd trivial rejected
    · obtain ⟨fraction, same, -⟩ := exists_numeric_eq (c :: rest)
      rw [same] at rejected
      exact absurd trivial rejected
    · exact absurd trivial rejected
    · exact absurd trivial rejected
    · exact Or.inl ⟨c, rest, rfl, noQuote, rfl⟩

/-! ### A text of the grammar is read whole -/

/-- How a piece stands to a text of the grammar at whose start it is read: it is no shorter and no
fault, and if it is that very text it has the same kind and value. -/
structure Covers (p : Piece) (t : Text) (kind : Option Kind) (literal : Option Literal) : Prop where
  accepted : p.Accepted
  length_le : t.length ≤ p.text.length
  same : p.text = t → p.kind? = kind ∧ p.literal? = literal

/-- The choice among all pieces where neither a comment nor a string starts. -/
theorem first?_cons {c : Char} {rest : Text} (noComment : ∀ body, c :: rest ≠ '/' :: '/' :: body)
    (noQuote : c ≠ '"') :
    first? (c :: rest) =
      if separates c then some (.blank c)
      else if c.isDigit then some (numeric (c :: rest))
      else if startsWord c then some (.word ((c :: rest).takeWhile continuesWord))
      else some (((Mark.first? (c :: rest)).map Piece.mark).getD (.stray c)) := by
  unfold first?
  split
  · contradiction
  · next same => exact absurd same (noComment _)
  · next same => exact absurd (List.cons.inj same).1 noQuote
  · next same =>
      cases same
      cases Mark.first? (c :: rest) <;> rfl

/-- The characters of words start numbers and words only. -/
theorem first?_of_continuesWord {c : Char} (h : continuesWord c = true) (rest : Text) :
    first? (c :: rest) =
      if c.isDigit then some (numeric (c :: rest))
      else some (.word ((c :: rest).takeWhile continuesWord)) := by
  have visible : ¬ separates c = true := by
    intro blank
    have listed := separates_iff.mp blank
    simp only [List.mem_cons, List.not_mem_nil, or_false] at listed
    rcases listed with rfl | rfl | rfl | rfl <;> exact absurd h (by decide)
  rw [first?_cons, if_neg visible]
  · split
    · rfl
    · next noDigit => rw [if_pos (by simpa [continuesWord, noDigit] using h)]
  · intro body same
    rw [(List.cons.inj same).1] at h
    exact absurd h (by decide)
  · rintro rfl
    exact absurd h (by decide)

theorem first?_digit {c : Char} (h : Digit c) (rest : Text) :
    first? (c :: rest) = some (numeric (c :: rest)) := by
  rw [first?_of_continuesWord (continuesWord_iff.mpr (Or.inr h)), if_pos (isDigit_iff.mpr h)]

theorem first?_letter {c : Char} (h : Letter c) (rest : Text) :
    first? (c :: rest) = some (.word ((c :: rest).takeWhile continuesWord)) := by
  rw [first?_of_continuesWord (continuesWord_iff.mpr (Or.inl h)),
    if_neg fun digit => h.not_digit (isDigit_iff.mp digit)]

theorem covers_word {t : Text} (h : Word t) (rest : Text) :
    ∃ p, first? (t ++ rest) = some p ∧
      p.Covers t (some (((Keyword.ofText? t).map Kind.keyword).getD .identifier)) none := by
  obtain ⟨first, more, rfl, letter, inside⟩ := h
  have all : ∀ c ∈ first :: more, continuesWord c = true := by
    intro c hc
    rcases List.mem_cons.mp hc with rfl | hc
    · exact continuesWord_iff.mpr (Or.inl letter)
    · exact continuesWord_iff.mpr (inside c hc)
  refine ⟨_, first?_letter letter (more ++ rest), trivial, ?_, fun same => ⟨?_, rfl⟩⟩
  · rw [text, ← List.cons_append, List.takeWhile_append_of_pos all]
    simp
  · rw [text] at same
    rw [same, kind?]

theorem covers_whole {digits : Text} (nonempty : digits ≠ []) (all : ∀ c ∈ digits, Digit c)
    (rest : Text) :
    ∃ p, first? (digits ++ rest) = some p ∧
      p.Covers digits (some .number) (some (.number (.ofDecimal digits []))) := by
  obtain ⟨fraction, numeric, -⟩ := exists_numeric_eq (digits ++ rest)
  rw [List.takeWhile_append_of_pos fun c hc => isDigit_iff.mpr (all c hc)] at numeric
  have read : first? (digits ++ rest) =
      some (.number (digits ++ rest.takeWhile Char.isDigit) fraction) := by
    obtain ⟨c, more, rfl⟩ := List.exists_cons_of_ne_nil nonempty
    rw [← numeric]
    exact first?_digit (all c List.mem_cons_self) _
  refine ⟨_, read, trivial, ?_, fun same => ?_⟩
  · rw [text]
    split
    · simp
    · simp only [List.length_append]
      omega
  · -- a point would make the piece longer than its digits
    rw [text] at same
    split at same
    · next none =>
        rw [List.isEmpty_iff.mp none, same]
        exact ⟨rfl, rfl⟩
    · have := congrArg List.length same
      simp only [List.length_append, List.length_cons] at this
      omega

/-- A point belongs to a number with the digits after it. -/
theorem numeric_point {whole : Text} (all : ∀ c ∈ whole, Digit c) (rest : Text) :
    numeric (whole ++ '.' :: rest) = .number whole (rest.takeWhile Char.isDigit) := by
  have before : ∀ c ∈ whole, c.isDigit = true := fun c hc => isDigit_iff.mpr (all c hc)
  have front : (whole ++ '.' :: rest).takeWhile Char.isDigit = whole := by
    rw [List.takeWhile_append_of_pos before, List.takeWhile_cons_of_neg (by decide),
      List.append_nil]
  have back : (whole ++ '.' :: rest).dropWhile Char.isDigit = '.' :: rest := by
    rw [List.dropWhile_append_of_pos before, List.dropWhile_cons_of_neg (by decide)]
  rw [numeric, front, back]
  rfl

theorem covers_decimal {whole fraction : Text} (nonempty : whole ≠ [])
    (all : ∀ c ∈ whole, Digit c) (fractional : fraction ≠ []) (inside : ∀ c ∈ fraction, Digit c)
    (rest : Text) :
    ∃ p, first? (whole ++ '.' :: fraction ++ rest) = some p ∧
      p.Covers (whole ++ '.' :: fraction) (some .number)
        (some (.number (.ofDecimal whole fraction))) := by
  have point := numeric_point all (fraction ++ rest)
  rw [List.takeWhile_append_of_pos fun c hc => isDigit_iff.mpr (inside c hc)] at point
  have read : first? (whole ++ '.' :: (fraction ++ rest)) =
      some (.number whole (fraction ++ rest.takeWhile Char.isDigit)) := by
    obtain ⟨c, more, rfl⟩ := List.exists_cons_of_ne_nil nonempty
    rw [← point]
    exact first?_digit (all c List.mem_cons_self) _
  rw [List.append_assoc, List.cons_append]
  refine ⟨_, read, trivial, ?_, fun same => ?_⟩
  · simp [text, fractional]
  · have more : rest.takeWhile Char.isDigit = [] := by
      simpa [text, fractional] using same
    rw [more, List.append_nil]
    exact ⟨rfl, rfl⟩

theorem bne_of_not_mem {d : Char} {t : Text} (h : d ∉ t) : ∀ c ∈ t, (c != d) = true := by
  intro c hc
  refine bne_iff_ne.mpr ?_
  rintro rfl
  exact h hc

theorem covers_string {body : Text} (inside : '"' ∉ body) (rest : Text) :
    ∃ p, first? ('"' :: body ++ ['"'] ++ rest) = some p ∧
      p.Covers ('"' :: body ++ ['"']) (some .string) (some (.text body)) := by
  have read : quoted (body ++ '"' :: rest) = .string body := by
    rw [quoted, List.takeWhile_append_of_pos (bne_of_not_mem inside)]
    simp
  refine ⟨.string body, ?_, trivial, le_refl _, fun _ => ⟨rfl, rfl⟩⟩
  rw [← read]
  simp [first?]

end Piece

namespace Mark

theorem first?_spelling (m : Mark) : first? m.spelling = some m := by cases m <;> rfl

theorem spelling_injective {m n : Mark} (h : m.spelling = n.spelling) : m = n := by
  apply Option.some.inj
  rw [← first?_spelling m, h, first?_spelling]

/-- A mark starts like nothing else. -/
theorem exists_first (m : Mark) : ∃ c more, m.spelling = c :: more ∧ c ≠ '"' ∧
    separates c = false ∧ c.isDigit = false ∧ startsWord c = false := by
  cases m <;> exact ⟨_, _, rfl, by decide, by decide, by decide, by decide⟩

/-- Where a mark stands, the mark that is read is no shorter. -/
theorem first?_spelling_append (m : Mark) (rest : Text) :
    ∃ n, first? (m.spelling ++ rest) = some n ∧ m.spelling.length ≤ n.spelling.length := by
  have some_mark : ∃ n, first? (m.spelling ++ rest) = some n := by
    cases m with
    | bang | equal | greater | less =>
        cases rest with
        | nil => exact ⟨_, rfl⟩
        | cons c rest =>
            by_cases equals : c = '='
            · subst equals
              exact ⟨_, rfl⟩
            · exact Option.isSome_iff_exists.mp (by simp [first?, spelling, equals])
    | _ => exact ⟨_, rfl⟩
  obtain ⟨n, read⟩ := some_mark
  have positive : 1 ≤ n.spelling.length := by cases n <;> decide
  cases m with
  | bangEqual | equalEqual | greaterEqual | lessEqual => exact ⟨_, rfl, le_refl _⟩
  | _ => exact ⟨n, read, positive⟩

end Mark

namespace Piece

/-- A mark is read where it stands, or a longer one, or the comment that a slash starts. -/
theorem covers_mark (m : Mark) (rest : Text) :
    ∃ p, first? (m.spelling ++ rest) = some p ∧ p.Covers m.spelling (some (.mark m)) none := by
  by_cases comment : ∃ body, m.spelling ++ rest = '/' :: '/' :: body
  · obtain ⟨body, start⟩ := comment
    have short : m.spelling.length ≤ 2 ∧ ∀ t, m.spelling ≠ '/' :: '/' :: t := by
      cases m <;> exact ⟨by decide, by simp [Mark.spelling]⟩
    rw [start]
    refine ⟨_, rfl, trivial, ?_, fun same => absurd same.symm (short.2 _)⟩
    simp only [text, List.length_cons]
    omega
  · obtain ⟨n, found, longer⟩ := m.first?_spelling_append rest
    obtain ⟨c, more, start, noQuote, visible, noDigit, noLetter⟩ := m.exists_first
    refine ⟨.mark n, ?_, trivial, longer, fun same => ?_⟩
    · rw [start, List.cons_append] at found comment ⊢
      rw [first?_cons (fun body same => comment ⟨body, same⟩) noQuote, found]
      simp [visible, noDigit, noLetter]
    · rw [kind?, Mark.spelling_injective same]
      exact ⟨rfl, rfl⟩

theorem covers_lexeme {t : Text} {kind : Kind} {literal : Option Literal}
    (h : Lexeme t kind literal) (rest : Text) :
    ∃ p, first? (t ++ rest) = some p ∧ p.Covers t (some kind) literal := by
  cases h with
  | mark m => exact covers_mark m rest
  | string inside => exact covers_string inside rest
  | whole nonempty all => exact covers_whole nonempty all rest
  | decimal nonempty all fractional inside =>
      exact covers_decimal nonempty all fractional inside rest
  | keyword k => simpa using covers_word (word_spelling k) rest
  | identifier word noKeyword =>
      have unlisted : Keyword.ofText? t = none := by
        cases found : Keyword.ofText? t with
        | none => rfl
        | some k => exact absurd (Keyword.spelling_of_ofText? found) (noKeyword k)
      simpa [unlisted] using covers_word word rest

theorem covers_skipped {t : Text} (h : Skipped t) (rest : Text) :
    ∃ p, first? (t ++ rest) = some p ∧ p.Covers t none none := by
  cases h with
  | @blank c listed =>
      refine ⟨.blank c, ?_, trivial, le_refl _, fun _ => ⟨rfl, rfl⟩⟩
      have separates := separates_iff.mpr listed
      simp only [List.mem_cons, List.not_mem_nil, or_false] at listed
      rcases listed with rfl | rfl | rfl | rfl <;> rfl
  | @comment body inLine =>
      refine ⟨_, rfl, trivial, ?_, fun _ => ⟨rfl, rfl⟩⟩
      show _ ≤ (text (.comment ((body ++ rest).takeWhile _))).length
      rw [List.takeWhile_append_of_pos (bne_of_not_mem inLine)]
      simp [text]

/-! ### The piece that is read is the longest match -/

/-- Where a text of the grammar stands, the piece that is read is no fault and no shorter. -/
theorem covers_known {t source : Text} (h : Matches t) (front : t <+: source) :
    ∃ p kind literal, first? source = some p ∧ p.Covers t kind literal := by
  obtain ⟨rest, rfl⟩ := front
  rcases h with skipped | ⟨kind, literal, lexeme⟩
  · obtain ⟨p, read, covers⟩ := covers_skipped skipped rest
    exact ⟨p, _, _, read, covers⟩
  · obtain ⟨p, read, covers⟩ := covers_lexeme lexeme rest
    exact ⟨p, _, _, read, covers⟩

theorem longest_of_first? {source : Text} {p : Piece} (h : first? source = some p)
    (accepted : p.Accepted) : Longest p.text source where
  known := by
    rcases known_of_first? h accepted with ⟨-, skipped⟩ | ⟨kind, -, lexeme⟩
    · exact Or.inl skipped
    · exact Or.inr ⟨_, _, lexeme⟩
  front := ⟨_, text_append_of_first? h⟩
  longest := by
    intro u known front
    obtain ⟨q, kind, literal, read, covers⟩ := covers_known known front
    cases h.symm.trans read
    exact covers.length_le

theorem unmatched_of_first? {source : Text} {p : Piece} (h : first? source = some p)
    (rejected : ¬ p.Accepted) : Unmatched source := by
  intro t known front
  obtain ⟨q, kind, literal, read, covers⟩ := covers_known known front
  cases h.symm.trans read
  exact rejected covers.accepted

/-- The piece that is read where a longest match stands is that match. -/
theorem text_of_longest {t source : Text} {p : Piece} (h : Longest t source)
    (read : first? source = some p) : p.text = t := by
  obtain ⟨q, kind, literal, read', covers⟩ := covers_known h.known h.front
  cases read.symm.trans read'
  exact (longest_of_first? read covers.accepted).unique h

/-- Where no text of the grammar stands, a fault is read. -/
theorem not_accepted_of_unmatched {source : Text} {p : Piece} (h : Unmatched source)
    (read : first? source = some p) : ¬ p.Accepted := by
  intro accepted
  exact (longest_of_first? read accepted).not_unmatched h

end Piece

end LoxTokens
