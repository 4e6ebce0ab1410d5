import LoxTokens.Scan.Basic
import Mathlib.Data.List.TakeWhile

/-!
The lexical grammar, and what it means to read a source by it.

`Lexeme` and `Skipped` say which texts the grammar knows: those that are tokens, each with its kind
and value, and those that are passed over. `Longest t source` says that `t` is the longest of them
that `source` starts with. `Reading` is the leftmost-longest reading of a whole source: at every
place the longest match is taken, and where there is none a quote ends the reading and any other
character is refused alone.

Nothing here looks ahead or counts. A line is one more than the line ends before it, a place is the
number of bytes before it, and both are read off the text that has been passed.

* `matches_singleton` — whatever can start a match that is no string is a match by itself, so
  whether a character is refused does not depend on what follows it.
* `Longest.unique` — a source has at most one longest match.
-/

namespace LoxTokens

/-! ### The characters of numbers and words -/

/-- The ASCII digits. -/
def Digit (c : Char) : Prop := '0' ≤ c ∧ c ≤ '9'

/-- The ASCII letters and the underscore. -/
def Letter (c : Char) : Prop := ('a' ≤ c ∧ c ≤ 'z') ∨ ('A' ≤ c ∧ c ≤ 'Z') ∨ c = '_'

/-- A letter, and then letters and digits. -/
def Word (t : Text) : Prop :=
  ∃ first rest, t = first :: rest ∧ Letter first ∧ ∀ c ∈ rest, Letter c ∨ Digit c

theorem Letter.not_digit {c : Char} (h : Letter c) : ¬ Digit c := by
  rintro ⟨-, upper⟩
  rcases h with ⟨lower, -⟩ | ⟨lower, -⟩ | rfl
  · exact absurd (Char.le_trans lower upper) (by decide)
  · exact absurd (Char.le_trans lower upper) (by decide)
  · exact absurd upper (by decide)

theorem isDigit_iff {c : Char} : c.isDigit = true ↔ Digit c := by
  simp [Char.isDigit, Digit, Char.le_def]

theorem isUpper_iff {c : Char} : c.isUpper = true ↔ 'A' ≤ c ∧ c ≤ 'Z' := decide_eq_true_iff

theorem toLower_of_not_upper {c : Char} (h : ¬ ('A' ≤ c ∧ c ≤ 'Z')) : c.toLower = c := dif_neg h

theorem isLower_iff {c : Char} : c.isLower = true ↔ 'a' ≤ c ∧ c ≤ 'z' := by
  have split : c.isLower = (decide ('a' ≤ c) && decide (c ≤ 'z')) := rfl
  rw [split, Bool.and_eq_true, decide_eq_true_iff, decide_eq_true_iff]

theorem startsWord_iff {c : Char} : startsWord c = true ↔ Letter c := by
  have split : startsWord c = (c.isUpper || c.isLower || c == '_') := rfl
  rw [split, Bool.or_eq_true, Bool.or_eq_true, isUpper_iff, isLower_iff, beq_iff_eq,
    or_comm (a := 'A' ≤ c ∧ c ≤ 'Z'), or_assoc]
  rfl

theorem continuesWord_iff {c : Char} : continuesWord c = true ↔ Letter c ∨ Digit c := by
  simp [continuesWord, startsWord_iff, isDigit_iff]

theorem separates_iff {c : Char} : separates c = true ↔ c ∈ [' ', '\t', '\r', '\n'] := by
  simp [separates, or_assoc]

theorem word_spelling (k : Keyword) : Word k.spelling := by
  cases k <;>
    exact ⟨_, _, rfl, startsWord_iff.mp (by decide),
      fun c hc => continuesWord_iff.mp (List.all_eq_true.mp (by decide) c hc)⟩

/-! ### The grammar -/

/-- The texts that are tokens, with the kind and the value of each. A word that is spelled exactly
like a keyword is that keyword. -/
inductive Lexeme : Text → Kind → Option Literal → Prop where
  | mark (m : Mark) : Lexeme m.spelling (.mark m) none
  | string {body : Text} : '"' ∉ body →
      Lexeme ('"' :: body ++ ['"']) .string (some (.text body))
  | whole {digits : Text} : digits ≠ [] → (∀ c ∈ digits, Digit c) →
      Lexeme digits .number (some (.number (.ofDecimal digits [])))
  | decimal {whole fraction : Text} : whole ≠ [] → (∀ c ∈ whole, Digit c) →
      fraction ≠ [] → (∀ c ∈ fraction, Digit c) →
      Lexeme (whole ++ '.' :: fraction) .number (some (.number (.ofDecimal whole fraction)))
  | keyword (k : Keyword) : Lexeme k.spelling (.keyword k) none
  | identifier {t : Text} : Word t → (∀ k : Keyword, k.spelling ≠ t) → Lexeme t .identifier none

/-- The texts that are passed over: one separating character, and a comment up to the end of its
line. -/
inductive Skipped : Text → Prop where
  | blank {c : Char} : c ∈ [' ', '\t', '\r', '\n'] → Skipped [c]
  | comment {body : Text} : '\n' ∉ body → Skipped ('/' :: '/' :: body)

/-- The texts that the grammar knows. -/
def Matches (t : Text) : Prop := Skipped t ∨ ∃ kind literal, Lexeme t kind literal

/-- `t` is the longest text of the grammar that `source` starts with. -/
structure Longest (t source : Text) : Prop where
  known : Matches t
  front : t <+: source
  longest : ∀ u, Matches u → u <+: source → u.length ≤ t.length

/-- No text of the grammar stands at the start of `source`. -/
def Unmatched (source : Text) : Prop := ∀ t, Matches t → ¬ t <+: source

/-- A character that is refused wherever it stands outside of other matches: it is no quote, and no
text of the grammar starts with it. -/
def StartsNothing (c : Char) : Prop := c ≠ '"' ∧ ∀ t, ¬ Matches (c :: t)

/-! ### Reading -/

/-- The line on which the character after `before` stands, counted from 1. -/
def lineAfter (before : Text) : Nat := 1 + Text.newlines before

/-- The token that marks the end of a source. -/
def closingToken (source : Text) : Token where
  kind := .endOfSource
  lexeme := []
  literal := none
  line := lineAfter source
  span := ⟨Text.byteLength source, Text.byteLength source⟩

/-- A token that stands after `before`. -/
def tokenAfter (before lexeme : Text) (kind : Kind) (literal : Option Literal) : Token where
  kind := kind
  lexeme := lexeme
  literal := literal
  line := lineAfter before
  span := ⟨Text.byteLength before, Text.byteLength (before ++ lexeme)⟩

/-- The leftmost-longest reading of what is left of a source after `before`, with the tokens and the
faults it gives. -/
inductive Reading : Text → Text → List Token → List Fault → Prop where
  | done {before : Text} : Reading before [] [closingToken before] []
  | skip {before t rest : Text} {tokens : List Token} {faults : List Fault} :
      Skipped t → Longest t (t ++ rest) → Reading (before ++ t) rest tokens faults →
      Reading before (t ++ rest) tokens faults
  | token {before t rest : Text} {kind : Kind} {literal : Option Literal} {tokens : List Token}
      {faults : List Fault} :
      Lexeme t kind literal → Longest t (t ++ rest) → Reading (before ++ t) rest tokens faults →
      Reading before (t ++ rest) (tokenAfter before t kind literal :: tokens) faults
  | refused {before rest : Text} {c : Char} {tokens : List Token} {faults : List Fault} :
      c ≠ '"' → Unmatched (c :: rest) → Reading (before ++ [c]) rest tokens faults →
      Reading before (c :: rest) tokens (.unexpectedCharacter (lineAfter before) c :: faults)
  | unclosed {before body : Text} : Unmatched ('"' :: body) →
      Reading before ('"' :: body) [closingToken (before ++ '"' :: body)]
        [.unterminatedString (lineAfter (before ++ '"' :: body))]

/-! ### What can start a match -/

theorem Matches.ne_nil {t : Text} (h : Matches t) : t ≠ [] := by
  rcases h with (_ | _) | ⟨kind, literal, lexeme⟩
  · simp
  · simp
  · cases lexeme with
    | mark m => cases m <;> decide
    | string => simp
    | whole nonempty => exact nonempty
    | decimal => simp
    | keyword k => cases k <;> decide
    | identifier word =>
        obtain ⟨first, rest, rfl, -, -⟩ := word
        simp

theorem matches_letter {c : Char} (h : Letter c) : Matches [c] := by
  refine Or.inr ⟨_, _, .identifier ⟨c, [], rfl, h, by simp⟩ ?_⟩
  intro k same
  -- no keyword has one letter
  have long : 1 < k.spelling.length := by cases k <;> decide
  rw [same] at long
  exact absurd long (lt_irrefl 1)

theorem matches_digit {c : Char} (h : Digit c) : Matches [c] :=
  Or.inr ⟨_, _, .whole (by simp) (by simpa using h)⟩

theorem matches_mark (m : Mark) : Matches m.spelling := Or.inr ⟨_, _, .mark m⟩

/-- The first character of a mark is a mark. -/
theorem Mark.exists_singleton (m : Mark) : ∃ m' : Mark, m'.spelling = m.spelling.take 1 := by
  have listed : ∃ m' ∈ Mark.all, m'.spelling = m.spelling.take 1 := by cases m <;> decide
  obtain ⟨m', -, same⟩ := listed
  exact ⟨m', same⟩

/-- The first character of a match that is no string is a match. -/
theorem matches_singleton {c : Char} {t : Text} (h : Matches (c :: t)) (noQuote : c ≠ '"') :
    Matches [c] := by
  rcases h with skipped | ⟨kind, literal, lexeme⟩
  · cases skipped with
    | blank blank => exact Or.inl (.blank blank)
    | comment => exact matches_mark .slash
  · generalize source : c :: t = u at lexeme
    cases lexeme with
    | mark m =>
        obtain ⟨m', same⟩ := m.exists_singleton
        rw [← source, List.take_succ_cons, List.take_zero] at same
        exact same ▸ matches_mark m'
    | string => exact absurd (List.cons.inj source).1 noQuote
    | whole _ digits => exact matches_digit (digits c (source ▸ List.mem_cons_self))
    | @decimal whole fraction nonempty digits =>
        obtain ⟨d, rest, rfl⟩ := List.exists_cons_of_ne_nil nonempty
        cases source
        exact matches_digit (digits _ List.mem_cons_self)
    | keyword k =>
        obtain ⟨first, rest, same, letter, -⟩ := word_spelling k
        cases source.trans same
        exact matches_letter letter
    | identifier word =>
        obtain ⟨first, rest, same, letter, -⟩ := word
        cases source.trans same
        exact matches_letter letter

/-- A character other than a quote that starts no match at one place starts none anywhere. -/
theorem Unmatched.startsNothing {c : Char} {rest : Text} (h : Unmatched (c :: rest))
    (noQuote : c ≠ '"') : StartsNothing c := by
  refine ⟨noQuote, ?_⟩
  intro t known
  apply h [c] (matches_singleton known noQuote)
  simp

/-- After a quote that starts no match there is no other quote. -/
theorem Unmatched.quote_not_mem {body : Text} (h : Unmatched ('"' :: body)) : '"' ∉ body := by
  intro quote
  obtain ⟨front, back, rfl, first⟩ := List.eq_append_cons_of_mem quote
  exact h _ (Or.inr ⟨_, _, .string first⟩) ⟨back, by simp⟩

theorem Longest.unique {t u source : Text} (ht : Longest t source) (hu : Longest u source) :
    t = u := by
  have le := hu.longest t ht.known ht.front
  have ge := ht.longest u hu.known hu.front
  exact (List.prefix_of_prefix_length_le ht.front hu.front le).eq_of_length_le ge

theorem Longest.not_unmatched {t source : Text} (h : Longest t source) : ¬ Unmatched source := by
  intro unmatched
  exact unmatched t h.known h.front

end LoxTokens
