import LoxTokens.Proofs.Pieces
import LoxTokens.Proofs.Reading

/-!
Where a piece ends.

A piece that is read in front of a text is read in front of another one too, unless that text goes on
with what the piece takes in: a digit after a number, a second slash, and so on. `Piece.grows` looks
at one character of the text, and at two where a point follows a number without a fraction.

* `Piece.first?_append_iff` — a piece is read in front of a text exactly where it is well formed and
  does not grow there.
* `Piece.eq_of_text` — a piece that is well formed is told by its text.
-/

namespace LoxTokens

/-- Whether a mark and the character after it are read as one longer mark or as a comment. -/
def Mark.joins : Mark → Char → Bool
  | .slash, c => c == '/'
  | .bang, c | .equal, c | .greater, c | .less, c => c == '='
  | _, _ => false

/-- Whether a text starts with a point and a digit. -/
def startsFraction : Text → Bool
  | '.' :: c :: _ => c.isDigit
  | _ => false

namespace Piece

/-- Whether a piece that stands in front of a text takes in some of it. -/
def grows : Piece → Text → Bool
  | .comment _, rest => rest.head?.any (· != '\n')
  | .mark m, rest => rest.head?.any m.joins
  | .number _ fraction, rest =>
      rest.head?.any Char.isDigit || (fraction.isEmpty && startsFraction rest)
  | .word _, rest => rest.head?.any continuesWord
  | .openString _, rest => !rest.isEmpty
  | .blank _, _ | .string _, _ | .stray _, _ => false

/-- The pieces that stand in some source. -/
def WellFormed : Piece → Prop
  | .blank c => c ∈ [' ', '\t', '\r', '\n']
  | .comment body => '\n' ∉ body
  | .mark _ => True
  | .string body => '"' ∉ body
  | .number whole fraction => whole ≠ [] ∧ (∀ c ∈ whole, Digit c) ∧ ∀ c ∈ fraction, Digit c
  | .word t => Word t
  | .stray c => StartsNothing c
  | .openString body => '"' ∉ body

end Piece

/-! ### The longest front of a text with characters of one class -/

theorem head?_dropWhile (f : Char → Bool) (t : Text) : (t.dropWhile f).head?.any f = false := by
  have := List.head?_dropWhile_not f t
  cases head : (t.dropWhile f).head? <;> simp_all

theorem takeWhile_append_of_stop {f : Char → Bool} {t rest : Text} (inside : ∀ c ∈ t, f c = true)
    (stop : rest.head?.any f = false) : (t ++ rest).takeWhile f = t := by
  rw [List.takeWhile_append_of_pos inside]
  cases rest with
  | nil => simp
  | cons c rest =>
      have outside : ¬ f c = true := by simpa using stop
      rw [List.takeWhile_cons_of_neg outside, List.append_nil]

theorem dropWhile_append_of_stop {f : Char → Bool} {t rest : Text} (inside : ∀ c ∈ t, f c = true)
    (stop : rest.head?.any f = false) : (t ++ rest).dropWhile f = rest := by
  rw [List.dropWhile_append_of_pos inside]
  cases rest with
  | nil => rfl
  | cons c rest =>
      have outside : ¬ f c = true := by simpa using stop
      rw [List.dropWhile_cons_of_neg outside]

theorem eq_dropWhile_of_append {f : Char → Bool} {t rest : Text}
    (h : t.takeWhile f ++ rest = t) : rest = t.dropWhile f := by
  have whole : t.takeWhile f ++ rest = t.takeWhile f ++ t.dropWhile f := by
    rw [h, List.takeWhile_append_dropWhile]
  exact List.append_cancel_left whole

/-- What follows the longest front does not start with a character of the class. -/
theorem stop_of_takeWhile_append {f : Char → Bool} {t rest : Text}
    (h : t.takeWhile f ++ rest = t) : rest.head?.any f = false := by
  rw [eq_dropWhile_of_append h]
  exact head?_dropWhile f t

namespace Mark

/-- A mark other than a slash is read where the next character does not make it longer. -/
theorem first?_append {m : Mark} {rest : Text} (stays : rest.head?.any m.joins = false) :
    first? (m.spelling ++ rest) = some m := by
  cases rest with
  | nil => rw [List.append_nil, first?_spelling]
  | cons c rest =>
      cases m with
      | bang | equal | greater | less =>
          have different : c ≠ '=' := by simpa [joins] using stays
          simp [first?, spelling, different]
      | _ => rfl

theorem not_joins_of_first? {m : Mark} {rest : Text} (noSlash : m ≠ .slash)
    (h : first? (m.spelling ++ rest) = some m) : rest.head?.any m.joins = false := by
  cases rest with
  | nil => rfl
  | cons c rest =>
      by_contra joined
      cases m with
      | slash => exact noSlash rfl
      | bang | equal | greater | less =>
          have same : c = '=' := by simpa [joins] using joined
          subst same
          simp [first?, spelling] at h
      | _ => simp [joins] at joined

end Mark

namespace Piece

/-! ### What is read is well formed and does not grow -/

/-- Digits with a fraction or without one, as they are read from a text. -/
theorem numeric_cases (t : Text) :
    (∃ rest, t.dropWhile Char.isDigit = '.' :: rest ∧
      numeric t = .number (t.takeWhile Char.isDigit) (rest.takeWhile Char.isDigit)) ∨
    (t.dropWhile Char.isDigit).head? ≠ some '.' ∧
      numeric t = .number (t.takeWhile Char.isDigit) [] := by
  unfold numeric
  split
  · next rest after => exact Or.inl ⟨rest, after, rfl⟩
  · next noPoint =>
      refine Or.inr ⟨?_, rfl⟩
      intro head
      obtain ⟨rest, after⟩ := List.head?_eq_some_iff.mp head
      exact noPoint rest after

theorem not_grows_numeric {t rest : Text} (h : (numeric t).text ++ rest = t) :
    (numeric t).grows rest = false := by
  rcases numeric_cases t with ⟨back, after, same⟩ | ⟨noPoint, same⟩
  · rw [same] at h ⊢
    by_cases none : back.takeWhile Char.isDigit = []
    · -- a point that no digit follows is left for the next piece
      have whole : t.takeWhile Char.isDigit ++ rest = t := by simpa [text, none] using h
      have noDigit : back.head?.any Char.isDigit = false := by
        apply stop_of_takeWhile_append
        rw [none, List.nil_append]
      rw [eq_dropWhile_of_append whole, after]
      cases back <;> simp_all [grows, startsFraction]
    · have whole : t.takeWhile Char.isDigit ++ '.' :: (back.takeWhile Char.isDigit ++ rest) = t := by
        simpa [text, none] using h
      have fraction := (eq_dropWhile_of_append whole).trans after
      simp [grows, none, stop_of_takeWhile_append (List.cons.inj fraction).2]
  · rw [same] at h ⊢
    have whole : t.takeWhile Char.isDigit ++ rest = t := h
    have noFraction : startsFraction rest = false := by
      rw [eq_dropWhile_of_append whole]
      unfold startsFraction
      split
      · next after => exact absurd (by rw [after]; rfl) noPoint
      · rfl
    simp [grows, stop_of_takeWhile_append whole, noFraction]

theorem not_grows_of_first? {p : Piece} {rest : Text} (h : first? (p.text ++ rest) = some p) :
    p.grows rest = false := by
  rcases first?_cases h with ⟨back, start, rfl⟩ | ⟨back, start, rfl⟩ | ⟨c, back, start, -, choice⟩
  · have whole : back.takeWhile (· != '\n') ++ rest = back := by simpa [text] using start
    exact stop_of_takeWhile_append whole
  · rcases quoted_cases back with ⟨body, same, -⟩ | same
    · rw [same]
      rfl
    · rw [same] at start ⊢
      simpa [grows, text] using start
  · rcases choice with ⟨-, rfl⟩ | ⟨-, rfl⟩ | ⟨-, rfl⟩ | ⟨m, found, rfl⟩ | rfl
    · rfl
    · exact not_grows_numeric start
    · exact stop_of_takeWhile_append start
    · by_cases slash : m = .slash
      · subst slash
        cases rest with
        | nil => rfl
        | cons d rest =>
            by_contra second
            have two : d = '/' := by simpa [grows, Mark.joins] using second
            subst two
            exact absurd h (by simp [first?, text, Mark.spelling])
      · exact Mark.not_joins_of_first? slash (start ▸ found)
    · rfl

theorem wellFormed_of_first? {p : Piece} {rest : Text} (h : first? (p.text ++ rest) = some p) :
    p.WellFormed := by
  have inside (f : Char → Bool) (t : Text) : ∀ c ∈ t.takeWhile f, f c = true :=
    fun c member => List.mem_takeWhile_imp member
  rcases first?_cases h with ⟨back, start, rfl⟩ | ⟨back, start, rfl⟩ | ⟨c, back, start, -, choice⟩
  · intro newline
    simpa using inside _ _ _ newline
  · rcases quoted_cases back with ⟨body, same, quote⟩ | same
    · rw [same]
      exact quote
    · rw [start, same] at h
      rw [same]
      exact (unmatched_of_first? h id).quote_not_mem
  · rcases choice with ⟨blank, rfl⟩ | ⟨digit, rfl⟩ | ⟨letter, rfl⟩ | ⟨m, -, rfl⟩ | rfl
    · exact separates_iff.mp blank
    · obtain ⟨fraction, same, fractional⟩ := exists_numeric_eq (c :: back)
      rw [same]
      exact ⟨by simp [digit], fun d hd => isDigit_iff.mp (inside _ _ d hd), fractional⟩
    · refine ⟨c, back.takeWhile continuesWord, by simp [continuesWord, letter],
        startsWord_iff.mp letter, ?_⟩
      intro d member
      exact continuesWord_iff.mp (inside _ _ d member)
    · trivial
    · rcases fault_of_first? h id with ⟨d, rest', same, noQuote, -⟩ | ⟨body, -, same⟩
      · obtain ⟨rfl, rfl⟩ := List.cons.inj same
        exact (unmatched_of_first? h id).startsNothing noQuote
      · cases same

/-! ### What is well formed and does not grow is read -/

theorem first?_comment {body rest : Text} (inLine : '\n' ∉ body)
    (stays : (Piece.comment body).grows rest = false) :
    first? ((Piece.comment body).text ++ rest) = some (.comment body) := by
  have read : first? ('/' :: '/' :: (body ++ rest)) =
      some (.comment ((body ++ rest).takeWhile (· != '\n'))) := rfl
  rw [takeWhile_append_of_stop (bne_of_not_mem inLine) stays] at read
  exact read

theorem first?_mark {m : Mark} {rest : Text} (stays : (Piece.mark m).grows rest = false) :
    first? ((Piece.mark m).text ++ rest) = some (.mark m) := by
  have noComment : ∀ body, m.spelling ++ rest ≠ '/' :: '/' :: body := by
    intro body start
    cases m with
    | slash =>
        have second : rest = '/' :: body := (List.cons.inj start).2
        rw [second] at stays
        simp [grows, Mark.joins] at stays
    | _ => simp [Mark.spelling] at start
  have found := Mark.first?_append stays
  obtain ⟨c, more, start, noQuote, visible, noDigit, noLetter⟩ := m.exists_first
  rw [text]
  rw [start, List.cons_append] at found noComment ⊢
  rw [first?_cons noComment noQuote, found]
  simp [visible, noDigit, noLetter]

theorem first?_string {body : Text} (inside : '"' ∉ body) (rest : Text) :
    first? ((Piece.string body).text ++ rest) = some (.string body) := by
  have read : quoted (body ++ '"' :: rest) = .string body := by
    rw [quoted, takeWhile_append_of_stop (bne_of_not_mem inside) (by simp)]
    simp
  rw [← read]
  simp [first?, read, text]

theorem first?_number {whole fraction rest : Text}
    (formed : (Piece.number whole fraction).WellFormed)
    (stays : (Piece.number whole fraction).grows rest = false) :
    first? ((Piece.number whole fraction).text ++ rest) = some (.number whole fraction) := by
  obtain ⟨nonempty, digits, fractional⟩ := formed
  have start (back : Text) : first? (whole ++ back) = some (numeric (whole ++ back)) := by
    obtain ⟨c, more, rfl⟩ := List.exists_cons_of_ne_nil nonempty
    exact first?_digit (digits c List.mem_cons_self) _
  have before : ∀ c ∈ whole, c.isDigit = true := fun c hc => isDigit_iff.mpr (digits c hc)
  have inside : ∀ c ∈ fraction, c.isDigit = true := fun c hc => isDigit_iff.mpr (fractional c hc)
  rw [grows, Bool.or_eq_false_iff] at stays
  obtain ⟨noDigit, noFraction⟩ := stays
  by_cases none : fraction = []
  · subst none
    have stop : rest.head?.any Char.isDigit = false := noDigit
    show first? (whole ++ rest) = _
    rw [start]
    rcases numeric_cases (whole ++ rest) with ⟨back, after, same⟩ | ⟨-, same⟩
    · rw [dropWhile_append_of_stop before stop] at after
      rw [same, takeWhile_append_of_stop before stop]
      subst after
      cases back <;> simp_all [startsFraction]
    · rw [same, takeWhile_append_of_stop before stop]
  · have written : (Piece.number whole fraction).text ++ rest =
        whole ++ '.' :: (fraction ++ rest) := by simp [text, none]
    rw [written, start, numeric_point digits, takeWhile_append_of_stop inside noDigit]

theorem first?_word {t rest : Text} (word : Word t) (stays : (Piece.word t).grows rest = false) :
    first? ((Piece.word t).text ++ rest) = some (.word t) := by
  obtain ⟨first, more, rfl, letter, inside⟩ := word
  have all : ∀ c ∈ first :: more, continuesWord c = true := by
    intro c member
    rcases List.mem_cons.mp member with rfl | member
    · exact continuesWord_iff.mpr (Or.inl letter)
    · exact continuesWord_iff.mpr (inside c member)
  have read := first?_letter letter (more ++ rest)
  rw [← List.cons_append, takeWhile_append_of_stop all stays] at read
  exact read

theorem first?_stray {c : Char} (hopeless : StartsNothing c) (rest : Text) :
    first? ((Piece.stray c).text ++ rest) = some (.stray c) := by
  have unmatched : Unmatched (c :: rest) := by
    intro t known front
    obtain ⟨d, t, rfl⟩ := List.exists_cons_of_ne_nil known.ne_nil
    obtain ⟨rfl, -⟩ := List.cons_prefix_cons.mp front
    exact hopeless.2 t known
  obtain ⟨p, read⟩ := exists_first? c rest
  rcases fault_of_first? read (not_accepted_of_unmatched unmatched read) with
    ⟨d, rest', start, -, rfl⟩ | ⟨body, start, -⟩
  · rw [(List.cons.inj start).1] at read ⊢
    exact read
  · exact absurd (List.cons.inj start).1 hopeless.1

theorem first?_openString {body rest : Text} (inside : '"' ∉ body)
    (stays : (Piece.openString body).grows rest = false) :
    first? ((Piece.openString body).text ++ rest) = some (.openString body) := by
  have ended : rest = [] := by simpa [grows] using stays
  subst ended
  have whole : body.takeWhile (· != '"') = body := by
    rw [List.takeWhile_eq_self_iff]
    exact bne_of_not_mem inside
  simp [first?, text, quoted, whole]

/-- **A piece is read in front of a text exactly where it is well formed and takes in nothing of that
text.** -/
theorem first?_append_iff {p : Piece} {rest : Text} :
    first? (p.text ++ rest) = some p ↔ p.WellFormed ∧ p.grows rest = false := by
  constructor
  · intro read
    exact ⟨wellFormed_of_first? read, not_grows_of_first? read⟩
  · rintro ⟨formed, stays⟩
    cases p with
    | blank c =>
        have listed : c ∈ [' ', '\t', '\r', '\n'] := formed
        simp only [List.mem_cons, List.not_mem_nil, or_false] at listed
        rcases listed with rfl | rfl | rfl | rfl <;> rfl
    | comment body => exact first?_comment formed stays
    | mark m => exact first?_mark stays
    | string body => exact first?_string formed rest
    | number whole fraction => exact first?_number formed stays
    | word t => exact first?_word formed stays
    | stray c => exact first?_stray formed rest
    | openString body => exact first?_openString formed stays

theorem not_grows_nil (p : Piece) : p.grows [] = false := by
  cases p <;> simp [grows, startsFraction]

theorem wellFormed_iff {p : Piece} : p.WellFormed ↔ first? p.text = some p := by
  have alone : first? (p.text ++ []) = some p ↔ p.WellFormed ∧ p.grows [] = false :=
    first?_append_iff
  rw [List.append_nil, not_grows_nil] at alone
  rw [alone]
  exact (and_iff_left rfl).symm

/-- What is written tells the piece. -/
theorem eq_of_text {p q : Piece} (hp : p.WellFormed) (hq : q.WellFormed) (h : p.text = q.text) :
    p = q := by
  apply Option.some.inj
  rw [← wellFormed_iff.mp hp, h, wellFormed_iff.mp hq]

end Piece

theorem Settled.wellFormed {ps : List Piece} {rest : Text} (settled : Settled ps rest) :
    ∀ p ∈ ps, p.WellFormed := by
  induction ps with
  | nil => simp
  | cons p ps ih =>
      rw [List.forall_mem_cons]
      exact ⟨(Piece.first?_append_iff.mp settled.1).1, ih settled.2⟩

/-! ### Lexemes are pieces -/

def IsLexeme (t : Text) : Prop := ∃ kind literal, Lexeme t kind literal

theorem Lexeme.exists_piece {t : Text} {kind : Kind} {literal : Option Literal}
    (h : Lexeme t kind literal) :
    ∃ p : Piece, p.text = t ∧ p.WellFormed ∧ p.kind? = some kind ∧ p.literal? = literal := by
  obtain ⟨p, read, covers⟩ := Piece.covers_lexeme h []
  rw [List.append_nil] at read
  have front : p.text <+: t := ⟨_, Piece.text_append_of_first? read⟩
  obtain rfl := front.eq_of_length_le covers.length_le
  obtain ⟨kind, literal⟩ := covers.same rfl
  exact ⟨p, rfl, Piece.wellFormed_iff.mpr read, kind, literal⟩

theorem Piece.WellFormed.isLexeme {p : Piece} (formed : p.WellFormed)
    (token : p.kind?.isSome = true) : IsLexeme p.text := by
  have accepted : p.Accepted := by cases p <;> trivial
  rcases known_of_first? (wellFormed_iff.mp formed) accepted with ⟨none, -⟩ | ⟨kind, -, lexical⟩
  · rw [none] at token
    contradiction
  · exact ⟨kind, _, lexical⟩

end LoxTokens
