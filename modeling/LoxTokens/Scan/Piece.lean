import LoxTokens.Token.Basic
import LoxTokens.Binary64.Nearest

/-!
The pieces that a source falls into.

Every character of a source belongs to exactly one piece: a token, a blank, a comment, a stray
character that can start nothing, or the tail of a string that is never closed. `Piece.first?` reads
the piece at the start of a text and `Piece.text` writes a piece back: `text_append_of_first?` says
that nothing is lost, and `text_ne_nil` that reading always makes progress.
-/

namespace LoxTokens

/-- Whether a character separates tokens and is otherwise ignored. -/
def separates (c : Char) : Bool := c == ' ' || c == '\t' || c == '\r' || c == '\n'

/-- Whether a character can start a word. -/
def startsWord (c : Char) : Bool := c.isAlpha || c == '_'

/-- Whether a character can continue a word. -/
def continuesWord (c : Char) : Bool := startsWord c || c.isDigit

/-- A piece of a source. -/
inductive Piece where
  /-- One separating character. -/
  | blank (c : Char)
  /-- What follows the two slashes of a comment, up to the end of its line. -/
  | comment (body : Text)
  | mark (mark : Mark)
  /-- What stands between two quotes; it may span lines. -/
  | string (body : Text)
  /-- The digits before a point and those after it, if there is one. -/
  | number (whole fraction : Text)
  /-- An identifier or a keyword. -/
  | word (text : Text)
  /-- A character that can start nothing. -/
  | stray (c : Char)
  /-- What follows a quote that is never closed. -/
  | openString (body : Text)
  deriving DecidableEq, Repr

/-- The longest mark that a text starts with. -/
def Mark.first? : Text → Option Mark
  | '(' :: _ => some .leftParen
  | ')' :: _ => some .rightParen
  | '{' :: _ => some .leftBrace
  | '}' :: _ => some .rightBrace
  | ',' :: _ => some .comma
  | '.' :: _ => some .dot
  | '-' :: _ => some .minus
  | '+' :: _ => some .plus
  | ';' :: _ => some .semicolon
  | '/' :: _ => some .slash
  | '*' :: _ => some .star
  | '!' :: '=' :: _ => some .bangEqual
  | '!' :: _ => some .bang
  | '=' :: '=' :: _ => some .equalEqual
  | '=' :: _ => some .equal
  | '>' :: '=' :: _ => some .greaterEqual
  | '>' :: _ => some .greater
  | '<' :: '=' :: _ => some .lessEqual
  | '<' :: _ => some .less
  | _ => none

namespace Piece

/-- The characters of a piece. -/
def text : Piece → Text
  | .blank c => [c]
  | .comment body => '/' :: '/' :: body
  | .mark m => m.spelling
  | .string body => '"' :: body ++ ['"']
  | .number whole fraction => if fraction.isEmpty then whole else whole ++ '.' :: fraction
  | .word text => text
  | .stray c => [c]
  | .openString body => '"' :: body

/-- The string or the unclosed tail that follows a quote. -/
def quoted (rest : Text) : Piece :=
  let body := rest.takeWhile (· != '"')
  if body.length < rest.length then .string body else .openString body

/-- The number at the start of a text: a point belongs to it only where a digit follows. -/
def numeric (source : Text) : Piece :=
  let whole := source.takeWhile Char.isDigit
  match source.dropWhile Char.isDigit with
  | '.' :: rest => .number whole (rest.takeWhile Char.isDigit)
  | _ => .number whole []

/-- The piece at the start of a text; `none` at its end. -/
def first? : Text → Option Piece
  | [] => none
  | '/' :: '/' :: rest => some (.comment (rest.takeWhile (· != '\n')))
  | '"' :: rest => some (quoted rest)
  | c :: rest =>
      if separates c then some (.blank c)
      else if c.isDigit then some (numeric (c :: rest))
      else if startsWord c then some (.word ((c :: rest).takeWhile continuesWord))
      else match Mark.first? (c :: rest) with
        | some m => some (.mark m)
        | none => some (.stray c)

/-- The kind of token that a piece is; `none` for a piece that is no token. -/
def kind? : Piece → Option Kind
  | .mark m => some (.mark m)
  | .string _ => some .string
  | .number .. => some .number
  | .word text => some (((Keyword.ofText? text).map Kind.keyword).getD .identifier)
  | .blank _ | .comment _ | .stray _ | .openString _ => none

/-- The value that a piece denotes. -/
def literal? : Piece → Option Literal
  | .string body => some (.text body)
  | .number whole fraction => some (.number (.ofDecimal whole fraction))
  | _ => none

/-! ### Reading loses nothing and makes progress -/

theorem drop_length_takeWhile (p : Char → Bool) (t : Text) :
    t.drop (t.takeWhile p).length = t.dropWhile p := by
  induction t with
  | nil => rfl
  | cons c t ih => by_cases h : p c <;> simp [h, ih]

theorem takeWhile_append_drop (p : Char → Bool) (t : Text) :
    t.takeWhile p ++ t.drop (t.takeWhile p).length = t := by
  rw [drop_length_takeWhile, List.takeWhile_append_dropWhile]

theorem mark_text_of_first? {source : Text} {m : Mark} (h : Mark.first? source = some m) :
    m.spelling ++ source.drop m.spelling.length = source := by
  unfold Mark.first? at h
  split at h <;> first | contradiction | (cases h; rfl)

theorem text_quoted (rest : Text) :
    (quoted rest).text ++ ('"' :: rest).drop (quoted rest).text.length = '"' :: rest := by
  have split := takeWhile_append_drop (· != '"') rest
  rw [drop_length_takeWhile] at split
  unfold quoted
  generalize body : rest.takeWhile (· != '"') = front at split
  cases after : rest.dropWhile (· != '"') with
  | nil =>
      simp only [after, List.append_nil] at split
      simp [text, split]
  | cons c back =>
      have quote : c = '"' := by
        have := List.head?_dropWhile_not (· != '"') rest
        simpa [after] using this
      rw [after] at split
      subst quote split
      simp [text, List.drop_append]

/-- A front of a text is what stands before the rest of it. -/
theorem append_drop_of_append {front back source : Text} (h : front ++ back = source) :
    front ++ source.drop front.length = source := by
  subst h
  simp

theorem text_numeric (source : Text) :
    (numeric source).text ++ source.drop (numeric source).text.length = source := by
  have split := List.takeWhile_append_dropWhile (p := Char.isDigit) (l := source)
  unfold numeric
  split
  · next rest after =>
      rw [after] at split
      by_cases none : rest.takeWhile Char.isDigit = []
      · exact append_drop_of_append (by simpa [text, none] using split)
      · refine @append_drop_of_append _ (rest.dropWhile Char.isDigit) _ ?_
        simpa [text, none] using split
  · exact append_drop_of_append split

/-- The characters of the first piece are the first characters of the text. -/
theorem text_append_of_first? {source : Text} {p : Piece} (h : first? source = some p) :
    p.text ++ source.drop p.text.length = source := by
  unfold first? at h
  split at h
  · contradiction
  · cases h
    simp [text, takeWhile_append_drop]
  · cases h
    exact text_quoted _
  · split at h
    · cases h; rfl
    split at h
    · cases h; exact text_numeric _
    split at h
    · cases h; exact takeWhile_append_drop ..
    split at h
    · next found => cases h; exact mark_text_of_first? found
    · cases h; rfl

/-- A piece that was read has at least one character. -/
theorem text_ne_nil {source : Text} {p : Piece} (h : first? source = some p) : p.text ≠ [] := by
  unfold first? at h
  split at h
  · contradiction
  · cases h; simp [text]
  · cases h; unfold quoted; dsimp only; split <;> simp [text]
  · split at h
    · cases h; simp [text]
    split at h
    · next digit =>
        cases h
        unfold numeric
        split <;> (simp only [text]; split <;> simp [digit])
    split at h
    · next start => cases h; simp [text, continuesWord, start]
    split at h
    · next m _ => cases h; cases m <;> simp [text, Mark.spelling]
    · cases h; simp [text]

/-- Nothing is read exactly at the end of a text. -/
theorem first?_eq_none_iff {source : Text} : first? source = none ↔ source = [] := by
  constructor
  · intro h
    unfold first? at h
    split at h
    · rfl
    all_goals repeat' split at h
    all_goals contradiction
  · rintro rfl
    rfl

end Piece

end LoxTokens
