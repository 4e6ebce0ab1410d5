import LoxTokens.Proofs.Pieces
import LoxTokens.Scan.Rounds

/-!
The place at which scanning stands.

The registers hold two byte positions, the characters that are left, and a line. `StandsAt` says that
they belong to one place of the source: what was taken of the lexeme stands between the positions, and
what is left behind them. Taking a character keeps them together, whatever its number of bytes.

* `StandsAt.pass` — the place after one more character.
* `StandsAt.lexeme?_eq`, `StandsAt.inner?_eq` — the cuts that can be made at a place.
* `StandsAt.keepsPlace` — what that says about the source and byte positions alone.
-/

namespace LoxTokens

/-! ### Places -/

/-- The registers stand at a place of the source: the lexeme starts behind `front`, of it `seen` was
taken, and `rest` is left. -/
structure StandsAt (source : Text) (r : Registers) (front seen rest : Text) : Prop where
  parted : source = front ++ seen ++ rest
  source : r.source = source
  start : r.start = Text.byteLength front
  current : r.current = Text.byteLength (front ++ seen)
  left : r.left = Text.indexed r.current rest
  startLine : r.startLine = lineAfter front
  line : r.line = lineAfter (front ++ seen)

namespace Registers

/-- Takes a character, and counts it if it ends a line. -/
def pass (r : Registers) (c : Char) : Registers :=
  if c = '\n' then r.advance.countLine else r.advance

theorem countLine_advance (r : Registers) : r.countLine.advance = r.advance.countLine := by
  obtain ⟨source, start, current, left, startLine, line, tokens, faults⟩ := r
  cases left <;> rfl

end Registers

namespace StandsAt

variable {source : Text} {r : Registers} {front seen rest : Text} {c : Char}

theorem ofSource (source : Text) : StandsAt source (.ofSource source) [] [] source :=
  ⟨rfl, rfl, rfl, rfl, rfl, rfl, rfl⟩

section

variable (h : StandsAt source r front seen rest)

include h

theorem peek?_eq : r.peek? = rest.head? := by
  rw [Registers.peek?, h.left]
  cases rest <;> rfl

theorem peekNext?_eq : r.peekNext? = rest.tail.head? := by
  rw [Registers.peekNext?, h.left]
  rcases rest with _ | ⟨c, _ | ⟨d, rest⟩⟩ <;> rfl

/-- What was taken and what is left have together as many bytes as the source. -/
theorem current_add : r.current + Text.byteLength rest = Text.byteLength source := by
  rw [h.current, h.parted, ← Text.byteLength_append]

/-- The source is used up where no character is left. -/
theorem atEnd_iff : r.atEnd = true ↔ rest = [] := by
  have whole := h.current_add
  rw [Registers.atEnd, decide_eq_true_iff, h.source]
  constructor
  · intro used
    by_contra more
    have := Text.byteLength_pos more
    omega
  · rintro rfl
    exact whole.ge

/-- The lexeme is cut out of the source. -/
theorem lexeme?_eq : r.lexeme? = some seen := by
  rw [Registers.lexeme?, h.source, h.start, h.current, h.parted, Text.slice?_append]

/-- A new lexeme starts where the last one has ended. -/
theorem begin : StandsAt source r.begin (front ++ seen) [] rest where
  parted := by rw [List.append_nil, h.parted]
  source := h.source
  start := h.current
  current := by rw [List.append_nil]; exact h.current
  left := h.left
  startLine := h.line
  line := by rw [List.append_nil]; exact h.line

theorem withTokens (tokens : List Token) :
    StandsAt source { r with tokens } front seen rest := ⟨h.1, h.2, h.3, h.4, h.5, h.6, h.7⟩

theorem report (f : Fault) : StandsAt source (r.report f) front seen rest :=
  ⟨h.1, h.2, h.3, h.4, h.5, h.6, h.7⟩

/-- The lexeme becomes a token. -/
theorem push?_eq (kind : Kind) (literal : Option Literal) : r.push? kind literal =
    some ⟨.main, { r with tokens := r.tokens ++ [tokenAfter front seen kind literal] }⟩ := by
  rw [Registers.push?, h.lexeme?_eq, h.startLine, h.start, h.current]
  rfl

end

/-- A string is cut out between its two quotes: each of them has one byte. -/
theorem inner?_eq {body : Text} (h : StandsAt source r front ('"' :: body ++ ['"']) rest) :
    r.inner? = some body := by
  have stop : r.current = Text.byteLength (front ++ ['"'] ++ body) + 1 := by
    rw [h.current]
    simp [Nat.add_assoc]
    decide
  have start : r.start + 1 = Text.byteLength (front ++ ['"']) := by
    rw [h.start, Text.byteLength_append]
    rfl
  have whole : source = front ++ ['"'] ++ body ++ ('"' :: rest) := by
    rw [h.parted]
    simp
  rw [Registers.inner?, stop]
  show Text.slice? r.source (r.start + 1) _ = _
  rw [start, h.source, whole, Text.slice?_append]

/-- A character is passed. -/
theorem pass (h : StandsAt source r front seen (c :: rest)) :
    StandsAt source (r.pass c) front (seen ++ [c]) rest := by
  have taken : r.advance = { r with current := r.current + c.utf8Size,
                                    left := Text.indexed (r.current + c.utf8Size) rest } := by
    rw [Registers.advance, h.left]
    rfl
  have parted : source = front ++ (seen ++ [c]) ++ rest := by
    rw [h.parted]
    simp
  have bytes : r.current + c.utf8Size = Text.byteLength (front ++ (seen ++ [c])) := by
    rw [h.current]
    simp [Nat.add_assoc]
  have lines : r.line + Text.newlines [c] = lineAfter (front ++ (seen ++ [c])) := by
    rw [h.line, ← lineAfter_append, List.append_assoc]
  rw [Registers.pass, taken]
  split
  · next newline =>
      subst newline
      exact ⟨parted, h.source, h.start, bytes, rfl, h.startLine, lines⟩
  · next noNewline =>
      have none : Text.newlines [c] = 0 := by simp [Text.newlines, noNewline]
      rw [none] at lines
      exact ⟨parted, h.source, h.start, bytes, rfl, h.startLine, lines⟩

end StandsAt

/-! ### What a place says about positions -/

/-- The registers agree on one place of the source. -/
structure KeepsPlace (source : Text) (r : Registers) : Prop where
  same : r.source = source
  ordered : r.start ≤ r.current
  within : r.current ≤ Text.byteLength source
  start : Text.IsBoundary source r.start
  current : Text.IsBoundary source r.current
  /-- The characters that are left are those from the position on, each with its byte, and the line is
  counted from the line ends before the position. -/
  parted : ∃ taken rest, Text.takeBytes? r.current source = some taken ∧
    Text.dropBytes? r.current source = some rest ∧ r.left = Text.indexed r.current rest ∧
      r.line = 1 + Text.newlines taken

/-- Where the lexeme starts is a boundary too, and it is not behind the position. -/
theorem StandsAt.keepsPlace {source : Text} {r : Registers} {front seen rest : Text}
    (place : StandsAt source r front seen rest) : KeepsPlace source r where
  same := place.source
  ordered := by rw [place.start, place.current, Text.byteLength_append]; omega
  within := by rw [← place.current_add]; omega
  start := ⟨front, seen ++ rest, by rw [place.parted, List.append_assoc], place.start.symm⟩
  current := ⟨front ++ seen, rest, place.parted, place.current.symm⟩
  parted := by
    refine ⟨front ++ seen, rest, ?_, ?_, place.left, place.line⟩
    · rw [place.current, place.parted, Text.takeBytes?_append]
    · rw [place.current, place.parted, Text.dropBytes?_append]

end LoxTokens
