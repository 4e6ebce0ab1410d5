import LoxTokens.Proofs.PieceEnds

/-!
Scanning a source line by line.

A line end ends every piece before it but a string that is still open. So where no string is open at
a line end, the text before it and the text after it can be scanned apart from each other.

* `Piece.grows_append` — a separating character that ends a piece hides from it all that follows.
* `pieces_append_newline` — the pieces of a text in which no string is left open, the line end, and
  the pieces of what follows.
* `scan_append_newline` — hence the tokens and the faults of both texts, those of the second moved
  behind the first.
-/

namespace LoxTokens

/-! ### Separating characters end pieces -/

theorem separates_cases {c : Char} (h : separates c = true) :
    c = ' ' ∨ c = '\t' ∨ c = '\r' ∨ c = '\n' := by
  simpa using separates_iff.mp h

theorem Mark.not_joins_separator {c : Char} (h : separates c = true) (m : Mark) :
    m.joins c = false := by
  rcases separates_cases h with rfl | rfl | rfl | rfl <;> cases m <;> rfl

namespace Piece

/-- Whether a piece ends where a separating character follows. -/
def EndsAt (c : Char) : Piece → Prop
  | .comment _ => c = '\n'
  | .openString _ => False
  | _ => True

theorem not_grows_separator {p : Piece} {c : Char} (separator : separates c = true)
    (ends : p.EndsAt c) (back : Text) : p.grows (c :: back) = false := by
  have noDigit : c.isDigit = false := by
    rcases separates_cases separator with rfl | rfl | rfl | rfl <;> rfl
  have noWord : continuesWord c = false := by
    rcases separates_cases separator with rfl | rfl | rfl | rfl <;> rfl
  have noFraction : startsFraction (c :: back) = false := by
    rcases separates_cases separator with rfl | rfl | rfl | rfl <;> rfl
  cases p with
  | comment body =>
      have newline : c = '\n' := ends
      simp [grows, newline]
  | mark m => simp [grows, Mark.not_joins_separator separator]
  | number whole fraction => simp [grows, noDigit, noFraction]
  | word t => simp [grows, noWord]
  | openString body => exact ends.elim
  | _ => rfl

/-- What stands behind a separating character that ends a piece does not matter to it. -/
theorem grows_append {p : Piece} {c : Char} (separator : separates c = true) (ends : p.EndsAt c)
    (front back : Text) : p.grows (front ++ c :: back) = p.grows front := by
  cases front with
  | nil =>
      rw [List.nil_append, not_grows_separator separator ends]
      cases p <;> first | rfl | simp [grows, startsFraction]
  | cons d front =>
      cases p with
      | number whole fraction =>
          have same : startsFraction (d :: front ++ c :: back) = startsFraction (d :: front) := by
            cases front with
            | nil =>
                have noDigit : c.isDigit = false := by
                  rcases separates_cases separator with rfl | rfl | rfl | rfl <;> rfl
                by_cases point : d = '.' <;> simp [startsFraction, point, noDigit]
            | cons e front => by_cases point : d = '.' <;> simp [startsFraction, point]
          rw [grows, grows, same]
          rfl
      | _ => rfl

end Piece

theorem Settled.append_separator {ps : List Piece} {c : Char} (separator : separates c = true)
    (ends : ∀ p ∈ ps, p.EndsAt c) (settled : Settled ps []) (back : Text) :
    Settled ps (c :: back) := by
  induction ps with
  | nil => trivial
  | cons p ps ih =>
      obtain ⟨read, settled⟩ := settled
      rw [List.append_nil, Piece.first?_append_iff] at read
      refine ⟨?_, ih (fun q member => ends q (List.mem_cons_of_mem _ member)) settled⟩
      rw [Piece.first?_append_iff, Piece.grows_append separator (ends p List.mem_cons_self)]
      exact read

/-! ### Texts in which no string is left open -/

def LeavesNoString (t : Text) : Prop := ∀ p ∈ pieces t, p.EndsAt '\n'

theorem Segment.fault?_eq_unterminated {s : Segment} :
    (∃ line, s.fault? = some (.unterminatedString line)) ↔ ¬ s.piece.EndsAt '\n' := by
  obtain ⟨p, offset, line⟩ := s
  cases p <;> simp [fault?, Piece.EndsAt]

theorem leavesNoString_iff {t : Text} :
    LeavesNoString t ↔ ∀ line, Fault.unterminatedString line ∉ (scan t).faults := by
  rw [scan_eq]
  constructor
  · intro closed line member
    obtain ⟨s, inside, fault⟩ := List.mem_filterMap.mp member
    have ends := closed s.piece (piece_mem_of_segmentsFrom inside)
    exact Segment.fault?_eq_unterminated.mp ⟨line, fault⟩ ends
  · intro none p member
    by_contra opened
    rw [← map_piece_segmentsFrom 0 1 (pieces t)] at member
    obtain ⟨s, inside, rfl⟩ := List.mem_map.mp member
    obtain ⟨line, fault⟩ := Segment.fault?_eq_unterminated.mpr opened
    exact none line (List.mem_filterMap.mpr ⟨s, inside, fault⟩)

theorem pieces_append_newline {a : Text} (closed : LeavesNoString a) (b : Text) :
    pieces (a ++ '\n' :: b) = pieces a ++ .blank '\n' :: pieces b := by
  have settled := (settled_pieces a).append_separator (by decide) closed b
  have newline : Piece.first? ((Piece.blank '\n').text ++ b) = some (.blank '\n') := rfl
  have parted := pieces_textOf_append settled
  rw [textOf_pieces] at parted
  rw [parted]
  exact congrArg _ (pieces_append newline)

/-- **Lines are scanned one after the other.** Where no string is open before a line end, the tokens
and the faults are those of the text before it, and then those of the text after it, further on by
the bytes and the lines that have been passed. -/
theorem scan_append_newline {a : Text}
    (closed : ∀ line, Fault.unterminatedString line ∉ (scan a).faults) (b : Text) :
    scan (a ++ '\n' :: b) =
      ⟨(scan a).withoutEnd ++
          (scan b).tokens.map (Token.shift (Text.byteLength a + 1) (Text.newlines a + 1)),
        (scan a).faults ++ (scan b).faults.map (Fault.shift (Text.newlines a + 1))⟩ := by
  have parted := pieces_append_newline (leavesNoString_iff.mpr closed) b
  have tokens : tokensFrom 0 1 (pieces (a ++ '\n' :: b)) = tokensFrom 0 1 (pieces a) ++
      tokensFrom (0 + (Text.byteLength a + 1)) (1 + (Text.newlines a + 1)) (pieces b) := by
    rw [parted, tokensFrom_append, tokensFrom_cons, textOf_pieces]
    rfl
  have faults : faultsFrom 0 1 (pieces (a ++ '\n' :: b)) = faultsFrom 0 1 (pieces a) ++
      faultsFrom (0 + (Text.byteLength a + 1)) (1 + (Text.newlines a + 1)) (pieces b) := by
    rw [parted, faultsFrom_append, faultsFrom_cons, textOf_pieces]
    rfl
  have ended : closingToken (a ++ '\n' :: b) =
      (closingToken b).shift (Text.byteLength a + 1) (Text.newlines a + 1) := by
    have bytes : Text.byteLength (a ++ '\n' :: b) =
        Text.byteLength b + (Text.byteLength a + 1) := by
      rw [Text.byteLength_append, Text.byteLength_cons]
      show Text.byteLength a + (1 + Text.byteLength b) = _
      omega
    have lines : lineAfter (a ++ '\n' :: b) = lineAfter b + (Text.newlines a + 1) := by
      have newline : Text.newlines ('\n' :: b) = Text.newlines b + 1 := List.count_cons_self
      rw [lineAfter, Text.newlines_append, newline, lineAfter]
      omega
    rw [closingToken, bytes, lines]
    rfl
  rw [withoutEnd_scan, scan_eq, tokens, faults, tokensFrom_shift, faultsFrom_shift, ended, scan_eq a,
    scan_eq b, List.map_append, List.append_assoc]
  rfl

/-- A comment that holds a quote leaves no string open, and a point at the end of a line belongs to
no number even if the next line starts with a digit. -/
theorem scan_after_point_line :
    let a : Text := "\"s\nt\" @ // \"\n1."
    let b : Text := "5 é\n\"u"
    (∀ line, Fault.unterminatedString line ∉ (scan a).faults) ∧
      scan (a ++ '\n' :: b) =
        ⟨(scan a).withoutEnd ++ (scan b).tokens.map (Token.shift 16 3),
          (scan a).faults ++ (scan b).faults.map (Fault.shift 3)⟩ := by
  intro a b
  have read : pieces a = [.string "s\nt", .blank ' ', .stray '@', .blank ' ', .comment " \"",
      .blank '\n', .number "1" [], .mark .dot] := pieces_eq_of_settled (by decide) (by decide)
  have faults : (scan a).faults = [.unexpectedCharacter 2 '@'] := by
    rw [scan_eq, read]
    decide
  have closed : ∀ line, Fault.unterminatedString line ∉ (scan a).faults := by simp [faults]
  exact ⟨closed, scan_append_newline closed b⟩

end LoxTokens
