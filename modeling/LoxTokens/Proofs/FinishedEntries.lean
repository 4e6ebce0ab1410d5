import LoxTokens.Proofs.CommandLines

/-!
How an entry that goes on can be finished.

One more line always brings an entry to a place from where it is read afresh: a line end ends the
piece before it, or else a string is open, and a quote closes it (`Entry.closeString`). From there
on each closing bracket counts, and nothing else of the entry changes with it.

* `Entry.closeString_spec` — behind that line no string is open, and what follows is read apart.
* `Entry.needsMore_until_closed` — the entry goes on as long as closing brackets are missing, and
  ends with the last of them.
-/

namespace LoxTokens

/-! ### Texts that are read apart from what follows them -/

/-- What stands behind a text does not change the pieces of it. -/
def ReadApart (t : Text) : Prop := ∀ rest, pieces (t ++ rest) = pieces t ++ pieces rest

theorem pieces_newline_quote {body : Text} (inside : '"' ∉ body) (rest : Text) :
    pieces ((Piece.openString body).text ++ '\n' :: '"' :: rest) =
      .string (body ++ ['\n']) :: pieces rest := by
  have closed : '"' ∉ body ++ ['\n'] := by simp [inside]
  have read := pieces_append (Piece.first?_string closed rest)
  simpa [Piece.text] using read

/-- Where a string is left open, a line end belongs to it and a quote closes it. -/
theorem exists_pieces_newline_quote {t : Text} (opened : ¬ LeavesNoString t) :
    ∃ ps, (∀ p ∈ ps, p.EndsAt '\n') ∧
      ∀ rest, pieces (t ++ '\n' :: '"' :: rest) = ps ++ pieces rest := by
  induction t using Piece.text_induction with
  | nil => exact absurd (by simp [LeavesNoString]) opened
  | append p rest read ih =>
      obtain ⟨formed, stays⟩ := Piece.first?_append_iff.mp read
      by_cases ends : p.EndsAt '\n'
      · have opened' : ¬ LeavesNoString rest := by
          intro closed
          rw [LeavesNoString, pieces_append read, List.forall_mem_cons] at opened
          exact opened ⟨ends, closed⟩
        obtain ⟨ps, ended, parted⟩ := ih opened'
        refine ⟨p :: ps, List.forall_mem_cons.mpr ⟨ends, ended⟩, fun back => ?_⟩
        have read' : Piece.first? (p.text ++ (rest ++ '\n' :: '"' :: back)) = some p := by
          rw [Piece.first?_append_iff, Piece.grows_append (by decide) ends]
          exact ⟨formed, stays⟩
        rw [List.append_assoc, pieces_append read', parted, List.cons_append]
      · -- only a string that is left open does not end there, and nothing follows it
        cases p with
        | openString body =>
            obtain rfl : rest = [] := by simpa [Piece.grows] using stays
            refine ⟨[.string (body ++ ['\n'])], by simp [Piece.EndsAt], fun back => ?_⟩
            rw [List.append_nil]
            exact pieces_newline_quote formed back
        | _ => simp [Piece.EndsAt] at ends

/-! ### Counting brackets -/

theorem Token.nesting_eq (t : Token) :
    t.nesting = (if t.opens then 1 else 0) - (if t.closes then 1 else 0) := by
  obtain ⟨kind, lexeme, literal, line, span⟩ := t
  cases kind with
  | mark m => cases m <;> rfl
  | _ => rfl

namespace Entry

/-- Opening brackets of tokens less the closing ones; 0 where these are more. -/
def missing (tokens : List Token) : Nat := tokens.countP Token.opens - tokens.countP Token.closes

theorem depth_eq_countP (tokens : List Token) :
    depth tokens = tokens.countP Token.opens - tokens.countP Token.closes := by
  induction tokens using List.reverseRecOn with
  | nil => rfl
  | append_singleton tokens t ih =>
      rw [depth_concat, ih, Token.nesting_eq, List.countP_append, List.countP_append,
        List.countP_singleton, List.countP_singleton]
      cases t.opens <;> cases t.closes <;> simp <;> omega

theorem needsMore_iff_missing {t : Text} :
    needsMore t = true ↔ Command.parse? t = none ∧
      (StringOpen t ∨ 0 < missing (scan t).tokens) := by
  have count : 0 < depth (scan t).tokens ↔ 0 < missing (scan t).tokens := by
    rw [depth_eq_countP, missing]
    omega
  rw [needsMore_iff, count]

theorem not_stringOpen_iff {t : Text} : ¬ StringOpen t ↔ LeavesNoString t := by
  rw [leavesNoString_iff, StringOpen, not_exists]

/-- Only the pieces of a text matter to the brackets that are missing in it. -/
theorem missing_scan {t : Text} {ps : List Piece} (read : pieces t = ps) :
    missing (scan t).tokens = missing (tokensFrom 0 1 ps) := by
  rw [scan_eq, read, missing, List.countP_append, List.countP_append]
  rfl

/-- Texts of closing brackets. -/
def Closers (t : Text) : Prop := ∀ c ∈ t, c = ')' ∨ c = '\x7d'

theorem pieces_closers {closers : Text} (closing : Closers closers) :
    LeavesNoString closers ∧ ∀ offset line,
      (tokensFrom offset line (pieces closers)).countP Token.opens = 0 ∧
        (tokensFrom offset line (pieces closers)).countP Token.closes = closers.length := by
  induction closers with
  | nil => simp [LeavesNoString, tokensFrom, segmentsFrom]
  | cons c closers ih =>
      rw [Closers, List.forall_mem_cons] at closing
      obtain ⟨closed, counts⟩ := ih closing.2
      obtain ⟨m, written, lowers⟩ : ∃ m : Mark, (Piece.mark m).text = [c] ∧
          (m = .rightParen ∨ m = .rightBrace) := by
        rcases closing.1 with rfl | rfl
        · exact ⟨.rightParen, rfl, .inl rfl⟩
        · exact ⟨.rightBrace, rfl, .inr rfl⟩
      have stays : (Piece.mark m).grows closers = false := by
        rcases lowers with rfl | rfl <;> cases closers <;> rfl
      have read := LoxTokens.pieces_append (Piece.first?_mark stays)
      rw [written, List.singleton_append] at read
      rw [LeavesNoString, read, List.forall_mem_cons]
      refine ⟨⟨trivial, closed⟩, fun offset line => ?_⟩
      rw [tokensFrom_cons, List.countP_append, List.countP_append, (counts ..).1, (counts ..).2]
      rcases lowers with rfl | rfl <;> exact ⟨rfl, Nat.add_comm ..⟩

section

variable {t : Text} (apart : ReadApart t) (closed : LeavesNoString t) {closers : Text}
  (closing : Closers closers)

include apart closed closing

/-- Closing brackets behind a text that is read apart are missing no more. -/
theorem scan_append_closers : ¬ StringOpen (t ++ closers) ∧
    missing (scan (t ++ closers)).tokens = missing (scan t).tokens - closers.length := by
  obtain ⟨closed', counts⟩ := pieces_closers closing
  have read := apart closers
  constructor
  · rw [not_stringOpen_iff, LeavesNoString, read, List.forall_mem_append]
    exact ⟨closed, closed'⟩
  · rw [missing_scan read, missing_scan rfl, tokensFrom_append, missing, missing,
      List.countP_append, List.countP_append, (counts ..).1, (counts ..).2]
    omega

theorem needsMore_append_closers (plain : Command.parse? (t ++ closers) = none) :
    needsMore (t ++ closers) = true ↔ closers.length < missing (scan t).tokens := by
  obtain ⟨noString, left⟩ := scan_append_closers apart closed closing
  rw [needsMore_iff_missing, left]
  constructor
  · rintro ⟨-, opened | positive⟩
    · exact absurd opened noString
    · omega
  · intro fewer
    exact ⟨plain, .inr (by omega)⟩

end

/-! ### One more line -/

/-- A text with one more line, which closes the string that is open, if one is. -/
def closeString (t : Text) : Text :=
  t ++ '\n' :: (if (scan t).faults.any Fault.leavesStringOpen then ['"'] else [])

theorem closeString_spec (t : Text) :
    LeavesNoString (closeString t) ∧ ReadApart (closeString t) := by
  obtain ⟨ps, ended, parted⟩ : ∃ ps, (∀ p ∈ ps, p.EndsAt '\n') ∧
      ∀ rest, pieces (closeString t ++ rest) = ps ++ pieces rest := by
    by_cases closed : LeavesNoString t
    · have ends : closeString t = t ++ ['\n'] := by
        rw [closeString, if_neg]
        rw [any_leavesStringOpen_iff]
        exact not_stringOpen_iff.mpr closed
      refine ⟨pieces t ++ [.blank '\n'], ?_, fun rest => ?_⟩
      · rw [List.forall_mem_append, List.forall_mem_singleton]
        exact ⟨closed, trivial⟩
      · rw [ends, List.append_assoc, List.singleton_append, pieces_append_newline closed,
          List.append_assoc, List.singleton_append]
    · have ends : closeString t = t ++ ['\n', '"'] := by
        rw [closeString, if_pos]
        rw [any_leavesStringOpen_iff]
        exact not_not.mp (mt not_stringOpen_iff.mp closed)
      obtain ⟨ps, ended, parted⟩ := exists_pieces_newline_quote closed
      refine ⟨ps, ended, fun rest => ?_⟩
      rw [ends, List.append_assoc]
      exact parted rest
  have alone : pieces (closeString t) = ps := by
    simpa using parted []
  rw [LeavesNoString, ReadApart, alone]
  exact ⟨ended, parted⟩

/-- **An entry that goes on can be finished.** A line end, with a quote behind it where a string is
open, leaves no string open. From there on the entry goes on as long as closing brackets are
missing, as many as its opening ones outnumber them, and it ends with the last of these. -/
theorem needsMore_until_closed {t : Text} (more : needsMore t = true) :
    ¬ StringOpen (closeString t) ∧ ∀ n,
      (needsMore (closeString t ++ List.replicate n ')') = true ↔
        n < missing (scan (closeString t)).tokens) := by
  obtain ⟨closed, apart⟩ := closeString_spec t
  refine ⟨not_stringOpen_iff.mpr closed, fun n => ?_⟩
  have closing : Closers (List.replicate n ')') :=
    fun c member => .inl (List.eq_of_mem_replicate member)
  have plain : Command.parse? (closeString t ++ List.replicate n ')') = none := by
    have line (rest : Text) : Command.parse? (t ++ ['\n'] ++ rest) = none :=
      parse?_append_lineEnd more (by simp [lineEnds]) rest
    simpa [closeString] using line _
  rw [needsMore_append_closers apart closed closing plain, List.length_replicate]

/-- A bracket and a string are open, and brackets stand in the string: behind the quote that closes
it one bracket is missing. -/
theorem bracket_before_open_string :
    needsMore "\x7b \")(" = true ∧ ¬ StringOpen (closeString "\x7b \")(") ∧ ∀ n,
      (needsMore (closeString "\x7b \")(" ++ List.replicate n ')') = true ↔ n < 1) := by
  have more : needsMore "\x7b \")(" = true := by decide +kernel
  have one : missing (scan (closeString "\x7b \")(")).tokens = 1 := by decide +kernel
  have finished := needsMore_until_closed more
  rw [one] at finished
  exact ⟨more, finished⟩

end Entry

end LoxTokens
