import LoxTokens.Proofs.LongestMatch

/-!
Scanning a source is reading it by the lexical grammar, at every place the longest match.

A cursor counts bytes and lines as it moves; a reading looks back at the text it has passed. Both
are at the same place after the same text (`Cursor.after`), one piece of the course is one step of
the reading (`Cursor.tokens_after`, `Cursor.faults_after`), and so the two agree on whole sources.
-/

namespace LoxTokens

namespace Cursor

/-- The place after a text that has been passed. -/
def after (before rest : Text) : Cursor := ⟨Text.byteLength before, lineAfter before, rest⟩

theorem past_after (before t rest : Text) :
    (after before (t ++ rest)).past t = after (before ++ t) rest := by
  rw [past_of_append _ rfl]
  simp [after, lineAfter, Nat.add_assoc]

theorem course_nil (before : Text) : (after before []).course = ⟨[], after before []⟩ :=
  course_of_nil rfl

theorem endToken_after (before : Text) : (after before []).endToken = closingToken before := rfl

section Step

variable {before rest : Text} {p : Piece}

/-- One piece of a course: its token, and then the tokens after it. -/
theorem tokens_after (h : Piece.first? (p.text ++ rest) = some p) :
    (after before (p.text ++ rest)).course.tokens =
      (p.kind?.map fun kind => tokenAfter before p.text kind p.literal?).toList ++
        (after (before ++ p.text) rest).course.tokens := by
  have here : Piece.first? (after before (p.text ++ rest)).rest = some p := h
  rw [course_of_first? here, past_after]
  cases kind : p.kind? <;>
    simp [Course.tokens, Segment.token?, Segment.span, tokenAfter, after, kind]

/-- One piece of a course: its fault, and then the faults after it. -/
theorem faults_after (h : Piece.first? (p.text ++ rest) = some p) :
    (after before (p.text ++ rest)).course.faults =
      (Segment.fault? ⟨p, Text.byteLength before, lineAfter before⟩).toList ++
        (after (before ++ p.text) rest).course.faults := by
  have here : Piece.first? (after before (p.text ++ rest)).rest = some p := h
  rw [course_of_first? here, past_after]
  cases fault : (Segment.fault? ⟨p, Text.byteLength before, lineAfter before⟩) <;>
    simp [Course.faults, after, fault]

/-- At a quote that is never closed the course ends, at the end of the source. -/
theorem course_unclosed {body : Text}
    (h : Piece.first? ('"' :: body) = some (.openString body)) :
    (after before ('"' :: body)).course.tokens = [closingToken (before ++ '"' :: body)] ∧
      (after before ('"' :: body)).course.faults =
        [.unterminatedString (lineAfter (before ++ '"' :: body))] := by
  have whole : '"' :: body = (Piece.openString body).text ++ [] := by simp [Piece.text]
  have read : Piece.first? ((Piece.openString body).text ++ []) = some (.openString body) := by
    rw [← whole, h]
  rw [whole, tokens_after read, faults_after read, course_nil]
  refine ⟨by simp [Course.tokens, endToken_after, Piece.kind?], ?_⟩
  simp [Course.faults, Segment.fault?, Piece.text, lineAfter, Nat.add_assoc]

end Step

end Cursor

theorem Segment.fault?_of_accepted {s : Segment} (h : s.piece.Accepted) : s.fault? = none := by
  unfold Segment.fault?
  split
  · next stray => rw [stray] at h; exact h.elim
  · next opened => rw [opened] at h; exact h.elim
  · rfl

/-- Something is read at the start of every text but the empty one. -/
theorem Piece.exists_first? (c : Char) (rest : Text) : ∃ p, first? (c :: rest) = some p := by
  apply Option.ne_none_iff_exists'.mp
  intro none
  exact List.cons_ne_nil _ _ (first?_eq_none_iff.mp none)

namespace Reading

open Piece

/-- The course from a place on is a reading of what is left. -/
theorem of_course (before rest : Text) :
    Reading before rest (Cursor.after before rest).course.tokens
      (Cursor.after before rest).course.faults := by
  -- A piece is never empty, so what is left after it is shorter.
  induction length : rest.length using Nat.strong_induction_on generalizing before rest with
  | _ n ih =>
      cases read : first? rest with
      | none =>
          rw [first?_eq_none_iff.mp read, Cursor.course_nil]
          exact .done
      | some p =>
          obtain ⟨back, rfl⟩ : ∃ back, p.text ++ back = rest := ⟨_, text_append_of_first? read⟩
          have shorter : back.length < n := by
            have := List.length_pos_iff.mpr (text_ne_nil read)
            rw [← length, List.length_append]
            omega
          have next := ih _ shorter (before ++ p.text) back rfl
          rw [Cursor.tokens_after read, Cursor.faults_after read]
          by_cases accepted : p.Accepted
          · have longest := longest_of_first? read accepted
            rw [Segment.fault?_of_accepted accepted]
            rcases known_of_first? read accepted with ⟨kind, skipped⟩ | ⟨kind, same, lexeme⟩
            · rw [kind]
              exact .skip skipped longest next
            · rw [same]
              exact .token lexeme longest next
          · have unmatched := unmatched_of_first? read accepted
            rcases fault_of_first? read accepted with
              ⟨c, rest, same, noQuote, rfl⟩ | ⟨body, same, rfl⟩
            · exact .refused noQuote unmatched next
            · -- nothing follows an unclosed string, so the course after it is not needed
              have ended := @Cursor.course_unclosed before body (same ▸ read)
              rw [← Cursor.tokens_after read, ← Cursor.faults_after read, same, ended.1, ended.2]
              exact .unclosed (same ▸ unmatched)

/-- A reading gives the tokens and the faults of the course. -/
theorem course_eq {before rest : Text} {tokens : List Token} {faults : List Fault}
    (h : Reading before rest tokens faults) :
    (Cursor.after before rest).course.tokens = tokens ∧
      (Cursor.after before rest).course.faults = faults := by
  induction h with
  | done =>
      rw [Cursor.course_nil]
      exact ⟨rfl, rfl⟩
  | @skip before t rest tokens faults skipped longest _ ih =>
      obtain ⟨p, read, covers⟩ := covers_skipped skipped rest
      obtain rfl := text_of_longest longest read
      obtain ⟨kind, -⟩ := covers.same rfl
      rw [Cursor.tokens_after read, Cursor.faults_after read, ih.1, ih.2, kind,
        Segment.fault?_of_accepted covers.accepted]
      exact ⟨rfl, rfl⟩
  | @token before t rest kind literal tokens faults lexeme longest _ ih =>
      obtain ⟨p, read, covers⟩ := covers_lexeme lexeme rest
      obtain rfl := text_of_longest longest read
      obtain ⟨kind, literal⟩ := covers.same rfl
      rw [Cursor.tokens_after read, Cursor.faults_after read, ih.1, ih.2, kind, literal,
        Segment.fault?_of_accepted covers.accepted]
      exact ⟨rfl, rfl⟩
  | @refused before rest c tokens faults noQuote unmatched _ ih =>
      obtain ⟨p, read⟩ := exists_first? c rest
      rcases fault_of_first? read (not_accepted_of_unmatched unmatched read) with
        ⟨d, more, same, -, rfl⟩ | ⟨body, same, -⟩
      · obtain ⟨rfl, rfl⟩ := List.cons.inj same
        have here : first? ((Piece.stray c).text ++ rest) = some (.stray c) := read
        change (Cursor.after before ((Piece.stray c).text ++ rest)).course.tokens = _ ∧
          (Cursor.after before ((Piece.stray c).text ++ rest)).course.faults = _
        rw [Cursor.tokens_after here, Cursor.faults_after here]
        exact ⟨ih.1, congrArg _ ih.2⟩
      · exact absurd (List.cons.inj same).1 noQuote
  | @unclosed before body unmatched =>
      obtain ⟨p, read⟩ := exists_first? '"' body
      rcases fault_of_first? read (not_accepted_of_unmatched unmatched read) with
        ⟨d, more, same, noQuote, -⟩ | ⟨body', same, rfl⟩
      · exact absurd (List.cons.inj same).1.symm noQuote
      · obtain rfl := (List.cons.inj same).2
        exact Cursor.course_unclosed read

theorem of_scan (source : Text) : Reading [] source (scan source).tokens (scan source).faults :=
  of_course [] source

end Reading

/-- **Scanning is the leftmost-longest reading by the grammar.** Some tokens and faults are those of
a source exactly where they are what its reading gives: so every source has a reading, it has only
one, and scanning finds it. -/
theorem reading_iff_scan {source : Text} {tokens : List Token} {faults : List Fault} :
    Reading [] source tokens faults ↔ scan source = ⟨tokens, faults⟩ := by
  constructor
  · intro reading
    obtain ⟨sameTokens, sameFaults⟩ := reading.course_eq
    rw [← sameTokens, ← sameFaults]
    rfl
  · intro scanned
    have reading := Reading.of_scan source
    rwa [scanned] at reading

end LoxTokens
