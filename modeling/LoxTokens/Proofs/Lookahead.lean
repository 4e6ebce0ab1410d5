import LoxTokens.Proofs.PieceEnds

/-!
How far scanning looks ahead.

A piece is told by the character after it, or by two where a point follows a number. So a text that
goes on can change the last of its pieces, or the last two where a number and a point end it, and no
others.

* `Piece.first?_append_append` — a piece that is read in front of a text is read there too when the
  text goes on, unless the text is empty, or a point behind a number.
* `scan_lookahead` — hence the tokens that end two bytes or more before the end of a text are the
  first tokens of every text that goes on from it, and so with the characters that are refused.
-/

namespace LoxTokens

/-! ### Pieces of a text that goes on -/

namespace Piece

/-- What a piece takes in of a longer text only was not there before, but for a point that waits for
its digit. -/
theorem rest_of_grows {p : Piece} {rest more : Text} (stays : p.grows rest = false)
    (grows : p.grows (rest ++ more) = true) : rest = [] ∨ rest = ['.'] := by
  cases rest with
  | nil => exact Or.inl rfl
  | cons c rest =>
      cases p with
      | number whole fraction =>
          rw [Piece.grows, Bool.or_eq_false_iff] at stays
          obtain ⟨noDigit, noFraction⟩ := stays
          have digit : (c :: rest ++ more).head?.any Char.isDigit = false := noDigit
          rw [Piece.grows, digit, Bool.false_or, Bool.and_eq_true] at grows
          rw [grows.1, Bool.true_and] at noFraction
          cases rest with
          | nil =>
              by_cases point : c = '.'
              · exact Or.inr (by rw [point])
              · simp [startsFraction, point] at grows
          | cons d rest =>
              by_cases point : c = '.'
              · simp_all [startsFraction]
              · simp [startsFraction, point] at grows
      | openString body => contradiction
      | comment | mark | word => exact absurd (stays.symm.trans grows) (by decide)
      | blank | string | stray => contradiction

/-- A piece that is read in front of a text is read there when the text goes on, or the piece is no
refused character and at most a point follows it. -/
theorem first?_append_append {p : Piece} {rest : Text} (read : first? (p.text ++ rest) = some p)
    (more : Text) : first? (p.text ++ (rest ++ more)) = some p ∨
      (rest = [] ∨ rest = ['.']) ∧ ∀ c, p ≠ .stray c := by
  obtain ⟨formed, stays⟩ := first?_append_iff.mp read
  cases grows : p.grows (rest ++ more) with
  | false => exact Or.inl (first?_append_iff.mpr ⟨formed, grows⟩)
  | true =>
      refine Or.inr ⟨rest_of_grows stays grows, ?_⟩
      rintro c rfl
      contradiction

end Piece

/-- The digits of a number that ends one byte before the end of a text can go on. -/
example : pieces "1." = [.number "1" [], .mark .dot] ∧ pieces "1.5" = [.number "1" "5"] :=
  ⟨pieces_eq_of_settled rfl (by decide), pieces_eq_of_settled rfl (by decide)⟩

/-! ### Tokens and faults of a text that goes on -/

theorem Segment.stop_of_token? {s : Segment} {t : Token} (h : s.token? = some t) :
    t.span.stop = s.offset + Text.byteLength s.piece.text := by
  obtain ⟨kind, -, rfl⟩ := Option.map_eq_some_iff.mp h
  rfl

/-- No token of some pieces ends before the first of them does. -/
theorem le_stop_of_tokensFrom {offset line : Nat} {p : Piece} {ps : List Piece} :
    ∀ t ∈ tokensFrom offset line (p :: ps), offset + Text.byteLength p.text ≤ t.span.stop := by
  induction ps generalizing offset line p with
  | nil =>
      intro t member
      rw [tokensFrom_cons, tokensFrom, segmentsFrom, List.filterMap_nil, List.append_nil] at member
      exact (Segment.stop_of_token? (Option.mem_toList.mp member)).ge
  | cons q ps ih =>
      intro t member
      rw [tokensFrom_cons] at member
      rcases List.mem_append.mp member with here | later
      · exact (Segment.stop_of_token? (Option.mem_toList.mp here)).ge
      · exact (Nat.le_add_right ..).trans (ih t later)

/-- The tokens of a text that end two bytes or more before its end come first where the text goes
on. -/
theorem tokensFrom_lookahead (offset line : Nat) (a b : Text) :
    (tokensFrom offset line (pieces a)).filter
        (fun t => t.span.stop + 2 ≤ offset + Text.byteLength a) <+:
      tokensFrom offset line (pieces (a ++ b)) := by
  induction a using Piece.text_induction generalizing offset line with
  | nil => simp [tokensFrom, segmentsFrom]
  | append p rest read ih =>
      by_cases far : 2 ≤ Text.byteLength rest
      · -- two bytes are more than a point, so what follows in the text itself tells the piece
        have again : Piece.first? (p.text ++ (rest ++ b)) = some p := by
          rcases Piece.first?_append_append read b with again | ⟨rfl | rfl, -⟩
          · exact again
          · simp at far
          · exact absurd far (by decide)
        have kept : (Segment.token? ⟨p, offset, line⟩).toList.filter
            (fun t => t.span.stop + 2 ≤ offset + Text.byteLength (p.text ++ rest)) =
              (Segment.token? ⟨p, offset, line⟩).toList := by
          rw [List.filter_eq_self]
          intro t member
          have stop : t.span.stop = offset + Text.byteLength p.text :=
            Segment.stop_of_token? (Option.mem_toList.mp member)
          rw [Text.byteLength_append, decide_eq_true_eq, stop]
          omega
        rw [List.append_assoc, pieces_append read, pieces_append again, tokensFrom_cons,
          tokensFrom_cons, List.filter_append, kept, List.prefix_append_right_inj,
          Text.byteLength_append, ← Nat.add_assoc]
        exact ih ..
      · have none : (tokensFrom offset line (pieces (p.text ++ rest))).filter
            (fun t => t.span.stop + 2 ≤ offset + Text.byteLength (p.text ++ rest)) = [] := by
          rw [List.filter_eq_nil_iff, pieces_append read]
          intro t member
          have passed := le_stop_of_tokensFrom t member
          rw [Text.byteLength_append, decide_eq_true_eq]
          omega
        rw [none]
        exact List.nil_prefix

/-- The characters that are refused in a text are the first faults where the text goes on. -/
theorem faultsFrom_lookahead (offset line : Nat) (a b : Text) :
    (faultsFrom offset line (pieces a)).filter (fun f => !f.leavesStringOpen) <+:
      faultsFrom offset line (pieces (a ++ b)) := by
  induction a using Piece.text_induction generalizing offset line with
  | nil => simp [faultsFrom, segmentsFrom]
  | append p rest read ih =>
      rw [pieces_append read, faultsFrom_cons, List.filter_append, List.append_assoc]
      by_cases opened : ∃ body, p = .openString body
      · -- nothing stands behind a string that is not closed
        obtain ⟨body, rfl⟩ := opened
        obtain rfl : rest = [] := by simpa [Piece.grows] using Piece.not_grows_of_first? read
        simp [faultsFrom, segmentsFrom, Segment.fault?, Fault.leavesStringOpen]
      · rcases Piece.first?_append_append read b with again | ⟨short, noStray⟩
        · have kept : (Segment.fault? ⟨p, offset, line⟩).toList.filter
              (fun f => !f.leavesStringOpen) = (Segment.fault? ⟨p, offset, line⟩).toList := by
            cases p <;> simp_all [Segment.fault?, Fault.leavesStringOpen]
          rw [pieces_append again, faultsFrom_cons, kept, List.prefix_append_right_inj]
          exact ih ..
        · have point : pieces ['.'] = [.mark .dot] := pieces_eq_of_settled rfl (by decide)
          have here : Segment.fault? ⟨p, offset, line⟩ = none := by
            cases p <;> simp_all [Segment.fault?]
          have later (o l : Nat) : faultsFrom o l (pieces rest) = [] := by
            rcases short with rfl | rfl
            · rw [pieces_nil]
              rfl
            · rw [point]
              rfl
          rw [here, later]
          exact List.nil_prefix

/-- **Scanning looks ahead by two bytes at most.** What is appended to a text changes no token that
ends two bytes or more before its end, and no character that was refused in it. -/
theorem scan_lookahead (a b : Text) :
    (scan a).tokens.filter (fun t => t.span.stop + 2 ≤ Text.byteLength a) <+:
        (scan (a ++ b)).tokens ∧
      (scan a).faults.filter (fun f => !f.leavesStringOpen) <+: (scan (a ++ b)).faults := by
  constructor
  · have closing : [closingToken a].filter (fun t => t.span.stop + 2 ≤ Text.byteLength a) = [] := by
      simp [closingToken]
    have front := tokensFrom_lookahead 0 1 a b
    rw [Nat.zero_add] at front
    rw [scan_eq, scan_eq, List.filter_append, closing, List.append_nil]
    exact front.trans (List.prefix_append ..)
  · rw [scan_eq, scan_eq]
    exact faultsFrom_lookahead 0 1 a b

end LoxTokens
