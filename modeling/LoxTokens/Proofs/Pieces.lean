import LoxTokens.Proofs.Grammar

/-!
A source as the list of its pieces.

What is read at a place depends on the text from there on and on nothing before it. So a source has
a list of pieces that knows of no place (`pieces`), and the segments of a course are these pieces put
one behind the other from the place where the course starts (`Cursor.course_eq`).

* `scan_eq` — the tokens and faults of a source are those of its pieces, placed from its start on.
* `tokensFrom_shift`, `faultsFrom_shift` — pieces that start further on give the same tokens and
  faults, moved by as many bytes and lines.
* `pieces_textOf_iff` — pieces written one after the other are read back exactly where each of them
  is read in front of the others (`Settled`).
-/

namespace LoxTokens

/-! ### Pieces and their places -/

/-- The pieces of a text in order. -/
def pieces (t : Text) : List Piece := (course t).segments.map (·.piece)

def textOf (ps : List Piece) : Text := ps.flatMap Piece.text

/-- Pieces put one behind the other from a place on. -/
def segmentsFrom (offset line : Nat) : List Piece → List Segment
  | [] => []
  | p :: ps => ⟨p, offset, line⟩ ::
      segmentsFrom (offset + Text.byteLength p.text) (line + Text.newlines p.text) ps

@[simp] theorem textOf_nil : textOf [] = [] := rfl

@[simp] theorem textOf_cons (p : Piece) (ps : List Piece) : textOf (p :: ps) = p.text ++ textOf ps :=
  rfl

@[simp] theorem map_piece_segmentsFrom (offset line : Nat) (ps : List Piece) :
    (segmentsFrom offset line ps).map (·.piece) = ps := by
  induction ps generalizing offset line with
  | nil => rfl
  | cons p ps ih => rw [segmentsFrom, List.map_cons, ih]

theorem piece_mem_of_segmentsFrom {offset line : Nat} {ps : List Piece} {s : Segment}
    (h : s ∈ segmentsFrom offset line ps) : s.piece ∈ ps := by
  rw [← map_piece_segmentsFrom offset line ps]
  exact List.mem_map_of_mem h

theorem segmentsFrom_append (offset line : Nat) (ps qs : List Piece) :
    segmentsFrom offset line (ps ++ qs) = segmentsFrom offset line ps ++
      segmentsFrom (offset + Text.byteLength (textOf ps)) (line + Text.newlines (textOf ps)) qs := by
  induction ps generalizing offset line with
  | nil => rfl
  | cons p ps ih => simp [segmentsFrom, ih, Nat.add_assoc]

theorem lineAfter_append (before t : Text) :
    lineAfter (before ++ t) = lineAfter before + Text.newlines t := by
  rw [lineAfter, Text.newlines_append, lineAfter, Nat.add_assoc]

/-! ### Reading piece by piece -/

/-- What holds of the empty text, and of a text if it holds of what follows its first piece, holds of
every text. -/
theorem Piece.text_induction {motive : Text → Prop} (nil : motive [])
    (append : ∀ p rest, first? (p.text ++ rest) = some p → motive rest → motive (p.text ++ rest))
    (t : Text) : motive t := by
  induction length : t.length using Nat.strong_induction_on generalizing t with
  | _ n ih =>
      cases read : first? t with
      | none =>
          rw [first?_eq_none_iff.mp read]
          exact nil
      | some p =>
          obtain ⟨rest, rfl⟩ : ∃ rest, p.text ++ rest = t := ⟨_, text_append_of_first? read⟩
          have positive := List.length_pos_iff.mpr (text_ne_nil read)
          rw [List.length_append] at length
          exact append p rest read (ih _ (by omega) rest rfl)

namespace Cursor

theorem course_append {p : Piece} {rest : Text} (h : Piece.first? (p.text ++ rest) = some p)
    (offset line : Nat) :
    course ⟨offset, line, p.text ++ rest⟩ =
      let next := course ⟨offset + Text.byteLength p.text, line + Text.newlines p.text, rest⟩
      ⟨⟨p, offset, line⟩ :: next.segments, next.finish⟩ := by
  rw [course_of_first? h, past_of_append _ rfl]

/-- A course is the pieces of its text from its start on, and it ends behind that text. -/
theorem course_eq (offset line : Nat) (t : Text) :
    course ⟨offset, line, t⟩ = ⟨segmentsFrom offset line (pieces t),
      ⟨offset + Text.byteLength t, line + Text.newlines t, []⟩⟩ := by
  induction t using Piece.text_induction generalizing offset line with
  | nil =>
      have none (o l : Nat) : course ⟨o, l, []⟩ = ⟨[], ⟨o, l, []⟩⟩ := course_of_nil rfl
      rw [none, pieces, LoxTokens.course, start, none]
      rfl
  | append p rest read ih =>
      have here : pieces (p.text ++ rest) = p :: pieces rest := by
        rw [pieces, LoxTokens.course, start, course_append read, ih]
        simp
      rw [course_append read, ih, here]
      simp [segmentsFrom, Nat.add_assoc]

end Cursor

@[simp] theorem pieces_nil : pieces [] = [] := by
  rw [pieces, course, Cursor.course_of_nil rfl]
  rfl

/-- The piece that is read at the start of a text comes before those of the rest. -/
theorem pieces_append {p : Piece} {rest : Text} (h : Piece.first? (p.text ++ rest) = some p) :
    pieces (p.text ++ rest) = p :: pieces rest := by
  rw [pieces, course, Cursor.start, Cursor.course_append h, Cursor.course_eq]
  simp

@[simp] theorem textOf_pieces (t : Text) : textOf (pieces t) = t := by
  induction t using Piece.text_induction with
  | nil => rw [pieces_nil, textOf_nil]
  | append p rest read ih => rw [pieces_append read, textOf_cons, ih]

/-- Each piece can be read in front of those that follow it and of a text behind them. -/
def Settled : List Piece → Text → Prop
  | [], _ => True
  | p :: ps, rest => Piece.first? (p.text ++ (textOf ps ++ rest)) = some p ∧ Settled ps rest

instance Settled.decide : ∀ ps rest, Decidable (Settled ps rest)
  | [], _ => .isTrue trivial
  | p :: ps, rest =>
      have := Settled.decide ps rest
      inferInstanceAs (Decidable (Piece.first? (p.text ++ (textOf ps ++ rest)) = some p ∧ _))

theorem settled_pieces (t : Text) : Settled (pieces t) [] := by
  induction t using Piece.text_induction with
  | nil => rw [pieces_nil]; trivial
  | append p rest read ih =>
      rw [pieces_append read]
      exact ⟨by rw [textOf_pieces, List.append_nil, read], ih⟩

/-- Settled pieces are read first, and then those of the text behind them. -/
theorem pieces_textOf_append {ps : List Piece} {rest : Text} (settled : Settled ps rest) :
    pieces (textOf ps ++ rest) = ps ++ pieces rest := by
  induction ps with
  | nil => rfl
  | cons p ps ih =>
      rw [textOf_cons, List.append_assoc, pieces_append settled.1, ih settled.2, List.cons_append]

/-- Pieces are read back from what they write exactly where they are settled. -/
theorem pieces_textOf_iff {ps : List Piece} : pieces (textOf ps) = ps ↔ Settled ps [] := by
  constructor
  · intro same
    rw [← same]
    exact settled_pieces _
  · intro settled
    simpa using pieces_textOf_append settled

theorem pieces_eq_of_settled {t : Text} {ps : List Piece} (written : textOf ps = t)
    (settled : Settled ps []) : pieces t = ps := by
  rw [← written, pieces_textOf_iff.mpr settled]

/-! ### Tokens and faults of pieces -/

def tokensFrom (offset line : Nat) (ps : List Piece) : List Token :=
  (segmentsFrom offset line ps).filterMap (·.token?)

def faultsFrom (offset line : Nat) (ps : List Piece) : List Fault :=
  (segmentsFrom offset line ps).filterMap (·.fault?)

theorem tokensFrom_cons (offset line : Nat) (p : Piece) (ps : List Piece) :
    tokensFrom offset line (p :: ps) = (Segment.token? ⟨p, offset, line⟩).toList ++
      tokensFrom (offset + Text.byteLength p.text) (line + Text.newlines p.text) ps := by
  rw [tokensFrom, segmentsFrom, List.filterMap_cons]
  cases Segment.token? ⟨p, offset, line⟩ <;> rfl

theorem faultsFrom_cons (offset line : Nat) (p : Piece) (ps : List Piece) :
    faultsFrom offset line (p :: ps) = (Segment.fault? ⟨p, offset, line⟩).toList ++
      faultsFrom (offset + Text.byteLength p.text) (line + Text.newlines p.text) ps := by
  rw [faultsFrom, segmentsFrom, List.filterMap_cons]
  cases Segment.fault? ⟨p, offset, line⟩ <;> rfl

theorem tokensFrom_append (offset line : Nat) (ps qs : List Piece) :
    tokensFrom offset line (ps ++ qs) = tokensFrom offset line ps ++
      tokensFrom (offset + Text.byteLength (textOf ps)) (line + Text.newlines (textOf ps)) qs := by
  rw [tokensFrom, segmentsFrom_append, List.filterMap_append]
  rfl

theorem faultsFrom_append (offset line : Nat) (ps qs : List Piece) :
    faultsFrom offset line (ps ++ qs) = faultsFrom offset line ps ++
      faultsFrom (offset + Text.byteLength (textOf ps)) (line + Text.newlines (textOf ps)) qs := by
  rw [faultsFrom, segmentsFrom_append, List.filterMap_append]
  rfl

/-- Whether a piece is neither a token nor a fault. -/
def Piece.Silent : Piece → Prop
  | .blank _ | .comment _ => True
  | _ => False

theorem Piece.Silent.segment {p : Piece} (silent : p.Silent) (offset line : Nat) :
    Segment.token? ⟨p, offset, line⟩ = none ∧ Segment.fault? ⟨p, offset, line⟩ = none := by
  cases p <;> first | exact ⟨rfl, rfl⟩ | exact silent.elim

/-- Silent pieces give nothing. -/
theorem tokensFrom_silent {ps : List Piece} (silent : ∀ p ∈ ps, p.Silent) (offset line : Nat) :
    tokensFrom offset line ps = [] ∧ faultsFrom offset line ps = [] := by
  induction ps generalizing offset line with
  | nil => exact ⟨rfl, rfl⟩
  | cons p ps ih =>
      rw [List.forall_mem_cons] at silent
      have none := silent.1.segment offset line
      rw [tokensFrom_cons, faultsFrom_cons, none.1, none.2]
      exact ih silent.2 _ _

/-- The tokens of a source but the one that marks its end. -/
def Scan.withoutEnd (s : Scan) : List Token := s.tokens.filter (·.kind ≠ .endOfSource)

/-- The tokens and the faults of a source are those of its pieces. -/
theorem scan_eq (t : Text) :
    scan t = ⟨tokensFrom 0 1 (pieces t) ++ [closingToken t], faultsFrom 0 1 (pieces t)⟩ := by
  rw [scan, course, Cursor.start, Cursor.course_eq, Nat.zero_add]
  rfl

theorem Piece.kind?_ne_endOfSource (p : Piece) : p.kind? ≠ some .endOfSource := by
  cases p with
  | word t => cases found : Keyword.ofText? t <;> simp [kind?, found]
  | _ => simp [kind?]

theorem tokensFrom_kind_ne {offset line : Nat} {ps : List Piece} :
    ∀ t ∈ tokensFrom offset line ps, t.kind ≠ .endOfSource := by
  intro t member
  obtain ⟨s, -, token⟩ := List.mem_filterMap.mp member
  obtain ⟨kind, same, rfl⟩ := Option.map_eq_some_iff.mp token
  rintro rfl
  exact s.piece.kind?_ne_endOfSource same

theorem withoutEnd_scan (t : Text) : (scan t).withoutEnd = tokensFrom 0 1 (pieces t) := by
  have kept : (tokensFrom 0 1 (pieces t)).filter (·.kind ≠ .endOfSource) =
      tokensFrom 0 1 (pieces t) := by
    rw [List.filter_eq_self]
    intro u member
    exact decide_eq_true (tokensFrom_kind_ne u member)
  rw [Scan.withoutEnd, scan_eq, List.filter_append, kept]
  exact List.append_nil _

/-! ### Moving further on -/

/-- A token that stands after as many more bytes and lines. -/
def Token.shift (bytes lines : Nat) (t : Token) : Token :=
  { t with line := t.line + lines, span := ⟨t.span.start + bytes, t.span.stop + bytes⟩ }

/-- A fault that stands after as many more lines. -/
def Fault.shift (lines : Nat) : Fault → Fault
  | .unexpectedCharacter line c => .unexpectedCharacter (line + lines) c
  | .unterminatedString line => .unterminatedString (line + lines)

def Segment.shift (bytes lines : Nat) (s : Segment) : Segment :=
  ⟨s.piece, s.offset + bytes, s.line + lines⟩

namespace Segment

variable (bytes lines : Nat) (s : Segment)

theorem token?_shift : (s.shift bytes lines).token? = s.token?.map (Token.shift bytes lines) := by
  cases kind : s.piece.kind? with
  | none => simp [token?, shift, kind]
  | some kind => simp [token?, shift, kind, Token.shift, span, Nat.add_right_comm]

theorem fault?_shift : (s.shift bytes lines).fault? = s.fault?.map (Fault.shift lines) := by
  obtain ⟨p, offset, line⟩ := s
  cases p <;> simp [fault?, shift, Fault.shift, Nat.add_right_comm]

end Segment

theorem segmentsFrom_shift (bytes lines offset line : Nat) (ps : List Piece) :
    segmentsFrom (offset + bytes) (line + lines) ps =
      (segmentsFrom offset line ps).map (Segment.shift bytes lines) := by
  induction ps generalizing offset line with
  | nil => rfl
  | cons p ps ih =>
      rw [segmentsFrom, segmentsFrom, List.map_cons, ← ih, Nat.add_right_comm offset,
        Nat.add_right_comm line]
      rfl

theorem tokensFrom_shift (bytes lines offset line : Nat) (ps : List Piece) :
    tokensFrom (offset + bytes) (line + lines) ps =
      (tokensFrom offset line ps).map (Token.shift bytes lines) := by
  have moved : Segment.token? ∘ Segment.shift bytes lines =
      fun s => s.token?.map (Token.shift bytes lines) := funext (Segment.token?_shift bytes lines)
  rw [tokensFrom, tokensFrom, segmentsFrom_shift, List.filterMap_map, List.map_filterMap, moved]

theorem faultsFrom_shift (bytes lines offset line : Nat) (ps : List Piece) :
    faultsFrom (offset + bytes) (line + lines) ps =
      (faultsFrom offset line ps).map (Fault.shift lines) := by
  have moved : Segment.fault? ∘ Segment.shift bytes lines =
      fun s => s.fault?.map (Fault.shift lines) := funext (Segment.fault?_shift bytes lines)
  rw [faultsFrom, faultsFrom, segmentsFrom_shift, List.filterMap_map, List.map_filterMap, moved]

end LoxTokens
