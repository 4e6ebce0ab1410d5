import LoxTokens.Scan.Fault
import LoxTokens.Scan.Piece

/-!
The walk over a source, piece by piece.

A cursor holds a place in a source: the bytes before it, its line, and the text from it on. It is
moved over one character at a time, so the three stay in step (`past_of_append`). The course of a
source is the list of its pieces, each with its place, and the cursor at the end; the pieces written
one after the other are the source (`flatMap_text_course`).
-/

namespace LoxTokens

/-- A place in a source. Lines are counted from 1. -/
structure Cursor where
  offset : Nat
  line : Nat
  rest : Text
  deriving DecidableEq, Repr

/-- A piece, the bytes before it, and the line it starts on. -/
structure Segment where
  piece : Piece
  offset : Nat
  line : Nat
  deriving DecidableEq, Repr

/-- The pieces of a source in order, and the place where they end. -/
structure Course where
  segments : List Segment
  finish : Cursor
  deriving DecidableEq, Repr

namespace Cursor

/-- The start of a source. -/
def start (source : Text) : Cursor := ⟨0, 1, source⟩

/-- The place after the next character; the same place at the end. -/
def advance (c : Cursor) : Cursor :=
  match c.rest with
  | [] => c
  | ch :: rest => ⟨c.offset + ch.utf8Size, if ch = '\n' then c.line + 1 else c.line, rest⟩

/-- The place after as many characters as `t` has. -/
def past (c : Cursor) : Text → Cursor
  | [] => c
  | _ :: t => c.advance.past t

/-- What stands at a cursor moves over in one step of the walk. -/
theorem past_of_append (c : Cursor) {t rest : Text} (h : c.rest = t ++ rest) :
    c.past t = ⟨c.offset + Text.byteLength t, c.line + Text.newlines t, rest⟩ := by
  induction t generalizing c with
  | nil => cases c; simp_all [past]
  | cons ch t ih =>
      rw [past, ih c.advance (by simp [advance, h])]
      by_cases newline : ch = '\n' <;>
        simp [advance, h, newline, Text.newlines] <;> omega

/-- The text after a move has lost as many characters as were moved over. -/
theorem rest_past (c : Cursor) (t : Text) : (c.past t).rest = c.rest.drop t.length := by
  induction t generalizing c with
  | nil => rfl
  | cons ch t ih =>
      rw [past, ih, advance]
      cases h : c.rest <;> simp [h]

/-- Each piece that is read leaves less to read. -/
theorem rest_past_lt {c : Cursor} {p : Piece} (h : Piece.first? c.rest = some p) :
    (c.past p.text).rest.length < c.rest.length := by
  have whole := congrArg List.length (Piece.text_append_of_first? h)
  have positive := List.length_pos_iff.mpr (Piece.text_ne_nil h)
  rw [rest_past]
  simp only [List.length_append] at whole
  omega

/-- The pieces from a cursor on. -/
def course (c : Cursor) : Course :=
  match _ : Piece.first? c.rest with
  | none => ⟨[], c⟩
  | some p =>
      let next := (c.past p.text).course
      ⟨⟨p, c.offset, c.line⟩ :: next.segments, next.finish⟩
termination_by c.rest.length
decreasing_by exact rest_past_lt ‹_›

theorem course_of_nil {c : Cursor} (h : c.rest = []) : c.course = ⟨[], c⟩ := by
  rw [course]
  split
  · rfl
  · next p read => simp [h, Piece.first?] at read

theorem course_of_first? {c : Cursor} {p : Piece} (h : Piece.first? c.rest = some p) :
    c.course = ⟨⟨p, c.offset, c.line⟩ :: (c.past p.text).course.segments,
      (c.past p.text).course.finish⟩ := by
  rw [course]
  split
  · simp_all
  · next q read =>
      cases h.symm.trans read
      rfl

/-- The pieces from a cursor on, written one after the other, are the text from it on. -/
theorem flatMap_text_course (c : Cursor) :
    c.course.segments.flatMap (·.piece.text) = c.rest := by
  fun_induction course c with
  | case1 c h => simp [Piece.first?_eq_none_iff.mp h]
  | case2 c p h next ih =>
      have whole := Piece.text_append_of_first? h
      rw [rest_past] at ih
      simpa [ih, next] using whole

end Cursor

namespace Segment

/-- The bytes that a segment covers. -/
def span (s : Segment) : Span := ⟨s.offset, s.offset + Text.byteLength s.piece.text⟩

/-- The token that a segment holds; `none` where it holds none. -/
def token? (s : Segment) : Option Token :=
  s.piece.kind?.map fun kind =>
    { kind, lexeme := s.piece.text, literal := s.piece.literal?, line := s.line, span := s.span }

/-- The fault of a segment; `none` where there is none. -/
def fault? (s : Segment) : Option Fault :=
  match s.piece with
  | .stray c => some (.unexpectedCharacter s.line c)
  | .openString body => some (.unterminatedString (s.line + Text.newlines ('"' :: body)))
  | _ => none

end Segment

end LoxTokens
