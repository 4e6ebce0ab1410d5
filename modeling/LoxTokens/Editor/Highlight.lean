import LoxTokens.Output.Paint
import LoxTokens.Scan.Basic
import LoxTokens.Text.Blank

/-!
Colours for a line as it is typed.

A line is cut into runs, each with the style it is shown in. A token is a run, styled by its kind.
What stands between two tokens is a gap: a plain run up to its first two slashes in a row, and a
dimmed run from there to its end. A line whose first visible character is a dot is taken for a
command and is a single run.

The runs written one after the other are the line: `flatMap_text_lineRuns`. So without colours a
line is shown as it is.
-/

namespace LoxTokens

/-- A part of a line and the style it is shown in; `none` where it is left as it is. -/
structure StyledRun where
  style : Option Style
  text : Text
  deriving DecidableEq, Repr

namespace StyledRun

/-- A run that is left as it is. -/
def bare (t : Text) : StyledRun := ⟨none, t⟩

/-- A run as it is shown. -/
def paint (colored : Bool) (r : StyledRun) : Text :=
  r.style.elim r.text fun style => style.paint colored r.text

/-- Runs as they are shown, one after the other. -/
def paintAll (colored : Bool) (runs : List StyledRun) : Text := runs.flatMap (paint colored)

@[simp] theorem paint_plain (r : StyledRun) : r.paint false = r.text := by
  unfold paint
  cases r.style <;> rfl

/-- Without colours the text of the runs is all that is shown. -/
theorem paintAll_plain (runs : List StyledRun) : paintAll false runs = runs.flatMap (·.text) := by
  have plain : paint false = (·.text) := funext paint_plain
  simp [paintAll, plain]

end StyledRun

namespace Mark

/-- Whether a mark opens or closes a group. -/
def isBracket : Mark → Bool
  | .leftParen | .rightParen | .leftBrace | .rightBrace => true
  | _ => false

/-- Whether a mark only separates or ends. -/
def isSeparator : Mark → Bool
  | .comma | .dot | .semicolon => true
  | _ => false

end Mark

namespace Keyword

/-- Whether a keyword stands for a value. -/
def isValue : Keyword → Bool
  | .true_ | .false_ | .nil_ | .this_ | .super_ => true
  | _ => false

end Keyword

/-- The style of tokens of a kind; `none` where they are left as they are. -/
def Kind.style? : Kind → Option Style
  | .keyword k => some (if k.isValue then .blue else .boldMagenta)
  | .string => some .green
  | .number => some .yellow
  | .mark m =>
      if m.isBracket then some .yellow
      else if m.isSeparator then none
      else some .cyan
  | .identifier | .endOfSource => none

namespace Highlight

/-- A text up to its first two slashes in a row, and from there on. -/
def splitAtSlashes : Text → Text × Text
  | [] => ([], [])
  | '/' :: '/' :: rest => ([], '/' :: '/' :: rest)
  | c :: rest =>
      let (before, after) := splitAtSlashes rest
      (c :: before, after)

/-- The runs of a gap between tokens. -/
def gapRuns (gap : Text) : List StyledRun :=
  let (before, after) := splitAtSlashes gap
  if after.isEmpty then [.bare before] else [.bare before, ⟨some .dimmed, after⟩]

/-- The runs of segments, after the part of a gap that was passed before them. -/
def segmentRuns : Text → List Segment → List StyledRun
  | passed, [] => gapRuns passed
  | passed, s :: rest =>
      match s.piece.kind? with
      | none => segmentRuns (passed ++ s.piece.text) rest
      | some kind => gapRuns passed ++ ⟨kind.style?, s.piece.text⟩ :: segmentRuns [] rest

/-- The runs of a text that is cut by its tokens. -/
def sourceRuns (t : Text) : List StyledRun := segmentRuns [] (course t).segments

/-- The runs of a line: a command is one run, anything else is cut by its tokens. -/
def lineRuns (t : Text) : List StyledRun :=
  if (Text.trimStart t).head? = some '.' then [⟨some .magentaHue, t⟩] else sourceRuns t

/-- Whether a line is shown anew after a character was typed: always. -/
def repaints : Bool := true

/-! ### Runs lose nothing -/

theorem append_splitAtSlashes (t : Text) : (splitAtSlashes t).1 ++ (splitAtSlashes t).2 = t := by
  fun_induction splitAtSlashes t <;> simp_all

theorem flatMap_text_gapRuns (gap : Text) : (gapRuns gap).flatMap (·.text) = gap := by
  have whole := append_splitAtSlashes gap
  unfold gapRuns
  split
  next before after split =>
    rw [split] at whole
    cases after <;> simp_all [StyledRun.bare]

theorem flatMap_text_segmentRuns (passed : Text) (segments : List Segment) :
    (segmentRuns passed segments).flatMap (·.text) =
      passed ++ segments.flatMap (·.piece.text) := by
  induction segments generalizing passed with
  | nil => simp [segmentRuns, flatMap_text_gapRuns]
  | cons s rest ih =>
      rw [segmentRuns]
      split
      · simp [ih]
      · simp [ih, flatMap_text_gapRuns]

/-- The runs of a text written one after the other are the text. -/
theorem flatMap_text_sourceRuns (t : Text) : (sourceRuns t).flatMap (·.text) = t := by
  rw [sourceRuns, flatMap_text_segmentRuns]
  exact Cursor.flatMap_text_course (Cursor.start t)

/-- The runs of a line written one after the other are the line. -/
theorem flatMap_text_lineRuns (t : Text) : (lineRuns t).flatMap (·.text) = t := by
  unfold lineRuns
  split
  · simp
  · exact flatMap_text_sourceRuns t

end Highlight

end LoxTokens
