import LoxTokens.Scan.Cursor

/-!
Scanning: the tokens of a source and its faults.

The tokens come in the order of the source and end with one that marks its end; the faults come in
the order of the source too. `scanInto` hands every fault to a reporter instead of collecting them;
`scanInto_eq` says that a reporter sees the faults of `scan`, each once and in order.
-/

namespace LoxTokens

/-- The tokens and the faults of a source. -/
structure Scan where
  tokens : List Token
  faults : List Fault
  deriving DecidableEq, Repr

/-- The token that marks the end of a source. -/
def Cursor.endToken (c : Cursor) : Token where
  kind := .endOfSource
  lexeme := []
  literal := none
  line := c.line
  span := ⟨c.offset, c.offset⟩

namespace Course

/-- The tokens of a course, and the one that marks the end. -/
def tokens (c : Course) : List Token := c.segments.filterMap (·.token?) ++ [c.finish.endToken]

/-- The faults of a course. -/
def faults (c : Course) : List Fault := c.segments.filterMap (·.fault?)

end Course

/-- The pieces of a source. -/
def course (source : Text) : Course := (Cursor.start source).course

/-- The tokens and the faults of a source. -/
def scan (source : Text) : Scan := ⟨(course source).tokens, (course source).faults⟩

/-- The tokens of a source, and a log to which every segment with a fault has reported it. -/
def scanInto {σ : Type} (report : σ → Fault → σ) (log : σ) (source : Text) : List Token × σ :=
  let course := course source
  (course.tokens, course.segments.foldl (fun log s => s.fault?.elim log (report log)) log)

/-- A reporter that is told the line and the wording of a fault, and nothing else of it. -/
def Fault.tell {σ : Type} (callback : σ → Nat → Text → σ) (log : σ) (f : Fault) : σ :=
  callback log f.line f.message

/-- A reporter sees the faults of a source one by one and in order. -/
theorem scanInto_eq {σ : Type} (report : σ → Fault → σ) (log : σ) (source : Text) :
    scanInto report log source = ((scan source).tokens, (scan source).faults.foldl report log) := by
  have fold (segments : List Segment) (log : σ) :
      segments.foldl (fun log s => s.fault?.elim log (report log)) log =
        (segments.filterMap (·.fault?)).foldl report log := by
    induction segments generalizing log with
    | nil => rfl
    | cons s rest ih => cases h : s.fault? <;> simp [h, ih]
  simp [scanInto, scan, Course.faults, fold]

end LoxTokens
