import LoxTokens.FaultLog
import LoxTokens.Output.Paint
import LoxTokens.Output.Sink

/-!
What scanning a text prints: the listing of its tokens, and the reports of its faults.

The listing has one line for each token, and the reports have one for each fault. `list` writes both
to sinks, tokens first; where a write fails it stops there, and the faults of the text are lost.
-/

namespace LoxTokens

/-- The report of a fault: its line and its wording. -/
def Fault.report (colored : Bool) (f : Fault) : Text :=
  "[line " ++ Nat.toDigits 10 f.line ++ "] " ++ Style.boldRed.paint colored "Error" ++ ": " ++
    f.message ++ ['\n']

/-- The line of a token in a listing, with its end. -/
def Token.listed (t : Token) : Text := t.render ++ ['\n']

/-- The listing of the tokens of a text. -/
def listing (source : Text) : Text := (scan source).tokens.flatMap Token.listed

/-- The reports of the faults of a text. -/
def reports (colored : Bool) (source : Text) : Text :=
  (scan source).faults.flatMap (Fault.report colored)

/-- What writing a listing leaves behind: both sinks, and the faults of the text unless a write
failed. -/
structure Listed where
  out : Sink
  err : Sink
  log : Option FaultLog
  deriving DecidableEq, Repr

namespace Listed

/-- Whether every write succeeded and the text has a fault. -/
def hadFault (l : Listed) : Bool := l.log.elim false FaultLog.hadFault

/-- The wording of a failed write. -/
def failure : Text := "could not write output: " ++ Sink.refusal

end Listed

/-- Writes the listing of a text to `out` and then the reports of its faults to `err`. -/
def list (colored : Bool) (source : Text) (out err : Sink) : Listed :=
  let (tokens, log) := FaultLog.empty.scan source
  let listed := out.writeAll (tokens.map Token.listed)
  if listed.complete then
    let reported := err.writeAll (log.faults.map (Fault.report colored))
    ⟨listed.sink, reported.sink, if reported.complete then some log else none⟩
  else ⟨listed.sink, err, none⟩

end LoxTokens
