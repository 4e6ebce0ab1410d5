import LoxTokens.Program

/-!
The program on the real streams, files and environment.

A session is held line by line, so that each entry is answered before the next line is read.
-/

namespace LoxTokens.Console

/-- Prints to both streams. -/
def emit (t : Transcript) : IO Unit := do
  let out ← IO.getStdout
  out.putStr (String.ofList t.out)
  out.flush
  (← IO.getStderr).putStr (String.ofList t.err)

/-- Why the system did not read a file. -/
def readFault : IO.Error → ReadFault
  | .noFileOrDirectory .. => .missing
  | .inappropriateType _ 21 _ => .isADirectory
  | .inappropriateType .. => .notADirectory
  | error => .other (toString error).toList

/-- Reads a file. -/
def readFile (path : Text) : IO ReadResult := do
  try
    return Storage.decode (← IO.FS.readBinFile (String.ofList path)).toList
  catch error => return .error (readFault error)

/-- Reads a line with its end; nothing is left where it is empty. -/
partial def readLine (input : IO.FS.Stream) (line : ByteArray) : IO ByteArray := do
  let next ← input.read 1
  let line := line ++ next
  if next.isEmpty || next.data.contains Input.newlineByte then return line
  else readLine input line

/-- Holds a session from a line on, where `pending` is what was read of its entry. -/
partial def converse (settings : SessionSettings) (input : IO.FS.Stream) (pending : Text) :
    IO Unit := do
  let line ← readLine input .empty
  if line.isEmpty then emit (Ending.endOfInput.farewell settings.colored)
  else
    match Turn.of pending (Utf8.decode? line.toList) with
    | .goesOn pending => converse settings input pending
    | .ends ending => emit (ending.farewell settings.colored)
    | .completes entry =>
        let found ← (Request.ofEntry entry).path?.mapM readFile
        emit (Session.answer settings (fun _ => found.getD (.error .missing)) entry)
        converse settings input []

/-- Prints an outcome and gives its status. -/
def finish (outcome : Outcome) : IO UInt32 := do
  emit outcome.transcript
  return .ofNat outcome.status

/-- The value of a variable of the environment. -/
def lookup (name : String) : IO (Option Text) := return (← IO.getEnv name).map String.toList

/-- Runs the program with the given arguments. No log is kept. -/
def run (arguments : List String) : IO UInt32 := do
  let environment : Environment :=
    { log := ← lookup "LOX_LOG", color := ← lookup "LOX_COLOR", terminal := ← lookup "TERM" }
  let terminal ← (← IO.getStdout).isTty
  match Program.task (arguments.map String.toList) environment terminal with
  | .refuse _ => finish Program.refused
  | .explain text => finish (Program.explained text)
  | .scanText colored source => finish (Program.scanned colored source)
  | .scanFile colored path =>
      finish (Program.scannedFile (fun _ => []) colored path (← readFile path))
  | .hold settings =>
      emit (Session.opening settings)
      converse settings (← IO.getStdin) []
      return 0

end LoxTokens.Console

/-- The entry point. -/
def main (arguments : List String) : IO UInt32 := LoxTokens.Console.run arguments
