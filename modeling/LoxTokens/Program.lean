import LoxTokens.Arguments.Help
import LoxTokens.Arguments.Reading
import LoxTokens.Output.Printable
import LoxTokens.Session.Basic

/-!
The whole program: from its arguments, its environment, its input and the files around it to what it
prints and its exit status.

The arguments settle what there is to do (`Task`): to print a text about the program, to scan a text
or a file, or to hold a session. The exit status is 64 where the arguments are refused, 74 where a
file cannot be read, 65 where what was scanned has a fault, and 0 otherwise.

The log is written to the error stream too. Of its events only errors are kept here, and there is
one: a script that cannot be read. Events of a lower level, which the default filter drops or which
tell of the history of a line editor, are no part of a transcript.
-/

namespace LoxTokens

/-- An error that is logged: what failed, and why. -/
structure LoggedError where
  message : Text
  error : Text
  deriving DecidableEq, Repr

/-- All that a run of the program depends on. -/
structure Invocation where
  arguments : List Text
  environment : Environment := {}
  input : List UInt8 := []
  files : Storage := .empty
  /-- What is written for an error that is logged: nothing where it is filtered out, and else a line
  with the time. -/
  log : LoggedError → Text := fun _ => []
  /-- Whether output goes to a terminal. -/
  terminal : Bool := false

/-- What a run of the program leaves behind. -/
structure Outcome where
  status : Nat
  transcript : Transcript
  deriving DecidableEq, Repr

/-- What the arguments ask for. -/
inductive Task where
  | refuse (error : UsageError)
  | explain (text : Text)
  | scanText (colored : Bool) (source : Text)
  | scanFile (colored : Bool) (path : Text)
  | hold (settings : SessionSettings)
  deriving DecidableEq, Repr

namespace Program

/-- The exit status where arguments are refused. -/
def usageStatus : Nat := 64

/-- The exit status where a file cannot be read. -/
def unreadableStatus : Nat := 74

/-- The kinds of terminal on which lines cannot be edited. -/
def plainTerminals : List Text := ["dumb", "cons25", "emacs"]

/-- Whether a session prints its prompt: on the terminals where lines cannot be edited. -/
def prompts (environment : Environment) : Bool :=
  environment.terminal.any fun t => plainTerminals.contains (t.map Char.toLower)

/-- A painted text as it is printed: only a terminal is sent what steers a terminal. -/
def forOutput (terminal : Bool) (t : Text) : Text := if terminal then t else Printable.strip t

/-- What the arguments ask for. -/
def task (arguments : List Text) (environment : Environment) (terminal : Bool) : Task :=
  match Arguments.read arguments environment with
  | .error (.refused error) => .refuse error
  | .error (.help long) => .explain (forOutput terminal (Arguments.help environment long))
  | .error .version => .explain Arguments.versionLine
  | .ok given =>
      let colored := given.color.colored terminal
      match given.eval, given.script with
      | some source, _ => .scanText colored source
      | none, some path => .scanFile colored path
      | none, none => .hold { colored, prompted := prompts environment }

/-- Of what is printed where arguments are refused, only the line that says how the program is called
is kept: the error above that line and the hint below it are left out. -/
def refused : Outcome where
  status := usageStatus
  transcript := { err := Arguments.usageLine }

def explained (text : Text) : Outcome where
  status := 0
  transcript := { out := text }

def scanned (colored : Bool) (source : Text) : Outcome where
  status := (FaultLog.empty.scan source).2.exitStatus
  transcript := .ofSource colored source

/-- Why a script was not scanned. -/
def unreadable (path : Text) (fault : ReadFault) : Text :=
  "could not read '" ++ path ++ "': " ++ fault.message

/-- The report of an error that ends the program. -/
def fatal (colored : Bool) (error : Text) : Text :=
  Style.boldRed.paint colored "Error" ++ ": " ++ error ++ "\n"

/-- Scans a file; or logs that it could not be read, and then reports it. -/
def scannedFile (log : LoggedError → Text) (colored : Bool) (path : Text) : ReadResult → Outcome
  | .ok source => scanned colored source
  | .error fault =>
      let error := unreadable path fault
      { status := unreadableStatus
        transcript := { err := log ⟨"driver failed", error⟩ ++ fatal colored error } }

def run (invocation : Invocation) : Outcome :=
  match task invocation.arguments invocation.environment invocation.terminal with
  | .refuse _ => refused
  | .explain text => explained text
  | .scanText colored source => scanned colored source
  | .scanFile colored path =>
      scannedFile invocation.log colored path (invocation.files.read path)
  | .hold settings =>
      { status := 0
        transcript := Session.run settings invocation.files.read invocation.input }

end Program

end LoxTokens
