import LoxTokens.Text.Basic

/-!
The arguments of the program, and what can be wrong with them.
-/

namespace LoxTokens

/-- When output is coloured. -/
inductive ColorChoice where
  /-- Where it goes to a terminal. -/
  | auto
  | always
  | never
  deriving DecidableEq, Repr

namespace ColorChoice

def spelling : ColorChoice → Text
  | .auto => "auto"
  | .always => "always"
  | .never => "never"

/-- The choice with a spelling; case matters. -/
def ofText? (t : Text) : Option ColorChoice :=
  [auto, always, never].find? fun c => c.spelling == t

@[simp] theorem ofText?_spelling (c : ColorChoice) : ofText? c.spelling = some c := by
  cases c <;> decide

/-- Whether output is coloured, given whether it goes to a terminal. -/
def colored (terminal : Bool) : ColorChoice → Bool
  | .auto => terminal
  | .always => true
  | .never => false

end ColorChoice

/-- The arguments of the program. -/
structure Arguments where
  /-- The path of the file to scan. -/
  script : Option Text := none
  /-- The text to scan instead of a file. -/
  eval : Option Text := none
  /-- The filter for log messages. -/
  log : Option Text := none
  verbose : Bool := false
  color : ColorChoice := .auto
  deriving DecidableEq, Repr

/-- The variables of the environment that the program looks at. -/
structure Environment where
  log : Option Text := none
  color : Option Text := none
  /-- The kind of the terminal. -/
  terminal : Option Text := none
  deriving DecidableEq, Repr

/-- Why arguments are refused. -/
inductive UsageError where
  | unknownArgument
  | invalidValue
  | tooManyValues
  | argumentConflict
  deriving DecidableEq, Repr

/-- Why no arguments are delivered. -/
inductive Interruption where
  | refused (error : UsageError)
  /-- Help is asked for, in its long form or in its short one. -/
  | help (long : Bool)
  | version
  deriving DecidableEq, Repr

namespace Arguments

/-- The filter of a run that is asked to be verbose. -/
def verboseFilter : Text := "lox=debug,lox_lexer=debug"

/-- The filter of a run that is asked for nothing. -/
def defaultFilter : Text := "warn"

/-- The filter for log messages that the arguments amount to. -/
def logFilter (a : Arguments) : Text :=
  if a.verbose then verboseFilter else a.log.getD defaultFilter

end Arguments

end LoxTokens
