import LoxTokens.Arguments.Basic
import LoxTokens.Output.Paint
import LoxTokens.Session.Screen

/-!
The texts that explain the arguments.

Each argument has a label and an explanation. The short form puts both on one line, the long form
puts the explanation into a paragraph of its own below the label. The lines of an explanation start
in one column, also where the value of a variable of the environment has several lines. Labels of
options are painted; where the text does not go to a terminal, that is taken out again
(`LoxTokens.Output.Printable`).
-/

namespace LoxTokens.Arguments

/-- How the program is called. -/
def usageLine : Text := "Usage: lox [OPTIONS] [SCRIPT]\n"

/-- What both forms of help start with. -/
def helpHeading : Text :=
  "lox - scan Lox source code and print its tokens\n\n" ++ usageLine ++ "\n"

/-- A text whose lines after the first are moved to the right. -/
def indented (width : Nat) (t : Text) : Text :=
  t.flatMap fun c => if c = '\n' then '\n' :: List.replicate width ' ' else [c]

/-- An option as it is listed. -/
structure OptionLabel where
  letter : Option Char
  name : Text
  /-- What stands for the value that the option takes, if it takes one. -/
  value : Option Text
  deriving DecidableEq, Repr

def OptionLabel.render (painted : Bool) (l : OptionLabel) : Text :=
  let bold (t : Text) : Text := Style.bold.paint painted t
  let letter : Text := match l.letter with
    | some c => bold ['-', c] ++ ", "
    | none => "    "
  let value : Text := match l.value with
    | some v => " <" ++ v ++ ">"
    | none => []
  "  " ++ letter ++ bold ("--" ++ l.name) ++ value

def evalLabel : OptionLabel := ⟨some 'e', "eval", some "CODE"⟩

def logLabel : OptionLabel := ⟨none, "log", some "FILTER"⟩

def verboseLabel : OptionLabel := ⟨some 'v', "verbose", none⟩

def colorLabel : OptionLabel := ⟨none, "color", some "COLOR"⟩

def helpLabel : OptionLabel := ⟨some 'h', "help", none⟩

def versionLabel : OptionLabel := ⟨some 'V', "version", none⟩

def scriptLabel : Text := "  [SCRIPT]"

def scriptPurpose : Text := "Script to scan. Starts the interactive REPL when omitted"

def evalPurpose : Text := "Scan CODE instead of a file"

def logPurpose : Text := "Tracing filter directive, e.g. \"lox_lexer=trace\""

def verbosePurpose : Text := "Enable debug logging for lox and lox-lexer"

def colorPurpose : Text := "When to use colored output"

def versionPurpose : Text := "Print version"

/-- How a variable of the environment and its value are shown. -/
def shownVariable (name : Text) (value : Option Text) : Text :=
  "[env: " ++ name ++ "=" ++ value.getD [] ++ "]"

def logVariable (environment : Environment) : Text := shownVariable "LOX_LOG" environment.log

def colorVariable (environment : Environment) : Text := shownVariable "LOX_COLOR" environment.color

def shortColumn : Nat := 23

def longColumn : Nat := 10

/-- An option and its explanation on one line. -/
def shortRow (label : OptionLabel) (explanation : Text) : Text :=
  let gap := shortColumn - (label.render false).length
  label.render true ++ List.replicate gap ' ' ++ indented shortColumn explanation ++ "\n"

/-- A label and, below it, the paragraphs of an explanation with empty lines between them. The lines
of a paragraph are moved to the right, those that are empty too. -/
def longBlock (label : Text) (paragraphs : List Text) : Text :=
  let moved (t : Text) : Text := List.replicate longColumn ' ' ++ indented longColumn t ++ "\n"
  label ++ "\n" ++ List.intercalate ("\n" : Text) (paragraphs.map moved)

def shortHelp (environment : Environment) : Text :=
  helpHeading ++ "Arguments:\n" ++ scriptLabel ++ "  " ++ scriptPurpose ++ "\n\nOptions:\n" ++
    shortRow evalLabel evalPurpose ++
    shortRow logLabel (logPurpose ++ " " ++ logVariable environment) ++
    shortRow verboseLabel verbosePurpose ++
    shortRow colorLabel
      (colorPurpose ++ " " ++ colorVariable environment ++
        " [default: auto] [possible values: auto, always, never]") ++
    shortRow helpLabel "Print help (see more with '--help')" ++
    shortRow versionLabel versionPurpose

/-- What the values of `--color` mean. -/
def colorValues : Text :=
  "Possible values:\n- auto:   Color when the output stream is a terminal\n" ++
    "- always: Always color\n- never:  Never color"

def longHelp (environment : Environment) : Text :=
  helpHeading ++ "Arguments:\n" ++ longBlock scriptLabel [scriptPurpose] ++ "\nOptions:\n" ++
    longBlock (evalLabel.render true) [evalPurpose] ++ "\n" ++
    longBlock (logLabel.render true) [logPurpose ++ "\n\n" ++ logVariable environment] ++ "\n" ++
    longBlock (verboseLabel.render true) [verbosePurpose] ++ "\n" ++
    longBlock (colorLabel.render true)
      [colorPurpose,
       colorValues ++ "\n\n" ++ colorVariable environment ++ "\n[default: auto]"] ++ "\n" ++
    longBlock (helpLabel.render true) ["Print help (see a summary with '-h')"] ++ "\n" ++
    longBlock (versionLabel.render true) [versionPurpose]

/-- The help in one of its forms. -/
def help (environment : Environment) (long : Bool) : Text :=
  if long then longHelp environment else shortHelp environment

/-- The line that names the program and its version. -/
def versionLine : Text := "lox " ++ version ++ "\n"

end LoxTokens.Arguments
