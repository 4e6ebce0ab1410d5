import LoxTokens.Files
import LoxTokens.Session.Command

/-!
The fixed texts of a session.
-/

namespace LoxTokens

def version : Text := "0.1.0"

namespace Screen

/-- What greets the user. -/
def banner (colored : Bool) : Text :=
  let dim (t : Text) : Text := Style.dimmed.paint colored t
  "\n  " ++ Style.boldWhite.paint colored "Lox Scanner" ++ " " ++ dim "v" ++ " " ++
    Style.brightYellowHue.paint colored version ++ "\n  " ++ dim "Type" ++ " " ++
    Style.cyanHue.paint colored ".help" ++ " " ++ dim "for available commands" ++ "\n\n"

/-- What is printed before an entry is read. -/
def prompt (colored : Bool) : Text := Style.boldBrightGreen.paint colored "lox>" ++ " "

/-- What is printed where the input ends. -/
def endOfInput (colored : Bool) : Text := Style.dimmed.paint colored "^D" ++ "\n"

/-- What ends a session. -/
def goodbye (colored : Bool) : Text :=
  "\n" ++ Style.brightCyanHue.paint colored "Goodbye!" ++ "\n\n"

/-- The codes that clear a screen and go to its first place. -/
def clear : Text := "\x1b[2J\x1b[H"

def versionNote (colored : Bool) : Text :=
  "\n" ++ Style.boldBrightCyan.paint colored "Lox" ++ ": " ++
    Style.yellowHue.paint colored version ++ "\n\n"

/-- The number of characters of the first column of a table. -/
def columnWidth : Nat := 16

/-- A text filled up with spaces to the width of the first column. -/
def padded (t : Text) : Text := t ++ List.replicate (columnWidth - t.length) ' '

/-- A row of a table: what it explains, in a style, and the explanation. -/
def row (colored : Bool) (style : Style) (entry : Text × Text) : Text :=
  "  " ++ style.paint colored (padded entry.1) ++ " " ++ Style.dimmed.paint colored entry.2 ++ "\n"

/-- The keys of the line editor, each with what it does. -/
def shortcuts : List (Text × Text) :=
  [("Ctrl+C", "Cancel current input"), ("Ctrl+D", "Exit REPL"), ("Ctrl+L", "Clear screen"),
   ("Tab", "Autocomplete"), ("↑/↓", "Navigate history")]

def help (colored : Bool) : Text :=
  "\n" ++ Style.boldWhite.paint colored "REPL Commands:" ++ "\n\n" ++
    Command.summary.flatMap (row colored Style.cyanHue) ++
    "\n" ++ Style.boldWhite.paint colored "Keyboard Shortcuts:" ++ "\n\n" ++
    shortcuts.flatMap (row colored Style.yellowHue) ++ "\n"

/-- The answer to a request to load a file that names none. -/
def pathRequired (colored : Bool) : Text :=
  Style.boldRed.paint colored "Error" ++ ": " ++ Style.cyanHue.paint colored ".load" ++ " " ++
    Style.dimmed.paint colored "requires a file path" ++ "\n"

/-- The answer to a request to load a file that cannot be read. -/
def unreadableFile (colored : Bool) (path : Text) (fault : ReadFault) : Text :=
  Style.boldRed.paint colored "Error" ++ ": could not read '" ++ path ++ "': " ++ fault.message ++
    "\n"

/-- The report of a line that is not valid UTF-8. -/
def unreadableLine (colored : Bool) : Text :=
  Style.boldRed.paint colored "Error" ++
    ": Io(Error \x7b kind: InvalidData, message: \"stream did not contain valid UTF-8\" \x7d)\n"

end Screen

end LoxTokens
