import LoxTokens.Text.Blank
import LoxTokens.Text.LowerCase

/-!
Commands of a session.

A command is a dot, a name in any mix of cases, and optionally blanks and an argument. Blanks around
the whole and around the argument do not matter.
-/

namespace LoxTokens

/-- What a session can be asked to do besides scanning. -/
inductive Command where
  | help | exit | clear | version | load
  deriving DecidableEq, Repr

namespace Command

/-- The names of all commands; the first of a command is the one that is shown. -/
def names : List (Text × Command) :=
  [("help", .help), ("h", .help), ("?", .help), ("exit", .exit), ("quit", .exit), ("q", .exit),
   ("clear", .clear), ("cls", .clear), ("version", .version), ("v", .version), ("load", .load),
   ("l", .load)]

/-- The command with a name. -/
def ofName? (name : Text) : Option Command := names.lookup name

/-- The commands as they are shown, each with what it does. -/
def summary : List (Text × Text) :=
  [(".help", "Show this help message"), (".exit", "Exit the REPL"), (".clear", "Clear the screen"),
   (".version", "Show version information"),
   (".load <file>", "Scan a Lox file and print its tokens")]

/-- The commands as they are typed. -/
def words : List Text := [".help", ".exit", ".clear", ".version", ".load"]

/-- The text after a name, without the blanks around it; `none` where nothing else is left. -/
def argument? (afterName : Text) : Option Text :=
  let argument := Text.trim afterName
  if argument.isEmpty then none else some argument

/-- The command that a text asks for, and its argument. -/
def parse? (input : Text) : Option (Command × Option Text) :=
  match Text.trim input with
  | '.' :: rest =>
      let name := rest.takeWhile (!Text.isBlank ·)
      let afterName := rest.dropWhile (!Text.isBlank ·)
      (ofName? (Text.lowerCase name)).map (·, argument? afterName)
  | _ => none

end Command

end LoxTokens
