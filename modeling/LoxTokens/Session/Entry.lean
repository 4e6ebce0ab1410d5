import LoxTokens.Scan.Basic
import LoxTokens.Session.Command

/-!
Entries of a session: one or more lines that belong together.

An entry goes on while a string is open or a bracket is not closed. Its last line end is cut off
before it is looked at.
-/

namespace LoxTokens

/-- How much deeper a mark nests what follows it. -/
def Mark.nesting : Mark → Int
  | .leftParen | .leftBrace => 1
  | .rightParen | .rightBrace => -1
  | _ => 0

/-- How much deeper a token nests what follows it. -/
def Token.nesting (t : Token) : Int :=
  match t.kind with
  | .mark m => m.nesting
  | _ => 0

namespace Entry

/-- Opening brackets less closing ones. -/
def depth (tokens : List Token) : Int := tokens.foldr (fun t deeper => t.nesting + deeper) 0

/-- Whether a text is the beginning of an entry that goes on: no command, and either with a string
open or with more opening brackets than closing ones. -/
def needsMore (t : Text) : Bool :=
  if (Command.parse? t).isSome then false
  else
    let scanned := scan t
    scanned.faults.any Fault.leavesStringOpen || decide (0 < depth scanned.tokens)

/-- A text without its last line end. -/
def withoutLineEnd (t : Text) : Text :=
  match t.reverse with
  | '\n' :: '\r' :: body => body.reverse
  | '\n' :: body => body.reverse
  | _ => t

/-- Whether the lines read so far are a complete entry. -/
def isComplete (lines : Text) : Bool := !needsMore (withoutLineEnd lines)

end Entry

/-- What an entry asks for. -/
inductive Request where
  | nothing
  | perform (command : Command) (argument : Option Text)
  | list (source : Text)
  deriving DecidableEq, Repr

namespace Request

/-- What an entry asks for, given with its last line end. An entry of blanks alone asks for
nothing. -/
def ofEntry (lines : Text) : Request :=
  let entry := Entry.withoutLineEnd lines
  let trimmed := Text.trim entry
  if trimmed.isEmpty then .nothing
  else match Command.parse? trimmed with
    | some (command, argument) => .perform command argument
    | none => .list entry

/-- Whether a request ends the session. -/
def leaves : Request → Bool
  | .perform .exit _ => true
  | _ => false

/-- The path of the file that a request needs. -/
def path? : Request → Option Text
  | .perform .load path => path
  | _ => none

end Request

end LoxTokens
