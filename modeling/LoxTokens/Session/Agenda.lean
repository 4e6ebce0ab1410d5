import LoxTokens.Session.Entry
import LoxTokens.Text.Utf8

/-!
The entries of an input, and how the input ends a session.

Lines are taken one by one until they make a complete entry. A session ends in one of three ways
(`Ending`): at an entry that asks to exit, at a line that is not valid UTF-8, or where the input
ends. Lines that do not make a complete entry by then are dropped.
-/

namespace LoxTokens

/-- A line of the input with its line end; `none` where it is not valid UTF-8. -/
abbrev Line := Option Text

/-- How a session ends. -/
inductive Ending where
  | exited
  | unreadableLine
  | endOfInput
  deriving DecidableEq, Repr

/-- What one more line leads to. -/
inductive Turn where
  /-- The entry goes on; `pending` is what was read of it. -/
  | goesOn (pending : Text)
  /-- The entry is complete, with its last line end, and does not end the session. -/
  | completes (entry : Text)
  | ends (ending : Ending)
  deriving DecidableEq, Repr

/-- The entries of a session before its end, each with its last line end, and how it ends. -/
structure Agenda where
  entries : List Text
  ending : Ending
  deriving DecidableEq, Repr

/-- What a line leads to after `pending`, which is what was read of its entry before it. -/
def Turn.of (pending : Text) : Line → Turn
  | none => .ends .unreadableLine
  | some line =>
      let lines := pending ++ line
      if Entry.isComplete lines then
        if (Request.ofEntry lines).leaves then .ends .exited else .completes lines
      else .goesOn lines

/-- The agenda of the given lines, where `pending` is what was read of the first entry. -/
def Agenda.of (pending : Text) : List Line → Agenda
  | [] => ⟨[], .endOfInput⟩
  | line :: rest =>
      match Turn.of pending line with
      | .goesOn pending => .of pending rest
      | .ends ending => ⟨[], ending⟩
      | .completes entry =>
          let next := Agenda.of [] rest
          ⟨entry :: next.entries, next.ending⟩

namespace Input

/-- The byte that ends a line. -/
def newlineByte : UInt8 := 10

/-- Bytes cut after each line end. -/
def splitLines : List UInt8 → List (List UInt8)
  | [] => []
  | b :: rest =>
      if b = newlineByte then [b] :: splitLines rest
      else match splitLines rest with
        | [] => [[b]]
        | line :: more => (b :: line) :: more

/-- The lines of an input. -/
def lines (input : List UInt8) : List Line := (splitLines input).map Utf8.decode?

@[simp] theorem flatten_splitLines (input : List UInt8) : (splitLines input).flatten = input := by
  fun_induction splitLines input <;> simp_all

end Input

end LoxTokens
