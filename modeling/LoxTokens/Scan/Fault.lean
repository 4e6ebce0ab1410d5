import LoxTokens.Text.Basic

/-!
Lexical faults: what can be wrong with a source, and the wording of each.
-/

namespace LoxTokens

/-- What scanning rejects. -/
inductive Fault where
  /-- A character that can start nothing, and the line it stands on. -/
  | unexpectedCharacter (line : Nat) (character : Char)
  /-- A string that is never closed, and the last line of the source. -/
  | unterminatedString (line : Nat)
  deriving DecidableEq, Repr

namespace Fault

/-- The line under which a fault is reported. -/
def line : Fault → Nat
  | .unexpectedCharacter line _ => line
  | .unterminatedString line => line

/-- The wording of a fault. -/
def message : Fault → Text
  | .unexpectedCharacter .. => "Unexpected character."
  | .unterminatedString _ => "Unterminated string."

/-- Whether a fault leaves a string open at the end of the source. -/
def leavesStringOpen : Fault → Bool
  | .unterminatedString _ => true
  | .unexpectedCharacter .. => false

end Fault

end LoxTokens
