import LoxTokens.Output.Paint
import LoxTokens.Session.Command
import LoxTokens.Token.Kind

/-!
Completion and hints for the word before the cursor.

Positions are counted in bytes. The word before the cursor starts one byte after the start of the
last character that is in no word; after a separator of more than one byte that place is inside the
separator, and there a line cannot be cut. `none` stands for a position where a line cannot be cut:
past its end or inside a character.
-/

namespace LoxTokens

/-- A word that can be put in place of the one before the cursor. -/
structure Candidate where
  display : Text
  /-- What has to be typed to complete the word. -/
  replacement : Text
  deriving DecidableEq, Repr

/-- Where candidates are put, and which there are. -/
structure Completions where
  position : Nat
  candidates : List Candidate
  deriving DecidableEq, Repr

namespace Completion

/-- The words that are offered: all keywords, then all commands. -/
def words : List Text := Keyword.all.map Keyword.spelling ++ Command.words

/-- Whether a character belongs to the word before the cursor. -/
def inWord (c : Char) : Bool := c.isAlphanum || c == '_' || c == '.'

/-- The byte after the start of the last separator of a text; 0 where it has none. -/
def afterLastSeparator (t : Text) : Nat :=
  match t.reverse.dropWhile inWord with
  | [] => 0
  | _ :: before => Text.byteLength before + 1

/-- Where the word before a position starts. -/
def wordStart? (line : Text) (position : Nat) : Option Nat :=
  (Text.takeBytes? position line).map afterLastSeparator

/-- What completes a word to another one that starts with it. -/
def candidate (word whole : Text) : Candidate := ⟨whole, whole.drop word.length⟩

/-- The words that complete the one before a position. -/
def complete? (line : Text) (position : Nat) : Option Completions := do
  let start ← wordStart? line position
  let word ← Text.slice? line start position
  if word.isEmpty then some ⟨position, []⟩
  else some ⟨position, (words.filter word.isPrefixOf).map (candidate word)⟩

/-- The fewest bytes of a word for which a hint is shown. -/
def leastHinted : Nat := 2

/-- The rest of the first longer word that starts with the given one. -/
def restOfLonger? (word : Text) : Option Text :=
  (words.find? fun whole => word.isPrefixOf whole && word.length < whole.length).map
    (·.drop word.length)

/-- What is shown after the cursor: nothing unless it is at the end of the line, else the rest of
the first word that the one before it starts. -/
def hint? (colored : Bool) (line : Text) (position : Nat) : Option (Option Text) :=
  if position < Text.byteLength line then some none
  else do
    let start ← wordStart? line position
    let word ← Text.dropBytes? start line
    if Text.byteLength word < leastHinted then some none
    else some ((restOfLonger? word).map (Style.dimmed.paint colored))

end Completion

end LoxTokens
