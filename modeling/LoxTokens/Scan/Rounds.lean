import LoxTokens.Binary64.Numeral
import LoxTokens.Scan.Basic

/-!
Scanning in rounds, character by character.

The machine keeps two places of a source as byte positions: where the lexeme starts that it is in,
and where it has come to. It has the characters that are left, each with its position, and it looks
at one or two of them. A round of the main loop begins a lexeme; where a lexeme may go on for long,
rounds of another loop follow, one for each character. Lexemes are cut out of the source at the two
positions. A cut that cannot be made leaves no way to go on: `Head.round?` is `none` then, and
nowhere else.
-/

namespace LoxTokens

/-- The characters of a text that starts at a byte, each with the byte at which it starts itself. -/
def Text.indexed : Nat → Text → List (Nat × Char)
  | _, [] => []
  | offset, c :: t => (offset, c) :: indexed (offset + c.utf8Size) t

namespace Mark

/-- The mark that a character is by itself, whatever follows it. -/
def ofChar? : Char → Option Mark
  | '(' => some .leftParen
  | ')' => some .rightParen
  | '{' => some .leftBrace
  | '}' => some .rightBrace
  | ',' => some .comma
  | '.' => some .dot
  | '-' => some .minus
  | '+' => some .plus
  | ';' => some .semicolon
  | '*' => some .star
  | _ => none

/-- The marks that a character is with an equals sign behind it and without one. -/
def pairOfChar? : Char → Option (Mark × Mark)
  | '!' => some (.bangEqual, .bang)
  | '=' => some (.equalEqual, .equal)
  | '<' => some (.lessEqual, .less)
  | '>' => some (.greaterEqual, .greater)
  | _ => none

end Mark

/-- What is kept from round to round. -/
structure Registers where
  source : Text
  /-- The byte at which the lexeme starts. -/
  start : Nat
  /-- The byte behind the last character that was taken. -/
  current : Nat
  /-- The characters that are left, each with its byte. -/
  left : List (Nat × Char)
  /-- The line on which the lexeme starts. -/
  startLine : Nat
  line : Nat
  tokens : List Token
  faults : List Fault
  deriving DecidableEq, Repr

/-- The loops; all but the main one go on with a lexeme that was begun. -/
inductive Loop where
  | main | comment | string | digits | fraction | word
  deriving DecidableEq, Repr

/-- The head of a round: the loop that it belongs to, and what is kept there. -/
structure Head where
  loop : Loop
  registers : Registers
  deriving DecidableEq, Repr

/-- What a round leads to. -/
inductive Round where
  | next (head : Head)
  | done (result : Scan)
  deriving DecidableEq, Repr

namespace Registers

def ofSource (source : Text) : Registers :=
  ⟨source, 0, 0, Text.indexed 0 source, 1, 1, [], []⟩

def atEnd (r : Registers) : Bool := decide (Text.byteLength r.source ≤ r.current)

/-- The next character. -/
def peek? (r : Registers) : Option Char := r.left.head?.map (·.2)

/-- The character behind the next one. -/
def peekNext? (r : Registers) : Option Char := r.left.tail.head?.map (·.2)

/-- Takes the next character, if there is one. -/
def advance (r : Registers) : Registers :=
  match r.left with
  | [] => r
  | (offset, c) :: left => { r with current := offset + c.utf8Size, left }

/-- Starts a lexeme at the next character. -/
def begin (r : Registers) : Registers := { r with start := r.current, startLine := r.line }

def countLine (r : Registers) : Registers := { r with line := r.line + 1 }

def report (r : Registers) (f : Fault) : Registers := { r with faults := r.faults ++ [f] }

/-! ### Cuts -/

/-- The text from the start of the lexeme on. -/
def lexeme? (r : Registers) : Option Text := Text.slice? r.source r.start r.current

/-- The lexeme without its first byte and its last one. -/
def inner? (r : Registers) : Option Text :=
  match r.current with
  | 0 => none
  | stop + 1 => Text.slice? r.source (r.start + 1) stop

/-- Adds the lexeme as a token, and is back in the main loop. -/
def push? (r : Registers) (kind : Kind) (literal : Option Literal) : Option Head :=
  r.lexeme?.map fun lexeme =>
    ⟨.main, { r with tokens := r.tokens ++
      [⟨kind, lexeme, literal, r.startLine, ⟨r.start, r.current⟩⟩] }⟩

def pushString? (r : Registers) : Option Head :=
  r.inner?.bind fun body => r.push? .string (some (.text body))

/-- A number that cannot be read would be zero. -/
def pushNumber? (r : Registers) : Option Head :=
  r.lexeme?.bind fun lexeme =>
    r.push? .number (some (.number ((Binary64.read? lexeme).getD (.ofPattern 0))))

def pushWord? (r : Registers) : Option Head :=
  r.lexeme?.bind fun lexeme =>
    r.push? (((Keyword.ofText? lexeme).map Kind.keyword).getD .identifier) none

/-! ### Rounds -/

/-- What the first character of a lexeme leads to, once it was taken. -/
def dispatch? (r : Registers) (c : Char) : Option Head :=
  match Mark.ofChar? c, Mark.pairOfChar? c with
  | some m, _ => r.push? (.mark m) none
  | none, some (long, short) =>
      if r.peek? = some '=' then r.advance.push? (.mark long) none else r.push? (.mark short) none
  | none, none =>
      if c = '/' then
        if r.peek? = some '/' then some ⟨.comment, r.advance⟩ else r.push? (.mark .slash) none
      else if c = ' ' ∨ c = '\r' ∨ c = '\t' then some ⟨.main, r⟩
      else if c = '\n' then some ⟨.main, r.countLine⟩
      else if c = '"' then some ⟨.string, r⟩
      else if c.isDigit then some ⟨.digits, r⟩
      else if startsWord c then some ⟨.word, r⟩
      else some ⟨.main, r.report (.unexpectedCharacter r.line c)⟩

/-- The token that marks the end of the source, behind all others. -/
def finish (r : Registers) : Scan :=
  let stop := Text.byteLength r.source
  ⟨r.tokens ++ [⟨.endOfSource, [], none, r.line, ⟨stop, stop⟩⟩], r.faults⟩

def mainRound? (r : Registers) : Option Round :=
  if r.atEnd then some (.done r.finish)
  else match r.begin.peek? with
    | none => some (.next ⟨.main, r.begin⟩)
    | some c => (r.begin.advance.dispatch? c).map .next

/-- A comment leaves the end of its line to the main loop. -/
def commentRound (r : Registers) : Head :=
  if r.peek?.any (· != '\n') then ⟨.comment, r.advance⟩ else ⟨.main, r⟩

def stringRound? (r : Registers) : Option Head :=
  match r.peek? with
  | none => some ⟨.main, r.report (.unterminatedString r.line)⟩
  | some c =>
      if c = '"' then r.advance.pushString?
      else if c = '\n' then some ⟨.string, r.countLine.advance⟩
      else some ⟨.string, r.advance⟩

/-- A point belongs to a number only where a digit follows it. -/
def digitsRound? (r : Registers) : Option Head :=
  if r.peek?.any Char.isDigit then some ⟨.digits, r.advance⟩
  else if r.peek? = some '.' ∧ r.peekNext?.any Char.isDigit then some ⟨.fraction, r.advance⟩
  else r.pushNumber?

def fractionRound? (r : Registers) : Option Head :=
  if r.peek?.any Char.isDigit then some ⟨.fraction, r.advance⟩ else r.pushNumber?

def wordRound? (r : Registers) : Option Head :=
  if r.peek?.any continuesWord then some ⟨.word, r.advance⟩ else r.pushWord?

end Registers

namespace Head

def ofSource (source : Text) : Head := ⟨.main, .ofSource source⟩

/-- One round; `none` where a text is cut outside of the source or inside a character. -/
def round? (h : Head) : Option Round :=
  match h.loop with
  | .main => h.registers.mainRound?
  | .comment => some (.next h.registers.commentRound)
  | .string => h.registers.stringRound?.map .next
  | .digits => h.registers.digitsRound?.map .next
  | .fraction => h.registers.fractionRound?.map .next
  | .word => h.registers.wordRound?.map .next

/-- Whether the main loop goes round once more. -/
def opensRound (h : Head) : Bool := h.loop == .main && !h.registers.atEnd

end Head

/-- Rounds one after the other: the heads that are passed, down to a result. -/
inductive Runs : Head → List Head → Scan → Prop where
  | done {h : Head} {result : Scan} : h.round? = some (.done result) → Runs h [h] result
  | next {h h' : Head} {heads : List Head} {result : Scan} :
      h.round? = some (.next h') → Runs h' heads result → Runs h (h :: heads) result

end LoxTokens
