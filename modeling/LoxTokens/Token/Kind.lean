import LoxTokens.Text.Basic

/-!
The kinds of tokens.

A mark or a keyword has one spelling; identifiers, strings and numbers are open classes, and the end
of the source closes every list of tokens. Spellings are unique: `Keyword.ofText?_spelling`.
-/

namespace LoxTokens

/-- Punctuation and operators. -/
inductive Mark where
  | leftParen | rightParen | leftBrace | rightBrace
  | comma | dot | minus | plus | semicolon | slash | star
  | bang | bangEqual | equal | equalEqual | greater | greaterEqual | less | lessEqual
  deriving DecidableEq, Repr

/-- The reserved words. -/
inductive Keyword where
  | and_ | class_ | else_ | false_ | fun_ | for_ | if_ | nil_
  | or_ | print_ | return_ | super_ | this_ | true_ | var_ | while_
  deriving DecidableEq, Repr

inductive Kind where
  | mark (mark : Mark)
  | identifier
  | string
  | number
  | keyword (word : Keyword)
  | endOfSource
  deriving DecidableEq, Repr

namespace Mark

def all : List Mark :=
  [.leftParen, .rightParen, .leftBrace, .rightBrace, .comma, .dot, .minus, .plus, .semicolon,
   .slash, .star, .bang, .bangEqual, .equal, .equalEqual, .greater, .greaterEqual, .less,
   .lessEqual]

/-- How a mark is written in a source. -/
def spelling : Mark → Text
  | .leftParen => "("
  | .rightParen => ")"
  | .leftBrace => "\x7b"
  | .rightBrace => "\x7d"
  | .comma => ","
  | .dot => "."
  | .minus => "-"
  | .plus => "+"
  | .semicolon => ";"
  | .slash => "/"
  | .star => "*"
  | .bang => "!"
  | .bangEqual => "!="
  | .equal => "="
  | .equalEqual => "=="
  | .greater => ">"
  | .greaterEqual => ">="
  | .less => "<"
  | .lessEqual => "<="

/-- The name under which a mark is listed. -/
def name : Mark → Text
  | .leftParen => "LEFT_PAREN"
  | .rightParen => "RIGHT_PAREN"
  | .leftBrace => "LEFT_BRACE"
  | .rightBrace => "RIGHT_BRACE"
  | .comma => "COMMA"
  | .dot => "DOT"
  | .minus => "MINUS"
  | .plus => "PLUS"
  | .semicolon => "SEMICOLON"
  | .slash => "SLASH"
  | .star => "STAR"
  | .bang => "BANG"
  | .bangEqual => "BANG_EQUAL"
  | .equal => "EQUAL"
  | .equalEqual => "EQUAL_EQUAL"
  | .greater => "GREATER"
  | .greaterEqual => "GREATER_EQUAL"
  | .less => "LESS"
  | .lessEqual => "LESS_EQUAL"

theorem mem_all (m : Mark) : m ∈ all := by cases m <;> decide

end Mark

namespace Keyword

/-- All keywords, in the order in which they are offered for completion. -/
def all : List Keyword :=
  [.and_, .class_, .else_, .false_, .fun_, .for_, .if_, .nil_,
   .or_, .print_, .return_, .super_, .this_, .true_, .var_, .while_]

/-- How a keyword is written in a source. -/
def spelling : Keyword → Text
  | .and_ => "and"
  | .class_ => "class"
  | .else_ => "else"
  | .false_ => "false"
  | .fun_ => "fun"
  | .for_ => "for"
  | .if_ => "if"
  | .nil_ => "nil"
  | .or_ => "or"
  | .print_ => "print"
  | .return_ => "return"
  | .super_ => "super"
  | .this_ => "this"
  | .true_ => "true"
  | .var_ => "var"
  | .while_ => "while"

/-- The name under which a keyword is listed. -/
def name (k : Keyword) : Text := k.spelling.map Char.toUpper

/-- The keyword that a word spells exactly, if any. -/
def ofText? (word : Text) : Option Keyword := all.find? fun k => k.spelling == word

theorem mem_all (k : Keyword) : k ∈ all := by cases k <;> decide

@[simp] theorem ofText?_spelling (k : Keyword) : ofText? k.spelling = some k := by
  cases k <;> decide

theorem spelling_of_ofText? {word : Text} {k : Keyword} (h : ofText? word = some k) :
    k.spelling = word := by
  simpa using List.find?_some h

/-- A word is a keyword exactly where it is the spelling of one. -/
theorem ofText?_eq_some_iff {word : Text} {k : Keyword} :
    ofText? word = some k ↔ word = k.spelling :=
  ⟨fun h => (spelling_of_ofText? h).symm, fun h => h ▸ ofText?_spelling k⟩

end Keyword

namespace Kind

def all : List Kind :=
  Mark.all.map .mark ++ [.identifier, .string, .number] ++ Keyword.all.map .keyword ++
    [.endOfSource]

/-- The name under which a token is listed. -/
def name : Kind → Text
  | .mark m => m.name
  | .identifier => "IDENTIFIER"
  | .string => "STRING"
  | .number => "NUMBER"
  | .keyword k => k.name
  | .endOfSource => "EOF"

/-- The kind that is listed under a name. -/
def ofName? (name : Text) : Option Kind := all.find? fun k => k.name == name

/-- Whether tokens of this kind are reserved words. -/
def isKeyword : Kind → Bool
  | .keyword _ => true
  | _ => false

/-- Whether tokens of this kind carry a value. -/
def isLiteral : Kind → Bool
  | .string | .number => true
  | _ => false

theorem mem_all (k : Kind) : k ∈ all := by
  cases k with
  | mark m => simp [all, Mark.mem_all m]
  | keyword k => simp [all, Keyword.mem_all k]
  | _ => simp [all]

@[simp] theorem ofName?_name (k : Kind) : ofName? k.name = some k := by
  cases k with
  | mark m => cases m <;> decide
  | keyword k => cases k <;> decide
  | _ => decide

/-- Kinds with one name are one kind. -/
theorem name_inj {a b : Kind} : a.name = b.name ↔ a = b :=
  ⟨fun h => Option.some.inj (by rw [← ofName?_name a, h, ofName?_name]), fun h => h ▸ rfl⟩

end Kind

end LoxTokens
