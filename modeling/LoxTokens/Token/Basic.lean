import LoxTokens.Binary64.Layout
import LoxTokens.Token.Kind

/-!
Tokens: a kind, the text it stands for, the value of a literal, and where it stands.

`Token.render` is the line under which a token is listed. `Token.agrees` compares tokens part by
part; it compares numbers as numbers, so a token that carries NaN differs from itself, and zeros of
both signs are equal.
-/

namespace LoxTokens

/-- The value that a literal token carries. -/
inductive Literal where
  | text (content : Text)
  | number (value : Binary64)
  deriving DecidableEq, Repr

/-- A range of bytes: from `start` up to but not including `stop`. -/
structure Span where
  start : Nat
  stop : Nat
  deriving DecidableEq, Repr

/-- A token. `line` is the line of its first character, counted from 1. -/
structure Token where
  kind : Kind
  lexeme : Text
  literal : Option Literal
  line : Nat
  span : Span
  deriving DecidableEq, Repr

namespace Span

def length (s : Span) : Nat := s.stop - s.start

def isEmpty (s : Span) : Bool := s.start == s.stop

end Span

namespace Literal

/-- Numbers are written in plain digits from 10^-4 up to 10^16, beyond that in scientific form. -/
def numberLayout : NumberLayout where
  leastPlain := -4
  greatestPlain := 15
  exponentMark := 'e'
  infinity := "inf"
  notANumber := "NaN"

/-- The text of a value: a string as it is, without quotes. -/
def render : Literal → Text
  | .text content => content
  | .number value => numberLayout.write value

/-- Equality of values, numbers being compared as numbers. -/
def agrees : Literal → Literal → Bool
  | .text a, .text b => a == b
  | .number a, .number b => a.agrees b
  | _, _ => false

end Literal

namespace Token

/-- The text of the value, or `null` where there is none. -/
def renderLiteral : Option Literal → Text
  | none => "null"
  | some l => l.render

/-- The line of a token in a listing: the name of its kind, its lexeme and its value. -/
def render (t : Token) : Text :=
  t.kind.name ++ [' '] ++ t.lexeme ++ [' '] ++ renderLiteral t.literal

/-- Equality of tokens in all five parts. -/
def agrees (a b : Token) : Bool :=
  a.kind == b.kind && a.lexeme == b.lexeme &&
    (match a.literal, b.literal with
      | none, none => true
      | some x, some y => x.agrees y
      | _, _ => false) &&
    a.line == b.line && a.span == b.span

end Token

end LoxTokens
