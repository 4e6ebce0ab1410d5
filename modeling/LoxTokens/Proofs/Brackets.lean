import LoxTokens.Session.Entry
import Mathlib.Data.List.Induction

/-!
Which brackets an entry leaves open.

`Brackets.of` matches the brackets of tokens: a closing one closes the last opening one that is still
open, of either shape, and is surplus where there is none. An entry should go on as long as a bracket
is open. It is decided by `Entry.depth`, a count that a surplus closing bracket lowers too, so it
makes up for an opening one that comes after it.

* `Brackets.depth_eq` — the count is the number of open brackets less that of surplus ones.
* `Entry.needsMore_of_brackets` — which entries go on, and which ones end with a bracket open.
-/

namespace LoxTokens

namespace Token

def opens (t : Token) : Bool := t.kind == .mark .leftParen || t.kind == .mark .leftBrace

def closes (t : Token) : Bool := t.kind == .mark .rightParen || t.kind == .mark .rightBrace

variable {t : Token}

theorem nesting_of_opens (h : t.opens = true) : t.nesting = 1 := by
  simp only [opens, Bool.or_eq_true, beq_iff_eq] at h
  rcases h with h | h <;> rw [nesting, h] <;> rfl

theorem nesting_of_closes (h : t.closes = true) : t.nesting = -1 := by
  simp only [closes, Bool.or_eq_true, beq_iff_eq] at h
  rcases h with h | h <;> rw [nesting, h] <;> rfl

theorem nesting_of_neither (h : t.opens = false) (h' : t.closes = false) : t.nesting = 0 := by
  simp only [opens, closes, Bool.or_eq_false_iff, beq_eq_false_iff_ne] at h h'
  unfold nesting
  split
  · next m same => cases m <;> simp_all [Mark.nesting]
  · rfl

end Token

/-- The brackets that were not matched: opening ones, the last one first, and closing ones that found
none to close. -/
structure Brackets where
  opened : List Token
  surplus : List Token
  deriving DecidableEq, Repr

namespace Brackets

/-- What is unmatched with one more token. -/
def take (b : Brackets) (t : Token) : Brackets :=
  if t.opens then { b with opened := t :: b.opened }
  else if t.closes then
    match b.opened with
    | [] => { b with surplus := t :: b.surplus }
    | _ :: outer => { b with opened := outer }
  else b

/-- The unmatched brackets of tokens. -/
def of (tokens : List Token) : Brackets := tokens.foldl take ⟨[], []⟩

@[simp] theorem of_concat (tokens : List Token) (t : Token) :
    of (tokens ++ [t]) = (of tokens).take t := by
  simp [of]

/-- What one token does: it opens a bracket, or closes the last one, or is surplus, or is none. -/
theorem take_cases (b : Brackets) (t : Token) :
    (t.nesting = 1 ∧ b.take t = ⟨t :: b.opened, b.surplus⟩) ∨
    (t.nesting = -1 ∧ ∃ last outer, b.opened = last :: outer ∧ b.take t = ⟨outer, b.surplus⟩) ∨
    (t.nesting = -1 ∧ b.opened = [] ∧ b.take t = ⟨[], t :: b.surplus⟩) ∨
    (t.nesting = 0 ∧ b.take t = b) := by
  cases opens : t.opens with
  | true => exact .inl ⟨Token.nesting_of_opens opens, by simp [take, opens]⟩
  | false =>
      cases closes : t.closes with
      | false => exact .inr (.inr (.inr ⟨Token.nesting_of_neither opens closes, by simp [take, *]⟩))
      | true =>
          have lowers := Token.nesting_of_closes closes
          obtain ⟨_ | ⟨last, outer⟩, surplus⟩ := b
          · exact .inr (.inr (.inl ⟨lowers, rfl, by simp [take, *]⟩))
          · exact .inr (.inl ⟨lowers, last, outer, rfl, by simp [take, *]⟩)

/-- The number of open brackets less that of surplus ones follows the nesting. -/
theorem take_balance (b : Brackets) (t : Token) :
    ((b.take t).opened.length : Int) - (b.take t).surplus.length =
      b.opened.length - b.surplus.length + t.nesting := by
  rcases take_cases b t with ⟨nesting, after⟩ | ⟨nesting, last, outer, before, after⟩ |
      ⟨nesting, before, after⟩ | ⟨nesting, after⟩ <;>
    simp only [*, List.length_cons, List.length_nil] <;> omega

end Brackets

namespace Entry

@[simp] theorem depth_concat (tokens : List Token) (t : Token) :
    depth (tokens ++ [t]) = depth tokens + t.nesting := by
  induction tokens with
  | nil => simp [depth]
  | cons u tokens ih =>
      have later : depth (u :: (tokens ++ [t])) = u.nesting + depth (tokens ++ [t]) := rfl
      rw [List.cons_append, later, ih, ← Int.add_assoc]
      rfl

end Entry

namespace Brackets

open Entry (depth depth_concat)

/-- The count of tokens is the number of brackets left open less that of surplus ones. -/
theorem depth_eq (tokens : List Token) :
    depth tokens = (of tokens).opened.length - (of tokens).surplus.length := by
  induction tokens using List.reverseRecOn with
  | nil => rfl
  | append_singleton tokens t ih => rw [depth_concat, of_concat, take_balance, ih]

end Brackets

namespace Entry

/-- A string of a text is not closed. -/
def StringOpen (input : Text) : Prop := ∃ line, .unterminatedString line ∈ (scan input).faults

/-- Why a text should go on: a string is open, or a bracket is. -/
def Unclosed (input : Text) : Prop :=
  StringOpen input ∨ (Brackets.of (scan input).tokens).opened ≠ []

theorem any_leavesStringOpen_iff {input : Text} :
    (scan input).faults.any Fault.leavesStringOpen = true ↔ StringOpen input := by
  rw [List.any_eq_true]
  constructor
  · rintro ⟨_ | line, member, opened⟩
    · contradiction
    · exact ⟨line, member⟩
  · rintro ⟨line, member⟩
    exact ⟨_, member, rfl⟩

theorem needsMore_iff {input : Text} :
    needsMore input = true ↔ Command.parse? input = none ∧
      (StringOpen input ∨ 0 < depth (scan input).tokens) := by
  rw [← any_leavesStringOpen_iff]
  cases command : Command.parse? input <;> simp [needsMore, command]

/-- **Where an entry goes on.** It goes on only where it is no command and where something is left
open. It ends too early where brackets are all that is open, and no more of them than there are
surplus ones. -/
theorem needsMore_of_brackets (input : Text) :
    (needsMore input = true → Command.parse? input = none ∧ Unclosed input) ∧
      (Command.parse? input = none → Unclosed input →
        (needsMore input = false ↔ ¬ StringOpen input ∧
          (Brackets.of (scan input).tokens).opened.length ≤
            (Brackets.of (scan input).tokens).surplus.length)) := by
  have count := Brackets.depth_eq (scan input).tokens
  constructor
  · intro more
    obtain ⟨plain, opened | positive⟩ := needsMore_iff.mp more
    · exact ⟨plain, .inl opened⟩
    · exact ⟨plain, .inr (by rw [← List.length_pos_iff]; omega)⟩
  · intro plain _
    rw [← Bool.not_eq_true, needsMore_iff, not_and, not_or]
    constructor
    · intro ends
      obtain ⟨closed, none⟩ := ends plain
      exact ⟨closed, by omega⟩
    · rintro ⟨closed, few⟩ -
      exact ⟨closed, by omega⟩

/-- A parenthesis is left open, and its entry does not go on: a surplus one stands before it. -/
theorem surplus_hides_open :
    Command.parse? ")(" = none ∧ Unclosed ")(" ∧ needsMore ")(" = false := by
  refine ⟨rfl, .inr ?_, ?_⟩ <;> decide +kernel

end Entry

end LoxTokens
