import LoxTokens.Proofs.TokenIdentity
import Mathlib.Algebra.GroupWithZero.Nat

/-!
The lines of a listing.

A listing ends the text of each token with a line end. That makes one line for each token as long as
no token has a line end in it. A string can: then its lexeme and its value, which are both shown as
they are, go over several lines each, and the listing has more lines than tokens.

* `NumberLayout.writes_write` — the characters of a number, none of which ends a line.
* `Token.Scanned.newlines_render` — a token shows each line end of its lexeme twice.
* `listing_lines` — what the lines of a listing are, and when they are one for each token.
-/

namespace LoxTokens

/-! ### The characters of a number -/

namespace NumberLayout

variable {layout : NumberLayout}

/-- The characters in which a layout writes numbers. -/
inductive Writes (layout : NumberLayout) (c : Char) : Prop where
  | digit : c.isDigit = true → Writes layout c
  | point : c = '.' → Writes layout c
  | sign : c = '-' → Writes layout c
  | exponentMark : c = layout.exponentMark → Writes layout c
  | infinity : c ∈ layout.infinity → Writes layout c
  | notANumber : c ∈ layout.notANumber → Writes layout c

theorem writes_toDigits {n : Nat} : ∀ c ∈ Nat.toDigits 10 n, layout.Writes c :=
  fun _ member => .digit (Nat.isDigit_of_mem_toDigits (by decide) (by decide) member)

theorem writes_zeros {n : Nat} : ∀ c ∈ List.replicate n '0', layout.Writes c := by
  intro c member
  rw [List.eq_of_mem_replicate member]
  exact .digit rfl

theorem writes_plain {digits : Text} (h : ∀ c ∈ digits, layout.Writes c) (lead : Int) :
    ∀ c ∈ plain digits lead, layout.Writes c := by
  have zero : layout.Writes '0' := .digit rfl
  have point : layout.Writes '.' := .point rfl
  have filled (n : Nat) : ∀ c ∈ digits ++ List.replicate n '0', layout.Writes c :=
    List.forall_mem_append.mpr ⟨h, writes_zeros⟩
  unfold plain
  split
  · rw [List.forall_mem_append, List.forall_mem_append]
    exact ⟨⟨by simp [zero, point], writes_zeros⟩, h⟩
  · dsimp only
    rw [List.forall_mem_append, List.forall_mem_append]
    refine ⟨⟨fun c member => filled _ c (List.mem_of_mem_take member), by simpa using point⟩, ?_⟩
    split
    · simpa using zero
    · exact fun c member => h c (List.mem_of_mem_drop member)

theorem writes_scientific {digits : Text} (h : ∀ c ∈ digits, layout.Writes c) (lead : Int) :
    ∀ c ∈ layout.scientific digits lead, layout.Writes c := by
  have point : layout.Writes '.' := .point rfl
  have power : ∀ c ∈ wholeText lead, layout.Writes c := by
    unfold wholeText
    split
    · exact List.forall_mem_cons.mpr ⟨.sign rfl, writes_toDigits⟩
    · exact writes_toDigits
  unfold scientific
  dsimp only
  rw [List.forall_mem_append, List.forall_mem_append]
  refine ⟨⟨?_, by simpa using .exponentMark rfl⟩, power⟩
  split <;> simp_all

theorem writes_decimal (d : Decimal) : ∀ c ∈ layout.decimal d, layout.Writes c := by
  unfold decimal
  dsimp only
  split
  · exact writes_plain writes_toDigits _
  · exact writes_scientific writes_toDigits _

theorem writes_write (x : Binary64) : ∀ c ∈ layout.write x, layout.Writes c := by
  unfold write
  split
  · exact fun c member => .notANumber member
  · dsimp only
    rw [List.forall_mem_append]
    constructor
    · split
      · simpa using .sign rfl
      · simp
    · split
      · exact writes_decimal _
      split
      · exact fun c member => .infinity member
      · exact writes_decimal _

end NumberLayout

/-! ### Line ends in tokens -/

theorem newlines_eq_zero_iff {t : Text} : Text.newlines t = 0 ↔ '\n' ∉ t := List.count_eq_zero

theorem newline_not_mem_write (x : Binary64) : '\n' ∉ Literal.numberLayout.write x := by
  intro member
  cases NumberLayout.writes_write x '\n' member with
  | digit h | point h | sign h | exponentMark h => exact absurd h (by decide)
  | infinity h | notANumber h => exact absurd h (by decide)

/-- A lexeme that is no string is within one line. -/
theorem Lexeme.newline_not_mem {t : Text} {kind : Kind} {literal : Option Literal}
    (h : Lexeme t kind literal) (noString : kind ≠ .string) : '\n' ∉ t :=
  h.separator_not_mem noString rfl

/-- The value of a lexeme shows as many line ends as the lexeme. -/
theorem Lexeme.newlines_renderLiteral {t : Text} {kind : Kind} {literal : Option Literal}
    (h : Lexeme t kind literal) :
    Text.newlines (Token.renderLiteral literal) = Text.newlines t := by
  by_cases string : kind = .string
  · subst string
    cases h with
    | string => simp [Token.renderLiteral, Literal.render, Text.newlines]
  · rw [newlines_eq_zero_iff.mpr (h.newline_not_mem string), newlines_eq_zero_iff]
    cases h with
    | mark | keyword | identifier =>
        show '\n' ∉ ("null" : Text)
        decide
    | string => contradiction
    | whole | decimal => exact newline_not_mem_write _

namespace Content.Lexical

variable {c : Content}

theorem newlines_renderLiteral (h : c.Lexical) :
    Text.newlines (Token.renderLiteral c.literal) = Text.newlines c.lexeme := by
  cases h with
  | lexeme lexical => exact lexical.newlines_renderLiteral
  | endOfSource => rfl

theorem kind_of_newline_mem (h : c.Lexical) (newline : '\n' ∈ c.lexeme) : c.kind = .string := by
  cases h with
  | lexeme lexical =>
      by_contra noString
      exact lexical.newline_not_mem noString newline
  | endOfSource => contradiction

end Content.Lexical

/-- A token shows each line end of its lexeme twice: in the lexeme and in the value. -/
theorem Token.Scanned.newlines_render {t : Token} (h : t.Scanned) :
    Text.newlines t.render = 2 * Text.newlines t.lexeme := by
  have name := newlines_eq_zero_iff.mpr (t.kind.separator_not_mem_name (c := '\n') rfl)
  have value : Text.newlines (renderLiteral t.literal) = Text.newlines t.lexeme :=
    h.lexical.newlines_renderLiteral
  have space : Text.newlines [' '] = 0 := rfl
  simp only [render, Text.newlines_append, name, space, value]
  omega

theorem Token.Scanned.newline_not_mem_render_iff {t : Token} (h : t.Scanned) :
    '\n' ∉ t.render ↔ '\n' ∉ t.lexeme := by
  have twice := h.newlines_render
  rw [← newlines_eq_zero_iff, ← newlines_eq_zero_iff]
  omega

/-! ### Lines of a text -/

/-- A text without line ends is one line, and each line end makes one more. -/
theorem length_splitOn_newline (t : Text) : (t.splitOn '\n').length = Text.newlines t + 1 := by
  induction t with
  | nil => rfl
  | cons c t ih =>
      rw [List.splitOn_cons_eq_if_modifyHead]
      by_cases newline : c = '\n'
      · subst newline
        simp [Text.newlines] at ih ⊢
        exact ih
      · simp [newline, Text.newlines] at ih ⊢
        exact ih

/-- The lines of texts that each stand before a line end. -/
theorem splitOn_flatMap_newline (ts : List Text) :
    (ts.flatMap fun t => t ++ ['\n']).splitOn '\n' = ts.flatMap (·.splitOn '\n') ++ [[]] := by
  induction ts with
  | nil => rfl
  | cons t ts ih =>
      rw [List.flatMap_cons, List.append_assoc, List.singleton_append,
        List.splitOn_append_cons_self, ih, List.flatMap_cons, List.append_assoc]

theorem newlines_flatMap_newline (ts : List Text) :
    Text.newlines (ts.flatMap fun t => t ++ ['\n']) = ts.length + (ts.map Text.newlines).sum := by
  induction ts with
  | nil => rfl
  | cons t ts ih =>
      have last : Text.newlines ['\n'] = 1 := rfl
      simp only [List.flatMap_cons, Text.newlines_append, last, ih, List.length_cons, List.map_cons,
        List.sum_cons]
      omega

/-! ### Lines of a listing -/

/-- What the lines of a text are that lists tokens. -/
structure ListsLines (tokens : List Token) (out : Text) : Prop where
  /-- They are the lines of the tokens, of which each starts on a new line. -/
  lines : out.splitOn '\n' = tokens.flatMap (fun t => t.render.splitOn '\n') ++ [[]]
  /-- A token ends one line, and two more for each line end in its lexeme. -/
  count : Text.newlines out = tokens.length + (tokens.map fun t => 2 * Text.newlines t.lexeme).sum
  /-- Only a string has a line end in it. -/
  strings : ∀ t ∈ tokens, '\n' ∈ t.lexeme → t.kind = .string
  /-- There are as many lines as tokens exactly where no token has a line end in it, -/
  asMany : Text.newlines out = tokens.length ↔ ∀ t ∈ tokens, '\n' ∉ t.lexeme
  /-- and then each line is that of one token. -/
  oneEach : out.splitOn '\n' = tokens.map Token.render ++ [[]] ↔ ∀ t ∈ tokens, '\n' ∉ t.lexeme

/-- The texts of tokens, each with a line end behind it. -/
theorem ListsLines.of_scanned {tokens : List Token} (scanned : ∀ t ∈ tokens, t.Scanned) :
    ListsLines tokens (tokens.flatMap Token.listed) := by
  have listed : tokens.flatMap Token.listed = (tokens.map Token.render).flatMap (· ++ ['\n']) := by
    rw [List.flatMap_map]
    rfl
  have twice : (tokens.map Token.render).map Text.newlines =
      tokens.map fun t => 2 * Text.newlines t.lexeme := by
    rw [List.map_map]
    exact List.map_congr_left fun t member => (scanned t member).newlines_render
  have lines := splitOn_flatMap_newline (tokens.map Token.render)
  have count := newlines_flatMap_newline (tokens.map Token.render)
  rw [← listed, List.flatMap_map] at lines
  rw [← listed, List.length_map, twice] at count
  have asMany : Text.newlines (tokens.flatMap Token.listed) = tokens.length ↔
      ∀ t ∈ tokens, '\n' ∉ t.lexeme := by
    rw [count, Nat.add_eq_left, List.sum_eq_zero_iff_forall_eq_nat, List.forall_mem_map]
    refine forall₂_congr fun t _ => ?_
    rw [← newlines_eq_zero_iff]
    omega
  refine ⟨lines, count, fun t member => (scanned t member).lexical.kind_of_newline_mem, asMany, ?_⟩
  constructor
  · intro oneEach
    apply asMany.mp
    have length := length_splitOn_newline (tokens.flatMap Token.listed)
    rw [oneEach, List.length_append, List.length_map] at length
    exact (Nat.add_right_cancel length).symm
  · intro within
    rw [lines, List.map_eq_flatMap]
    congr 1
    apply List.flatMap_congr
    intro t member
    exact List.splitOn_eq_singleton
      ((scanned t member).newline_not_mem_render_iff.mpr (within t member))

/-- **Lines of a listing.** Whatever is written for a source, with colours or without, are the lines
of its tokens in order. They are one for each token exactly where no string of the source spans
lines. -/
theorem listing_lines (colored : Bool) (source : Text) :
    ∃ out, (list colored source {} {}).out.held.toList = Utf8.encode out ∧
      ListsLines (scan source).tokens out :=
  ⟨listing source, (list_unlimited colored source).1, .of_scanned fun _ member => ⟨source, member⟩⟩

/-- A string with a line end in it: two tokens, and four lines. -/
theorem spanning_string_lists_four_lines :
    (scan "\"\n\"").tokens.length = 2 ∧
      (list false "\"\n\"" {} {}).out.held.toList = Utf8.encode "STRING \"\n\" \n\nEOF  null\n" ∧
      Text.newlines "STRING \"\n\" \n\nEOF  null\n" = 4 := by
  refine ⟨?_, ?_, ?_⟩ <;> decide +kernel

end LoxTokens
