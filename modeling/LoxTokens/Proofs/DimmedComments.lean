import LoxTokens.Proofs.Highlighting
import LoxTokens.Proofs.PieceEnds

/-!
Which characters of a text are dimmed.

Comments should be dimmed and tokens be shown in the style of their kind, and all else should be
left as it is (`Piece.style?`). But colouring looks for two slashes in what stands between two
tokens, and not for a comment. So more than the comments is dimmed: behind a comment the whole rest
of its gap, from the line end on, and a string that is never closed from the first two slashes in it
on.

* `Highlight.shades_segmentRuns` — the style of every character, by induction on the pieces.
* `Highlight.shadesFrom_eq_iff` — it is the one it should be where each comment ends the text and no
  unclosed string has two slashes in it.
-/

namespace LoxTokens

/-! ### Characters with their styles -/

/-- A character and the style it is shown in. -/
abbrev Shade := Char × Option Style

/-- The characters of a text in one style. -/
def shaded (style : Option Style) (t : Text) : List Shade := t.map fun c => (c, style)

@[simp] theorem shaded_nil (style : Option Style) : shaded style [] = [] := rfl

@[simp] theorem shaded_cons (style : Option Style) (c : Char) (t : Text) :
    shaded style (c :: t) = (c, style) :: shaded style t := rfl

@[simp] theorem shaded_append (style : Option Style) (s t : Text) :
    shaded style (s ++ t) = shaded style s ++ shaded style t := List.map_append

namespace StyledRun

/-- The characters that runs show. -/
def shades (runs : List StyledRun) : List Shade := runs.flatMap fun r => shaded r.style r.text

@[simp] theorem shades_nil : shades [] = [] := rfl

@[simp] theorem shades_cons (r : StyledRun) (runs : List StyledRun) :
    shades (r :: runs) = shaded r.style r.text ++ shades runs := rfl

@[simp] theorem shades_append (runs more : List StyledRun) :
    shades (runs ++ more) = shades runs ++ shades more := List.flatMap_append

end StyledRun

/-! ### Styles read back from what is shown -/

/-- The characters of signs, each with the code that is set where it stands. -/
def Sign.coded : Option Text → List Sign → List (Char × Option Text)
  | _, [] => []
  | code, .character c :: rest => (c, code) :: coded code rest
  | _, .sequence code :: rest => coded (if Style.undoes code then none else some code) rest

/-- A character and the code of the style it is shown in. -/
def Shade.coded (s : Shade) : Char × Option Text := (s.1, s.2.map (·.opening))

theorem Sign.coded_characters (code : Option Text) (t : Text) (rest : List Sign) :
    coded code (t.map .character ++ rest) = t.map (fun c => (c, code)) ++ coded code rest := by
  induction t with
  | nil => rfl
  | cons c t ih => rw [List.map_cons, List.cons_append, coded, ih, List.map_cons, List.cons_append]

/-- What sets a style does not undo one, and what undoes it sets none. -/
theorem Style.undoes_of_undoes {opening closing : Text} (h : Undoes opening closing) :
    undoes opening = false ∧ undoes closing = true := by
  cases h with
  | all sets => exact ⟨sets, rfl⟩
  | hue listed =>
      have none : hueCodes.all (fun code => !undoes code) = true := by decide
      exact ⟨by simpa using List.all_eq_true.mp none opening listed, rfl⟩

namespace StyledRun

theorem coded_signs {r : StyledRun} (h : r.Readable) (rest : List Sign) :
    Sign.coded none (r.signs ++ rest) =
      (shaded r.style r.text).map Shade.coded ++ Sign.coded none rest := by
  have characters (style : Option Style) : (shaded style r.text).map Shade.coded =
      r.text.map fun c => (c, style.map (·.opening)) := by
    rw [shaded, List.map_map]
    rfl
  rw [characters, signs]
  split
  · next none => rw [none, Sign.coded_characters, Option.map_none]
  · next style same =>
      obtain ⟨sets, ends⟩ := Style.undoes_of_undoes (h.undone style same).undoes
      rw [same, List.cons_append, List.cons_append, Sign.coded, sets, if_neg Bool.false_ne_true,
        List.append_assoc, Sign.coded_characters, List.singleton_append, Sign.coded, ends,
        if_pos rfl]
      rfl

/-- From painted runs the style of each character can be read back. -/
theorem coded_paintAll {runs : List StyledRun} (h : ∀ r ∈ runs, r.Readable) :
    Sign.coded none (Sign.ofText (paintAll true runs)) = (shades runs).map Shade.coded := by
  rw [ofText_paintAll h]
  induction runs with
  | nil => rfl
  | cons r runs ih =>
      rw [List.forall_mem_cons] at h
      rw [List.flatMap_cons, coded_signs h.1, ih h.2, shades_cons, List.map_append]

end StyledRun

/-! ### The characters of pieces -/

namespace Piece

/-- The style in which a piece should be shown. -/
def style? : Piece → Option Style
  | .comment _ => some .dimmed
  | p => p.kind?.bind Kind.style?

/-- The characters of a piece as they are shown. `dim` says whether a comment stands before it in
its gap. -/
def shades (dim : Bool) : Piece → List Shade
  | .blank c | .stray c => shaded (if dim then some .dimmed else none) [c]
  | .openString body =>
      if dim then shaded (some .dimmed) ('"' :: body)
      else
        let (before, after) := Highlight.splitAtSlashes body
        shaded none ('"' :: before) ++ shaded (some .dimmed) after
  | p => shaded p.style? p.text

/-- Whether what follows a piece in its gap is dimmed. A token ends the gap. -/
def dims (dim : Bool) : Piece → Bool
  | .comment _ => true
  | .blank _ | .stray _ | .openString _ => dim
  | .mark _ | .string _ | .number .. | .word _ => false

end Piece

namespace Highlight

/-- The characters of pieces as they are shown. -/
def shadesFrom : Bool → List Piece → List Shade
  | _, [] => []
  | dim, p :: ps => p.shades dim ++ shadesFrom (p.dims dim) ps

/-- The characters of pieces as they should be shown. -/
def meant (ps : List Piece) : List Shade := ps.flatMap fun p => shaded p.style? p.text

@[simp] theorem meant_cons (p : Piece) (ps : List Piece) :
    meant (p :: ps) = shaded p.style? p.text ++ meant ps := rfl

/-! ### Two slashes in a row -/

/-- Whether a text starts with two slashes. -/
def StartsSlashes (c : Char) (rest : Text) : Prop := c = '/' ∧ rest.head? = some '/'

theorem splitAtSlashes_of_starts {c : Char} {rest : Text} (h : StartsSlashes c rest) :
    splitAtSlashes (c :: rest) = ([], c :: rest) := by
  obtain ⟨rfl, second⟩ := h
  obtain ⟨more, rfl⟩ := List.head?_eq_some_iff.mp second
  rfl

theorem splitAtSlashes_cons {c : Char} {rest : Text} (h : ¬ StartsSlashes c rest) :
    splitAtSlashes (c :: rest) = (c :: (splitAtSlashes rest).1, (splitAtSlashes rest).2) := by
  rw [splitAtSlashes.eq_def]
  split
  · contradiction
  · next start =>
      obtain ⟨rfl, rfl⟩ := List.cons.inj start
      exact absurd ⟨rfl, rfl⟩ h
  · next start =>
      obtain ⟨rfl, rfl⟩ := List.cons.inj start
      rfl

theorem splitAtSlashes_singleton (c : Char) : splitAtSlashes [c] = ([c], []) := by
  apply splitAtSlashes_cons
  rintro ⟨-, second⟩
  contradiction

/-- What follows the first two slashes of a text is cut off with them. -/
theorem splitAtSlashes_append_of_slashes {s : Text} (h : (splitAtSlashes s).2 ≠ []) (t : Text) :
    splitAtSlashes (s ++ t) = ((splitAtSlashes s).1, (splitAtSlashes s).2 ++ t) := by
  induction s with
  | nil => contradiction
  | cons c s ih =>
      have front (nonempty : s ≠ []) : StartsSlashes c (s ++ t) ↔ StartsSlashes c s := by
        rw [StartsSlashes, List.head?_append_of_ne_nil _ nonempty, StartsSlashes]
      by_cases starts : StartsSlashes c s
      · have nonempty : s ≠ [] := by
          rintro rfl
          simp [StartsSlashes] at starts
        rw [splitAtSlashes_of_starts starts, List.cons_append,
          splitAtSlashes_of_starts ((front nonempty).mpr starts)]
      · rw [splitAtSlashes_cons starts] at h ⊢
        have nonempty : s ≠ [] := by
          rintro rfl
          contradiction
        rw [List.cons_append, splitAtSlashes_cons ((front nonempty).not.mpr starts), ih h]

/-- Where neither two slashes nor a single one at the end have been passed, all that was passed
stays in front. -/
theorem splitAtSlashes_append {s : Text} (none : (splitAtSlashes s).2 = [])
    (last : s.getLast? ≠ some '/') (t : Text) :
    splitAtSlashes (s ++ t) = (s ++ (splitAtSlashes t).1, (splitAtSlashes t).2) := by
  induction s with
  | nil => rfl
  | cons c s ih =>
      have apart : ¬ StartsSlashes c s := by
        intro starts
        rw [splitAtSlashes_of_starts starts] at none
        contradiction
      have behind : ¬ StartsSlashes c (s ++ t) := by
        rintro ⟨slash, second⟩
        cases s with
        | nil => exact last (by rw [slash]; rfl)
        | cons d s => exact apart ⟨slash, second⟩
      rw [splitAtSlashes_cons apart] at none
      have later : s.getLast? ≠ some '/' := by
        intro slash
        apply last
        rw [List.getLast?_cons, slash]
        rfl
      rw [List.cons_append, splitAtSlashes_cons behind, ih none later]
      rfl

/-- Nothing is cut off exactly where no two slashes stand in a row. -/
theorem splitAtSlashes_eq_nil_iff {t : Text} :
    (splitAtSlashes t).2 = [] ↔ ¬ ['/', '/'] <:+: t := by
  induction t with
  | nil => simp [splitAtSlashes]
  | cons c t ih =>
      have front : ['/', '/'] <+: c :: t ↔ StartsSlashes c t := by
        rw [List.cons_prefix_cons, StartsSlashes, eq_comm]
        cases t <;> simp [eq_comm]
      rw [List.infix_cons_iff, front, not_or, ← ih]
      by_cases starts : StartsSlashes c t
      · simp [splitAtSlashes_of_starts starts, starts]
      · simp [splitAtSlashes_cons starts, starts]

/-! ### The characters of gaps -/

theorem shades_gapRuns (gap : Text) :
    StyledRun.shades (gapRuns gap) =
      shaded none (splitAtSlashes gap).1 ++ shaded (some .dimmed) (splitAtSlashes gap).2 := by
  unfold gapRuns
  split
  next before after split =>
    rw [split]
    cases after <;> simp [StyledRun.bare]

/-- What has been passed of a gap: with `dim` two slashes, and without it none, nor a slash that
another one could follow. -/
def Passed (dim : Bool) (passed : Text) : Prop :=
  if dim then (splitAtSlashes passed).2 ≠ []
  else (splitAtSlashes passed).2 = [] ∧ passed.getLast? ≠ some '/'

/-- Behind two slashes all is dimmed, and before them a text is shown as if it were the gap. -/
theorem shades_gapRuns_append {dim : Bool} {passed : Text} (h : Passed dim passed) (t : Text) :
    StyledRun.shades (gapRuns (passed ++ t)) = StyledRun.shades (gapRuns passed) ++
      if dim then shaded (some .dimmed) t else StyledRun.shades (gapRuns t) := by
  rw [shades_gapRuns, shades_gapRuns, shades_gapRuns]
  cases dim with
  | true => simp [splitAtSlashes_append_of_slashes h]
  | false =>
      have whole := append_splitAtSlashes passed
      rw [h.1, List.append_nil] at whole
      simp [splitAtSlashes_append h.1 h.2, h.1, whole]

/-- A piece that is no token is shown like its text as a gap, or dimmed. -/
theorem shades_of_no_token {p : Piece} (h : p.kind? = none) (dim : Bool) :
    p.shades dim =
      if dim then shaded (some .dimmed) p.text else StyledRun.shades (gapRuns p.text) := by
  rw [shades_gapRuns]
  cases p with
  | blank c | stray c =>
      rw [Piece.text, splitAtSlashes_singleton]
      cases dim <;> rfl
  | comment body => cases dim <;> rfl
  | openString body =>
      have apart : ¬ StartsSlashes '"' body := fun starts => absurd starts.1 (by decide)
      cases dim with
      | true => rfl
      | false => rw [Piece.text, splitAtSlashes_cons apart]; rfl
  | mark | string | number | word => contradiction

section Passed

variable {dim : Bool} {passed : Text}

theorem Passed.append (h : Passed true passed) (t : Text) : Passed true (passed ++ t) := by
  rw [Passed, if_pos rfl] at h ⊢
  simp [splitAtSlashes_append_of_slashes h, h]

theorem Passed.append_singleton (h : Passed dim passed) {c : Char} (noSlash : c ≠ '/') :
    Passed dim (passed ++ [c]) := by
  cases dim with
  | true => exact h.append _
  | false =>
      refine ⟨?_, by simpa using noSlash⟩
      rw [splitAtSlashes_append h.1 h.2, splitAtSlashes_singleton]

theorem Passed.append_slashes (h : Passed dim passed) (body : Text) :
    Passed true (passed ++ '/' :: '/' :: body) := by
  cases dim with
  | true => exact h.append _
  | false =>
      rw [Passed, if_pos rfl, splitAtSlashes_append h.1 h.2]
      exact List.cons_ne_nil _ _

theorem passed_nil : Passed false [] := ⟨rfl, by simp⟩

end Passed

/-- The pieces of a gap that others can follow leave it passed. -/
theorem Passed.append_piece {dim : Bool} {passed : Text} (h : Passed dim passed) {p : Piece}
    (formed : p.WellFormed) (gap : p.kind? = none) (closed : ∀ body, p ≠ .openString body) :
    Passed (p.dims dim) (passed ++ p.text) := by
  cases p with
  | blank c =>
      apply h.append_singleton
      rintro rfl
      have listed : '/' ∈ [' ', '\t', '\r', '\n'] := formed
      exact absurd listed (by decide)
  | stray c =>
      apply h.append_singleton
      rintro rfl
      exact formed.2 [] (matches_mark .slash)
  | comment body => exact h.append_slashes body
  | openString body => exact absurd rfl (closed body)
  | mark | string | number | word => contradiction

/-! ### The characters of a text -/

/-- A token is shown in the style of its kind, and nothing behind it is dimmed for what is before. -/
theorem shades_of_token {p : Piece} {kind : Kind} (h : p.kind? = some kind) (dim : Bool) :
    p.shades dim = shaded kind.style? p.text ∧ p.dims dim = false := by
  have style : p.kind?.bind Kind.style? = kind.style? := by rw [h, Option.bind_some]
  rw [← style]
  cases p with
  | mark | string | number | word => exact ⟨rfl, rfl⟩
  | blank | comment | stray | openString => contradiction

/-- Behind an unclosed string there is no other piece. -/
theorem eq_nil_of_openString {body : Text} {ps : List Piece}
    (settled : Settled (.openString body :: ps) []) : ps = [] := by
  have stays := Piece.not_grows_of_first? settled.1
  cases ps with
  | nil => rfl
  | cons p ps =>
      have nonempty := Piece.text_ne_nil settled.2.1
      simp [Piece.grows, nonempty] at stays

/-- Colouring shows the pieces of a text one by one, where `passed` is the part of a gap that stands
before them. -/
theorem shades_segmentRuns {ps : List Piece} (settled : Settled ps []) {dim : Bool} {passed : Text}
    (before : Passed dim passed) (offset line : Nat) :
    StyledRun.shades (segmentRuns passed (segmentsFrom offset line ps)) =
      StyledRun.shades (gapRuns passed) ++ shadesFrom dim ps := by
  induction ps generalizing passed dim offset line with
  | nil => simp [segmentsFrom, segmentRuns, shadesFrom]
  | cons p ps ih =>
      rw [segmentsFrom, segmentRuns, shadesFrom]
      -- a token ends the gap, and any other piece joins it
      cases kind : p.kind? with
      | some kind =>
          obtain ⟨shades, ended⟩ := shades_of_token kind dim
          have fresh : StyledRun.shades (gapRuns []) = [] := rfl
          rw [shades, ended]
          simp [ih settled.2 passed_nil, fresh]
      | none =>
          have joined : StyledRun.shades (gapRuns (passed ++ p.text)) =
              StyledRun.shades (gapRuns passed) ++ p.shades dim := by
            rw [shades_gapRuns_append before, shades_of_no_token kind]
          by_cases opened : ∃ body, p = .openString body
          · obtain ⟨body, rfl⟩ := opened
            obtain rfl := eq_nil_of_openString settled
            simpa [segmentsFrom, segmentRuns, shadesFrom] using joined
          · have formed := settled.wellFormed p List.mem_cons_self
            have passed := before.append_piece formed kind (not_exists.mp opened)
            dsimp only
            rw [ih settled.2 passed, joined, List.append_assoc]

theorem shades_sourceRuns (t : Text) :
    StyledRun.shades (sourceRuns t) = shadesFrom false (pieces t) := by
  have nothing : StyledRun.shades (gapRuns []) = [] := rfl
  rw [sourceRuns, course, Cursor.start, Cursor.course_eq,
    shades_segmentRuns (settled_pieces t) passed_nil, nothing, List.nil_append]

/-! ### Where only comments are dimmed -/

/-- A comment comes last, and no unclosed string has in it what looks like one. -/
structure CommentLast (ps : List Piece) : Prop where
  last : ∀ body, .comment body ∉ ps.dropLast
  strings : ∀ body, .openString body ∈ ps → ¬ ['/', '/'] <:+: body

theorem commentLast_cons {p : Piece} {ps : List Piece} (noComment : ∀ body, p ≠ .comment body)
    (closed : ∀ body, p ≠ .openString body) : CommentLast (p :: ps) ↔ CommentLast ps := by
  have last (body : Text) : .comment body ∈ (p :: ps).dropLast ↔ .comment body ∈ ps.dropLast := by
    cases ps with
    | nil => simp
    | cons q ps => simp [List.dropLast_cons_cons, (noComment body).symm]
  have strings (body : Text) : .openString body ∈ p :: ps ↔ .openString body ∈ ps := by
    simp [(closed body).symm]
  constructor
  · rintro ⟨noOther, none⟩
    exact ⟨fun body => (last body).not.mp (noOther body),
      fun body member => none body ((strings body).mpr member)⟩
  · rintro ⟨noOther, none⟩
    exact ⟨fun body => (last body).not.mpr (noOther body),
      fun body member => none body ((strings body).mp member)⟩

theorem commentLast_comment {body : Text} {ps : List Piece} :
    CommentLast (.comment body :: ps) ↔ ps = [] := by
  constructor
  · rintro ⟨last, -⟩
    cases ps with
    | nil => rfl
    | cons p ps => exact absurd (by simp [List.dropLast_cons_cons]) (last body)
  · rintro rfl
    exact ⟨by simp, by simp⟩

theorem commentLast_openString {body : Text} :
    CommentLast [.openString body] ↔ (splitAtSlashes body).2 = [] := by
  rw [splitAtSlashes_eq_nil_iff]
  exact ⟨fun h => h.strings body List.mem_cons_self, fun h => ⟨by simp, by simpa using h⟩⟩

/-- Behind a comment stands a line end, if anything does, and it is dimmed. -/
theorem shadesFrom_behind_comment {body : Text} {ps : List Piece}
    (settled : Settled (.comment body :: ps) []) : shadesFrom true ps = meant ps ↔ ps = [] := by
  constructor
  · intro same
    have stays := Piece.not_grows_of_first? settled.1
    cases ps with
    | nil => rfl
    | cons p ps =>
        obtain ⟨c, more, text⟩ := List.exists_cons_of_ne_nil (Piece.text_ne_nil settled.2.1)
        have newline : c = '\n' := by simpa [Piece.grows, text] using stays
        have read := settled.2.1
        rw [text, newline] at read
        have blank : p = .blank '\n' := (Option.some.inj read).symm
        subst blank
        simp [shadesFrom, Piece.shades, Piece.style?, Piece.kind?, Piece.text] at same
  · rintro rfl
    rfl

/-- An unclosed string is left as it is unless something is cut off of it. -/
theorem shades_openString_iff {body : Text} :
    (Piece.openString body).shades false = shaded none ('"' :: body) ↔
      (splitAtSlashes body).2 = [] := by
  have whole := append_splitAtSlashes body
  rw [Piece.shades, if_neg Bool.false_ne_true]
  generalize splitAtSlashes body = cut at whole ⊢
  obtain ⟨before, after⟩ := cut
  subst whole
  cases after <;> simp

theorem shadesFrom_eq_iff {ps : List Piece} (settled : Settled ps []) :
    shadesFrom false ps = meant ps ↔ CommentLast ps := by
  induction ps with
  | nil => exact ⟨fun _ => ⟨by simp, by simp⟩, fun _ => rfl⟩
  | cons p ps ih =>
      -- any other piece is shown as it should be, and dims nothing behind it
      have other (shown : p.shades false = shaded p.style? p.text) (ends : p.dims false = false) :
          shadesFrom false (p :: ps) = meant (p :: ps) ↔ CommentLast ps := by
        rw [shadesFrom, meant_cons, shown, ends, List.append_right_inj, ih settled.2]
      cases p with
      | comment body =>
          rw [commentLast_comment, ← shadesFrom_behind_comment settled]
          exact List.append_right_inj _
      | openString body =>
          obtain rfl := eq_nil_of_openString settled
          rw [commentLast_openString, ← shades_openString_iff]
          simp [shadesFrom, meant, Piece.style?, Piece.kind?, Piece.text]
      | blank | stray | mark | string | number | word =>
          rw [commentLast_cons (by simp) (by simp)]
          exact other rfl rfl

end Highlight

/-- **What is dimmed.** In every text the tokens are shown in the styles of their kinds and the
comments dimmed; dimmed is, besides, what stands behind a comment in the same gap, and an unclosed
string from its first two slashes on. In a text without escape characters that is what can be read
from the codes in what is shown. So exactly the comments are dimmed, and all else outside of tokens
is left as it is, just where a comment only comes last and no unclosed string has two slashes. -/
theorem dimmed_behind_slashes (t : Text) :
    StyledRun.shades (Highlight.sourceRuns t) = Highlight.shadesFrom false (pieces t) ∧
      ('\x1b' ∉ t → Sign.coded none (Sign.ofText (StyledRun.paintAll true (Highlight.sourceRuns t))) =
        (Highlight.shadesFrom false (pieces t)).map Shade.coded) ∧
      (StyledRun.shades (Highlight.sourceRuns t) = Highlight.meant (pieces t) ↔
        Highlight.CommentLast (pieces t)) := by
  have shades := Highlight.shades_sourceRuns t
  refine ⟨shades, fun noEscape => ?_, ?_⟩
  · rw [StyledRun.coded_paintAll (Highlight.readable_sourceRuns noEscape), shades]
  · rw [shades]
    exact Highlight.shadesFrom_eq_iff (settled_pieces t)

/-- A string that is never closed is no comment, and its end is dimmed. Behind a comment the line end
is dimmed with it. -/
theorem slashes_dim_unclosed_string :
    pieces "\"//b" = [.openString "//b"] ∧
      StyledRun.shades (Highlight.sourceRuns "\"//b") ≠ Highlight.meant (pieces "\"//b") ∧
      StyledRun.paintAll true (Highlight.sourceRuns "\"//b") = "\"\x1b[2m//b\x1b[0m" ∧
      StyledRun.paintAll true (Highlight.sourceRuns "//a\n") = "\x1b[2m//a\n\x1b[0m" := by
  refine ⟨?_, ?_, ?_, ?_⟩ <;> decide +kernel

end LoxTokens
