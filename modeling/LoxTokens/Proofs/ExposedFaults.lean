import LoxTokens.Proofs.PieceEnds

/-!
The faults of a text, told by the characters outside of its strings and comments.

Whether a text has a fault does not depend on how it falls into tokens. A quote starts a string and
the next one ends it; two slashes start a comment and a line end stops it. All other characters are
exposed, and each of them is looked at by itself.

* `Piece.faulty_append_iff` — of the pieces of a text only those that are faults expose a character
  that can start nothing, or leave a string open.
* `faults_ne_nil_iff` — so scanning finds a fault exactly in a text that does one of the two.
-/

namespace LoxTokens

/-- What surrounds a place of a text. -/
inductive Zone where
  | code
  | string
  | comment
  deriving DecidableEq, Repr

/-- What a text is outside of its strings and comments. -/
structure Outside where
  /-- The characters that are in neither. -/
  exposed : Text
  /-- Where the text ends. -/
  last : Zone
  deriving DecidableEq, Repr

def Outside.expose (c : Char) (o : Outside) : Outside := { o with exposed := c :: o.exposed }

/-- What a text that starts in some zone is outside of its strings and comments. -/
def outsideFrom : Zone → Text → Outside
  | zone, [] => ⟨[], zone⟩
  | .code, '"' :: t => outsideFrom .string t
  | .code, '/' :: '/' :: t => outsideFrom .comment t
  | .code, c :: t => (outsideFrom .code t).expose c
  | .string, c :: t => if c = '"' then outsideFrom .code t else outsideFrom .string t
  | .comment, c :: t =>
      if c = '\n' then (outsideFrom .code t).expose c else outsideFrom .comment t

/-- A character that can start nothing is exposed, or a string is never closed. -/
def Outside.Faulty (o : Outside) : Prop := (∃ c ∈ o.exposed, StartsNothing c) ∨ o.last = .string

/-- A text in which a character that can start nothing stands outside of strings and comments, or a
string is never closed. -/
def Faulty (t : Text) : Prop := (outsideFrom .code t).Faulty

/-! ### Texts passed in one zone -/

theorem Outside.faulty_expose {c : Char} {o : Outside} :
    (o.expose c).Faulty ↔ StartsNothing c ∨ o.Faulty := by
  simp [Faulty, expose, or_assoc]

/-- A character outside of strings and comments that starts neither is exposed. -/
theorem faulty_cons {c : Char} {rest : Text} (noQuote : c ≠ '"')
    (noComment : c = '/' → rest.head? ≠ some '/') :
    Faulty (c :: rest) ↔ StartsNothing c ∨ Faulty rest := by
  have step : outsideFrom .code (c :: rest) = (outsideFrom .code rest).expose c := by
    rw [outsideFrom]
    · exact noQuote
    · rintro t slash rfl
      exact noComment slash rfl
  rw [Faulty, step, Outside.faulty_expose]
  rfl

/-- Characters that are known to the grammar and start neither a string nor a comment do no harm. -/
theorem faulty_append {t : Text} (rest : Text)
    (harmless : ∀ c ∈ t, c ≠ '"' ∧ c ≠ '/' ∧ ¬ StartsNothing c) :
    Faulty (t ++ rest) ↔ Faulty rest := by
  induction t with
  | nil => rfl
  | cons c t ih =>
      rw [List.forall_mem_cons] at harmless
      obtain ⟨⟨noQuote, noSlash, known⟩, later⟩ := harmless
      rw [List.cons_append, faulty_cons noQuote fun slash => absurd slash noSlash, ih later]
      exact or_iff_right known

theorem outsideFrom_string_append {body : Text} (inside : '"' ∉ body) (rest : Text) :
    outsideFrom .string (body ++ rest) = outsideFrom .string rest := by
  induction body with
  | nil => rfl
  | cons c body ih =>
      rw [List.mem_cons, not_or] at inside
      rw [List.cons_append, outsideFrom, if_neg (Ne.symm inside.1), ih inside.2]

theorem outsideFrom_comment_append {body : Text} (inLine : '\n' ∉ body) (rest : Text) :
    outsideFrom .comment (body ++ rest) = outsideFrom .comment rest := by
  induction body with
  | nil => rfl
  | cons c body ih =>
      rw [List.mem_cons, not_or] at inLine
      rw [List.cons_append, outsideFrom, if_neg (Ne.symm inLine.1), ih inLine.2]

/-! ### Characters that the grammar knows -/

theorem not_startsNothing {c : Char} (h : Matches [c]) : ¬ StartsNothing c :=
  fun hopeless => hopeless.2 [] h

theorem harmless_of_continuesWord {c : Char} (h : Letter c ∨ Digit c) :
    c ≠ '"' ∧ c ≠ '/' ∧ ¬ StartsNothing c := by
  have inWord := continuesWord_iff.mpr h
  refine ⟨?_, ?_, not_startsNothing (h.elim matches_letter matches_digit)⟩
  · rintro rfl
    contradiction
  · rintro rfl
    contradiction

/-- The characters of a mark other than a slash are marks. -/
theorem Mark.harmless {m : Mark} (noSlash : m ≠ .slash) :
    ∀ c ∈ m.spelling, c ≠ '"' ∧ c ≠ '/' ∧ ¬ StartsNothing c := by
  have listed : (m.spelling.all fun c =>
      c != '"' && c != '/' && Mark.all.any (·.spelling == [c])) = true := by
    cases m with
    | slash => contradiction
    | _ => rfl
  intro c member
  have known := List.all_eq_true.mp listed c member
  simp only [Bool.and_eq_true, bne_iff_ne, List.any_eq_true, beq_iff_eq] at known
  obtain ⟨⟨noQuote, other⟩, n, -, same⟩ := known
  exact ⟨noQuote, other, not_startsNothing (same ▸ matches_mark n)⟩

/-! ### Pieces of a text -/

namespace Piece

/-- A piece adds to the faults of what follows it exactly where it is a fault. -/
theorem faulty_append_iff {p : Piece} {rest : Text} (read : first? (p.text ++ rest) = some p) :
    Faulty (p.text ++ rest) ↔ ¬ p.Accepted ∨ Faulty rest := by
  obtain ⟨formed, stays⟩ := first?_append_iff.mp read
  have accepted (yes : p.Accepted) (same : Faulty (p.text ++ rest) ↔ Faulty rest) :
      Faulty (p.text ++ rest) ↔ ¬ p.Accepted ∨ Faulty rest :=
    same.trans (or_iff_right (not_not.mpr yes)).symm
  cases p with
  | blank c =>
      have known := not_startsNothing (Or.inl (.blank formed))
      have visible : c ≠ '"' ∧ c ≠ '/' := by
        have listed : c ∈ [' ', '\t', '\r', '\n'] := formed
        simp only [List.mem_cons, List.not_mem_nil, or_false] at listed
        rcases listed with rfl | rfl | rfl | rfl <;> decide
      refine accepted trivial (faulty_append rest ?_)
      simpa [text] using ⟨visible.1, visible.2, known⟩
  | comment body =>
      refine accepted trivial ?_
      have passed : outsideFrom .code ((comment body).text ++ rest) = outsideFrom .comment rest :=
        outsideFrom_comment_append formed rest
      rw [Faulty, passed]
      cases rest with
      | nil => simp [Faulty, outsideFrom, Outside.Faulty]
      | cons c rest =>
          have newline : c = '\n' := by simpa [grows] using stays
          subst newline
          rfl
  | mark m =>
      refine accepted trivial ?_
      by_cases slash : m = .slash
      · subst slash
        have noComment : rest.head? ≠ some '/' := by
          intro second
          simp [grows, second, Mark.joins] at stays
        have step := faulty_cons (c := '/') (by decide) fun _ => noComment
        exact step.trans (or_iff_right (not_startsNothing (matches_mark .slash)))
      · exact faulty_append rest (Mark.harmless slash)
  | string body =>
      refine accepted trivial ?_
      have passed : outsideFrom .code ((string body).text ++ rest) = outsideFrom .code rest := by
        have step : outsideFrom .code ('"' :: (body ++ '"' :: rest)) =
            outsideFrom .string (body ++ '"' :: rest) := rfl
        have whole : (string body).text ++ rest = '"' :: (body ++ '"' :: rest) := by simp [text]
        rw [whole, step, outsideFrom_string_append formed]
        rfl
      rw [Faulty, passed]
      rfl
  | number whole fraction =>
      obtain ⟨-, digits, fractional⟩ := formed
      refine accepted trivial (faulty_append rest fun c member => ?_)
      have parts : c ∈ whole ∨ c = '.' ∨ c ∈ fraction := by
        rw [text] at member
        split at member
        · exact Or.inl member
        · simpa using member
      rcases parts with inside | rfl | inside
      · exact harmless_of_continuesWord (Or.inr (digits c inside))
      · exact ⟨by decide, by decide, not_startsNothing (matches_mark .dot)⟩
      · exact harmless_of_continuesWord (Or.inr (fractional c inside))
  | word t =>
      obtain ⟨first, more, rfl, letter, inside⟩ := formed
      refine accepted trivial (faulty_append rest fun c member => ?_)
      rcases List.mem_cons.mp member with rfl | member
      · exact harmless_of_continuesWord (Or.inl letter)
      · exact harmless_of_continuesWord (inside c member)
  | stray c =>
      have hopeless : StartsNothing c := formed
      have noSlash : c ≠ '/' := by
        rintro rfl
        exact hopeless.2 [] (matches_mark .slash)
      have step : Faulty (c :: rest) ↔ StartsNothing c ∨ Faulty rest :=
        faulty_cons hopeless.1 fun slash => absurd slash noSlash
      exact step.trans (or_congr_left ⟨fun _ => id, fun _ => hopeless⟩)
  | openString body =>
      have ended : rest = [] := by simpa [grows] using stays
      subst ended
      have passed : outsideFrom .code ((openString body).text ++ []) = ⟨[], .string⟩ :=
        outsideFrom_string_append formed []
      rw [Faulty, passed]
      exact ⟨fun _ => Or.inl id, fun _ => Or.inr rfl⟩

end Piece

/-! ### Whole texts -/

theorem Segment.fault?_eq_none_iff {s : Segment} : s.fault? = none ↔ s.piece.Accepted := by
  unfold fault?
  cases s.piece <;> simp [Piece.Accepted]

theorem faultsFrom_eq_nil_iff {offset line : Nat} {ps : List Piece} :
    faultsFrom offset line ps = [] ↔ ∀ p ∈ ps, p.Accepted := by
  induction ps generalizing offset line with
  | nil => simp [faultsFrom, segmentsFrom]
  | cons p ps ih =>
      rw [faultsFrom_cons, List.append_eq_nil_iff, Option.toList_eq_nil_iff,
        Segment.fault?_eq_none_iff, ih, List.forall_mem_cons]

/-- **A text has faults exactly where it exposes a character that can start nothing, or leaves a
string open.** -/
theorem faults_ne_nil_iff {t : Text} : (scan t).faults ≠ [] ↔ Faulty t := by
  rw [scan_eq, ne_eq, faultsFrom_eq_nil_iff]
  induction t using Piece.text_induction with
  | nil => simp [Faulty, outsideFrom, Outside.Faulty]
  | append p rest read ih =>
      rw [Piece.faulty_append_iff read, ← ih, pieces_append read, List.forall_mem_cons, not_and_or]

end LoxTokens
