import LoxTokens.Proofs.Layout

/-!
Spaces in the place of comments and of refused characters.

`blanked` writes a source again with as many spaces as bytes for every comment and for every
character that scanning refuses. All else keeps its place, and a space takes part in no other piece:
so the tokens stay as they are, and of the faults only an unclosed string is left.

* `Spaced` — some characters of a text, any of them, replaced by spaces.
* `Piece.not_grows_spaced` — a piece takes in nothing of a text that it did not take in before.
* `pieces_blanked` — the pieces of a blanked source are those of the source, with blanks for the
  dropped ones.
* `scan_blanked` — hence the same tokens.
-/

namespace LoxTokens

/-- As many spaces as a text has bytes. -/
def Text.spaces (t : Text) : Text := t.flatMap fun c => List.replicate c.utf8Size ' '

namespace Piece

/-- Whether a piece is a comment or a refused character. -/
def isDropped : Piece → Bool
  | .comment _ | .stray _ => true
  | _ => false

/-- What stands for a piece in a blanked source. -/
def blanked (p : Piece) : Text := if p.isDropped then p.text.spaces else p.text

end Piece

/-- A source with spaces for its comments and for the characters that are refused in it. -/
def blanked (source : Text) : Text := (pieces source).flatMap Piece.blanked

example : blanked "é1//é\n\"@" = "  1    \n\"@".toList := by
  have read : pieces "é1//é\n\"@" = [.stray 'é', .number "1" [], .comment "é", .blank '\n',
      .openString "@"] := pieces_eq_of_settled rfl (by decide)
  rw [blanked, read]
  rfl

/-! ### Spaces for some characters -/

/-- Every character of a text is kept, or replaced by as many spaces as it has bytes. -/
inductive Spaced : Text → Text → Prop where
  | nil : Spaced [] []
  | keep {c : Char} {t u : Text} : Spaced t u → Spaced (c :: t) (c :: u)
  | space {c : Char} {t u : Text} : Spaced t u →
      Spaced (c :: t) (List.replicate c.utf8Size ' ' ++ u)

namespace Spaced

theorem refl (t : Text) : Spaced t t := by
  induction t with
  | nil => exact .nil
  | cons c t ih => exact .keep ih

theorem spaces (t : Text) : Spaced t t.spaces := by
  induction t with
  | nil => exact .nil
  | cons c t ih => exact .space ih

theorem append {s s' t t' : Text} (hs : Spaced s s') (ht : Spaced t t') :
    Spaced (s ++ t) (s' ++ t') := by
  induction hs with
  | nil => exact ht
  | keep _ ih => exact .keep ih
  | space _ ih =>
      rw [List.append_assoc]
      exact .space ih

/-- The first character of a text stays, or a space takes its place. -/
theorem head?_eq {t u : Text} (h : Spaced t u) : u.head? = t.head? ∨ u.head? = some ' ' := by
  cases h with
  | nil => exact Or.inl rfl
  | keep => exact Or.inl rfl
  | @space c t u =>
      obtain ⟨n, size⟩ := Nat.exists_eq_succ_of_ne_zero c.utf8Size_pos.ne'
      rw [size]
      exact Or.inr rfl

theorem head?_any {f : Char → Bool} (noSpace : f ' ' = false) {t u : Text} (h : Spaced t u)
    (stop : t.head?.any f = false) : u.head?.any f = false := by
  rcases h.head?_eq with same | space
  · rw [same, stop]
  · rw [space]
    exact noSpace

theorem startsFraction_eq {t u : Text} (h : Spaced t u) (stop : startsFraction t = false) :
    startsFraction u = false := by
  cases h with
  | nil => rfl
  | @keep c t u later =>
      by_cases point : c = '.'
      · subst point
        have noDigit : t.head?.any Char.isDigit = false := by
          cases t <;> simp_all [startsFraction]
        have still := later.head?_any (by decide) noDigit
        cases u <;> simp_all [startsFraction]
      · simp [startsFraction, point]
  | @space c t u =>
      obtain ⟨n, size⟩ := Nat.exists_eq_succ_of_ne_zero c.utf8Size_pos.ne'
      rw [size]
      simp [startsFraction, List.replicate_succ]

end Spaced

/-- A piece that stays takes in no space, and nothing else that it did not take in before. -/
theorem Piece.not_grows_spaced {p : Piece} (stays : p.isDropped = false) {t u : Text}
    (h : Spaced t u) (apart : p.grows t = false) : p.grows u = false := by
  cases p with
  | mark m => exact h.head?_any (Mark.not_joins_separator (by decide) m) apart
  | number whole fraction =>
      rw [grows, Bool.or_eq_false_iff, Bool.and_eq_false_iff] at apart ⊢
      exact ⟨h.head?_any (by decide) apart.1, apart.2.imp_right h.startsFraction_eq⟩
  | word t => exact h.head?_any (by decide) apart
  | openString body =>
      obtain rfl : t = [] := by simpa [grows] using apart
      cases h
      rfl
  | comment | stray => contradiction
  | blank | string => rfl

/-! ### The pieces of a blanked source -/

theorem Piece.spaced_blanked (p : Piece) : Spaced p.text p.blanked := by
  rw [blanked]
  split
  · exact .spaces p.text
  · exact .refl p.text

theorem spaced_blanked (source : Text) : Spaced source (blanked source) := by
  have parts (ps : List Piece) : Spaced (textOf ps) (ps.flatMap Piece.blanked) := by
    induction ps with
    | nil => exact .nil
    | cons p ps ih => exact p.spaced_blanked.append ih
  have whole := parts (pieces source)
  rwa [textOf_pieces] at whole

theorem separates_spaces (t : Text) : Separates t.spaces := by
  intro c member
  obtain ⟨d, -, space⟩ := List.mem_flatMap.mp member
  rw [(List.mem_replicate.mp space).2]
  decide

/-- The pieces of what stands for a piece: one blank for each space, or the piece itself. -/
def Piece.blanks (p : Piece) : List Piece :=
  if p.isDropped then p.text.spaces.map .blank else [p]

theorem Piece.textOf_blanks (p : Piece) : textOf p.blanks = p.blanked := by
  rw [blanks, blanked]
  split
  · exact textOf_map_blank _
  · exact List.append_nil _

/-- A blanked source falls into the pieces of the source, but for blanks in the place of the dropped
ones. -/
theorem pieces_blanked (source : Text) :
    pieces (blanked source) = (pieces source).flatMap Piece.blanks := by
  induction source using Piece.text_induction with
  | nil => simp [blanked]
  | append p rest read ih =>
      obtain ⟨formed, apart⟩ := Piece.first?_append_iff.mp read
      have parted : blanked (p.text ++ rest) = p.blanked ++ blanked rest := by
        rw [blanked, pieces_append read]
        rfl
      rw [parted, pieces_append read, List.flatMap_cons, ← ih, Piece.blanked, Piece.blanks]
      cases dropped : p.isDropped with
      | true => exact pieces_separators (separates_spaces p.text) _
      | false =>
          have still := Piece.not_grows_spaced dropped (spaced_blanked rest) apart
          exact pieces_append (Piece.first?_append_iff.mpr ⟨formed, still⟩)

/-! ### Tokens and faults stay in their places -/

theorem Spaced.byteLength_eq {t u : Text} (h : Spaced t u) :
    Text.byteLength u = Text.byteLength t := by
  induction h with
  | nil => rfl
  | keep _ ih => rw [Text.byteLength_cons, Text.byteLength_cons, ih]
  | @space c t u _ ih =>
      have spaces (n : Nat) : Text.byteLength (List.replicate n ' ') = n := by
        induction n with
        | zero => rfl
        | succ n ih =>
            rw [List.replicate_succ, Text.byteLength_cons, ih, Nat.add_comm]
            rfl
      rw [Text.byteLength_append, Text.byteLength_cons, spaces, ih]

theorem Text.newlines_spaces (t : Text) : newlines t.spaces = 0 := by
  rw [newlines, List.count_eq_zero]
  intro member
  obtain ⟨d, -, space⟩ := List.mem_flatMap.mp member
  exact absurd (List.mem_replicate.mp space).2 (by decide)

namespace Piece

/-- Neither a comment nor a refused character has a line end. -/
theorem newlines_of_dropped {p : Piece} (formed : p.WellFormed) (dropped : p.isDropped = true) :
    Text.newlines p.text = 0 := by
  rw [Text.newlines, List.count_eq_zero]
  cases p with
  | comment body =>
      have inLine : '\n' ∉ body := formed
      simp [text, inLine]
  | stray c =>
      have other : c ≠ '\n' := by
        rintro rfl
        exact formed.2 [] (Or.inl (.blank (by decide)))
      simp [text, other.symm]
  | _ => contradiction

theorem newlines_blanked {p : Piece} (formed : p.WellFormed) :
    Text.newlines p.blanked = Text.newlines p.text := by
  rw [blanked]
  split
  · next dropped => rw [Text.newlines_spaces, newlines_of_dropped formed dropped]
  · rfl

/-- What stands for a piece has its token, and its fault only if that is an unclosed string. -/
theorem tokensFrom_blanks (offset line : Nat) (p : Piece) :
    tokensFrom offset line p.blanks = tokensFrom offset line [p] ∧
      faultsFrom offset line p.blanks =
        (faultsFrom offset line [p]).filter Fault.leavesStringOpen := by
  rw [blanks]
  split
  · next dropped =>
      have silent := tokensFrom_silent (silent_map_blank p.text.spaces) offset line
      rw [silent.1, silent.2]
      cases p with
      | comment | stray => exact ⟨rfl, rfl⟩
      | _ => contradiction
  · next stays =>
      refine ⟨rfl, ?_⟩
      cases p with
      | comment | stray => exact absurd rfl stays
      | _ => rfl

end Piece

theorem tokensFrom_blanked {ps : List Piece} (formed : ∀ p ∈ ps, p.WellFormed)
    (offset line : Nat) :
    tokensFrom offset line (ps.flatMap Piece.blanks) = tokensFrom offset line ps ∧
      faultsFrom offset line (ps.flatMap Piece.blanks) =
        (faultsFrom offset line ps).filter Fault.leavesStringOpen := by
  induction ps generalizing offset line with
  | nil => exact ⟨rfl, rfl⟩
  | cons p ps ih =>
      rw [List.forall_mem_cons] at formed
      have here := p.tokensFrom_blanks offset line
      have later := ih formed.2 (offset + Text.byteLength p.text) (line + Text.newlines p.text)
      have first : p :: ps = [p] ++ ps := rfl
      have alone : textOf [p] = p.text := List.append_nil _
      rw [List.flatMap_cons, first, tokensFrom_append, faultsFrom_append, tokensFrom_append,
        faultsFrom_append, List.filter_append, p.textOf_blanks, alone,
        p.spaced_blanked.byteLength_eq, Piece.newlines_blanked formed.1, here.1, here.2, later.1,
        later.2]
      exact ⟨rfl, rfl⟩

theorem newlines_blanked (source : Text) :
    Text.newlines (blanked source) = Text.newlines source := by
  have parts {ps : List Piece} (formed : ∀ p ∈ ps, p.WellFormed) :
      Text.newlines (ps.flatMap Piece.blanked) = Text.newlines (textOf ps) := by
    induction ps with
    | nil => rfl
    | cons p ps ih =>
        rw [List.forall_mem_cons] at formed
        rw [List.flatMap_cons, Text.newlines_append, Piece.newlines_blanked formed.1, ih formed.2,
          textOf_cons, Text.newlines_append]
  have whole := parts (settled_pieces source).wellFormed
  rwa [textOf_pieces] at whole

/-- **Comments and refused characters do not disturb what stands around them.** A source with spaces
in their place has the same tokens, each at its place, and of the faults the unclosed string alone,
if there is one. -/
theorem scan_blanked (source : Text) :
    scan (blanked source) =
      ⟨(scan source).tokens, (scan source).faults.filter Fault.leavesStringOpen⟩ := by
  have parted := tokensFrom_blanked (settled_pieces source).wellFormed 0 1
  have closing : closingToken (blanked source) = closingToken source := by
    rw [closingToken, closingToken, lineAfter, lineAfter, newlines_blanked,
      (spaced_blanked source).byteLength_eq]
  rw [scan_eq, pieces_blanked, parted.1, parted.2, closing, scan_eq source]

end LoxTokens
