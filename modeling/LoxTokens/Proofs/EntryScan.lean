import LoxTokens.Proofs.LineByLine
import LoxTokens.Session.Entry
import Mathlib.Data.List.DropRight

/-!
What an entry of a session is scanned as.

An entry is scanned without its last line end, and one of blanks alone is not scanned at all. Neither
makes a difference to the tokens.

* `Entry.sameScan` — an entry in which no string is left open has the tokens and the faults that it
  has without its line end. A carriage return before the line end is a blank, or the end of a
  comment.
* `scan_blanks` — a text of blanks has no tokens, and its faults are single characters.
-/

namespace LoxTokens

/-! ### Texts that are scanned alike -/

/-- Texts with the same tokens and faults, but for the token that marks the end. -/
structure SameScan (s t : Text) : Prop where
  tokens : (scan s).withoutEnd = (scan t).withoutEnd
  faults : (scan s).faults = (scan t).faults

namespace SameScan

variable {s t u : Text}

theorem refl (t : Text) : SameScan t t := ⟨rfl, rfl⟩

theorem trans (h : SameScan s t) (h' : SameScan t u) : SameScan s u :=
  ⟨h.tokens.trans h'.tokens, h.faults.trans h'.faults⟩

/-- Silent pieces at the end can be exchanged. -/
theorem of_pieces {front back back' : List Piece} (hs : pieces s = front ++ back)
    (ht : pieces t = front ++ back') (silent : ∀ p ∈ back, p.Silent)
    (silent' : ∀ p ∈ back', p.Silent) : SameScan s t := by
  constructor
  · rw [withoutEnd_scan, withoutEnd_scan, hs, ht, tokensFrom_append, tokensFrom_append,
      (tokensFrom_silent silent _ _).1, (tokensFrom_silent silent' _ _).1]
  · rw [scan_eq, scan_eq, hs, ht, faultsFrom_append, faultsFrom_append,
      (tokensFrom_silent silent _ _).2, (tokensFrom_silent silent' _ _).2]

end SameScan

/-! ### Line ends behind a text -/

/-- A carriage return is too far away from a piece to matter to it, or it ends the piece, unless the
piece is a comment that stands right before it. -/
theorem Piece.grows_append_return {p : Piece} (ends : p.EndsAt '\n') {rest : Text}
    (apart : rest = [] → ∀ body, p ≠ .comment body) : p.grows (rest ++ ['\r']) = p.grows rest := by
  cases p with
  | comment body =>
      cases rest with
      | nil => exact absurd rfl (apart rfl body)
      | cons c rest => rfl
  | openString body => exact ends.elim
  | _ => exact grows_append (by decide) (by trivial) rest []

section

variable {t : Text} (closed : LeavesNoString t)

include closed

theorem sameScan_newline : SameScan (t ++ ['\n']) t := by
  have parted := pieces_append_newline closed []
  rw [pieces_nil] at parted
  exact .of_pieces parted (List.append_nil _).symm (by simp [Piece.Silent]) (by simp)

/-- A carriage return behind a text in which no string is left open is a blank, or it belongs to the
comment at the end. -/
theorem pieces_append_return : pieces (t ++ ['\r']) = pieces t ++ [.blank '\r'] ∨
    ∃ front body, pieces t = front ++ [.comment body] ∧
      pieces (t ++ ['\r']) = front ++ [.comment (body ++ ['\r'])] := by
  have blank : pieces ['\r'] = [.blank '\r'] := pieces_eq_of_settled rfl (by decide)
  induction t using Piece.text_induction with
  | nil => exact Or.inl (by rw [pieces_nil]; exact blank)
  | append p rest read ih =>
      obtain ⟨formed, stays⟩ := Piece.first?_append_iff.mp read
      rw [LeavesNoString, pieces_append read, List.forall_mem_cons] at closed
      obtain ⟨ends, closed⟩ := closed
      rw [pieces_append read, List.append_assoc]
      by_cases comment : rest = [] ∧ ∃ body, p = .comment body
      · obtain ⟨rfl, body, rfl⟩ := comment
        have inLine : '\n' ∉ body := formed
        have longer : (Piece.comment (body ++ ['\r'])).WellFormed := by
          simp [Piece.WellFormed, inLine]
        refine Or.inr ⟨[], body, by rw [pieces_nil]; rfl, ?_⟩
        exact pieces_eq_of_settled (by simp [Piece.text])
          ⟨by simpa using Piece.wellFormed_iff.mp longer, trivial⟩
      · have apart : rest = [] → ∀ body, p ≠ .comment body := by
          intro last body same
          exact comment ⟨last, body, same⟩
        have read' : Piece.first? (p.text ++ (rest ++ ['\r'])) = some p :=
          Piece.first?_append_iff.mpr ⟨formed, (Piece.grows_append_return ends apart).trans stays⟩
        rw [pieces_append read']
        rcases ih closed with last | ⟨front, body, whole, last⟩
        · rw [last]
          exact Or.inl rfl
        · rw [last, whole]
          exact Or.inr ⟨p :: front, body, rfl, rfl⟩

theorem sameScan_return : SameScan (t ++ ['\r']) t := by
  rcases pieces_append_return closed with blank | ⟨front, body, whole, longer⟩
  · exact .of_pieces blank (List.append_nil _).symm (by simp [Piece.Silent]) (by simp)
  · exact .of_pieces longer whole (by simp [Piece.Silent]) (by simp [Piece.Silent])

end

theorem SameScan.leavesNoString {s t : Text} (h : SameScan s t) (closed : LeavesNoString t) :
    LeavesNoString s := by
  rw [leavesNoString_iff] at closed ⊢
  rw [h.faults]
  exact closed

namespace Entry

theorem withoutLineEnd_append_newline (a : Text) : withoutLineEnd (a ++ ['\n']) = a ∨
    a = withoutLineEnd (a ++ ['\n']) ++ ['\r'] := by
  have backwards : (a ++ ['\n']).reverse = '\n' :: a.reverse := by simp
  unfold withoutLineEnd
  rw [backwards]
  split
  · next body same =>
      have ended : a.reverse = '\r' :: body := (List.cons.inj same).2
      exact Or.inr (by rw [← List.reverse_cons, ← ended, List.reverse_reverse])
  · next body _ same =>
      rw [← (List.cons.inj same).2]
      exact Or.inl (List.reverse_reverse a)
  · next noNewline => exact absurd rfl (noNewline _)

theorem withoutLineEnd_eq_self {e : Text} (noNewline : ∀ a, e ≠ a ++ ['\n']) :
    withoutLineEnd e = e := by
  have backwards (rest : Text) : e.reverse ≠ '\n' :: rest := by
    intro same
    apply noNewline rest.reverse
    rw [← List.reverse_cons, ← same, List.reverse_reverse]
  unfold withoutLineEnd
  split
  · next same => exact absurd same (backwards _)
  · next same => exact absurd same (backwards _)
  · rfl

/-- The text before the last newline of an entry leaves no string open if the entry without its line
end does not. -/
theorem before_newline {a : Text} (closed : LeavesNoString (withoutLineEnd (a ++ ['\n']))) :
    LeavesNoString a ∧ SameScan a (withoutLineEnd (a ++ ['\n'])) := by
  rcases withoutLineEnd_append_newline a with same | ended
  · rw [same] at closed ⊢
    exact ⟨closed, .refl a⟩
  · have same := sameScan_return closed
    rw [← ended] at same
    exact ⟨same.leavesNoString closed, same⟩

/-- The last line end of an entry makes no difference. -/
theorem sameScan {e : Text} (closed : LeavesNoString (withoutLineEnd e)) :
    SameScan e (withoutLineEnd e) := by
  by_cases ended : ∃ a, e = a ++ ['\n']
  · obtain ⟨a, rfl⟩ := ended
    obtain ⟨closed, same⟩ := before_newline closed
    exact (sameScan_newline closed).trans same
  · rw [withoutLineEnd_eq_self (not_exists.mp ended)]
    exact .refl e

/-- An entry that ends with a newline is read apart from what follows it. -/
theorem pieces_append {a : Text} (closed : LeavesNoString (withoutLineEnd (a ++ ['\n'])))
    (rest : Text) : pieces (a ++ ['\n'] ++ rest) = pieces (a ++ ['\n']) ++ pieces rest := by
  have parted := pieces_append_newline (before_newline closed).1
  rw [List.append_assoc, parted [], pieces_nil]
  exact (parted rest).trans (by simp)

theorem eq_append_withoutLineEnd (e : Text) : ∃ ending, e = withoutLineEnd e ++ ending ∧
    ∀ c ∈ ending, Text.isBlank c = true := by
  by_cases ended : ∃ a, e = a ++ ['\n']
  · obtain ⟨a, rfl⟩ := ended
    rcases withoutLineEnd_append_newline a with same | same
    · exact ⟨['\n'], by rw [same], List.forall_mem_singleton.mpr rfl⟩
    · refine ⟨['\r', '\n'], ?_, List.forall_mem_cons.mpr ⟨rfl, List.forall_mem_singleton.mpr rfl⟩⟩
      have longer : a ++ ['\n'] = withoutLineEnd (a ++ ['\n']) ++ ['\r'] ++ ['\n'] := by rw [← same]
      rw [List.append_assoc] at longer
      exact longer
  · exact ⟨[], by rw [withoutLineEnd_eq_self (not_exists.mp ended), List.append_nil], by simp⟩

end Entry

/-! ### Blanks -/

namespace Text

/-- Nothing is left of a text exactly where it has blanks alone. -/
theorem trim_eq_nil_iff {t : Text} : trim t = [] ↔ ∀ c ∈ t, isBlank c = true := by
  constructor
  · intro none
    rw [trim, trimEnd, List.reverse_eq_nil_iff, List.dropWhile_eq_nil_iff] at none
    apply List.dropWhile_eq_nil_iff.mp
    cases start : t.dropWhile isBlank with
    | nil => rfl
    | cons c rest =>
        have visible := List.head?_dropWhile_not isBlank t
        have blank := none c (by simp [trimStart, start])
        rw [start] at visible
        simp [blank] at visible
  · intro blank
    have start : trimStart t = [] := List.dropWhile_eq_nil_iff.mpr blank
    rw [trim, start]
    rfl

theorem trimStart_of_prefix {s t : Text} (front : s <+: t) (whole : trimStart t = t) :
    trimStart s = s := by
  cases s with
  | nil => rfl
  | cons c s =>
      obtain ⟨rest, rfl⟩ := front
      have visible := List.head?_dropWhile_not isBlank (c :: s ++ rest)
      rw [← trimStart, whole] at visible
      exact List.dropWhile_cons_of_neg (by simpa using visible)

/-- Trimming again changes nothing. -/
theorem trim_trim (t : Text) : trim (trim t) = trim t := by
  have start : trimStart (trim t) = trim t :=
    trimStart_of_prefix (List.rdropWhile_prefix isBlank _) (List.dropWhile_idempotent ..)
  rw [trim, start]
  exact List.rdropWhile_idempotent ..

theorem isBlank_of_continuesWord {c : Char} (h : continuesWord c = true) : isBlank c = false := by
  have ranges : (97 ≤ c.toNat ∧ c.toNat ≤ 122) ∨ (65 ≤ c.toNat ∧ c.toNat ≤ 90) ∨ c.toNat = 95 ∨
      (48 ≤ c.toNat ∧ c.toNat ≤ 57) := by
    rcases continuesWord_iff.mp h with (lower | upper | rfl) | digit
    · exact Or.inl lower
    · exact Or.inr (Or.inl upper)
    · exact Or.inr (Or.inr (Or.inl rfl))
    · exact Or.inr (Or.inr (Or.inr digit))
  simp only [isBlank, blankRanges, List.any_cons, List.any_nil, Bool.or_false, Bool.or_eq_false_iff,
    Bool.and_eq_false_iff, decide_eq_false_iff_not]
  omega

end Text

theorem Piece.eq_of_blanks {p : Piece} (formed : p.WellFormed)
    (blanks : ∀ c ∈ p.text, Text.isBlank c = true) : ∃ c, p = .blank c ∨ p = .stray c := by
  cases p with
  | blank c => exact ⟨c, Or.inl rfl⟩
  | stray c => exact ⟨c, Or.inr rfl⟩
  | comment body => exact absurd (blanks '/' List.mem_cons_self) (by decide)
  | mark m => cases m <;> exact absurd (blanks _ List.mem_cons_self) (by decide)
  | string body => exact absurd (blanks '"' List.mem_cons_self) (by decide)
  | openString body => exact absurd (blanks '"' List.mem_cons_self) (by decide)
  | number whole fraction =>
      obtain ⟨nonempty, digits, -⟩ := formed
      obtain ⟨c, more, rfl⟩ := List.exists_cons_of_ne_nil nonempty
      have blank := blanks c (by cases fraction <;> simp [text])
      have inWord := continuesWord_iff.mpr (Or.inr (digits c List.mem_cons_self))
      rw [Text.isBlank_of_continuesWord inWord] at blank
      contradiction
  | word t =>
      obtain ⟨c, more, rfl, letter, -⟩ := formed
      have blank := blanks c List.mem_cons_self
      rw [Text.isBlank_of_continuesWord (continuesWord_iff.mpr (Or.inl letter))] at blank
      contradiction

/-- Blanks alone are no tokens, and the faults among them are single characters. -/
theorem scan_blanks {t : Text} (blanks : ∀ c ∈ t, Text.isBlank c = true) :
    (scan t).withoutEnd = [] ∧
      ∀ f ∈ (scan t).faults, ∃ line, ∃ c ∈ t, f = .unexpectedCharacter line c := by
  have known : ∀ s ∈ segmentsFrom 0 1 (pieces t),
      ∃ c ∈ t, s.piece = .blank c ∨ s.piece = .stray c := by
    intro s member
    have inside := piece_mem_of_segmentsFrom member
    have part : ∀ c ∈ s.piece.text, c ∈ t := by
      intro c among
      rw [← textOf_pieces t]
      exact List.mem_flatMap.mpr ⟨s.piece, inside, among⟩
    obtain ⟨c, same⟩ := Piece.eq_of_blanks ((settled_pieces t).wellFormed _ inside)
      fun c among => blanks c (part c among)
    exact ⟨c, part c (by rcases same with same | same <;> simp [same, Piece.text]), same⟩
  constructor
  · rw [withoutEnd_scan, tokensFrom, List.filterMap_eq_nil_iff]
    intro s member
    obtain ⟨c, -, same | same⟩ := known s member <;> simp [Segment.token?, same, Piece.kind?]
  · rw [scan_eq]
    intro f fault
    obtain ⟨s, member, fault⟩ := List.mem_filterMap.mp fault
    obtain ⟨c, among, same | same⟩ := known s member
    · simp [Segment.fault?, same] at fault
    · refine ⟨s.line, c, among, ?_⟩
      simpa [Segment.fault?, same, eq_comm] using fault

end LoxTokens
