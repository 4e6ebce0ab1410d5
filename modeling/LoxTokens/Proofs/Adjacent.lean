import LoxTokens.Proofs.Layout
import Mathlib.Data.List.Flatten

/-!
Lexemes written with nothing between them.

`RunsInto t ts` lists what makes a lexeme take in some of the lexemes behind it: a word goes on with
words and digits, a number with digits, some marks with an equals sign, a slash starts a comment with
another slash, and a number without a fraction takes in a point and the number after it. Only this
last case looks at two lexemes. `scan_flatten_iff` says that there is no other: lexemes are read back
from their plain concatenation exactly where none of them runs into those behind it.
-/

namespace LoxTokens

/-- One or more digits, perhaps with a point and more digits. -/
def Number (t : Text) : Prop := ∃ literal, Lexeme t .number literal

/-- A lexeme that takes in some of those that follow it. -/
inductive RunsInto : Text → List Text → Prop where
  | word {t u : Text} {ts : List Text} : Word t → Word u ∨ Number u → RunsInto t (u :: ts)
  | number {t u : Text} {ts : List Text} : Number t → Number u → RunsInto t (u :: ts)
  | equal {t u : Text} {ts : List Text} :
      t ∈ [['!'], ['='], ['<'], ['>']] → u ∈ [['='], ['=', '=']] → RunsInto t (u :: ts)
  | slash {ts : List Text} : RunsInto ['/'] (['/'] :: ts)
  | fraction {t u : Text} {ts : List Text} :
      Number t → '.' ∉ t → Number u → RunsInto t (['.'] :: u :: ts)

/-- Somewhere in a list a lexeme runs into those that follow it. -/
def RunTogether (ts : List Text) : Prop := ∃ t rest, t :: rest <:+ ts ∧ RunsInto t rest

/-- Scanning a text gives exactly these lexemes, the end, and no fault. -/
def ReadsAs (source : Text) (ts : List Text) : Prop :=
  ∃ tokens, scan source = ⟨tokens ++ [closingToken source], []⟩ ∧ tokens.map (·.lexeme) = ts

/-! ### Lexemes by their first character -/

theorem Word.exists_first {t : Text} (h : Word t) : ∃ c rest, t = c :: rest ∧ Letter c := by
  obtain ⟨c, rest, same, letter, -⟩ := h
  exact ⟨c, rest, same, letter⟩

theorem Number.exists_first {t : Text} (h : Number t) : ∃ c rest, t = c :: rest ∧ Digit c := by
  obtain ⟨literal, lexical⟩ := h
  cases lexical with
  | whole nonempty digits =>
      obtain ⟨c, rest, rfl⟩ := List.exists_cons_of_ne_nil nonempty
      exact ⟨c, rest, rfl, digits c List.mem_cons_self⟩
  | decimal nonempty digits =>
      obtain ⟨c, rest, rfl⟩ := List.exists_cons_of_ne_nil nonempty
      exact ⟨c, _, rfl, digits c List.mem_cons_self⟩

namespace IsLexeme

variable {t : Text}

theorem ne_nil (h : IsLexeme t) : t ≠ [] := Matches.ne_nil (Or.inr h)

theorem shape (h : IsLexeme t) :
    (∃ m : Mark, t = m.spelling) ∨ (∃ body, t = '"' :: body) ∨ Number t ∨ Word t := by
  obtain ⟨kind, literal, lexical⟩ := h
  cases lexical with
  | mark m => exact Or.inl ⟨m, rfl⟩
  | string => exact Or.inr (Or.inl ⟨_, rfl⟩)
  | whole nonempty digits => exact Or.inr (Or.inr (Or.inl ⟨_, .whole nonempty digits⟩))
  | decimal nonempty digits some fractional =>
      exact Or.inr (Or.inr (Or.inl ⟨_, .decimal nonempty digits some fractional⟩))
  | keyword k => exact Or.inr (Or.inr (Or.inr (word_spelling k)))
  | identifier word => exact Or.inr (Or.inr (Or.inr word))

theorem word_iff (h : IsLexeme t) : t.head?.any startsWord = true ↔ Word t := by
  constructor
  · intro first
    rcases h.shape with ⟨m, rfl⟩ | ⟨body, rfl⟩ | number | word
    · cases m <;> simp [Mark.spelling, startsWord] at first
    · simp [startsWord] at first
    · obtain ⟨c, rest, rfl, digit⟩ := number.exists_first
      exact absurd digit (startsWord_iff.mp first).not_digit
    · exact word
  · intro word
    obtain ⟨c, rest, rfl, letter⟩ := word.exists_first
    exact startsWord_iff.mpr letter

theorem number_iff (h : IsLexeme t) : t.head?.any Char.isDigit = true ↔ Number t := by
  constructor
  · intro first
    rcases h.shape with ⟨m, rfl⟩ | ⟨body, rfl⟩ | number | word
    · cases m <;> simp [Mark.spelling] at first
    · simp at first
    · exact number
    · obtain ⟨c, rest, rfl, letter⟩ := word.exists_first
      exact absurd (isDigit_iff.mp first) letter.not_digit
  · intro number
    obtain ⟨c, rest, rfl, digit⟩ := number.exists_first
    exact isDigit_iff.mpr digit

theorem continues_iff (h : IsLexeme t) :
    t.head?.any continuesWord = true ↔ Word t ∨ Number t := by
  rw [← h.word_iff, ← h.number_iff]
  cases t <;> simp [continuesWord]

/-- A lexeme that starts like no string, number or word is a mark. -/
theorem exists_mark (h : IsLexeme t) {c : Char} (first : t.head? = some c) (noQuote : c ≠ '"')
    (noWord : continuesWord c = false) : ∃ m : Mark, t = m.spelling := by
  have outside : ¬ (Letter c ∨ Digit c) := by rw [← continuesWord_iff, noWord]; simp
  rcases h.shape with mark | ⟨body, rfl⟩ | number | word
  · exact mark
  · exact absurd (Option.some.inj first).symm noQuote
  · obtain ⟨d, rest, rfl, digit⟩ := number.exists_first
    exact absurd (Or.inr (Option.some.inj first ▸ digit)) outside
  · obtain ⟨d, rest, rfl, letter⟩ := word.exists_first
    exact absurd (Or.inl (Option.some.inj first ▸ letter)) outside

theorem head?_eq_iff (h : IsLexeme t) (c : Char) (noQuote : c ≠ '"')
    (noWord : continuesWord c = false) :
    t.head? = some c ↔ t ∈ (Mark.all.map Mark.spelling).filter (·.head? == some c) := by
  rw [List.mem_filter, beq_iff_eq, iff_and_self]
  intro first
  obtain ⟨m, rfl⟩ := h.exists_mark first noQuote noWord
  exact List.mem_map_of_mem (by cases m <;> decide)

theorem equals_iff (h : IsLexeme t) : t.head? = some '=' ↔ t ∈ [['='], ['=', '=']] :=
  h.head?_eq_iff '=' (by decide) (by decide)

theorem slash_iff (h : IsLexeme t) : t.head? = some '/' ↔ t = ['/'] :=
  (h.head?_eq_iff '/' (by decide) (by decide)).trans List.mem_singleton

theorem point_iff (h : IsLexeme t) : t.head? = some '.' ↔ t = ['.'] :=
  (h.head?_eq_iff '.' (by decide) (by decide)).trans List.mem_singleton

end IsLexeme

theorem Number.isLexeme {t : Text} (h : Number t) : IsLexeme t := ⟨_, h⟩

theorem Mark.isLexeme (m : Mark) : IsLexeme m.spelling := ⟨_, _, .mark m⟩

theorem Number.not_word {t : Text} (h : Number t) : ¬ Word t := by
  intro word
  obtain ⟨c, rest, rfl, digit⟩ := h.exists_first
  exact (startsWord_iff.mp (h.isLexeme.word_iff.mpr word)).not_digit digit

theorem Mark.not_word (m : Mark) : ¬ Word m.spelling := by
  rw [← m.isLexeme.word_iff]
  cases m <;> decide

theorem Mark.not_number (m : Mark) : ¬ Number m.spelling := by
  rw [← m.isLexeme.number_iff]
  cases m <;> decide

/-- The marks that an equals sign makes longer. -/
theorem Mark.joins_equals_iff {t : Text} :
    t ∈ [['!'], ['='], ['<'], ['>']] ↔ ∃ m : Mark, m.spelling = t ∧ m.joins '=' = true := by
  constructor
  · intro listed
    simp only [List.mem_cons, List.not_mem_nil, or_false] at listed
    rcases listed with rfl | rfl | rfl | rfl
    · exact ⟨.bang, rfl, rfl⟩
    · exact ⟨.equal, rfl, rfl⟩
    · exact ⟨.less, rfl, rfl⟩
    · exact ⟨.greater, rfl, rfl⟩
  · rintro ⟨m, rfl, joins⟩
    cases m <;> first | contradiction | decide

theorem Piece.WellFormed.isNumber {whole fraction : Text}
    (h : (Piece.number whole fraction).WellFormed) : Number (Piece.number whole fraction).text := by
  obtain ⟨nonempty, digits, fractional⟩ := h
  cases fraction with
  | nil => exact ⟨_, .whole nonempty digits⟩
  | cons c fraction => exact ⟨_, .decimal nonempty digits (List.cons_ne_nil c fraction) fractional⟩

namespace RunsInto

variable {t : Text} {ts : List Text}

theorem word_iff (word : Word t) :
    RunsInto t ts ↔ ∃ u rest, ts = u :: rest ∧ (Word u ∨ Number u) := by
  constructor
  · intro runs
    cases runs with
    | word _ next => exact ⟨_, _, rfl, next⟩
    | number number => exact absurd word number.not_word
    | fraction number => exact absurd word number.not_word
    | slash => exact absurd word (Mark.not_word .slash)
    | equal first =>
        obtain ⟨m, rfl, -⟩ := Mark.joins_equals_iff.mp first
        exact absurd word m.not_word
  · rintro ⟨u, rest, rfl, next⟩
    exact .word word next

theorem number_iff (number : Number t) :
    RunsInto t ts ↔ (∃ u rest, ts = u :: rest ∧ Number u) ∨
      ('.' ∉ t ∧ ∃ u rest, ts = ['.'] :: u :: rest ∧ Number u) := by
  constructor
  · intro runs
    cases runs with
    | word word => exact absurd word number.not_word
    | number _ next => exact Or.inl ⟨_, _, rfl, next⟩
    | fraction _ noPoint next => exact Or.inr ⟨noPoint, _, _, rfl, next⟩
    | slash => exact absurd number (Mark.not_number .slash)
    | equal first =>
        obtain ⟨m, rfl, -⟩ := Mark.joins_equals_iff.mp first
        exact absurd number m.not_number
  · rintro (⟨u, rest, rfl, next⟩ | ⟨noPoint, u, rest, rfl, next⟩)
    · exact .number number next
    · exact .fraction number noPoint next

theorem not_quote {body : Text} : ¬ RunsInto ('"' :: body) ts := by
  intro runs
  have outside : ¬ (Letter '"' ∨ Digit '"') := by
    rw [← continuesWord_iff]
    decide
  have word : ¬ Word ('"' :: body) := by
    intro word
    obtain ⟨c, rest, same, letter⟩ := word.exists_first
    exact outside (Or.inl ((List.cons.inj same).1 ▸ letter))
  have number : ¬ Number ('"' :: body) := by
    intro number
    obtain ⟨c, rest, same, digit⟩ := number.exists_first
    exact outside (Or.inr ((List.cons.inj same).1 ▸ digit))
  cases runs with
  | word h => exact word h
  | number h => exact number h
  | fraction h => exact number h
  | equal first => simp at first

end RunsInto

/-! ### A piece grows exactly where its lexeme runs into the next -/

section

variable {ts : List Text} (lexemes : ∀ t ∈ ts, IsLexeme t)

include lexemes

/-- Where a class of first characters tells a class of lexemes, it tells the first of a list from the
text of the list. -/
theorem head?_flatten {f : Char → Bool} {P : Text → Prop}
    (tells : ∀ t, IsLexeme t → (t.head?.any f = true ↔ P t)) :
    ts.flatten.head?.any f = true ↔ ∃ u rest, ts = u :: rest ∧ P u := by
  cases ts with
  | nil => simp
  | cons u rest =>
      have lexical := lexemes u List.mem_cons_self
      have head : (u :: rest).flatten.head? = u.head? := by
        obtain ⟨c, more, rfl⟩ := List.exists_cons_of_ne_nil lexical.ne_nil
        rfl
      rw [head, tells u lexical]
      simp

theorem startsFraction_flatten :
    startsFraction ts.flatten = true ↔ ∃ u rest, ts = ['.'] :: u :: rest ∧ Number u := by
  constructor
  · intro fraction
    cases ts with
    | nil => simp [startsFraction] at fraction
    | cons t ts =>
        obtain ⟨c, more, rfl⟩ := List.exists_cons_of_ne_nil (lexemes t List.mem_cons_self).ne_nil
        have point : c = '.' := by
          by_contra other
          simp [startsFraction, other] at fraction
        have single := (lexemes _ List.mem_cons_self).point_iff.mp (by rw [point]; rfl)
        rw [single] at fraction ⊢
        have later (u) (member : u ∈ ts) : IsLexeme u := lexemes u (List.mem_cons_of_mem _ member)
        have digit : ts.flatten.head?.any Char.isDigit = true := by
          cases back : ts.flatten with
          | nil => simp [startsFraction, back] at fraction
          | cons d back' => simpa [startsFraction, back] using fraction
        obtain ⟨u, rest, rfl, number⟩ := (head?_flatten later fun _ => IsLexeme.number_iff).mp digit
        exact ⟨u, rest, rfl, number⟩
  · rintro ⟨u, rest, rfl, number⟩
    obtain ⟨c, more, rfl, digit⟩ := number.exists_first
    exact isDigit_iff.mpr digit

theorem grows_mark (m : Mark) :
    (Piece.mark m).grows ts.flatten = true ↔ RunsInto m.spelling ts := by
  constructor
  · intro grows
    obtain ⟨u, rest, rfl, some⟩ := (head?_flatten lexemes fun _ _ => Iff.rfl).mp grows
    obtain ⟨c, first, joins⟩ := (Option.any_eq_true ..).mp some
    have lexical := lexemes u List.mem_cons_self
    by_cases slash : m = .slash
    · subst slash
      have same : c = '/' := beq_iff_eq.mp joins
      rw [lexical.slash_iff.mp (same ▸ first)]
      exact .slash
    · have same : c = '=' := by cases m <;> simp_all [Mark.joins]
      subst same
      exact .equal (Mark.joins_equals_iff.mpr ⟨m, rfl, joins⟩) (lexical.equals_iff.mp first)
  · intro runs
    generalize written : m.spelling = t at runs
    cases runs with
    | word word => exact absurd (written ▸ word) m.not_word
    | number number => exact absurd (written ▸ number) m.not_number
    | fraction number => exact absurd (written ▸ number) m.not_number
    | slash =>
        have same : m = .slash := Mark.spelling_injective written
        rw [same]
        rfl
    | @equal t u rest first second =>
        obtain ⟨n, same, joins⟩ := Mark.joins_equals_iff.mp first
        obtain rfl : m = n := Mark.spelling_injective (written.trans same.symm)
        refine (head?_flatten lexemes fun _ _ => Iff.rfl).mpr ⟨u, rest, rfl, ?_⟩
        rw [(lexemes u List.mem_cons_self).equals_iff.mpr second]
        exact joins

theorem grows_number {whole fraction : Text} (formed : (Piece.number whole fraction).WellFormed) :
    (Piece.number whole fraction).grows ts.flatten = true ↔
      RunsInto (Piece.number whole fraction).text ts := by
  have noPoint : fraction.isEmpty = true ↔ '.' ∉ (Piece.number whole fraction).text := by
    have whole_point : '.' ∉ whole := fun inside => absurd (formed.2.1 _ inside).1 (by decide)
    by_cases none : fraction = [] <;> simp [Piece.text, none, whole_point]
  rw [Piece.grows, Bool.or_eq_true, Bool.and_eq_true, startsFraction_flatten lexemes, noPoint,
    head?_flatten lexemes fun _ => IsLexeme.number_iff, RunsInto.number_iff formed.isNumber]

theorem grows_word {t : Text} (word : Word t) :
    (Piece.word t).grows ts.flatten = true ↔ RunsInto t ts := by
  rw [Piece.grows, head?_flatten lexemes fun _ => IsLexeme.continues_iff, RunsInto.word_iff word]

/-- A lexeme grows exactly where it runs into the lexemes behind it. -/
theorem Piece.grows_iff {p : Piece} (formed : p.WellFormed) (token : p.kind?.isSome = true) :
    p.grows ts.flatten = true ↔ RunsInto p.text ts := by
  cases p with
  | mark m => exact grows_mark lexemes m
  | string body => exact iff_of_false Bool.false_ne_true RunsInto.not_quote
  | number whole fraction => exact grows_number lexemes formed
  | word t => exact grows_word lexemes formed
  | _ => simp [kind?] at token

end

/-! ### Lists of lexemes as lists of pieces -/

/-- Pieces that are tokens, as they stand in sources. -/
def AreTokens (ps : List Piece) : Prop := ∀ p ∈ ps, p.WellFormed ∧ p.kind?.isSome = true

theorem exists_tokens {ts : List Text} (lexemes : ∀ t ∈ ts, IsLexeme t) :
    ∃ ps, AreTokens ps ∧ ps.map Piece.text = ts := by
  induction ts with
  | nil => exact ⟨[], by simp [AreTokens], rfl⟩
  | cons t ts ih =>
      rw [List.forall_mem_cons] at lexemes
      obtain ⟨⟨kind, literal, lexical⟩, later⟩ := lexemes
      obtain ⟨ps, tokens, rfl⟩ := ih later
      obtain ⟨p, rfl, formed, same, -⟩ := lexical.exists_piece
      refine ⟨p :: ps, List.forall_mem_cons.mpr ⟨⟨formed, ?_⟩, tokens⟩, rfl⟩
      rw [same]
      rfl

theorem AreTokens.lexemes {ps : List Piece} (tokens : AreTokens ps) :
    ∀ t ∈ ps.map Piece.text, IsLexeme t := by
  intro t member
  obtain ⟨p, inside, rfl⟩ := List.mem_map.mp member
  exact (tokens p inside).1.isLexeme (tokens p inside).2

theorem runTogether_cons {t : Text} {ts : List Text} :
    RunTogether (t :: ts) ↔ RunsInto t ts ∨ RunTogether ts := by
  constructor
  · rintro ⟨u, rest, behind, runs⟩
    rcases List.suffix_cons_iff.mp behind with same | behind
    · obtain ⟨rfl, rfl⟩ := List.cons.inj same
      exact Or.inl runs
    · exact Or.inr ⟨u, rest, behind, runs⟩
  · rintro (runs | ⟨u, rest, behind, runs⟩)
    · exact ⟨t, ts, List.suffix_rfl, runs⟩
    · exact ⟨u, rest, List.suffix_cons_iff.mpr (Or.inr behind), runs⟩

/-- Tokens are settled where none runs into those behind it. -/
theorem AreTokens.settled_iff {ps : List Piece} (tokens : AreTokens ps) :
    Settled ps [] ↔ ¬ RunTogether (ps.map Piece.text) := by
  induction ps with
  | nil => simp [Settled, RunTogether]
  | cons p ps ih =>
      rw [AreTokens, List.forall_mem_cons] at tokens
      obtain ⟨⟨formed, token⟩, others⟩ := tokens
      have others : AreTokens ps := others
      have written : (ps.map Piece.text).flatten = textOf ps := rfl
      rw [Settled, ih others, List.append_nil, Piece.first?_append_iff, List.map_cons,
        runTogether_cons, ← Piece.grows_iff others.lexemes formed token, written, not_or,
        Bool.not_eq_true, and_iff_right formed]

theorem map_lexeme_tokensFrom (offset line : Nat) (ps : List Piece) :
    (tokensFrom offset line ps).map (·.lexeme) =
      (ps.filter (·.kind?.isSome)).map Piece.text := by
  induction ps generalizing offset line with
  | nil => rfl
  | cons p ps ih =>
      rw [tokensFrom_cons, List.map_append, ih, List.filter_cons]
      cases kind : p.kind? <;> simp [Segment.token?, kind]

theorem AreTokens.faultsFrom {ps : List Piece} (tokens : AreTokens ps) (offset line : Nat) :
    faultsFrom offset line ps = [] := by
  induction ps generalizing offset line with
  | nil => rfl
  | cons p ps ih =>
      rw [AreTokens, List.forall_mem_cons] at tokens
      rw [faultsFrom_cons, Segment.fault?_of_token tokens.1.2, ih tokens.2]
      rfl

/-- Where some of the pieces write as much as all of them, they are all of them. -/
theorem filter_eq_self_of_textOf {f : Piece → Bool} {ps : List Piece}
    (visible : ∀ p ∈ ps, p.text ≠ []) (same : textOf (ps.filter f) = textOf ps) :
    ps.filter f = ps := by
  induction ps with
  | nil => rfl
  | cons p ps ih =>
      rw [List.forall_mem_cons] at visible
      obtain ⟨written, visible⟩ := visible
      by_cases kept : f p = true
      · rw [List.filter_cons_of_pos kept] at same ⊢
        rw [ih visible (List.append_cancel_left same)]
      · rw [List.filter_cons_of_neg kept] at same
        have shorter : (textOf (ps.filter f)).length ≤ (textOf ps).length :=
          (List.filter_sublist.flatMap Piece.text).length_le
        have positive := List.length_pos_iff.mpr written
        have longer := congrArg List.length same
        rw [textOf_cons, List.length_append] at longer
        omega

/-- Pieces are told by the texts that they write. -/
theorem eq_of_map_text {ps qs : List Piece} (hp : ∀ p ∈ ps, p.WellFormed)
    (hq : ∀ q ∈ qs, q.WellFormed) (same : ps.map Piece.text = qs.map Piece.text) : ps = qs := by
  have read {rs : List Piece} (formed : ∀ r ∈ rs, r.WellFormed) :
      (rs.map Piece.text).map Piece.first? = rs.map some := by
    rw [List.map_map]
    exact List.map_congr_left fun r member => Piece.wellFormed_iff.mp (formed r member)
  apply List.map_injective_iff.mpr (fun _ _ => Option.some.inj)
  rw [← read hp, same, read hq]

theorem AreTokens.readsAs_iff {ps : List Piece} (tokens : AreTokens ps) :
    ReadsAs (textOf ps) (ps.map Piece.text) ↔ pieces (textOf ps) = ps := by
  have kept : ps.filter (·.kind?.isSome) = ps := List.filter_eq_self.mpr fun p member =>
    (tokens p member).2
  constructor
  · rintro ⟨found, scanned, lexemes⟩
    generalize source : textOf ps = t at scanned
    -- the lexemes write the whole text, so the text has no other pieces
    have settled := settled_pieces t
    rw [scan_eq, Scan.mk.injEq, List.append_cancel_right_eq] at scanned
    rw [← scanned.1, map_lexeme_tokensFrom] at lexemes
    have written : textOf ((pieces t).filter (·.kind?.isSome)) = textOf (pieces t) := by
      rw [textOf_pieces, textOf, List.flatMap_def, lexemes]
      exact source
    have visible : ∀ p ∈ pieces t, p.text ≠ [] := fun p member =>
      Piece.text_ne_nil (Piece.wellFormed_iff.mp (settled.wellFormed p member))
    rw [filter_eq_self_of_textOf visible written] at lexemes
    exact eq_of_map_text settled.wellFormed (fun p member => (tokens p member).1) lexemes
  · intro same
    refine ⟨tokensFrom 0 1 ps, ?_, ?_⟩
    · rw [scan_eq, same, tokens.faultsFrom]
    · rw [map_lexeme_tokensFrom, kept]

/-- **Lexemes can be written with nothing between them exactly where none runs into the next.** -/
theorem scan_flatten_iff {ts : List Text} (lexemes : ∀ t ∈ ts, IsLexeme t) :
    ReadsAs ts.flatten ts ↔ ¬ RunTogether ts := by
  obtain ⟨ps, tokens, rfl⟩ := exists_tokens lexemes
  exact tokens.readsAs_iff.trans (pieces_textOf_iff.trans tokens.settled_iff)

/-- A point between two numbers is a mark where the first has a fraction already, and belongs to the
first where it has none. -/
theorem scan_points :
    let parted : List Text := ["1.5", ".", "2"]
    let joined : List Text := ["1", ".", "2"]
    (∀ t ∈ parted, IsLexeme t) ∧ ReadsAs parted.flatten parted ∧ ¬ RunTogether parted ∧
      (∀ t ∈ joined, IsLexeme t) ∧ RunTogether joined ∧ ¬ ReadsAs joined.flatten joined := by
  intro parted joined
  have tokens {ps : List Piece}
      (checked : ∀ p ∈ ps, Piece.first? p.text = some p ∧ p.kind?.isSome = true) : AreTokens ps :=
    fun p member => ⟨Piece.wellFormed_iff.mpr (checked p member).1, (checked p member).2⟩
  have first : AreTokens [.number "1" "5", .mark .dot, .number "2" []] := tokens (by decide)
  have second : AreTokens [.number "1" [], .mark .dot, .number "2" []] := tokens (by decide)
  have reads : ReadsAs parted.flatten parted :=
    first.readsAs_iff.mpr (pieces_textOf_iff.mpr (by decide))
  have runs : RunTogether joined := by
    refine ⟨"1", [".", "2"], List.suffix_rfl, .fraction ?_ (by decide) ?_⟩
    · exact (second _ List.mem_cons_self).1.isNumber
    · exact (second (.number "2" []) (by decide)).1.isNumber
  refine ⟨first.lexemes, reads, (scan_flatten_iff first.lexemes).mp reads, second.lexemes, runs, ?_⟩
  exact fun read => (scan_flatten_iff second.lexemes).mp read runs

end LoxTokens
