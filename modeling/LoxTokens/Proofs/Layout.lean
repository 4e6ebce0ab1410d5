import LoxTokens.Proofs.LineByLine
import Mathlib.Data.List.Forall2

/-!
Lexemes written with separating characters between them.

A layout is a list of lexemes, each with the separating characters before it, and those after the
last one. Only the first gap and the last may be empty. `scan_layout` says that scanning gives every
lexeme of a layout back, at the place where it was written and with the kind and the value that it
has by itself, and no fault: whatever stands in a string is not looked at, and a separating
character ends every other lexeme.
-/

namespace LoxTokens

/-- A text of separating characters, perhaps none. -/
def Separates (t : Text) : Prop := ∀ c ∈ t, c ∈ [' ', '\t', '\r', '\n']

/-- Lexemes, each with what stands before it, and what stands after the last. -/
structure Layout where
  parts : List (Text × Text)
  last : Text
  lexemes : ∀ part ∈ parts, IsLexeme part.2
  separators : ∀ part ∈ parts, Separates part.1
  separators_last : Separates last
  /-- Something stands between two lexemes. -/
  parted : ∀ part ∈ parts.tail, part.1 ≠ []

namespace Layout

def partsText (parts : List (Text × Text)) : Text := parts.flatMap fun part => part.1 ++ part.2

def text (l : Layout) : Text := partsText l.parts ++ l.last

/-- Each lexeme of the parts, with all that is written before it. -/
def placesAfter : Text → List (Text × Text) → List (Text × Text)
  | _, [] => []
  | before, (gap, t) :: parts => (before ++ gap, t) :: placesAfter (before ++ gap ++ t) parts

def places (l : Layout) : List (Text × Text) := placesAfter [] l.parts

end Layout

/-- A token that stands for a lexeme after `before`: it has the place of the lexeme there, and in all
else it is the token that scanning the lexeme alone gives. -/
structure StandsFor (before written : Text) (t : Token) : Prop where
  lexeme : t.lexeme = written
  span : t.span = ⟨Text.byteLength before, Text.byteLength before + Text.byteLength written⟩
  line : t.line = lineAfter before
  alone : scan written = ⟨[{ t with line := 1, span := ⟨0, Text.byteLength written⟩ },
    closingToken written], []⟩

/-! ### Gaps and lexemes in front of a text -/

theorem pieces_separators {gap : Text} (separators : Separates gap) (rest : Text) :
    pieces (gap ++ rest) = gap.map .blank ++ pieces rest := by
  induction gap with
  | nil => rfl
  | cons c gap ih =>
      have blank : Piece.first? ((Piece.blank c).text ++ (gap ++ rest)) = some (.blank c) :=
        Piece.first?_append_iff.mpr ⟨separators c List.mem_cons_self, rfl⟩
      rw [List.map_cons, List.cons_append, List.cons_append,
        ← ih fun d member => separators d (List.mem_cons_of_mem _ member)]
      exact pieces_append blank

theorem textOf_map_blank (gap : Text) : textOf (gap.map .blank) = gap := by
  induction gap with
  | nil => rfl
  | cons c gap ih => rw [List.map_cons, textOf_cons, ih]; rfl

theorem silent_map_blank (gap : Text) : ∀ p ∈ gap.map Piece.blank, p.Silent := by
  intro p member
  obtain ⟨c, -, rfl⟩ := List.mem_map.mp member
  trivial

/-- A text is empty or starts with a separating character. -/
def StartsApart (t : Text) : Prop := ∀ c, t.head? = some c → separates c = true

theorem Piece.not_grows_of_startsApart {p : Piece} {rest : Text} (token : p.kind?.isSome = true)
    (apart : StartsApart rest) : p.grows rest = false := by
  cases rest with
  | nil => exact p.not_grows_nil
  | cons c rest =>
      apply not_grows_separator (apart c rfl)
      cases p with
      | comment | openString => simp [kind?] at token
      | _ => trivial

theorem Segment.fault?_of_token {s : Segment} (token : s.piece.kind?.isSome = true) :
    s.fault? = none := by
  apply fault?_of_accepted
  cases kind : s.piece <;> simp_all [Piece.kind?, Piece.Accepted]

/-- A lexeme in front of a text that stands apart from it is one piece, and gives one token. -/
theorem IsLexeme.exists_token {t : Text} (h : IsLexeme t) (before : Text) :
    ∃ (p : Piece) (token : Token), p.text = t ∧ StandsFor before t token ∧
      Segment.token? ⟨p, Text.byteLength before, lineAfter before⟩ = some token ∧
      Segment.fault? ⟨p, Text.byteLength before, lineAfter before⟩ = none ∧
      ∀ rest, StartsApart rest → pieces (t ++ rest) = p :: pieces rest := by
  obtain ⟨kind, literal, lexical⟩ := h
  obtain ⟨p, rfl, formed, same, rfl⟩ := lexical.exists_piece
  have token : p.kind?.isSome = true := by rw [same]; rfl
  have read (rest : Text) (apart : StartsApart rest) :
      pieces (p.text ++ rest) = p :: pieces rest := by
    apply pieces_append
    exact Piece.first?_append_iff.mpr ⟨formed, Piece.not_grows_of_startsApart token apart⟩
  have alone : pieces p.text = [p] := by simpa using read [] (by simp [StartsApart])
  refine ⟨p, tokenAfter before p.text kind p.literal?, rfl, ⟨rfl, ?_, rfl, ?_⟩, ?_,
    Segment.fault?_of_token token, read⟩
  · simp [tokenAfter]
  · rw [scan_eq, alone, tokensFrom_cons, faultsFrom_cons, Segment.fault?_of_token token]
    simp [Segment.token?, same, tokenAfter, Segment.span, tokensFrom, faultsFrom, segmentsFrom]
  · simp [Segment.token?, same, tokenAfter, Segment.span]

/-! ### Whole layouts -/

/-- What follows a lexeme of a layout stands apart from it. -/
theorem startsApart_parts {parts : List (Text × Text)} {last : Text}
    (separators : ∀ part ∈ parts, Separates part.1) (separators_last : Separates last)
    (parted : ∀ part ∈ parts, part.1 ≠ []) : StartsApart (Layout.partsText parts ++ last) := by
  intro c head
  cases parts with
  | nil => exact separates_iff.mpr (separators_last c (List.mem_of_mem_head? head))
  | cons part parts =>
      obtain ⟨d, gap, same⟩ := List.exists_cons_of_ne_nil (parted part List.mem_cons_self)
      have first : d = c := by simpa [Layout.partsText, same] using head
      have inside := separators part List.mem_cons_self
      rw [same] at inside
      exact separates_iff.mpr (first ▸ inside d List.mem_cons_self)

theorem exists_tokens_parts {parts : List (Text × Text)} {last : Text}
    (lexemes : ∀ part ∈ parts, IsLexeme part.2) (separators : ∀ part ∈ parts, Separates part.1)
    (separators_last : Separates last) (parted : ∀ part ∈ parts.tail, part.1 ≠ [])
    (before : Text) :
    let ps := pieces (Layout.partsText parts ++ last)
    faultsFrom (Text.byteLength before) (lineAfter before) ps = [] ∧
      List.Forall₂ (fun place t => StandsFor place.1 place.2 t) (Layout.placesAfter before parts)
        (tokensFrom (Text.byteLength before) (lineAfter before) ps) := by
  induction parts generalizing before with
  | nil =>
      have blank : pieces last = last.map .blank := by
        simpa using pieces_separators separators_last []
      have nothing := tokensFrom_silent (silent_map_blank last) (Text.byteLength before)
        (lineAfter before)
      show faultsFrom _ _ (pieces last) = [] ∧ List.Forall₂ _ [] (tokensFrom _ _ (pieces last))
      rw [blank, nothing.1, nothing.2]
      exact ⟨rfl, .nil⟩
  | cons part parts ih =>
      obtain ⟨gap, t⟩ := part
      have later (other) (member : other ∈ parts) := List.mem_cons_of_mem (gap, t) member
      have apart := startsApart_parts (fun part member => separators part (later part member))
        separators_last parted
      obtain ⟨p, token, written, stands, tokenOf, faultOf, read⟩ :=
        (lexemes (gap, t) List.mem_cons_self).exists_token (before ++ gap)
      have next := ih (fun part member => lexemes part (later part member))
        (fun part member => separators part (later part member))
        (fun part member => parted part (List.mem_of_mem_tail member)) (before ++ gap ++ t)
      have whole : pieces (Layout.partsText ((gap, t) :: parts) ++ last) =
          gap.map .blank ++ p :: pieces (Layout.partsText parts ++ last) := by
        rw [← read _ apart, ← pieces_separators (separators (gap, t) List.mem_cons_self)]
        simp [Layout.partsText]
      have nothing := tokensFrom_silent (silent_map_blank gap) (Text.byteLength before)
        (lineAfter before)
      dsimp only at next ⊢
      rw [whole, faultsFrom_append, tokensFrom_append, nothing.1, nothing.2, textOf_map_blank,
        ← Text.byteLength_append, ← lineAfter_append, faultsFrom_cons, tokensFrom_cons, faultOf,
        tokenOf, written, ← Text.byteLength_append, ← lineAfter_append]
      exact ⟨next.1, .cons stands next.2⟩

/-- **Lexemes that are written apart are read back.** Scanning a layout gives one token for each of
its lexemes, in order and each at its place, then the end, and no fault. -/
theorem scan_layout (l : Layout) : ∃ tokens,
    scan l.text = ⟨tokens ++ [closingToken l.text], []⟩ ∧
      List.Forall₂ (fun place t => StandsFor place.1 place.2 t) l.places tokens := by
  obtain ⟨faults, tokens⟩ := exists_tokens_parts l.lexemes l.separators l.separators_last l.parted []
  refine ⟨_, ?_, tokens⟩
  rw [scan_eq]
  exact congrArg _ faults

/-- A string that holds slashes and a line end, a number and a word, each read back at its place. -/
theorem scan_layout_of_lines :
    ∃ l : Layout, l.text = "\"//\n\"\t1.5\r\nx".toList ∧
      l.places.map (·.2) = ["\"//\n\"".toList, "1.5".toList, "x".toList] ∧
      ∃ tokens, scan l.text = ⟨tokens ++ [closingToken l.text], []⟩ ∧
        List.Forall₂ (fun place t => StandsFor place.1 place.2 t) l.places tokens := by
  have isLexeme {p : Piece} (formed : Piece.first? p.text = some p) (token : p.kind?.isSome = true) :
      IsLexeme p.text := (Piece.wellFormed_iff.mpr formed).isLexeme token
  have string : IsLexeme "\"//\n\"" := @isLexeme (.string "//\n") rfl rfl
  have number : IsLexeme "1.5" := @isLexeme (.number "1" "5") rfl rfl
  have word : IsLexeme "x" := @isLexeme (.word "x") rfl rfl
  let l : Layout :=
    { parts := [([], "\"//\n\""), ("\t", "1.5"), ("\r\n", "x")]
      last := []
      lexemes := by simpa using ⟨string, number, word⟩
      separators := by simp [Separates]
      separators_last := by simp [Separates]
      parted := by simp }
  exact ⟨l, rfl, rfl, scan_layout l⟩

end LoxTokens
