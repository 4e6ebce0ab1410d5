import LoxTokens.Proofs.Reading

/-!
A source taken apart: the lexemes of its tokens, and all that stands between them.

A gap is a list of fillers, each a blank, a comment or a refused character; after the last token
there may also be the tail of an unclosed string. A comment is whole only with all of its line, which
is a matter of what follows it. A dissection lists every token with the gap before it. Its parts
written one after the other are the source, so nothing is lost and nothing is counted twice.

* `Reading.exists_dissection` — every reading leaves a dissection behind, by induction on the
  reading: a step that yields a token adds a part, any other step adds a filler to the first gap.
* `Placed.pairwise`, `Placed.slice_lexeme`, `Placed.slice_gaps` — where each part starts at the byte
  at which the one before it stops, the spans are ordered and disjoint, and cut the lexemes and the
  gaps out of the source.
-/

namespace LoxTokens

/-! ### Gaps -/

/-- What may stand between two tokens. -/
inductive Filler where
  | blank (c : Char) (separates : c ∈ [' ', '\t', '\r', '\n'])
  | comment (body : Text) (inLine : '\n' ∉ body)
  | refused (c : Char) (hopeless : StartsNothing c)

namespace Filler

def text : Filler → Text
  | .blank c _ => [c]
  | .comment body _ => '/' :: '/' :: body
  | .refused c _ => [c]

/-- The character that is refused; `none` for a filler that is no fault. -/
def refused? : Filler → Option Char
  | .refused c _ => some c
  | _ => none

/-- In front of a text a filler is whole: a comment goes on to the end of its line. -/
def WholeBefore : Filler → Text → Prop
  | .comment _ _, after => after = [] ∨ ∃ rest, after = '\n' :: rest
  | _, _ => True

end Filler

abbrev Gap := List Filler

namespace Gap

def text (gap : Gap) : Text := gap.flatMap Filler.text

def refused (gap : Gap) : List Char := gap.filterMap Filler.refused?

/-- In front of a text all fillers of a gap are whole. -/
def WholeBefore : Gap → Text → Prop
  | [], _ => True
  | f :: gap, after => f.WholeBefore (Gap.text gap ++ after) ∧ WholeBefore gap after

end Gap

/-! ### Dissections -/

/-- The tokens of a source but the one that marks its end, each with the gap before it; the gap
after them; and what follows the quote of an unclosed string, if there is one. -/
@[ext]
structure Dissection where
  parts : List (Gap × Token)
  last : Gap
  tail : Option { body : Text // '"' ∉ body }

namespace Dissection

/-- The tail of an unclosed string, from its quote on. -/
def tailText (d : Dissection) : Text := d.tail.elim [] fun body => '"' :: body.1

/-- The texts of all gaps in order; the tail belongs to the last of them. -/
def gapTexts (d : Dissection) : List Text :=
  d.parts.map (·.1.text) ++ [d.last.text ++ d.tailText]

def tokens (d : Dissection) : List Token := d.parts.map (·.2)

def partsText (parts : List (Gap × Token)) : Text :=
  parts.flatMap fun part => part.1.text ++ part.2.lexeme

/-- Gaps and lexemes in turn, and what follows the last token. -/
def text (d : Dissection) : Text := partsText d.parts ++ (d.last.text ++ d.tailText)

def refused (d : Dissection) : List Char :=
  d.parts.flatMap (·.1.refused) ++ d.last.refused

/-- In front of a text all fillers of some parts are whole. -/
def WholePartsBefore : List (Gap × Token) → Text → Prop
  | [], _ => True
  | (gap, t) :: parts, after =>
      gap.WholeBefore (t.lexeme ++ (partsText parts ++ after)) ∧ WholePartsBefore parts after

/-- All fillers are whole where they stand. -/
structure Whole (d : Dissection) : Prop where
  parts : WholePartsBefore d.parts (d.last.text ++ d.tailText)
  last : d.last.WholeBefore d.tailText

/-- A dissection with one more filler in front. -/
def addFiller (f : Filler) (d : Dissection) : Dissection :=
  match d.parts with
  | [] => { d with last := f :: d.last }
  | (gap, t) :: parts => { d with parts := (f :: gap, t) :: parts }

end Dissection

/-- The character that a fault names; `none` for an unclosed string. -/
def Fault.character? : Fault → Option Char
  | .unexpectedCharacter _ c => some c
  | .unterminatedString _ => none

/-- The spans between tokens: from a byte to the first token, then from each token to the next. -/
def gapsBetween : Nat → List Token → List Span
  | _, [] => []
  | start, t :: tokens => ⟨start, t.span.start⟩ :: gapsBetween t.span.stop tokens

/-! ### Adding a filler -/

section AddFiller

variable (f : Filler) (d : Dissection)

@[simp] theorem text_addFiller : (d.addFiller f).text = f.text ++ d.text := by
  obtain ⟨parts, last, tail⟩ := d
  cases parts <;>
    simp [Dissection.addFiller, Dissection.text, Dissection.partsText, Dissection.tailText,
      Gap.text]

@[simp] theorem tokens_addFiller : (d.addFiller f).tokens = d.tokens := by
  obtain ⟨parts, last, tail⟩ := d
  cases parts <;> rfl

@[simp] theorem tail_addFiller : (d.addFiller f).tail = d.tail := by
  obtain ⟨parts, last, tail⟩ := d
  cases parts <;> rfl

@[simp] theorem refused_addFiller :
    (d.addFiller f).refused = f.refused?.toList ++ d.refused := by
  obtain ⟨parts, last, tail⟩ := d
  cases character : f.refused? <;> cases parts <;>
    simp [Dissection.addFiller, Dissection.refused, Gap.refused, character]

end AddFiller

theorem whole_addFiller {f : Filler} {d : Dissection} (here : f.WholeBefore d.text)
    (whole : d.Whole) : (d.addFiller f).Whole := by
  obtain ⟨parts, last, tail⟩ := d
  cases parts with
  | nil => exact ⟨trivial, here, whole.last⟩
  | cons part parts =>
      obtain ⟨gap, t⟩ := part
      obtain ⟨first, later⟩ := whole.parts
      have inside : f.WholeBefore (gap.text ++ (t.lexeme ++ (Dissection.partsText parts ++
          (last.text ++ Dissection.tailText ⟨(gap, t) :: parts, last, tail⟩)))) := by
        simpa [Dissection.text, Dissection.partsText] using here
      exact ⟨⟨⟨inside, first⟩, later⟩, whole.last⟩

/-! ### Where the parts stand -/

/-- Parts that stand one behind the other from a byte on, none of them with an empty lexeme. -/
def Placed : Nat → List (Gap × Token) → Prop
  | _, [] => True
  | offset, (gap, t) :: parts =>
      t.span.start = offset + Text.byteLength gap.text ∧
        t.span.stop = t.span.start + Text.byteLength t.lexeme ∧ t.lexeme ≠ [] ∧
        Placed t.span.stop parts

theorem placed_addFiller {offset : Nat} {f : Filler} {d : Dissection}
    (h : Placed (offset + Text.byteLength f.text) d.parts) :
    Placed offset (d.addFiller f).parts := by
  obtain ⟨parts, last, tail⟩ := d
  cases parts with
  | nil => trivial
  | cons part parts =>
      obtain ⟨gap, t⟩ := part
      obtain ⟨start, stop, nonempty, placed⟩ := h
      refine ⟨?_, stop, nonempty, placed⟩
      rw [start]
      simp [Gap.text, Nat.add_assoc]

namespace Placed

variable {offset : Nat} {parts : List (Gap × Token)}

theorem lexeme_ne_nil (h : Placed offset parts) : ∀ part ∈ parts, part.2.lexeme ≠ [] := by
  induction parts generalizing offset with
  | nil => simp
  | cons first parts ih =>
      obtain ⟨-, -, nonempty, placed⟩ := h
      intro part member
      rcases List.mem_cons.mp member with rfl | member
      · exact nonempty
      · exact ih placed part member

/-- Every span lies between the byte where the parts start and the byte where they end. -/
theorem bounds (h : Placed offset parts) : ∀ part ∈ parts, offset ≤ part.2.span.start ∧
    part.2.span.start < part.2.span.stop ∧
    part.2.span.stop ≤ offset + Text.byteLength (Dissection.partsText parts) := by
  induction parts generalizing offset with
  | nil => simp
  | cons first parts ih =>
      obtain ⟨gap, t⟩ := first
      obtain ⟨start, stop, nonempty, placed⟩ := h
      have positive := Text.byteLength_pos nonempty
      have whole : Text.byteLength (Dissection.partsText ((gap, t) :: parts)) =
          Text.byteLength gap.text + Text.byteLength t.lexeme +
            Text.byteLength (Dissection.partsText parts) := by
        simp [Dissection.partsText, Nat.add_assoc]
      intro part member
      rcases List.mem_cons.mp member with rfl | member
      · dsimp only
        omega
      · have := ih placed part member
        omega

theorem pairwise (h : Placed offset parts) : (parts.map (·.2)).Pairwise fun t u =>
    t.span.start < u.span.start ∧ t.span.stop ≤ u.span.start := by
  induction parts generalizing offset with
  | nil => exact List.Pairwise.nil
  | cons first parts ih =>
      obtain ⟨gap, t⟩ := first
      have here := h.bounds (gap, t) List.mem_cons_self
      obtain ⟨-, -, -, placed⟩ := h
      apply List.Pairwise.cons _ (ih placed)
      intro u member
      obtain ⟨part, inside, rfl⟩ := List.mem_map.mp member
      have later := placed.bounds part inside
      dsimp only at here ⊢
      omega

/-- The first part stands after `front`, and the others behind it. -/
theorem of_cons {front : Text} {gap : Gap} {t : Token}
    (h : Placed (Text.byteLength front) ((gap, t) :: parts)) :
    t.span.start = Text.byteLength (front ++ gap.text) ∧
      t.span.stop = Text.byteLength (front ++ gap.text ++ t.lexeme) ∧
      Placed (Text.byteLength (front ++ gap.text ++ t.lexeme)) parts := by
  obtain ⟨start, stop, -, placed⟩ := h
  rw [← Text.byteLength_append] at start
  rw [start, ← Text.byteLength_append] at stop
  exact ⟨start, stop, stop ▸ placed⟩

/-- A source whose parts stand after `front`, with its first part passed. -/
theorem source_cons (front back : Text) (gap : Gap) (t : Token) (parts : List (Gap × Token)) :
    front ++ Dissection.partsText ((gap, t) :: parts) ++ back =
      front ++ gap.text ++ t.lexeme ++ Dissection.partsText parts ++ back := by
  simp [Dissection.partsText]

theorem slice_lexeme (front back : Text) (h : Placed (Text.byteLength front) parts) :
    ∀ part ∈ parts,
      Text.slice? (front ++ Dissection.partsText parts ++ back) part.2.span.start
        part.2.span.stop = some part.2.lexeme := by
  induction parts generalizing front with
  | nil => simp
  | cons first parts ih =>
      obtain ⟨gap, t⟩ := first
      obtain ⟨start, stop, placed⟩ := h.of_cons
      rw [source_cons]
      intro part member
      rcases List.mem_cons.mp member with rfl | member
      · rw [start, stop, List.append_assoc (front ++ gap.text ++ t.lexeme)]
        exact Text.slice?_append ..
      · exact ih _ placed part member

theorem slice_gaps (front back : Text) (h : Placed (Text.byteLength front) parts) {close : Token}
    (atEnd : close.span.start = Text.byteLength (front ++ Dissection.partsText parts ++ back)) :
    (gapsBetween (Text.byteLength front) (parts.map (·.2) ++ [close])).map
        (fun gap => Text.slice? (front ++ Dissection.partsText parts ++ back) gap.start gap.stop) =
      (parts.map (·.1.text) ++ [back]).map some := by
  induction parts generalizing front with
  | nil =>
      have last := Text.slice?_append front back []
      simp only [Dissection.partsText, List.flatMap_nil, List.append_nil] at atEnd last ⊢
      simp [gapsBetween, atEnd, ← last]
  | cons first parts ih =>
      obtain ⟨gap, t⟩ := first
      obtain ⟨start, stop, placed⟩ := h.of_cons
      rw [source_cons] at atEnd ⊢
      have here : Text.slice? (front ++ gap.text ++ t.lexeme ++ Dissection.partsText parts ++ back)
          (Text.byteLength front) t.span.start = some gap.text := by
        rw [start, List.append_assoc (front ++ gap.text), List.append_assoc (front ++ gap.text)]
        exact Text.slice?_append ..
      have later := ih _ placed atEnd
      rw [← stop] at later
      simp only [List.map_cons, List.cons_append, gapsBetween, here, later]

end Placed

/-! ### Every reading leaves a dissection -/

/-- A comment that is the longest match takes all of its line. -/
theorem Longest.comment_ends {body rest : Text} (inLine : '\n' ∉ body)
    (h : Longest ('/' :: '/' :: body) ('/' :: '/' :: body ++ rest)) :
    rest = [] ∨ ∃ back, rest = '\n' :: back := by
  cases rest with
  | nil => exact .inl rfl
  | cons c back =>
      by_cases newline : c = '\n'
      · exact .inr ⟨back, by rw [newline]⟩
      · have longer : Skipped ('/' :: '/' :: (body ++ [c])) :=
          .comment (by simp [inLine, Ne.symm newline])
        have shorter := h.longest _ (.inl longer) ⟨back, by simp⟩
        simp only [List.length_cons, List.length_append, List.length_nil] at shorter
        omega

/-- A reading takes what is left of a source apart. The dissection stands after `before`, so that it
can grow at its front as the reading is followed from its end. -/
theorem Reading.exists_dissection {before rest : Text} {tokens : List Token} {faults : List Fault}
    (h : Reading before rest tokens faults) :
    ∃ d : Dissection, d.text = rest ∧ tokens = d.tokens ++ [closingToken (before ++ rest)] ∧
      Placed (Text.byteLength before) d.parts ∧ d.Whole ∧
      faults.map Fault.character? =
        d.refused.map some ++ if d.tail.isSome then [none] else [] := by
  induction h with
  | done =>
      exact ⟨⟨[], [], none⟩, rfl, by simp [Dissection.tokens], trivial, ⟨trivial, trivial⟩, rfl⟩
  | @skip before t rest tokens faults skipped longest _ ih =>
      obtain ⟨d, rfl, same, placed, whole, reported⟩ := ih
      obtain ⟨f, text, noFault, here⟩ :
          ∃ f : Filler, f.text = t ∧ f.refused? = none ∧ f.WholeBefore d.text := by
        cases skipped with
        | blank listed => exact ⟨.blank _ listed, rfl, rfl, trivial⟩
        | comment inLine => exact ⟨.comment _ inLine, rfl, rfl, longest.comment_ends inLine⟩
      refine ⟨d.addFiller f, ?_, ?_, placed_addFiller ?_, whole_addFiller here whole, ?_⟩
      · rw [text_addFiller, text]
      · rw [tokens_addFiller, same, List.append_assoc]
      · rwa [text, ← Text.byteLength_append]
      · rw [refused_addFiller, tail_addFiller, noFault, reported]
        rfl
  | @token before t rest kind literal tokens faults lexeme _ _ ih =>
      obtain ⟨d, rfl, same, placed, whole, reported⟩ := ih
      refine ⟨{ d with parts := ([], tokenAfter before t kind literal) :: d.parts },
        ?_, ?_, ?_, ⟨⟨trivial, whole.parts⟩, whole.last⟩, ?_⟩
      · simp [Dissection.text, Dissection.partsText, Dissection.tailText, Gap.text, tokenAfter]
      · rw [same, List.append_assoc]
        rfl
      · refine ⟨rfl, ?_, Matches.ne_nil (Or.inr ⟨_, _, lexeme⟩), placed⟩
        simp [tokenAfter]
      · simpa [Dissection.refused, Gap.refused] using reported
  | @refused before rest c tokens faults noQuote unmatched _ ih =>
      obtain ⟨d, rfl, same, placed, whole, reported⟩ := ih
      have hopeless := unmatched.startsNothing noQuote
      refine ⟨d.addFiller (.refused c hopeless), ?_, ?_, placed_addFiller ?_,
        whole_addFiller trivial whole, ?_⟩
      · rw [text_addFiller]
        rfl
      · rw [tokens_addFiller, same, List.append_assoc]
        rfl
      · rwa [Filler.text, ← Text.byteLength_append]
      · rw [refused_addFiller, tail_addFiller, List.map_cons, reported]
        rfl
  | @unclosed before body unmatched =>
      exact ⟨⟨[], [], some ⟨body, unmatched.quote_not_mem⟩⟩, rfl, by simp [Dissection.tokens],
        trivial, ⟨trivial, trivial⟩, rfl⟩

end LoxTokens
