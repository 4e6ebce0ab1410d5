import LoxTokens.Proofs.WordBefore

/-!
What is offered for the word before a position, and what is hinted behind it.

A line is cut three times where a word is completed: before the word, behind it, and there what is
missing of a longer word is put in. `WordAt` is that cut, and `Offers` says which candidates belong
to it.

* `complete?_eq_some_iff` — completion returns exactly where the last separator takes one byte, and
  then it offers every listed word that starts with the one before the position.
* `hint_agrees` — a hint is the first of these candidates with something left to type, for a word of
  two bytes or more; away from the end of a line there is none.
-/

namespace LoxTokens

namespace Text

/-- A text with another one put in at a byte position; `none` where it cannot be cut there. -/
def insert? (t : Text) (position : Nat) (inserted : Text) : Option Text := do
  let before ← takeBytes? position t
  let back ← dropBytes? position t
  some (before ++ inserted ++ back)

theorem insert?_append (before back inserted : Text) :
    insert? (before ++ back) (byteLength before) inserted = some (before ++ inserted ++ back) := by
  rw [insert?, takeBytes?_append, dropBytes?_append]
  rfl

end Text

namespace Completion

/-! ### The word before a position -/

/-- `word` is the longest word that ends at a position of a line, between `front` and `back`. -/
structure WordAt (line : Text) (position : Nat) (front word back : Text) : Prop where
  parted : line = front ++ word ++ back
  ends : Text.byteLength (front ++ word) = position
  longest : LongestWord word (front ++ word)

/-- Where completion returns, a word ends behind a separator of one byte or behind none. -/
theorem exists_wordAt {line : Text} {position : Nat} (h : (complete? line position).isSome) :
    ∃ front word back, WordAt line position front word back ∧ OneByteSeparator (front ++ word) := by
  have cut : (Text.takeBytes? position line).isSome := by
    cases before : Text.takeBytes? position line with
    | none => simp [complete?, wordStart?, before] at h
    | some _ => rfl
  obtain ⟨before, back, rfl, rfl⟩ := Text.takeBytes?_isSome_iff.mp cut
  rw [complete?_isSome, cut_isSome_iff] at h
  obtain ⟨front, word, rfl, longest, -⟩ := cut_of_oneByteSeparator h
  exact ⟨front, word, back, ⟨rfl, rfl, longest⟩, h⟩

/-- The slice that is completed is the word. -/
theorem dropBytes?_afterLastSeparator {front word : Text}
    (longest : LongestWord word (front ++ word)) (narrow : OneByteSeparator (front ++ word)) :
    Text.dropBytes? (afterLastSeparator (front ++ word)) (front ++ word) = some word := by
  obtain ⟨word', cut, longest'⟩ := exists_cut narrow
  rw [cut, longest.unique longest']

/-! ### The candidates of a word -/

/-- The candidates for a word, in the order of the list. -/
def candidates (word : Text) : List Candidate :=
  (words.filter word.isPrefixOf).map (candidate word)

theorem nodup_words : words.Nodup := by
  decide

theorem map_display_candidates (word : Text) :
    (candidates word).map Candidate.display = words.filter fun whole => word <+: whole := by
  rw [candidates, List.map_map]
  have same : Candidate.display ∘ candidate word = id := rfl
  rw [same, List.map_id]
  apply List.filter_congr
  intro whole _
  rw [Bool.eq_iff_iff, List.isPrefixOf_iff_prefix, decide_eq_true_iff]

theorem append_replacement {word : Text} {c : Candidate} (h : c ∈ candidates word) :
    word ++ c.replacement = c.display := by
  obtain ⟨whole, listed, rfl⟩ := List.mem_map.mp h
  have starts := List.isPrefixOf_iff_prefix.mp (List.mem_filter.mp listed).2
  exact List.prefix_iff_eq_append.mp starts

/-- A candidate is told by the word that it shows. -/
theorem eq_candidate {word : Text} {c : Candidate} (h : word ++ c.replacement = c.display) :
    c = candidate word c.display := by
  obtain ⟨display, replacement⟩ := c
  have shown : display = word ++ replacement := h.symm
  subst shown
  simp [candidate]

/-- What completion gives for `word` between `front` and `back`: where something is put in, and
what; put in there, it makes the word one of the list and leaves the rest of the line alone. -/
structure Offers (front word back : Text) (found : Completions) : Prop where
  position : found.position = Text.byteLength (front ++ word)
  none : word = [] → found.candidates = []
  listed : word ≠ [] → found.candidates.map Candidate.display =
    (Keyword.all.map Keyword.spelling ++
      ([".help", ".exit", ".clear", ".version", ".load"] : List Text)).filter
        fun whole => word <+: whole
  once : (found.candidates.map Candidate.display).Nodup
  rest : ∀ c ∈ found.candidates, word ++ c.replacement = c.display
  inserted : ∀ c ∈ found.candidates,
    Text.insert? (front ++ word ++ back) found.position c.replacement =
      some (front ++ c.display ++ back)

section

variable {front word back : Text}

theorem offers_nothing (empty : word = []) :
    Offers front word back ⟨Text.byteLength (front ++ word), []⟩ where
  position := rfl
  none := fun _ => rfl
  listed := fun nonempty => absurd empty nonempty
  once := List.nodup_nil
  rest := by simp
  inserted := by simp

theorem offers_candidates (nonempty : word ≠ []) :
    Offers front word back ⟨Text.byteLength (front ++ word), candidates word⟩ where
  position := rfl
  none := fun empty => absurd empty nonempty
  listed := fun _ => map_display_candidates word
  once := by
    rw [map_display_candidates]
    exact nodup_words.filter _
  rest := fun _ member => append_replacement member
  inserted := by
    intro c member
    rw [Text.insert?_append, List.append_assoc front, append_replacement member]

/-- What is offered is settled by the word and its place. -/
theorem Offers.unique {found found' : Completions} (h : Offers front word back found)
    (h' : Offers front word back found') : found' = found := by
  have told {found : Completions} (h : Offers front word back found) :
      found.candidates = (found.candidates.map Candidate.display).map (candidate word) := by
    rw [List.map_map, List.map_congr_left (g := id), List.map_id]
    intro c member
    exact (eq_candidate (h.rest c member)).symm
  have shown : found'.candidates.map Candidate.display =
      found.candidates.map Candidate.display := by
    by_cases empty : word = []
    · rw [h.none empty, h'.none empty]
    · rw [h.listed empty, h'.listed empty]
  have same : found'.candidates = found.candidates := by rw [told h', shown, ← told h]
  obtain ⟨position, candidates⟩ := found
  obtain ⟨position', candidates'⟩ := found'
  exact congr (congrArg _ (h'.position.trans h.position.symm)) same

end

/-! ### Completion -/

section

variable {line front word back : Text} {position : Nat}

theorem complete?_of_wordAt (h : WordAt line position front word back)
    (narrow : OneByteSeparator (front ++ word)) : complete? line position =
      some ⟨position, if word = [] then [] else candidates word⟩ := by
  obtain ⟨rfl, rfl, longest⟩ := h
  rw [complete?, wordStart?_append, Option.bind_eq_bind, Option.bind_some, slice?_front,
    dropBytes?_afterLastSeparator longest narrow, Option.bind_eq_bind, Option.bind_some]
  by_cases empty : word = []
  · simp [empty]
  · simp [empty, candidates]

theorem offers_of_wordAt (h : WordAt line position front word back) :
    Offers front word back ⟨position, if word = [] then [] else candidates word⟩ := by
  rw [← h.ends]
  by_cases empty : word = []
  · rw [if_pos empty]
    exact offers_nothing empty
  · rw [if_neg empty]
    exact offers_candidates empty

/-- **What completion returns.** It returns where a line can be cut behind a word whose separator
takes one byte, and nowhere else; there it offers, at the position itself, each word of the list
that starts with the one before the position, in the order of the list. -/
theorem complete?_eq_some_iff {found : Completions} : complete? line position = some found ↔
    ∃ front word back, WordAt line position front word back ∧ OneByteSeparator (front ++ word) ∧
      Offers front word back found := by
  constructor
  · intro returned
    obtain ⟨front, word, back, h, narrow⟩ := exists_wordAt (by rw [returned]; rfl)
    rw [complete?_of_wordAt h narrow] at returned
    cases returned
    exact ⟨front, word, back, h, narrow, offers_of_wordAt h⟩
  · rintro ⟨front, word, back, h, narrow, offers⟩
    rw [complete?_of_wordAt h narrow, offers.unique (offers_of_wordAt h)]

end

/-! ### Hints -/

/-- The first candidate with something left to type. -/
def firstLonger? (found : List Candidate) : Option Candidate :=
  found.find? fun c => c.replacement ≠ []

/-- The search for a longer word and the one through its candidates end alike. -/
theorem restOfLonger?_eq (word : Text) :
    restOfLonger? word = (firstLonger? (candidates word)).map Candidate.replacement := by
  have longer (whole : Text) : decide ((candidate word whole).replacement ≠ []) =
      decide (word.length < whole.length) := by
    rw [decide_eq_decide, candidate, ne_eq, List.drop_eq_nil_iff, not_le]
  rw [firstLonger?, candidates, List.find?_map, List.find?_filter, Option.map_map, restOfLonger?]
  simp only [Function.comp_def, longer, Bool.decide_and, Bool.decide_eq_true]
  rfl

/-- The hint behind the last word of a line, before it is dimmed. -/
def plainHint (word : Text) : Option Text :=
  if Text.byteLength word < leastHinted then none else restOfLonger? word

theorem hint?_of_longestWord {front word : Text} (longest : LongestWord word (front ++ word))
    (narrow : OneByteSeparator (front ++ word)) (colored : Bool) :
    hint? colored (front ++ word) (Text.byteLength (front ++ word)) =
      some ((plainHint word).map (Style.dimmed.paint colored)) := by
  have start := wordStart?_append (front ++ word) []
  rw [List.append_nil] at start
  rw [hint?, if_neg (lt_irrefl _), start, Option.bind_eq_bind, Option.bind_some,
    dropBytes?_afterLastSeparator longest narrow, Option.bind_eq_bind, Option.bind_some, plainHint]
  split <;> rfl

/-- A hint behind `word` agrees with the candidates that are offered for it. -/
structure HintAgrees (word : Text) (found : List Candidate) (hint : Option Text) : Prop where
  shown : hint.isSome ↔ 2 ≤ Text.byteLength word ∧ ∃ c ∈ found, c.replacement ≠ []
  first : ∀ rest, hint = some rest → (firstLonger? found).map Candidate.replacement = some rest

theorem hintAgrees_candidates (word : Text) : HintAgrees word
    (if word = [] then [] else candidates word) (plainHint word) := by
  rw [plainHint]
  by_cases short : Text.byteLength word < leastHinted
  · have few : ¬ 2 ≤ Text.byteLength word := Nat.not_le_of_lt short
    rw [if_pos short]
    exact ⟨by simp [few], by simp⟩
  · have enough : 2 ≤ Text.byteLength word := Nat.le_of_not_lt short
    have nonempty : word ≠ [] := by
      rintro rfl
      exact absurd enough (by decide)
    rw [if_neg short, if_neg nonempty, restOfLonger?_eq]
    refine ⟨?_, fun rest same => same⟩
    rw [Option.isSome_map, firstLonger?, List.find?_isSome]
    simp [enough]

/-- **Hints and completion agree.** Where completion returns at the end of a line, a hint is looked
for there too. One is shown for a last word of two bytes or more that is the beginning of a longer
one, and then it is what the first such candidate puts in; colours only dim it. At any position
before the end there is none, even where completion does not return. -/
theorem hint_agrees (line : Text) :
    (∀ found, complete? line (Text.byteLength line) = some found →
      ∃ word hint, LongestWord word line ∧ HintAgrees word found.candidates hint ∧
        hint? false line (Text.byteLength line) = some hint ∧
        ∀ colored, hint? colored line (Text.byteLength line) =
          some (hint.map (Style.dimmed.paint colored))) ∧
    ∀ colored position, position < Text.byteLength line →
      hint? colored line position = some none := by
  constructor
  · intro found returned
    obtain ⟨front, word, back, h, narrow⟩ := exists_wordAt (by rw [returned]; rfl)
    rw [complete?_of_wordAt h narrow] at returned
    cases returned
    obtain ⟨rfl, ends, longest⟩ := h
    obtain rfl : back = [] := by
      by_contra nonempty
      have more := Text.byteLength_pos nonempty
      rw [Text.byteLength_append (front ++ word) back] at ends
      omega
    rw [List.append_nil]
    have hinted (colored : Bool) := hint?_of_longestWord longest narrow colored
    have plain : Style.dimmed.paint false = id := rfl
    refine ⟨word, plainHint word, longest, hintAgrees_candidates word, ?_, hinted⟩
    rw [hinted, plain, Option.map_id, id]
  · intro colored position before
    rw [hint?, if_pos before]

/-- A point belongs to a word, and the rest of a command is hinted behind it. Before the end of a
line there is no hint, here behind a wide character, where completion does not return. -/
theorem hint_of_dotted_word :
    (complete? "x .l" 4 = some ⟨4, [⟨".load", "oad"⟩]⟩ ∧ ∃ word hint, LongestWord word "x .l" ∧
      HintAgrees word [⟨".load", "oad"⟩] hint ∧ hint? false "x .l" 4 = some hint ∧
      ∀ colored, hint? colored "x .l" 4 = some (hint.map (Style.dimmed.paint colored))) ∧
    complete? "é.l" 2 = none ∧ hint? true "é.l" 2 = some none := by
  have returned : complete? "x .l" 4 = some ⟨4, [⟨".load", "oad"⟩]⟩ := by decide
  exact ⟨⟨returned, (hint_agrees "x .l").1 _ returned⟩, by decide,
    (hint_agrees "é.l").2 true 2 (by decide)⟩

end Completion

end LoxTokens
