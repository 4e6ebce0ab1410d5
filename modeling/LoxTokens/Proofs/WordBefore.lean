import LoxTokens.Editor.Completion
import LoxTokens.Proofs.Grammar
import Mathlib.Data.List.Induction

/-!
The word before a position of a line.

Completion and hints cut a line one byte after the start of the last separator before the cursor.
That is where the word starts if the separator takes one byte, or if there is none; after a wider
one the cut falls inside the separator, and there a line cannot be cut.

`OneByteSeparator` is the exact condition: under it the cut gives the longest word
(`cut_of_oneByteSeparator`), and without it the cut is no place between characters
(`cut_of_wide_separator`).
-/

namespace LoxTokens.Completion

/-! ### Words and separators -/

/-- The characters of the word before a position. -/
def WordCharacter (c : Char) : Prop := Letter c ∨ Digit c ∨ c = '.'

/-- `word` is the longest end of `before` that has characters of words only. -/
structure LongestWord (word before : Text) : Prop where
  back : word <:+ before
  inside : ∀ c ∈ word, WordCharacter c
  longest : ∀ u, u <:+ before → (∀ c ∈ u, WordCharacter c) → u.length ≤ word.length

/-- `separator` is the last character of `before` that belongs to no word, and `word` is what
follows it. -/
structure LastSeparator (before front : Text) (separator : Char) (word : Text) : Prop where
  parted : before = front ++ separator :: word
  outside : ¬ WordCharacter separator
  inside : ∀ c ∈ word, WordCharacter c

/-- The last separator of `before`, if it has one, takes one byte. -/
def OneByteSeparator (before : Text) : Prop :=
  ∀ front separator word, LastSeparator before front separator word → separator.utf8Size = 1

theorem inWord_iff {c : Char} : inWord c = true ↔ WordCharacter c := by
  simp only [inWord, Char.isAlphanum, WordCharacter, ← startsWord_iff, ← isDigit_iff, startsWord,
    Bool.or_eq_true, beq_iff_eq]
  grind

/-- A text without separators is one word; any other has a last separator. -/
theorem separator_cases (before : Text) : (∀ c ∈ before, WordCharacter c) ∨
    ∃ front separator word, LastSeparator before front separator word := by
  induction before using List.reverseRecOn with
  | nil => exact Or.inl (by simp)
  | append_singleton before c ih =>
      by_cases inside : WordCharacter c
      · rcases ih with all | ⟨front, separator, word, rfl, outside, all⟩
        · left
          intro d member
          rcases List.mem_append.mp member with member | member
          · exact all d member
          · exact List.mem_singleton.mp member ▸ inside
        · refine Or.inr ⟨front, separator, word ++ [c], by simp, outside, fun d member => ?_⟩
          rcases List.mem_append.mp member with member | member
          · exact all d member
          · exact List.mem_singleton.mp member ▸ inside
      · exact Or.inr ⟨before, c, [], rfl, inside, by simp⟩

theorem longestWord_of_inside {before : Text} (inside : ∀ c ∈ before, WordCharacter c) :
    LongestWord before before :=
  ⟨List.suffix_refl _, inside, fun _ back _ => back.length_le⟩

theorem LongestWord.unique {word word' before : Text} (h : LongestWord word before)
    (h' : LongestWord word' before) : word' = word := by
  have le := h.longest word' h'.back h'.inside
  have ge := h'.longest word h.back h.inside
  exact (List.suffix_of_suffix_length_le h'.back h.back le).eq_of_length (by omega)

namespace LastSeparator

variable {before front word : Text} {separator : Char}

/-- What follows the last separator is the longest word. -/
theorem longestWord (h : LastSeparator before front separator word) : LongestWord word before where
  back := ⟨front ++ [separator], by simp [h.parted]⟩
  inside := h.inside
  longest := by
    intro u back inside
    by_contra longer
    -- a longer end would hold the separator
    have wider : separator :: word <:+ before := ⟨front, h.parted.symm⟩
    have held := List.suffix_of_suffix_length_le wider back (by simp; omega)
    exact h.outside (inside separator (held.subset List.mem_cons_self))

theorem unique (h : LastSeparator before front separator word) {front' word' : Text}
    {separator' : Char} (h' : LastSeparator before front' separator' word') :
    separator' = separator := by
  have same := h.longestWord.unique h'.longestWord
  have parted := h'.parted.symm.trans h.parted
  rw [same, List.append_cons, List.append_cons front] at parted
  have ends := List.append_cancel_right parted
  exact (List.append_inj' ends rfl).2 |> List.singleton_inj.mp

theorem oneByteSeparator_iff (h : LastSeparator before front separator word) :
    OneByteSeparator before ↔ separator.utf8Size = 1 := by
  constructor
  · intro narrow
    exact narrow front separator word h
  · intro size front' separator' word' h'
    rw [h.unique h', size]

end LastSeparator

theorem oneByteSeparator_of_inside {before : Text} (inside : ∀ c ∈ before, WordCharacter c) :
    OneByteSeparator before := by
  intro front separator word h
  exact absurd (inside separator (by simp [h.parted])) h.outside

/-! ### Where the word starts -/

theorem afterLastSeparator_of_inside {before : Text} (inside : ∀ c ∈ before, WordCharacter c) :
    afterLastSeparator before = 0 := by
  have all : before.reverse.dropWhile inWord = [] := by
    rw [List.dropWhile_eq_nil_iff]
    intro c member
    exact inWord_iff.mpr (inside c (List.mem_reverse.mp member))
  rw [afterLastSeparator, all]

theorem LastSeparator.afterLastSeparator_eq {before front word : Text} {separator : Char}
    (h : LastSeparator before front separator word) :
    afterLastSeparator before = Text.byteLength front + 1 := by
  have split : before.reverse.dropWhile inWord = separator :: front.reverse := by
    have outside : ¬ inWord separator = true := by
      intro inside
      exact h.outside (inWord_iff.mp inside)
    rw [h.parted, List.reverse_append, List.reverse_cons, List.append_assoc,
      List.dropWhile_append_of_pos fun c member => inWord_iff.mpr
        (h.inside c (List.mem_reverse.mp member)),
      List.singleton_append, List.dropWhile_cons_of_neg outside]
  rw [afterLastSeparator, split]
  simp [Text.byteLength_reverse]

/-! ### Cutting a line there -/

section Cuts

variable (before back : Text)

theorem wordStart?_append :
    wordStart? (before ++ back) (Text.byteLength before) = some (afterLastSeparator before) := by
  rw [wordStart?, Text.takeBytes?_append, Option.map_some]

theorem slice?_front (start : Nat) :
    Text.slice? (before ++ back) start (Text.byteLength before) = Text.dropBytes? start before := by
  rw [Text.slice?, Text.takeBytes?_append, Option.bind_some]

/-- Completion returns exactly where the word can be cut out of the line. -/
theorem complete?_isSome :
    (complete? (before ++ back) (Text.byteLength before)).isSome =
      (Text.dropBytes? (afterLastSeparator before) before).isSome := by
  rw [complete?, wordStart?_append, Option.bind_eq_bind, Option.bind_some, slice?_front]
  cases Text.dropBytes? (afterLastSeparator before) before with
  | none => rfl
  | some word =>
      rw [Option.bind_eq_bind, Option.bind_some]
      split <;> rfl

/-- A hint is looked for at the end of a line only, and returns where the word can be cut out. -/
theorem hint?_isSome (colored : Bool) :
    (hint? colored (before ++ back) (Text.byteLength before)).isSome ↔
      back ≠ [] ∨ (Text.dropBytes? (afterLastSeparator before) before).isSome := by
  rw [hint?]
  by_cases ended : back = []
  · subst ended
    have start := wordStart?_append before []
    rw [List.append_nil] at start
    rw [List.append_nil, if_neg (lt_irrefl _), start, Option.bind_eq_bind, Option.bind_some]
    cases Text.dropBytes? (afterLastSeparator before) before with
    | none => simp
    | some word =>
        rw [Option.bind_eq_bind, Option.bind_some]
        split <;> simp
  · have more := Text.byteLength_pos ended
    rw [if_pos (by rw [Text.byteLength_append]; omega)]
    simp [ended]

end Cuts

/-! ### The two cases -/

/-- After a separator of one byte, or none, the cut gives the longest word. -/
theorem cut_of_oneByteSeparator {before : Text} (narrow : OneByteSeparator before) :
    ∃ front word, before = front ++ word ∧ LongestWord word before ∧
      afterLastSeparator before = Text.byteLength front := by
  rcases separator_cases before with inside | ⟨front, separator, word, h⟩
  · exact ⟨[], before, rfl, longestWord_of_inside inside, afterLastSeparator_of_inside inside⟩
  · have size := h.oneByteSeparator_iff.mp narrow
    refine ⟨front ++ [separator], word, by simp [h.parted], h.longestWord, ?_⟩
    rw [h.afterLastSeparator_eq]
    simp [size]

/-- After a wider separator the cut falls inside it. -/
theorem cut_of_wide_separator {before : Text} (wide : ¬ OneByteSeparator before) :
    ∃ front separator word, before = front ++ separator :: word ∧ 1 < separator.utf8Size ∧
      afterLastSeparator before = Text.byteLength front + 1 := by
  rcases separator_cases before with inside | ⟨front, separator, word, h⟩
  · exact absurd (oneByteSeparator_of_inside inside) wide
  · refine ⟨front, separator, word, h.parted, ?_, h.afterLastSeparator_eq⟩
    apply lt_of_le_of_ne separator.utf8Size_pos
    intro one
    exact wide (h.oneByteSeparator_iff.mpr one.symm)

section Condition

variable {before : Text}

theorem afterLastSeparator_le : afterLastSeparator before ≤ Text.byteLength before := by
  by_cases narrow : OneByteSeparator before
  · obtain ⟨front, word, parted, -, start⟩ := cut_of_oneByteSeparator narrow
    rw [start, parted, Text.byteLength_append]
    exact Nat.le_add_right ..
  · obtain ⟨front, separator, word, parted, wide, start⟩ := cut_of_wide_separator narrow
    rw [start, parted, Text.byteLength_append, Text.byteLength_cons]
    omega

/-- Whatever follows, the line can be cut there exactly after a separator of one byte. -/
theorem isBoundary_iff (back : Text) :
    Text.IsBoundary (before ++ back) (afterLastSeparator before) ↔ OneByteSeparator before := by
  constructor
  · intro boundary
    by_contra wide
    obtain ⟨front, separator, word, parted, size, start⟩ := cut_of_wide_separator wide
    rw [← Text.takeBytes?_isSome_iff, start, parted, List.append_assoc, List.cons_append,
      Text.takeBytes?_append_add, (Text.cut_inside (word ++ back) Nat.one_pos size).1] at boundary
    simp at boundary
  · intro narrow
    obtain ⟨front, word, parted, -, start⟩ := cut_of_oneByteSeparator narrow
    exact ⟨front, word ++ back, by rw [parted, List.append_assoc], start.symm⟩

theorem exists_cut (narrow : OneByteSeparator before) :
    ∃ word, Text.dropBytes? (afterLastSeparator before) before = some word ∧
      LongestWord word before := by
  obtain ⟨front, word, parted, longest, start⟩ := cut_of_oneByteSeparator narrow
  refine ⟨word, ?_, longest⟩
  rw [start, parted]
  exact Text.dropBytes?_append front word

theorem cut_eq_none (wide : ¬ OneByteSeparator before) :
    Text.dropBytes? (afterLastSeparator before) before = none := by
  obtain ⟨front, separator, word, parted, size, start⟩ := cut_of_wide_separator wide
  rw [start, parted, Text.dropBytes?_append_add]
  exact (Text.cut_inside word Nat.one_pos size).2

theorem cut_isSome_iff :
    (Text.dropBytes? (afterLastSeparator before) before).isSome ↔ OneByteSeparator before := by
  by_cases narrow : OneByteSeparator before
  · obtain ⟨word, cut, -⟩ := exists_cut narrow
    simp [cut, narrow]
  · simp [cut_eq_none narrow, narrow]

end Condition

/-- **The word before a position is found exactly after a separator of one byte.** A position at
which a line can be cut is the end of a front `before` of it. Some start not after the position is
always given. It is between characters, the slice from it to the position is the longest word, and
completion returns, exactly where the last separator before the position takes one byte or there is
none. Hints return there too, and wherever something follows the position. -/
theorem word_before_position (colored : Bool) (before back : Text) :
    ∃ start, wordStart? (before ++ back) (Text.byteLength before) = some start ∧
      start ≤ Text.byteLength before ∧
      (Text.IsBoundary (before ++ back) start ↔ OneByteSeparator before) ∧
      ((∃ word, Text.slice? (before ++ back) start (Text.byteLength before) = some word ∧
        LongestWord word before) ↔ OneByteSeparator before) ∧
      ((complete? (before ++ back) (Text.byteLength before)).isSome ↔ OneByteSeparator before) ∧
      ((hint? colored (before ++ back) (Text.byteLength before)).isSome ↔
        back ≠ [] ∨ OneByteSeparator before) := by
  refine ⟨_, wordStart?_append before back, afterLastSeparator_le, isBoundary_iff back, ?_, ?_, ?_⟩
  · rw [slice?_front]
    constructor
    · rintro ⟨word, cut, -⟩
      apply cut_isSome_iff.mp
      rw [cut]
      rfl
    · intro narrow
      exact exists_cut narrow
  · rw [complete?_isSome]
    exact cut_isSome_iff
  · rw [hint?_isSome, cut_isSome_iff]

/-- After a letter with an accent the start of the word is inside that letter, and completion and
hints do not return. -/
theorem wide_separator_fails :
    wordStart? ['é'] 2 = some 1 ∧ ¬ Text.IsBoundary ['é'] 1 ∧ complete? ['é'] 2 = none ∧
      hint? false ['é'] 2 = none := by
  refine ⟨by decide, ?_, by decide, by decide⟩
  rw [← Text.takeBytes?_isSome_iff]
  decide

end LoxTokens.Completion
