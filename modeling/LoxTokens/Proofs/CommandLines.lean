import LoxTokens.Proofs.Brackets
import LoxTokens.Proofs.EntryLines

/-!
Commands, while an entry is read and when it is answered.

Whether an entry goes on is decided on the text read so far, and what it asks for on the whole
entry without blanks around it. Both look for a command. Which one it is depends on the first word
of a text alone, and that word is settled once a blank stands behind it; a line end is a blank.

* `Command.map_fst_parse?` — the first word decides which command a text is.
* `Text.firstWord_append_blank` — a text with anything visible in it keeps its first word.
* `Request.ofEntry_of_visible` — what an entry asks for is decided without its line end.
* `Entry.commands_agree` — several lines are never a command, and a command is one line.
-/

namespace LoxTokens

/-! ### Words of a text -/

namespace Text

/-- What a text has up to a blank, after those at its start. -/
def firstWord (t : Text) : Text := (trimStart t).takeWhile (!isBlank ·)

/-- Some character of a text is not a blank. -/
def Visible (t : Text) : Prop := ∃ c ∈ t, isBlank c = false

theorem Visible.append {t : Text} (visible : Visible t) (rest : Text) : Visible (t ++ rest) := by
  obtain ⟨c, member, blank⟩ := visible
  exact ⟨c, List.mem_append_left rest member, blank⟩

theorem trimStart_ne_nil_iff {t : Text} : trimStart t ≠ [] ↔ Visible t := by
  simp [trimStart, Visible, List.dropWhile_eq_nil_iff]

theorem trim_ne_nil_iff {t : Text} : trim t ≠ [] ↔ Visible t := by
  simp [trim_eq_nil_iff, Visible]

/-- What stands behind a visible character does not matter to the blanks at the start. -/
theorem trimStart_append {t : Text} (visible : Visible t) (rest : Text) :
    trimStart (t ++ rest) = trimStart t ++ rest := by
  have nonempty := trimStart_ne_nil_iff.mpr visible
  rw [trimStart] at nonempty ⊢
  rw [List.dropWhile_append, if_neg (by simpa using nonempty)]
  rfl

theorem trimStart_eq_self {t : Text} (first : ∀ c ∈ t.head?, isBlank c = false) :
    trimStart t = t := by
  cases t with
  | nil => rfl
  | cons c t => exact List.dropWhile_cons_of_neg (by simp [first c rfl])

/-- There is nothing to trim from a text that has no blanks around it. -/
theorem trim_eq_self {t : Text} (first : ∀ c ∈ t.head?, isBlank c = false)
    (last : ∀ c ∈ t.getLast?, isBlank c = false) : trim t = t := by
  have back : trimStart t.reverse = t.reverse := trimStart_eq_self (by simpa using last)
  rw [trim, trimStart_eq_self first, trimEnd]
  exact (congrArg List.reverse back).trans t.reverse_reverse

theorem takeWhile_append_blank {c : Char} (blank : isBlank c = true) (t rest : Text) :
    (t ++ c :: rest).takeWhile (!isBlank ·) = t.takeWhile (!isBlank ·) := by
  induction t with
  | nil => simp [blank]
  | cons d t ih => rw [List.cons_append, List.takeWhile_cons, List.takeWhile_cons, ih]

/-- The first word ends at a blank, whatever stands behind it. -/
theorem firstWord_append_blank {t : Text} (visible : Visible t) {c : Char}
    (blank : isBlank c = true) (rest : Text) : firstWord (t ++ c :: rest) = firstWord t := by
  rw [firstWord, trimStart_append visible, takeWhile_append_blank blank, firstWord]

/-- Blanks behind a text are trimmed away. -/
theorem trim_append_blanks {t ending : Text} (blanks : ∀ c ∈ ending, isBlank c = true) :
    trim (t ++ ending) = trim t := by
  by_cases visible : Visible t
  · have last : ∀ c ∈ ending.reverse, isBlank c = true := by simpa using blanks
    rw [trim, trimStart_append visible, trimEnd, List.reverse_append,
      List.dropWhile_append_of_pos last]
    rfl
  · have none : trim t = [] := not_not.mp (mt trim_ne_nil_iff.mp visible)
    have whole : ∀ c ∈ t ++ ending, isBlank c = true := by
      intro c member
      exact (List.mem_append.mp member).elim (trim_eq_nil_iff.mp none c) (blanks c)
    rw [trim_eq_nil_iff.mpr whole, none]

/-- The word at the start of a trimmed text is the first one. -/
theorem takeWhile_trim (t : Text) : (trim t).takeWhile (!isBlank ·) = firstWord t := by
  have whole : trim t ++ (trimStart t).rtakeWhile isBlank = trimStart t :=
    List.rdropWhile_append_rtakeWhile ..
  rw [firstWord, ← whole]
  -- what trimming takes off the end begins with a blank, and the word has ended there
  cases ending : (trimStart t).rtakeWhile isBlank with
  | nil => rw [List.append_nil]
  | cons c rest =>
      have blank : isBlank c = true := List.mem_rtakeWhile_imp (ending ▸ List.mem_cons_self)
      rw [takeWhile_append_blank blank]

end Text

/-! ### Which command a text is -/

namespace Command

/-- The command of a first word, which is a dot and a name. -/
def ofWord? : Text → Option Command
  | '.' :: name => ofName? (Text.lowerCase name)
  | _ => none

/-- The first word of a text decides which command it is, if any. -/
theorem map_fst_parse? (t : Text) : (parse? t).map Prod.fst = ofWord? (Text.firstWord t) := by
  rw [← Text.takeWhile_trim, parse?]
  split
  · next rest same =>
      have visible : (!Text.isBlank '.') = true := rfl
      rw [same, List.takeWhile_cons, if_pos visible, ofWord?]
      exact (Option.map_map ..).trans (Option.map_id' ..)
  · next noDot =>
      cases start : Text.trim t with
      | nil => rfl
      | cons c rest =>
          cases blank : Text.isBlank c with
          | true => simp [blank, ofWord?]
          | false =>
              have visible : (!Text.isBlank c) = true := by rw [blank]; rfl
              rw [List.takeWhile_cons, if_pos visible, ofWord?]
              · rfl
              · rintro name ⟨⟩
                exact noDot _ start

theorem parse?_eq_none_iff {t : Text} : parse? t = none ↔ ofWord? (Text.firstWord t) = none := by
  rw [← map_fst_parse?, Option.map_eq_none_iff]

theorem parse?_append_blanks {t ending : Text} (blanks : ∀ c ∈ ending, Text.isBlank c = true) :
    parse? (t ++ ending) = parse? t := by
  rw [← Entry.parse?_trim, Text.trim_append_blanks blanks, Entry.parse?_trim]

/-- Where a command is read, something is visible. -/
theorem visible_of_parse? {t : Text} {found : Command × Option Text} (h : parse? t = some found) :
    Text.Visible t := by
  rw [← Text.trim_ne_nil_iff]
  intro none
  rw [parse?, none] at h
  contradiction

/-- What is no command does not become one behind a blank. -/
theorem parse?_append_eq_none {t : Text} (visible : Text.Visible t) (plain : parse? t = none)
    {c : Char} (blank : Text.isBlank c = true) (rest : Text) : parse? (t ++ c :: rest) = none := by
  rw [parse?_eq_none_iff, Text.firstWord_append_blank visible blank]
  exact parse?_eq_none_iff.mp plain

end Command

/-! ### What an entry asks for -/

namespace Entry

theorem trim_withoutLineEnd (entry : Text) :
    Text.trim (withoutLineEnd entry) = Text.trim entry := by
  obtain ⟨ending, whole, blanks⟩ := eq_append_withoutLineEnd entry
  conv_rhs => rw [whole, Text.trim_append_blanks blanks]

theorem parse?_withoutLineEnd (entry : Text) :
    Command.parse? (withoutLineEnd entry) = Command.parse? entry := by
  rw [← parse?_trim, trim_withoutLineEnd, parse?_trim]

end Entry

namespace Request

variable {entry : Text}

theorem ofEntry_of_visible (visible : Text.Visible entry) :
    ofEntry entry = (Command.parse? entry).elim (.list (Entry.withoutLineEnd entry))
      fun found => .perform found.1 found.2 := by
  have nonempty := Text.trim_ne_nil_iff.mpr visible
  rw [ofEntry, Entry.trim_withoutLineEnd, Entry.parse?_trim, if_neg (by simpa using nonempty)]
  cases Command.parse? entry <;> rfl

/-- A command is performed with the argument that is read. -/
theorem ofEntry_of_parse? {command : Command} {argument : Option Text}
    (h : Command.parse? entry = some (command, argument)) :
    ofEntry entry = .perform command argument := by
  rw [ofEntry_of_visible (Command.visible_of_parse? h), h, Option.elim_some]

theorem ofEntry_of_plain (visible : Text.Visible entry) (plain : Command.parse? entry = none) :
    ofEntry entry = .list (Entry.withoutLineEnd entry) := by
  rw [ofEntry_of_visible visible, plain, Option.elim_none]

end Request

/-! ### Entries of one line and of several -/

namespace Entry

/-- What can stand at the end of a line. -/
def lineEnds : List Text := [['\n'], ['\r', '\n']]

theorem isBlank_of_mem_lineEnds {ending : Text} (h : ending ∈ lineEnds) :
    ∀ c ∈ ending, Text.isBlank c = true := by
  have all : lineEnds.all (·.all Text.isBlank) = true := rfl
  exact List.all_eq_true.mp (List.all_eq_true.mp all ending h)

theorem exists_lineEnd (a : Text) :
    ∃ ending ∈ lineEnds, a ++ ['\n'] = withoutLineEnd (a ++ ['\n']) ++ ending := by
  rcases withoutLineEnd_append_newline a with same | ended
  · exact ⟨['\n'], by simp [lineEnds], by rw [same]⟩
  · refine ⟨['\r', '\n'], by simp [lineEnds], ?_⟩
    conv_lhs => rw [ended]
    simp

/-- A text that goes on has something visible in it: blanks leave nothing open. -/
theorem visible_of_needsMore {t : Text} (more : needsMore t = true) : Text.Visible t := by
  by_contra invisible
  have blanks : ∀ c ∈ t, Text.isBlank c = true := by simpa [Text.Visible] using invisible
  obtain ⟨tokens, faults⟩ := scan_blanks blanks
  rcases (needsMore_iff.mp more).2 with ⟨line, opened⟩ | positive
  · obtain ⟨_, _, _, same⟩ := faults _ opened
    contradiction
  · rw [withoutEnd_scan] at tokens
    rw [scan_eq, tokens] at positive
    exact absurd positive (Int.lt_irrefl 0)

/-- A text that goes on is no command, and no line end makes it one. -/
theorem parse?_append_lineEnd {t ending : Text} (more : needsMore t = true)
    (listed : ending ∈ lineEnds) (rest : Text) : Command.parse? (t ++ ending ++ rest) = none := by
  have plain := (needsMore_iff.mp more).1
  have blanks := isBlank_of_mem_lineEnds listed
  cases ending with
  | nil => simp [lineEnds] at listed
  | cons c ending =>
      rw [List.append_assoc, List.cons_append]
      exact Command.parse?_append_eq_none (visible_of_needsMore more) plain
        (blanks c List.mem_cons_self) _

/-- What follows a line that does not complete an entry is scanned with it. -/
theorem ofEntry_append_of_incomplete {a : Text} (goesOn : isComplete (a ++ ['\n']) = false)
    (rest : Text) :
    Request.ofEntry (a ++ ['\n'] ++ rest) = .list (withoutLineEnd (a ++ ['\n'] ++ rest)) := by
  obtain ⟨ending, listed, whole⟩ := exists_lineEnd a
  have more : needsMore (withoutLineEnd (a ++ ['\n'])) = true := by
    simpa [isComplete] using goesOn
  have plain := parse?_append_lineEnd more listed rest
  have visible := (visible_of_needsMore more).append (ending ++ rest)
  rw [← List.append_assoc] at visible
  rw [← whole] at visible plain
  exact Request.ofEntry_of_plain visible plain

/-- An entry of several lines is scanned. -/
theorem ofEntry_of_lines {lines : List Text} (made : Made lines) (several : 1 < lines.length)
    (ended : ∀ line ∈ lines.dropLast, ∃ front, line = front ++ ['\n']) :
    Request.ofEntry lines.flatten = .list (withoutLineEnd lines.flatten) := by
  obtain ⟨part, last, rfl, incomplete, -⟩ := made_iff.mp made
  rw [List.dropLast_concat] at ended
  rcases List.eq_nil_or_concat part with rfl | ⟨before, line, rfl⟩
  · simp at several
  · obtain ⟨front, rfl⟩ := ended line (by simp)
    have goesOn := incomplete _ (List.prefix_refl _) (by simp)
    have whole : (before.concat (front ++ ['\n'])).flatten = before.flatten ++ front ++ ['\n'] := by
      simp
    rw [whole] at goesOn
    rw [List.flatten_append, whole, List.flatten_singleton]
    exact ofEntry_append_of_incomplete goesOn last

theorem needsMore_of_parse? {t : Text} {found : Command × Option Text}
    (h : Command.parse? t = some found) : needsMore t = false := by
  rw [← Bool.not_eq_true, needsMore_iff, h]
  simp

/-- A command is an entry of one line. -/
theorem made_of_parse? {t : Text} {found : Command × Option Text}
    (h : Command.parse? t = some found) : Made [t] := by
  refine made_iff.mpr ⟨[], t, rfl, incomplete_nil, ?_⟩
  rw [← parse?_withoutLineEnd] at h
  simp [isComplete, needsMore_of_parse? h]

/-- **Reading an entry and answering it agree on commands.** What goes on over several lines is no
command, whatever the lines behind the first one; a command is complete at once, and performed with
the argument that was read. -/
theorem commands_agree :
    (∀ t, needsMore t = true → ∀ ending ∈ lineEnds, ∀ rest,
      Command.parse? (t ++ ending ++ rest) = none) ∧
    (∀ lines, Made lines → 1 < lines.length →
      (∀ line ∈ lines.dropLast, ∃ front, line = front ++ ['\n']) →
        Request.ofEntry lines.flatten = .list (withoutLineEnd lines.flatten)) ∧
    (∀ t command argument, Command.parse? t = some (command, argument) →
      needsMore t = false ∧ Command.parse? (Text.trim t) = some (command, argument) ∧
      ∀ ending ∈ [] :: lineEnds, Made [t ++ ending] ∧
        Request.ofEntry (t ++ ending) = .perform command argument) := by
  refine ⟨?_, ?_, ?_⟩
  · exact fun t more ending listed rest => parse?_append_lineEnd more listed rest
  · exact fun lines made several ended => ofEntry_of_lines made several ended
  · intro t command argument parsed
    refine ⟨needsMore_of_parse? parsed, by rw [parse?_trim, parsed], fun ending listed => ?_⟩
    have blanks : ∀ c ∈ ending, Text.isBlank c = true := by
      rcases List.mem_cons.mp listed with rfl | listed
      · simp
      · exact isBlank_of_mem_lineEnds listed
    rw [← Command.parse?_append_blanks blanks] at parsed
    exact ⟨made_of_parse? parsed, Request.ofEntry_of_parse? parsed⟩

/-- A line inside an entry is no command, even if it reads as one; a bracket inside a command does
not make it go on. -/
theorem commands_and_brackets :
    (needsMore "(" = true ∧ Command.parse? "(\n.exit\n)" = none) ∧
    (Made ["(\n", ".exit\n", ")\n"] ∧ Request.ofEntry "(\n.exit\n)\n" = .list "(\n.exit\n)") ∧
    (Command.parse? ".load (" = some (Command.load, some ['(']) ∧
      needsMore ".load (" = false) := by
  have more : needsMore "(" = true := by decide +kernel
  have made : Made ["(\n", ".exit\n", ")\n"] := by decide +kernel
  have read : Command.parse? ".load (" = some (Command.load, some ['(']) := by decide +kernel
  refine ⟨⟨more, ?_⟩, ⟨made, ?_⟩, read, ?_⟩
  · exact commands_agree.1 "(" more "\n" List.mem_cons_self ".exit\n)"
  · refine commands_agree.2.1 _ made (by simp) ?_
    rintro line (_ | ⟨_, _ | ⟨_, ⟨⟩⟩⟩)
    · exact ⟨"(", rfl⟩
    · exact ⟨".exit", rfl⟩
  · exact (commands_agree.2.2 _ _ _ read).1

end Entry

end LoxTokens
