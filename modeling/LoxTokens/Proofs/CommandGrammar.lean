import LoxTokens.Proofs.CommandLines

/-!
The grammar of commands.

Reading a command trims a text, splits it at the first blank, and looks its name up in lower case.
`CommandText` lists the texts that are commands, part by part, each with its command and its
argument, and it asks for the letters of a name in ASCII. Lower-casing follows Unicode: a capital of
another script may have its lower-case form in ASCII, and a character may become two. The Kelvin
sign becomes a letter that no name has, and the capital I with a dot above leaves the dot behind. Of
the two small sigmas, between which the Unicode rules choose by context, neither is ASCII.

* `Text.toNat_lt_of_lowered` — what becomes letters of names alone is an ASCII character.
* `Command.ofName?_lowerCase_iff` — so the names that are found are those in ASCII.
* `Command.parse?_eq_some_iff` — commands are the texts of the grammar, and no others.
-/

namespace LoxTokens

/-! ### Trimmed texts -/

namespace Text

/-- A text that starts and ends with a character that is no blank. -/
structure Trimmed (t : Text) : Prop where
  first : ∃ c ∈ t.head?, isBlank c = false
  last : ∃ c ∈ t.getLast?, isBlank c = false

theorem Trimmed.trim_eq {t : Text} (h : Trimmed t) : trim t = t := by
  obtain ⟨c, atStart, visible⟩ := h.first
  obtain ⟨d, atEnd, visible'⟩ := h.last
  apply trim_eq_self
  · intro c' atStart'
    rwa [Option.mem_unique atStart' atStart]
  · intro d' atEnd'
    rwa [Option.mem_unique atEnd' atEnd]

theorem Trimmed.of_visible {t : Text} (nonempty : t ≠ [])
    (visible : ∀ c ∈ t, isBlank c = false) : Trimmed t where
  first := ⟨t.head nonempty, List.head?_eq_some_head nonempty, visible _ (List.head_mem nonempty)⟩
  last := ⟨t.getLast nonempty, List.getLast?_eq_getLast_of_ne_nil nonempty,
    visible _ (List.getLast_mem nonempty)⟩

theorem Trimmed.ne_nil {t : Text} (h : Trimmed t) : t ≠ [] := by
  rintro rfl
  obtain ⟨c, start, -⟩ := h.first
  contradiction

theorem Trimmed.cons_append {t : Text} (h : Trimmed t) {c : Char} (visible : isBlank c = false)
    (front : Text) : Trimmed (c :: (front ++ t)) where
  first := ⟨c, rfl, visible⟩
  last := by
    rw [← List.cons_append, List.getLast?_append_of_ne_nil _ h.ne_nil]
    exact h.last

theorem trim_between {before t after : Text} (blanks : ∀ c ∈ before, isBlank c = true)
    (trimmed : Trimmed t) (blanks' : ∀ c ∈ after, isBlank c = true) :
    trim (before ++ t ++ after) = t := by
  rw [trim_append_blanks blanks', trim, trimStart, List.dropWhile_append_of_pos blanks]
  exact trimmed.trim_eq

theorem exists_around_trim (t : Text) :
    ∃ before after, t = before ++ trim t ++ after ∧
      (∀ c ∈ before, isBlank c = true) ∧ ∀ c ∈ after, isBlank c = true := by
  refine ⟨t.takeWhile isBlank, (trimStart t).rtakeWhile isBlank, ?_,
    fun c member => List.mem_takeWhile_imp member, fun c member => List.mem_rtakeWhile_imp member⟩
  have back : trim t ++ (trimStart t).rtakeWhile isBlank = trimStart t :=
    List.rdropWhile_append_rtakeWhile ..
  rw [List.append_assoc, back]
  exact List.takeWhile_append_dropWhile.symm

theorem trimmed_trim {t : Text} (nonempty : trim t ≠ []) : Trimmed (trim t) := by
  have back : trim t ++ (trimStart t).rtakeWhile isBlank = trimStart t :=
    List.rdropWhile_append_rtakeWhile ..
  constructor
  · obtain ⟨c, rest, start⟩ := List.exists_cons_of_ne_nil nonempty
    have visible := head?_dropWhile isBlank t
    change (trimStart t).head?.any isBlank = false at visible
    rw [← back, start] at visible
    exact ⟨c, by rw [start]; rfl, visible⟩
  · exact ⟨_, List.getLast?_eq_getLast_of_ne_nil nonempty,
      Bool.eq_false_iff.mpr (List.rdropWhile_last_not isBlank (trimStart t) nonempty)⟩

/-! ### Lower case within ASCII -/

/-- What holds of the first 128 characters holds of every ASCII character. -/
theorem forall_ascii {motive : Char → Prop} (first : ∀ n < 128, motive (Char.ofNat n)) (c : Char)
    (ascii : c.toNat < 128) : motive c := by
  have here := first c.toNat ascii
  rwa [Char.ofNat_toNat] at here

theorem lowered_of_ascii {c : Char} (ascii : c.toNat < 128) : lowered c = [c.toLower] := by
  refine forall_ascii (motive := fun c => lowered c = [c.toLower]) ?_ c ascii
  decide +kernel

/-- A character that is no code point counts as zero. -/
theorem toNat_ofNat_cases (n : Nat) : (Char.ofNat n).toNat = n ∨ (Char.ofNat n).toNat = 0 := by
  by_cases valid : n.isValidChar
  · have same : Char.ofNat n = Char.ofNatAux n valid := dif_pos valid
    rw [same]
    exact Or.inl rfl
  · have none : Char.ofNat n = '\x00' := dif_neg valid
    rw [none]
    exact Or.inr rfl

/-- Only ASCII characters become ASCII characters other than `k`. -/
theorem toNat_lt_of_lowered {c : Char}
    (ascii : ∀ d ∈ lowered c, 0 < d.toNat ∧ d.toNat < 128 ∧ d ≠ 'k') : c.toNat < 128 := by
  unfold lowered at ascii
  split at ascii
  · -- the dot above stays behind
    have dot := ascii (Char.ofNat 0x307) (by simp)
    exact absurd dot.2.1 (by decide)
  · split at ascii
    · next r found =>
        obtain ⟨positive, less, noK⟩ := List.forall_mem_singleton.mp ascii
        have listed : r ∈ caseRuns := List.mem_of_find?_eq_some found
        have covers := List.find?_some found
        simp only [CaseRun.covers, Bool.and_eq_true, decide_eq_true_eq] at covers
        have moved : (r.first : Int) + r.shift < 128 := by
          rcases toNat_ofNat_cases (c.toNat + r.shift).toNat with same | none <;> omega
        have known : r ∈ caseRuns.filter fun r => (r.first : Int) + r.shift < 128 :=
          List.mem_filter.mpr ⟨listed, decide_eq_true moved⟩
        rw [caseRuns_ascii] at known
        rcases List.mem_cons.mp known with rfl | kelvin
        · exact Nat.lt_of_le_of_lt covers.1.2 (by decide)
        · obtain rfl := List.mem_singleton.mp kelvin
          have sign : c.toNat = 8490 := Nat.le_antisymm covers.1.2 covers.1.1
          rw [sign] at noK
          exact absurd rfl noK
    · exact (List.forall_mem_singleton.mp ascii).2.1

theorem lowerCase_of_ascii {t : Text} (ascii : ∀ c ∈ t, c.toNat < 128) :
    lowerCase t = t.map Char.toLower := by
  rw [lowerCase, List.map_eq_flatMap]
  exact List.flatMap_congr fun c member => lowered_of_ascii (ascii c member)

theorem toNat_lt_of_toLower {c : Char} (ascii : c.toLower.toNat < 128) : c.toNat < 128 := by
  by_cases upper : 'A' ≤ c ∧ c ≤ 'Z'
  · have le : c.toNat ≤ 'Z'.toNat := upper.2
    exact Nat.lt_of_le_of_lt le (by decide)
  · rwa [toLower_of_not_upper upper] at ascii

end Text

/-! ### Names of commands -/

namespace Command

/-- The spellings of the names of a command, in any mix of ASCII cases. -/
def IsName (name : Text) (command : Command) : Prop := (name.map Char.toLower, command) ∈ names

theorem ofName?_eq_some_iff {name : Text} {command : Command} :
    ofName? name = some command ↔ (name, command) ∈ names := by
  constructor
  · intro found
    obtain ⟨before, after, listed, -⟩ := List.lookup_eq_some_iff.mp found
    rw [listed]
    exact List.mem_append_right _ List.mem_cons_self
  · intro listed
    have all : ∀ p ∈ names, ofName? p.1 = some p.2 := by decide
    exact all _ listed

/-- Names are spelled in ASCII, without a `k` and without blanks. -/
theorem letters_of_names {listed : Text × Command} (h : listed ∈ names) {c : Char}
    (member : c ∈ listed.1) :
    (0 < c.toNat ∧ c.toNat < 128 ∧ c ≠ 'k') ∧ Text.isBlank c = false := by
  have all : names.all (·.1.all fun c =>
      0 < c.toNat && c.toNat < 128 && c != 'k' && !Text.isBlank c) = true := by decide
  have letter := List.all_eq_true.mp (List.all_eq_true.mp all listed h) c member
  simpa [and_assoc] using letter

variable {name : Text} {command : Command}

theorem IsName.ascii (h : IsName name command) : ∀ c ∈ name, c.toNat < 128 := by
  intro c member
  have letter := letters_of_names h (List.mem_map_of_mem member)
  exact Text.toNat_lt_of_toLower letter.1.2.1

theorem IsName.visible (h : IsName name command) : ∀ c ∈ name, Text.isBlank c = false := by
  intro c member
  have letter := letters_of_names h (List.mem_map_of_mem member)
  have same : Text.isBlank c.toLower = Text.isBlank c := by
    refine Text.forall_ascii (motive := fun c => Text.isBlank c.toLower = Text.isBlank c) ?_ c
      (h.ascii c member)
    decide +kernel
  rw [← same, letter.2]

theorem IsName.ne_nil (h : IsName name command) : name ≠ [] := by
  rintro rfl
  have noName : ∀ p ∈ names, p.1 ≠ [] := by decide
  exact noName _ h rfl

/-- The names that are found in lower case by the Unicode mapping are those in ASCII. -/
theorem ofName?_lowerCase_iff :
    ofName? (Text.lowerCase name) = some command ↔ IsName name command := by
  constructor
  · intro found
    have listed := ofName?_eq_some_iff.mp found
    have ascii : ∀ c ∈ name, c.toNat < 128 := by
      intro c member
      apply Text.toNat_lt_of_lowered
      intro d lowered
      exact (letters_of_names listed (List.mem_flatMap_of_mem member lowered)).1
    rwa [Text.lowerCase_of_ascii ascii] at listed
  · intro named
    rw [Text.lowerCase_of_ascii named.ascii, ofName?_eq_some_iff]
    exact named

/-! ### Reading a command part by part -/

/-- The texts of commands, each with its command and its argument. -/
inductive CommandText : Text → Command → Option Text → Prop where
  | bare {before name after : Text} {command : Command} :
      (∀ c ∈ before, Text.isBlank c = true) → IsName name command →
      (∀ c ∈ after, Text.isBlank c = true) →
      CommandText (before ++ '.' :: (name ++ after)) command none
  | argument {before name between argument after : Text} {command : Command} :
      (∀ c ∈ before, Text.isBlank c = true) → IsName name command →
      between ≠ [] → (∀ c ∈ between, Text.isBlank c = true) → Text.Trimmed argument →
      (∀ c ∈ after, Text.isBlank c = true) →
      CommandText (before ++ '.' :: (name ++ (between ++ (argument ++ after)))) command
        (some argument)

theorem argument?_between {between argument : Text} (blanks : ∀ c ∈ between, Text.isBlank c = true)
    (trimmed : Text.Trimmed argument) : argument? (between ++ argument) = some argument := by
  have trim : Text.trim (between ++ argument) = argument := by
    rw [← List.append_nil (between ++ argument)]
    exact Text.trim_between blanks trimmed (by simp)
  rw [argument?, trim, if_neg (by simpa using trimmed.ne_nil)]

/-- A command is looked up by what stands between its dot and the first blank behind. -/
theorem parse?_of_word {input name afterName : Text}
    (trimmed : Text.trim input = '.' :: (name ++ afterName))
    (visible : ∀ c ∈ name, Text.isBlank c = false)
    (stop : afterName.head?.any (!Text.isBlank ·) = false) :
    parse? input = (ofName? (Text.lowerCase name)).map (·, argument? afterName) := by
  have visible' : ∀ c ∈ name, (!Text.isBlank c) = true := fun c member => by
    rw [visible c member]
    rfl
  have cut : parse? input =
      (ofName? (Text.lowerCase ((name ++ afterName).takeWhile (!Text.isBlank ·)))).map
        (·, argument? ((name ++ afterName).dropWhile (!Text.isBlank ·))) := by
    rw [parse?, trimmed]
    rfl
  rw [cut, takeWhile_append_of_stop visible' stop, dropWhile_append_of_stop visible' stop]

/-- Where a command is read, the dot and the word are found, and what follows the word. -/
theorem exists_word {input : Text} {argument : Option Text}
    (h : parse? input = some (command, argument)) :
    ∃ name afterName, Text.trim input = '.' :: (name ++ afterName) ∧ IsName name command ∧
      afterName.head?.any (!Text.isBlank ·) = false ∧ argument = argument? afterName := by
  rw [parse?] at h
  split at h
  · next rest start =>
      obtain ⟨found, known, same⟩ := Option.map_eq_some_iff.mp h
      obtain ⟨rfl, rfl⟩ := Prod.mk.inj same
      refine ⟨rest.takeWhile (!Text.isBlank ·), rest.dropWhile (!Text.isBlank ·), ?_,
        ofName?_lowerCase_iff.mp known, head?_dropWhile _ rest, rfl⟩
      rw [start, List.takeWhile_append_dropWhile]
  · contradiction

theorem CommandText.parse?_eq {input : Text} {argument : Option Text}
    (h : CommandText input command argument) : parse? input = some (command, argument) := by
  cases h with
  | @bare before name after _ blanks named blanks' =>
      have trimmed : Text.Trimmed ('.' :: ([] ++ name)) :=
        (Text.Trimmed.of_visible named.ne_nil named.visible).cons_append rfl []
      have trim : Text.trim (before ++ '.' :: (name ++ after)) = '.' :: (name ++ []) := by
        have between := Text.trim_between blanks trimmed blanks'
        rwa [List.append_assoc, List.nil_append, List.cons_append,
          ← List.append_nil name, List.append_assoc] at between
      rw [parse?_of_word trim named.visible rfl, ofName?_lowerCase_iff.mpr named]
      rfl
  | @argument before name between argument after _ blanks named nonempty separate trimmed blanks' =>
      have word : Text.Trimmed ('.' :: (name ++ between ++ argument)) :=
        trimmed.cons_append rfl (name ++ between)
      have trim : Text.trim (before ++ '.' :: (name ++ (between ++ (argument ++ after)))) =
          '.' :: (name ++ (between ++ argument)) := by
        have around := Text.trim_between blanks word blanks'
        simpa using around
      have stop : (between ++ argument).head?.any (!Text.isBlank ·) = false := by
        obtain ⟨c, more, rfl⟩ := List.exists_cons_of_ne_nil nonempty
        simp [separate c List.mem_cons_self]
      rw [parse?_of_word trim named.visible stop, ofName?_lowerCase_iff.mpr named,
        argument?_between separate trimmed]
      rfl

theorem CommandText.of_parse? {input : Text} {argument : Option Text}
    (h : parse? input = some (command, argument)) : CommandText input command argument := by
  obtain ⟨name, afterName, start, named, stop, rfl⟩ := exists_word h
  obtain ⟨before, after, whole, blanks, blanks'⟩ := Text.exists_around_trim input
  rw [whole, start, List.append_assoc, List.cons_append, List.append_assoc, argument?]
  by_cases none : Text.trim afterName = []
  · rw [if_pos (List.isEmpty_iff.mpr none)]
    exact .bare blanks named (List.forall_mem_append.mpr ⟨Text.trim_eq_nil_iff.mp none, blanks'⟩)
  · obtain ⟨between, behind, whole', separate, separate'⟩ := Text.exists_around_trim afterName
    have trimmed := Text.trimmed_trim none
    have nonempty : between ≠ [] := by
      rintro rfl
      obtain ⟨c, first, visible⟩ := trimmed.first
      rw [whole', List.nil_append, List.head?_append, Option.mem_def.mp first] at stop
      simp [visible] at stop
    rw [if_neg (by simpa using none)]
    have text : afterName ++ after =
        between ++ (Text.trim afterName ++ (behind ++ after)) := by
      conv_lhs => rw [whole']
      simp
    rw [text]
    exact .argument blanks named nonempty separate trimmed
      (List.forall_mem_append.mpr ⟨separate', blanks'⟩)

/-- The first word of a command is in ASCII. -/
theorem ascii_of_parse? {input : Text} {found : Command × Option Text}
    (h : parse? input = some found) : ∀ c ∈ Text.firstWord input, c.toNat < 128 := by
  obtain ⟨name, afterName, start, named, stop, -⟩ := exists_word h
  have visible : ∀ c ∈ '.' :: name, (!Text.isBlank c) = true := by
    rw [List.forall_mem_cons]
    refine ⟨rfl, fun c member => ?_⟩
    rw [named.visible c member]
    rfl
  rw [← Text.takeWhile_trim, start, ← List.cons_append, takeWhile_append_of_stop visible stop,
    List.forall_mem_cons]
  exact ⟨by decide, named.ascii⟩

/-- **The grammar of commands.** A text is read as a command with an argument exactly where it is
blanks, a dot, a name of the command in any mix of ASCII cases, and then either blanks alone or
blanks and the argument, which neither starts nor ends with one, and perhaps more blanks. A text
whose first word has a character beyond ASCII is no command. -/
theorem command_grammar :
    (∀ input command argument,
      parse? input = some (command, argument) ↔ CommandText input command argument) ∧
    ∀ input, (∃ c ∈ Text.firstWord input, 128 ≤ c.toNat) → parse? input = none := by
  refine ⟨fun input command argument => ⟨CommandText.of_parse?, CommandText.parse?_eq⟩, ?_⟩
  rintro input ⟨c, member, beyond⟩
  rw [Option.eq_none_iff_forall_ne_some]
  intro found parsed
  exact absurd (ascii_of_parse? parsed c member) (Nat.not_lt_of_le beyond)

/-- Cases are mixed in a name and kept in its argument. A capital I with a dot above is no I. -/
theorem mixed_cases_and_dotted_capital :
    CommandText "\u3000.LoAd\t a  B " .load (some ("a  B" : Text)) ∧ parse? ".EX\u0130T" = none := by
  have read : parse? "\u3000.LoAd\t a  B " = some (.load, some ("a  B" : Text)) := by
    decide +kernel
  have dotted : '\u0130' ∈ Text.firstWord ".EX\u0130T" := by decide +kernel
  exact ⟨(command_grammar.1 _ _ _).mp read, command_grammar.2 _ ⟨'\u0130', dotted, by decide⟩⟩

end Command

end LoxTokens
