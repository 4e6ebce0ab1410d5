import LoxTokens.Proofs.ArgumentSpellings
import LoxTokens.Proofs.PieceEnds

/-!
The grammar of command lines.

What is accepted is exactly what has a spelling. Reading is taken apart argument by argument: the
shape of an argument tells which option it is, a value that is held back has been looked at by the
end, and an option that waits has got its value from the next argument.

* `exists_commandLine` — arguments that can be read spell what they give.
* `readGiven_eq_ok_iff` — they can be read exactly where they spell items, each given once.
* `read_of_commandLine` — each spelling of what is wanted is read as just that, and the environment
  fills in a filter and a colour choice that are missing.
-/

namespace LoxTokens.Arguments

/-! ### Arguments by their shape -/

section

variable {argument v name letters : Text} {value : Option Text}

theorem standsAlone_iff : StandsAlone v ↔ Shape.of v = .plain := by
  refine ⟨StandsAlone.shape, fun shape => ?_⟩
  unfold Shape.of at shape
  split at shape
  · contradiction
  · contradiction
  · contradiction
  · next noSeparator noLong noCluster =>
      cases v with
      | nil => exact .inl (by simp)
      | cons c rest =>
          by_cases dash : c = '-'
          · subst dash
            cases rest with
            | nil => exact .inr rfl
            | cons d rest => exact absurd rfl (noCluster d rest)
          · exact .inl (by simpa using dash)

theorem Shape.eq_of_long (shape : of argument = .long name value) :
    argument = '-' :: '-' :: (name ++ (value.map ('=' :: ·)).getD []) := by
  unfold of at shape
  split at shape
  · contradiction
  · next rest _ =>
      have stop := head?_dropWhile (· != '=') rest
      have whole := List.takeWhile_append_dropWhile (p := (· != '=')) (l := rest)
      cases shape
      cases after : rest.dropWhile (· != '=') with
      | nil =>
          rw [after] at whole
          simpa using whole.symm
      | cons c back =>
          obtain rfl : c = '=' := by simpa [after] using stop
          rw [after] at whole
          simpa using whole.symm
  · contradiction
  · contradiction

theorem Shape.eq_of_cluster (shape : of argument = .cluster letters) :
    argument = '-' :: letters ∧ letters ≠ [] := by
  unfold of at shape
  split at shape <;> first | contradiction | (cases shape; simp)

theorem attached?_cases (h : Progress.attached? letters = value) :
    value = none ∧ letters = [] ∨
      ∃ v, value = some v ∧ (letters = '=' :: v ∨ letters = v ∧ Joins v) := by
  subst h
  unfold Progress.attached?
  split
  · exact .inl ⟨rfl, rfl⟩
  · exact .inr ⟨_, rfl, .inl rfl⟩
  · next nonempty noEquals =>
      refine .inr ⟨_, rfl, .inr ⟨rfl, nonempty, ?_⟩⟩
      intro head
      obtain ⟨rest, same⟩ := List.head?_eq_some_iff.mp head
      exact noEquals rest same

theorem mem_of_lookup {α β : Type} [BEq α] [LawfulBEq α] {table : List (α × β)} {a : α} {b : β}
    (h : table.lookup a = some b) : (a, b) ∈ table := by
  obtain ⟨before, after, listed, -⟩ := List.lookup_eq_some_iff.mp h
  rw [listed]
  exact List.mem_append_right _ List.mem_cons_self

theorem longName_of_lookup {s : Setting} (h : longNames.lookup name = some (.setting s)) :
    '-' :: '-' :: name = s.longName := by
  have listed := mem_of_lookup h
  simp only [longNames, List.mem_cons, Prod.mk.injEq, List.not_mem_nil] at listed
  rcases listed with ⟨rfl, ⟨⟩⟩ | ⟨rfl, ⟨⟩⟩ | ⟨rfl, ⟨⟩⟩ | ⟨_, ⟨⟩⟩ | ⟨_, ⟨⟩⟩ | ⟨_, ⟨⟩⟩ | ⟨⟨⟩⟩ <;> rfl

theorem eq_verbose_of_lookup (h : longNames.lookup name = some (.flag .verbose)) :
    name = ("verbose" : Text) := by
  have listed := mem_of_lookup h
  simp only [longNames, List.mem_cons, Prod.mk.injEq, List.not_mem_nil] at listed
  simpa using listed

theorem letter_of_lookup {c : Char} {s : Setting}
    (h : Arguments.letters.lookup c = some (.setting s)) : c = 'e' ∧ s = .eval := by
  have listed := mem_of_lookup h
  simpa [Arguments.letters] using listed

theorem eq_v_of_lookup {c : Char} (h : Arguments.letters.lookup c = some (.flag .verbose)) :
    c = 'v' := by
  have listed := mem_of_lookup h
  simpa [Arguments.letters] using listed

end

/-! ### Steps that succeed -/

section

variable {g given : Given} {setting : Setting} {v : Text}

theorem readColor_eq_ok_iff {choice : ColorChoice} :
    readColor v = .ok choice ↔ v = choice.spelling := by
  constructor
  · intro read
    unfold readColor at read
    split at read
    · next known =>
        cases read
        have same : choice.spelling = v := by simpa using List.find?_some known
        exact same.symm
    · contradiction
  · rintro rfl
    rw [readColor, ColorChoice.ofText?_spelling]

theorem Adds.of_set (h : g.set setting v = .ok given) : Adds g (.value setting v) given := by
  cases setting with
  | eval | log =>
      simp only [Given.set] at h
      split at h
      · contradiction
      · next none =>
          cases h
          constructor
          simpa using none
  | color =>
      simp only [Given.set] at h
      split at h
      · contradiction
      · next none =>
          cases read : readColor v with
          | error interruption =>
              rw [read] at h
              contradiction
          | ok choice =>
              rw [read] at h
              cases h
              obtain rfl := readColor_eq_ok_iff.mp read
              exact .color (by simpa using none)

theorem Adds.of_setScript {path : Text} (none : g.script = none)
    (h : g.setScript path = .ok given) : Adds g (.script path) given := by
  unfold Given.setScript at h
  split at h
  · contradiction
  · next nonempty =>
      cases h
      exact .script none (by simpa using nonempty)

end

namespace Progress

section

variable {p q : Progress} {g : Given} (settled : p.settle = .ok g)

include settled

theorem exists_adds_of_flag {long : Bool} {flag : Flag} (met : p.flag long flag = .ok q) :
    flag = .verbose ∧ ∃ given, Adds g .verbose given ∧ q = ⟨given, .nothing⟩ := by
  rw [Progress.flag, settled] at met
  cases flag with
  | verbose =>
      have met' : (if g.verbose then refuse .argumentConflict
        else .ok ⟨{ g with verbose := true }, .nothing⟩) = Except.ok q := met
      split at met'
      · contradiction
      · next silent =>
          cases met'
          exact ⟨rfl, _, .verbose (by simpa using silent), rfl⟩
  | help | version => contradiction

theorem eq_of_plain {path : Text} (met : p.plain path = .ok q) :
    g.script = none ∧ q = ⟨g, .script path⟩ := by
  unfold plain at met
  split at met
  · next held => simp [settle, held, refuse] at settled
  · rw [positional, hasScript_of_settle settled, settled] at met
    split at met
    · contradiction
    · next none =>
        cases met
        exact ⟨by simpa using none, rfl⟩

end

/-- Reading an argument and all behind it. -/
theorem finish_cons (p : Progress) (argument : Text) (rest : List Text) :
    p.finish (argument :: rest) = match Shape.of argument with
      | .separator => rest.foldlM positional p >>= fun q => q.settle
      | .long name value => p.long name value >>= fun q => q.finish rest
      | .cluster letters => p.cluster letters >>= fun q => q.finish rest
      | .plain => p.plain argument >>= fun q => q.finish rest := by
  rw [finish, meet]
  cases Shape.of argument <;> simp only [finish, bind_assoc]

section

variable {p : Progress} {interruption : Interruption} (unsettled : p.settle = .error interruption)

include unsettled

theorem flag_of_unsettled (long : Bool) (flag : Flag) : p.flag long flag = .error interruption := by
  rw [Progress.flag, unsettled]
  rfl

theorem setting_of_unsettled (s : Setting) (attached : Option Text) :
    p.setting s attached = .error interruption := by
  rw [Progress.setting, unsettled]
  rfl

theorem exists_error_of_long (name : Text) (value : Option Text) :
    ∃ e, p.long name value = .error e := by
  rw [Progress.long]
  split
  · exact ⟨_, rfl⟩
  · exact ⟨_, setting_of_unsettled unsettled ..⟩
  · split
    · exact ⟨_, rfl⟩
    · exact ⟨_, flag_of_unsettled unsettled ..⟩

theorem exists_error_of_cluster {letters : Text} (nonempty : letters ≠ []) :
    ∃ e, p.cluster letters = .error e := by
  obtain ⟨c, more, rfl⟩ := List.exists_cons_of_ne_nil nonempty
  rw [Progress.cluster]
  split
  · exact ⟨_, rfl⟩
  · exact ⟨_, setting_of_unsettled unsettled ..⟩
  · rw [flag_of_unsettled unsettled]
    exact ⟨_, rfl⟩

theorem exists_error_of_positional (path : Text) : ∃ e, p.positional path = .error e := by
  rw [Progress.positional, unsettled]
  split <;> exact ⟨_, rfl⟩

end

/-- Where reading succeeds, what was held back has been looked at, unless an option has waited for
the first argument. -/
theorem settles_of_finish {p : Progress} {arguments : List Text} {g' : Given}
    (read : p.finish arguments = .ok g') : (∃ g, p.settle = .ok g) ∨
      ∃ s v rest, p.held = .waiting s ∧ arguments = v :: rest ∧ StandsAlone v := by
  cases settled : p.settle with
  | ok g => exact .inl ⟨g, rfl⟩
  | error interruption =>
      right
      cases arguments with
      | nil => exact absurd (settled.symm.trans read) (by simp)
      | cons argument rest =>
          rw [finish_cons] at read
          split at read
          · cases rest with
            | nil => exact absurd (settled.symm.trans read) (by simp)
            | cons path rest =>
                obtain ⟨e, failed⟩ := exists_error_of_positional settled path
                rw [List.foldlM_cons, failed] at read
                contradiction
          · next name value _ =>
              obtain ⟨e, failed⟩ := exists_error_of_long settled name value
              rw [failed] at read
              contradiction
          · next letters shape =>
              obtain ⟨e, failed⟩ := exists_error_of_cluster settled (Shape.eq_of_cluster shape).2
              rw [failed] at read
              contradiction
          · next shape =>
              rw [plain] at read
              split at read
              · next s held => exact ⟨s, argument, rest, held, rfl, standsAlone_iff.mpr shape⟩
              · obtain ⟨e, failed⟩ := exists_error_of_positional settled argument
                rw [failed] at read
                contradiction

end Progress

/-! ### What is read has a spelling -/

section

variable {p : Progress} {g g' : Given}

/-- An option that waits is followed by its value. -/
theorem exists_value_of_waiting {s : Setting} {arguments : List Text}
    (read : Progress.finish ⟨g, .waiting s⟩ arguments = .ok g') :
    ∃ v rest given, arguments = v :: rest ∧ StandsAlone v ∧ Adds g (.value s v) given ∧
      Progress.finish ⟨g, .value s v⟩ rest = .ok g' := by
  rcases Progress.settles_of_finish read with ⟨_, settled⟩ | ⟨_, v, rest, -, rfl, alone⟩
  · contradiction
  · rw [Progress.finish_cons, alone.shape] at read
    have later : Progress.finish ⟨g, .value s v⟩ rest = .ok g' := read
    rcases Progress.settles_of_finish later with ⟨given, settled⟩ | ⟨_, _, _, held, -⟩
    · exact ⟨v, rest, given, rfl, alone, Adds.of_set settled, later⟩
    · contradiction

section

variable (settled : p.settle = .ok g)

include settled

/-- An option has its value attached, or in the next argument. -/
theorem exists_value_of_setting {s : Setting} {attached : Option Text} {rest : List Text}
    (read : (p.setting s attached >>= fun q => q.finish rest) = .ok g') :
    ∃ v given, Adds g (.value s v) given ∧
      (attached = some v ∧ Progress.finish ⟨given, .nothing⟩ rest = .ok g' ∨
        attached = none ∧ StandsAlone v ∧ ∃ back, rest = v :: back ∧
          Progress.finish ⟨g, .value s v⟩ back = .ok g') := by
  cases attached with
  | some v =>
      obtain ⟨q, met, later⟩ := bind_eq_ok_iff.mp read
      rw [Progress.setting_of_settle settled] at met
      cases given : g.set s v with
      | error interruption =>
          rw [given] at met
          contradiction
      | ok given' =>
          rw [given] at met
          cases met
          exact ⟨v, given', Adds.of_set given, .inl ⟨rfl, later⟩⟩
  | none =>
      rw [Progress.setting_none_of_settle settled] at read
      obtain ⟨v, back, given, rfl, alone, added, later⟩ := exists_value_of_waiting read
      exact ⟨v, given, added, .inr ⟨rfl, alone, back, rfl, later⟩⟩

/-- A cluster is the letter of the flag, or it leads to the text to scan. -/
theorem cluster_cases {letters : Text} {rest : List Text} (nonempty : letters ≠ [])
    (read : (p.cluster letters >>= fun q => q.finish rest) = .ok g') :
    (letters = ['v'] ∧ ∃ given, Adds g .verbose given ∧
      Progress.finish ⟨given, .nothing⟩ rest = .ok g') ∨
    ∃ flags known more given q, EvalLetters flags known ∧ '-' :: letters = known ++ more ∧
      AddsAll g flags given ∧ Progress.settle q = .ok given ∧
        (q.setting .eval (Progress.attached? more) >>= fun q => q.finish rest) = .ok g' := by
  obtain ⟨c, more, rfl⟩ := List.exists_cons_of_ne_nil nonempty
  rw [Progress.cluster] at read
  split at read
  · contradiction
  · next s known =>
      obtain ⟨rfl, rfl⟩ := letter_of_lookup known
      exact .inr ⟨[], _, more, g, p, .alone, rfl, .nil, settled, read⟩
  · next f known =>
      rw [bind_assoc] at read
      obtain ⟨q, met, later⟩ := bind_eq_ok_iff.mp read
      obtain ⟨rfl, given, added, rfl⟩ := Progress.exists_adds_of_flag settled met
      obtain rfl := eq_v_of_lookup known
      cases more with
      | nil => exact .inl ⟨rfl, given, added, later⟩
      | cons d more =>
          rw [Progress.cluster] at later
          split at later
          · contradiction
          · next s known =>
              obtain ⟨rfl, rfl⟩ := letter_of_lookup known
              exact .inr ⟨_, _, more, given, _, .grouped, rfl, .single added, rfl, later⟩
          · -- the flag is given, and nothing else has a letter
            rw [bind_assoc] at later
            obtain ⟨q, met, -⟩ := bind_eq_ok_iff.mp later
            obtain ⟨-, _, twice, -⟩ := Progress.exists_adds_of_flag rfl met
            cases added
            cases twice
            contradiction

end

/-- The first arguments spell some items, and the others can be read behind them. -/
def BeginsSpelled (g : Given) (arguments : List Text) (g' : Given) : Prop :=
  ∃ items spelled back given q, arguments = spelled ++ back ∧ Spelling items spelled ∧
    AddsAll g items given ∧ Progress.settle q = .ok given ∧ Progress.finish q back = .ok g'

section

variable (settled : p.settle = .ok g) {argument : Text} {rest : List Text}

include settled

theorem beginsSpelled_of_long {name : Text} {value : Option Text}
    (shape : Shape.of argument = .long name value)
    (read : (p.long name value >>= fun q => q.finish rest) = .ok g') :
    BeginsSpelled g (argument :: rest) g' := by
  obtain rfl := Shape.eq_of_long shape
  rw [Progress.long] at read
  split at read
  · contradiction
  · next s known =>
      obtain ⟨v, given, added, ⟨rfl, later⟩ | ⟨rfl, alone, back, rfl, later⟩⟩ :=
        exists_value_of_setting settled read
      · have spelled := Spelling.assigned s v
        rw [← longName_of_lookup known] at spelled
        exact ⟨_, _, rest, given, _, rfl, spelled, .single added, rfl, later⟩
      · have spelled := Spelling.separate s alone
        rw [← longName_of_lookup known] at spelled
        exact ⟨_, _, back, given, ⟨g, .value s v⟩, by simp, spelled, .single added, added.set,
          later⟩
  · next f known =>
      split at read
      · contradiction
      · next noValue =>
          obtain rfl : value = none := by simpa using noValue
          obtain ⟨q, met, later⟩ := bind_eq_ok_iff.mp read
          obtain ⟨rfl, given, added, rfl⟩ := Progress.exists_adds_of_flag settled met
          obtain rfl := eq_verbose_of_lookup known
          exact ⟨_, _, rest, given, _, rfl, .flag, .single added, rfl, later⟩

theorem beginsSpelled_of_cluster {letters : Text} (shape : Shape.of argument = .cluster letters)
    (read : (p.cluster letters >>= fun q => q.finish rest) = .ok g') :
    BeginsSpelled g (argument :: rest) g' := by
  obtain ⟨rfl, nonempty⟩ := Shape.eq_of_cluster shape
  obtain ⟨rfl, given, added, later⟩ | ⟨flags, known, more, given, q, eval, same, flagged, settled',
    read'⟩ := cluster_cases settled nonempty read
  · exact ⟨_, _, rest, given, _, rfl, .letter, .single added, rfl, later⟩
  · rw [same]
    obtain ⟨v, given', added, ⟨attached, later⟩ | ⟨attached, alone, back, rfl, later⟩⟩ :=
      exists_value_of_setting settled' read'
    · have all := addsAll_append_iff.mpr ⟨given, flagged, .single added⟩
      obtain ⟨none, -⟩ | ⟨v', some, rfl | ⟨rfl, joins⟩⟩ := attached?_cases attached
      · contradiction
      · cases some
        exact ⟨_, _, rest, given', _, rfl, .letterAssigned v eval, all, rfl, later⟩
      · cases some
        exact ⟨_, _, rest, given', _, rfl, .letterJoined eval joins, all, rfl, later⟩
    · have all := addsAll_append_iff.mpr ⟨given, flagged, .single added⟩
      obtain ⟨-, rfl⟩ | ⟨v', some, -⟩ := attached?_cases attached
      · exact ⟨_, _, back, given', ⟨given, .value .eval v⟩, by simp, .letterSeparate eval alone,
          all, added.set, later⟩
      · contradiction

theorem beginsSpelled_of_plain (shape : Shape.of argument = .plain)
    (read : (p.plain argument >>= fun q => q.finish rest) = .ok g') :
    BeginsSpelled g (argument :: rest) g' := by
  obtain ⟨q, met, later⟩ := bind_eq_ok_iff.mp read
  obtain ⟨noScript, rfl⟩ := Progress.eq_of_plain settled met
  rcases Progress.settles_of_finish later with ⟨given, settled'⟩ | ⟨_, _, _, held, -⟩
  · exact ⟨_, _, rest, given, _, rfl, .script (standsAlone_iff.mpr shape),
      .single (.of_setScript noScript settled'), settled', later⟩
  · contradiction

/-- Behind two dashes stands a script, or nothing. -/
theorem exists_commandLine_behind
    (read : (rest.foldlM Progress.positional p >>= fun q => q.settle) = .ok g') :
    ∃ items, CommandLine items (separator :: rest) ∧ AddsAll g items g' := by
  cases rest with
  | nil =>
      cases settled.symm.trans read
      exact ⟨[], .dashes, .nil⟩
  | cons path rest =>
      rw [List.foldlM_cons, bind_assoc] at read
      obtain ⟨q, met, later⟩ := bind_eq_ok_iff.mp read
      rw [Progress.positional, Progress.hasScript_of_settle settled, settled] at met
      split at met
      · contradiction
      · next room =>
          cases met
          have noScript : g.script = none := by simpa using room
          cases rest with
          | nil => exact ⟨_, .behindDashes path, .single (.of_setScript noScript later)⟩
          | cons => contradiction

end

end

theorem Spelling.ne_nil {items : List Item} {arguments : List Text} (h : Spelling items arguments) :
    arguments ≠ [] := by
  cases h <;> simp

/-- Arguments that can be read spell what they give. -/
theorem exists_commandLine {p : Progress} {g g' : Given} (arguments : List Text)
    (settled : p.settle = .ok g) (read : p.finish arguments = .ok g') :
    ∃ items, CommandLine items arguments ∧ AddsAll g items g' := by
  match arguments with
  | [] =>
      cases settled.symm.trans read
      exact ⟨[], .nil, .nil⟩
  | argument :: rest =>
      rw [Progress.finish_cons] at read
      have begins : argument = separator ∨ BeginsSpelled g (argument :: rest) g' := by
        split at read
        · next shape => exact .inl (Shape.eq_of_separator shape)
        · next shape => exact .inr (beginsSpelled_of_long settled shape read)
        · next shape => exact .inr (beginsSpelled_of_cluster settled shape read)
        · next shape => exact .inr (beginsSpelled_of_plain settled shape read)
      rcases begins with rfl | ⟨_, spelled, back, given, q, parted, spelling, added, settled', later⟩
      · exact exists_commandLine_behind settled read
      · have shorter : back.length < rest.length + 1 := by
          have length := congrArg List.length parted
          have positive := List.length_pos_iff.mpr spelling.ne_nil
          rw [List.length_append, List.length_cons] at length
          omega
        obtain ⟨items, line, added'⟩ := exists_commandLine back settled' later
        rw [parted]
        exact ⟨_, .cons spelling line, addsAll_append_iff.mpr ⟨given, added, added'⟩⟩
termination_by arguments.length

/-! ### What a command line amounts to -/

theorem Adds.perm_items {g g' : Given} {i : Item} (h : Adds g i g') :
    (i :: g.items).Perm g'.items := by
  have slot (front back : List Item) (i : Item) :
      (i :: (front ++ back)).Perm (front ++ i :: back) := List.perm_middle.symm
  obtain ⟨script, eval, log, verbose, color⟩ := g
  cases h with
  | script none =>
      cases none
      exact .refl _
  | eval none =>
      cases none
      simpa [Given.items] using slot (script.map Item.script).toList _ _
  | log none =>
      cases none
      simpa [Given.items] using slot
        ((script.map Item.script).toList ++ (eval.map (Item.value .eval)).toList) _ _
  | verbose silent =>
      cases silent
      simpa [Given.items] using slot
        ((script.map Item.script).toList ++ (eval.map (Item.value .eval)).toList ++
          (log.map (Item.value .log)).toList) _ _
  | color none =>
      cases none
      simp only [Given.items, Option.map_none, Option.toList_none, List.append_nil]
      exact (List.perm_append_singleton _ _).symm

theorem AddsAll.perm_items {g g' : Given} {items : List Item} (h : AddsAll g items g') :
    (items ++ g.items).Perm g'.items := by
  induction h with
  | nil => exact .refl _
  | @cons g given g' i items one _ ih =>
      have front : (i :: items ++ g.items).Perm (items ++ i :: g.items) := List.perm_middle.symm
      exact front.trans ((one.perm_items.append_left items).trans ih)

/-- The path of a script is never empty. -/
theorem AddsAll.script_ne {g g' : Given} {items : List Item} (h : AddsAll g items g')
    (path : g.script ≠ some []) : g'.script ≠ some [] := by
  induction h with
  | nil => exact path
  | cons one _ ih =>
      apply ih
      cases one with
      | script _ nonempty => simpa using nonempty
      | _ => exact path

/-- Arguments can be read exactly where they spell items, each of them given once. -/
theorem readGiven_eq_ok_iff {arguments : List Text} {wanted : Given} :
    readGiven arguments = .ok wanted ↔ wanted.script ≠ some [] ∧
      ∃ items, CommandLine items arguments ∧ items.Perm wanted.items := by
  constructor
  · intro read
    obtain ⟨items, line, added⟩ := exists_commandLine arguments rfl read
    have order := added.perm_items
    refine ⟨added.script_ne (by simp), items, line, ?_⟩
    simpa [Given.items] using order
  · rintro ⟨path, items, line, order⟩
    exact line.finish_eq rfl ((addsAll_items wanted path).perm order.symm)

/-- The colour choice that counts: the one that is given, else the one of the environment, else the
automatic one. -/
inductive ColorCounts : Option ColorChoice → Option Text → ColorChoice → Prop where
  | given (choice : ColorChoice) (fallback : Option Text) :
      ColorCounts (some choice) fallback choice
  | environment (choice : ColorChoice) : ColorCounts none (some choice.spelling) choice
  | neither : ColorCounts none none .auto

theorem chooseColor_eq_ok_iff {g : Given} {environment : Environment} {color : ColorChoice} :
    g.chooseColor environment = .ok color ↔ ColorCounts g.color environment.color color := by
  unfold Given.chooseColor
  generalize g.color = given
  generalize environment.color = fallback
  constructor
  · intro chosen
    split at chosen
    · cases chosen
      exact .given ..
    · obtain rfl := readColor_eq_ok_iff.mp chosen
      exact .environment color
    · cases chosen
      exact .neither
  · rintro (⟨_, _⟩ | ⟨_⟩ | ⟨⟩)
    · rfl
    · exact readColor_eq_ok_iff.mpr rfl
    · rfl

/-- What is accepted is what is spelled: items given once each, not both a script and a text to
scan, and a colour choice that is known if it is needed. -/
theorem read_eq_ok_iff_commandLine {arguments : List Text} {environment : Environment}
    {a : Arguments} : read arguments environment = .ok a ↔
      ∃ (wanted : Given) (items : List Item) (color : ColorChoice),
        CommandLine items arguments ∧ items.Perm wanted.items ∧
        (wanted.script = none ∨ wanted.eval = none) ∧ wanted.script ≠ some [] ∧
        ColorCounts wanted.color environment.color color ∧
        a = { wanted with log := wanted.log <|> environment.log, color := color } := by
  rw [read_eq_ok_iff]
  constructor
  · rintro ⟨wanted, color, given, chosen, either, rfl⟩
    obtain ⟨path, items, line, order⟩ := readGiven_eq_ok_iff.mp given
    exact ⟨wanted, items, color, line, order, either, path, chooseColor_eq_ok_iff.mp chosen, rfl⟩
  · rintro ⟨wanted, items, color, line, order, either, path, counts, rfl⟩
    exact ⟨wanted, color, readGiven_eq_ok_iff.mpr ⟨path, items, line, order⟩,
      chooseColor_eq_ok_iff.mpr counts, either, rfl⟩

/-- **Command lines are read as they are meant.** Take a script with a path or a text to scan, not
both, and whatever else is wanted; spell each in one of its spellings, in any order, a script behind
two dashes last. That is read, in any environment whose colour choice is known or not needed, and
gives what was wanted: the environment fills in no more than a missing filter and a missing
choice. -/
theorem read_of_commandLine {wanted : Given} {items : List Item} {arguments : List Text}
    (line : CommandLine items arguments) (order : items.Perm wanted.items)
    (either : wanted.script = none ∨ wanted.eval = none) (path : wanted.script ≠ some [])
    {environment : Environment} {color : ColorChoice}
    (counts : ColorCounts wanted.color environment.color color) :
    ∃ a, read arguments environment = .ok a ∧ a.script = wanted.script ∧ a.eval = wanted.eval ∧
      a.log = (wanted.log <|> environment.log) ∧ a.verbose = wanted.verbose ∧ a.color = color ∧
      a.logFilter = if wanted.verbose then ("lox=debug,lox_lexer=debug" : Text)
        else (wanted.log <|> environment.log).getD ("warn" : Text) := by
  have accepted := read_eq_ok_iff_commandLine.mpr
    ⟨wanted, items, color, line, order, either, path, counts, rfl⟩
  exact ⟨_, accepted, rfl, rfl, rfl, rfl, rfl, rfl⟩

/-- An empty filter is given, a flag shares its argument with a text to scan that starts with a
dash, and the choice of the environment is not looked at. -/
theorem read_grouped_letters :
    let wanted : Given := ⟨none, some "-", some [], true, some .never⟩
    let items : List Item := [.value .color "never", .verbose, .value .eval "-", .value .log []]
    let arguments : List Text := ["--color", "never", "-ve-", "--log", ""]
    CommandLine items arguments ∧ items.Perm wanted.items ∧
      ∃ a, read arguments ⟨some "info", some "purple", none⟩ = .ok a ∧ a.script = none ∧
        a.eval = some "-" ∧ a.log = some [] ∧ a.verbose = true ∧ a.color = .never ∧
        a.logFilter = "lox=debug,lox_lexer=debug" := by
  intro wanted items arguments
  have color : Spelling [.value .color "never"] ["--color", "never"] :=
    .separate .color (.inl (by decide))
  have eval : Spelling [.verbose, .value .eval "-"] ["-ve-"] :=
    .letterJoined .grouped ⟨by decide, by decide⟩
  have log : Spelling [.value .log []] ["--log", ""] := .separate .log (.inl (by decide))
  have line : CommandLine items arguments := .cons color (.cons eval (.cons log .nil))
  have order : items.Perm wanted.items := by decide
  exact ⟨line, order, read_of_commandLine line order (.inl rfl) (by decide) (.given .never _)⟩

end LoxTokens.Arguments
