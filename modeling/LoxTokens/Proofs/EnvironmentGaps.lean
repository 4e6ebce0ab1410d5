import LoxTokens.Proofs.ArgumentGrammar

/-!
What the environment decides.

Arguments are read before the environment is looked at, and it is looked at only for what they do not
give. So of two environments the answers differ in no more than the filter and the colour choice that
are missing, and a variable can turn an answer into a refusal in one way only: a colour choice is
needed, and the one of the environment is not known.

* `read_of_unread`, `read_of_gives` — what cannot be read is answered without the environment, and
  what can be read is filled in from it.
* `fill_eq_error_iff` — the refusals that are left to arguments that can be read.
* `Agree.of_sameColor`, `Agree.of_colorCounts` — what a change of one variable can change.
* `environment_fills_gaps` — all of that for the answers to a command line.
-/

namespace LoxTokens.Arguments

/-- What a command line gives: it spells these items, each of them once. -/
def Gives (arguments : List Text) (g : Given) : Prop :=
  g.script ≠ some [] ∧ ∃ items, CommandLine items arguments ∧ items.Perm g.items

/-- A text that is the name of no colour choice; the empty one is such a text. -/
def UnknownColor (t : Text) : Prop := ∀ choice : ColorChoice, t ≠ choice.spelling

example : UnknownColor [] := by rintro (_ | _ | _) ⟨⟩

/-- A colour choice is missing, and the one that the environment has for it is not known. -/
def LacksColor (g : Given) (environment : Environment) : Prop :=
  g.color = none ∧ ∃ t, environment.color = some t ∧ UnknownColor t

/-- Two answers are the same interruption, or arguments that differ by no more than a change. -/
inductive Agree (change : Arguments → Arguments → Prop) :
    Reading Arguments → Reading Arguments → Prop where
  | interrupted (i : Interruption) : Agree change (.error i) (.error i)
  | accepted {a a' : Arguments} : change a a' → Agree change (.ok a) (.ok a')

/-! ### The environment is looked at last -/

section

variable {arguments : List Text} {g : Given} {environment : Environment}

theorem read_of_unread {i : Interruption} (unread : readGiven arguments = .error i) :
    read arguments environment = .error i := by
  rw [read, unread]
  rfl

theorem read_of_gives (gives : Gives arguments g) :
    read arguments environment = g.fill environment := by
  rw [read, readGiven_eq_ok_iff.mpr gives]
  rfl

/-- Arguments that spell nothing are answered in one way, whatever the environment. -/
theorem exists_error_of_not_gives (nothing : ∀ g, ¬ Gives arguments g) :
    ∃ i, readGiven arguments = .error i := by
  cases given : readGiven arguments with
  | error i => exact ⟨i, rfl⟩
  | ok g => exact absurd (readGiven_eq_ok_iff.mp given) (nothing g)

end

/-! ### What is filled in -/

section

variable {g : Given} {environment environment' : Environment} {color color' : ColorChoice}

theorem readColor_of_unknown {t : Text} (unknown : UnknownColor t) :
    readColor t = refuse .invalidValue := by
  cases read : readColor t with
  | ok choice => exact absurd (readColor_eq_ok_iff.mp read) (unknown choice)
  | error i =>
      unfold readColor at read
      split at read
      · contradiction
      · exact read.symm

theorem fill_of_lacksColor (lacks : LacksColor g environment) :
    g.fill environment = refuse .invalidValue := by
  obtain ⟨missing, t, fallback, unknown⟩ := lacks
  have chosen : g.chooseColor environment = readColor t := by
    rw [Given.chooseColor, missing, fallback]
  rw [Given.fill, chosen, readColor_of_unknown unknown]
  rfl

theorem fill_of_colorCounts (counts : ColorCounts g.color environment.color color) :
    g.fill environment = g.complete environment color := by
  rw [Given.fill, chooseColor_eq_ok_iff.mpr counts]
  rfl

/-- Some colour choice counts, unless it is the one of the environment and not known. -/
theorem lacksColor_or_exists_colorCounts (g : Given) (environment : Environment) :
    LacksColor g environment ∨ ∃ color, ColorCounts g.color environment.color color := by
  cases given : g.color with
  | some choice => exact .inr ⟨choice, .given choice _⟩
  | none =>
      cases fallback : environment.color with
      | none => exact .inr ⟨.auto, .neither⟩
      | some t =>
          by_cases known : ∃ choice : ColorChoice, t = choice.spelling
          · obtain ⟨choice, rfl⟩ := known
            exact .inr ⟨choice, .environment choice⟩
          · exact .inl ⟨given, t, fallback, not_exists.mp known⟩

theorem LacksColor.not_colorCounts (lacks : LacksColor g environment) :
    ¬ ColorCounts g.color environment.color color := by
  obtain ⟨missing, t, fallback, unknown⟩ := lacks
  rw [missing, fallback]
  intro counts
  cases counts with
  | environment => exact unknown color rfl

/-- Arguments that can be read are refused for a colour choice that is needed and not known, and
else only for a script beside a text to scan. -/
theorem fill_eq_error_iff {i : Interruption} : g.fill environment = .error i ↔
    LacksColor g environment ∧ i = .refused .invalidValue ∨
      ¬ LacksColor g environment ∧ g.script ≠ none ∧ g.eval ≠ none ∧
        i = .refused .argumentConflict := by
  rcases lacksColor_or_exists_colorCounts g environment with lacks | ⟨color, counts⟩
  · rw [fill_of_lacksColor lacks]
    simp [refuse, lacks, eq_comm]
  · have known : ¬ LacksColor g environment := fun lacks => lacks.not_colorCounts counts
    rw [fill_of_colorCounts counts, Given.complete]
    cases script : g.script <;> cases eval : g.eval <;> simp [refuse, known, eq_comm]

/-- A change of all but the colour choice of the environment shows in the filter alone. -/
theorem Agree.of_sameColor (same : environment.color = environment'.color) :
    Agree (fun a a' => a' = { a with log := a'.log }) (g.fill environment)
      (g.fill environment') := by
  have chosen : g.chooseColor environment = g.chooseColor environment' := by
    rw [Given.chooseColor, same]
    rfl
  rw [Given.fill, Given.fill, chosen]
  cases g.chooseColor environment' with
  | error i => exact .interrupted i
  | ok color =>
      show Agree _ (g.complete environment color) (g.complete environment' color)
      unfold Given.complete
      split
      · exact .interrupted _
      · exact .accepted rfl

/-- A change of the colour choice that counts shows in the colour choice alone. -/
theorem Agree.of_colorCounts (same : environment.log = environment'.log)
    (counts : ColorCounts g.color environment.color color)
    (counts' : ColorCounts g.color environment'.color color') :
    Agree (fun a a' => a.color = color ∧ a' = { a with color := color' }) (g.fill environment)
      (g.fill environment') := by
  rw [fill_of_colorCounts counts, fill_of_colorCounts counts', Given.complete, Given.complete, same]
  split
  · exact .interrupted _
  · exact .accepted ⟨rfl, rfl⟩

/-- Where the filter or the colour choice is given, that of the environment makes no difference. -/
theorem fill_eq_fill (color : g.color ≠ none ∨ environment.color = environment'.color)
    (log : g.log ≠ none ∨ environment.log = environment'.log) :
    g.fill environment = g.fill environment' := by
  have chosen : g.chooseColor environment = g.chooseColor environment' := by
    unfold Given.chooseColor
    rcases color with given | same
    · obtain ⟨choice, given⟩ := Option.ne_none_iff_exists'.mp given
      rw [given]
    · rw [same]
  have filtered : (g.log <|> environment.log) = (g.log <|> environment'.log) := by
    rcases log with given | same
    · obtain ⟨filter, given⟩ := Option.ne_none_iff_exists'.mp given
      rw [given]
      rfl
    · rw [same]
  have completed : g.complete environment = g.complete environment' := by
    funext color
    rw [Given.complete, filtered]
    rfl
  rw [Given.fill, chosen, completed]
  rfl

end

/-! ### Two environments -/

/-- What the environment has to do with the answers to a command line. -/
structure FillsGaps (arguments : List Text) : Prop where
  /-- Arguments that cannot be read are answered in one way, be it a refusal or that they ask for
  help or for the version. The text of the help, which quotes both variables, is no part of the
  answer. -/
  unread : (∀ g, ¬ Gives arguments g) → ∃ i, ∀ environment, read arguments environment = .error i
  /-- A colour choice that is needed and not known is refused, also where a script and a text to scan
  exclude each other; and there is no other refusal of arguments that can be read. -/
  refused : ∀ g, Gives arguments g → ∀ environment i, read arguments environment = .error i ↔
    LacksColor g environment ∧ i = .refused .invalidValue ∨
      ¬ LacksColor g environment ∧ g.script ≠ none ∧ g.eval ≠ none ∧
        i = .refused .argumentConflict
  /-- Where a colour choice is given, the one of the environment has no effect. -/
  color_given : ∀ g, Gives arguments g → g.color ≠ none → ∀ environment environment',
    environment.log = environment'.log →
      read arguments environment = read arguments environment'
  /-- Where none is given, one that is known, or none at all, decides on the colour choice alone. -/
  color_missing : ∀ g, Gives arguments g → g.color = none → ∀ environment environment' color color',
    environment.log = environment'.log → ColorCounts none environment.color color →
      ColorCounts none environment'.color color' →
        Agree (fun a a' => a.color = color ∧ a' = { a with color := color' })
          (read arguments environment) (read arguments environment')
  /-- The filter of the environment never decides whether arguments are refused, and for what. It
  shows in the filter alone. -/
  log : ∀ environment environment', environment.color = environment'.color →
    Agree (fun a a' => a' = { a with log := a'.log })
      (read arguments environment) (read arguments environment')
  /-- Where a filter is given, the one of the environment has no effect. -/
  log_given : ∀ g, Gives arguments g → g.log ≠ none → ∀ environment environment',
    environment.color = environment'.color →
      read arguments environment = read arguments environment'
  /-- Where none is given, the one of the environment stands in for it. -/
  log_missing : ∀ g, Gives arguments g → g.log = none → ∀ environment a,
    read arguments environment = .ok a → a.log = environment.log ∧
      a.logFilter = if g.verbose then ("lox=debug,lox_lexer=debug" : Text)
        else environment.log.getD ("warn" : Text)
  /-- A script and a text to scan are never accepted together. -/
  exclusive : ∀ environment a, read arguments environment = .ok a →
    a.script = none ∨ a.eval = none

/-- **The environment only fills gaps.** Of any command line and any two environments: what cannot be
read is answered alike; a variable has no effect where its option is given, and else decides on one
field of the answer, but for a colour choice that is not known; and no environment lets a script and a
text to scan pass together. -/
theorem environment_fills_gaps (arguments : List Text) : FillsGaps arguments where
  unread := by
    intro nothing
    obtain ⟨i, unread⟩ := exists_error_of_not_gives nothing
    exact ⟨i, fun environment => read_of_unread unread⟩
  refused := by
    intro g gives environment i
    rw [read_of_gives gives, fill_eq_error_iff]
  color_given := by
    intro g gives given environment environment' same
    rw [read_of_gives gives, read_of_gives gives, fill_eq_fill (.inl given) (.inr same)]
  color_missing := by
    intro g gives missing environment environment' color color' same counts counts'
    rw [read_of_gives gives, read_of_gives gives]
    rw [← missing] at counts counts'
    exact .of_colorCounts same counts counts'
  log := by
    intro environment environment' same
    cases given : readGiven arguments with
    | error i =>
        rw [read_of_unread given, read_of_unread given]
        exact .interrupted i
    | ok g =>
        have gives := readGiven_eq_ok_iff.mp given
        rw [read_of_gives gives, read_of_gives gives]
        exact .of_sameColor same
  log_given := by
    intro g gives given environment environment' same
    rw [read_of_gives gives, read_of_gives gives, fill_eq_fill (.inr same) (.inl given)]
  log_missing := by
    intro g gives missing environment a accepted
    obtain ⟨g', color, given, -, -, rfl⟩ := read_eq_ok_iff.mp accepted
    obtain rfl : g' = g := by
      rw [readGiven_eq_ok_iff.mpr gives] at given
      exact (Except.ok.inj given).symm
    have filter : (g'.log <|> environment.log) = environment.log := by
      rw [missing]
      rfl
    exact ⟨filter, by rw [logFilter, filter]; rfl⟩
  exclusive := fun _ _ accepted => script_or_eval_eq_none accepted

/-- The colour choice of the environment is looked at before a script and a text to scan are. -/
example : read ["a.lox", "-e1"] ⟨none, some [], none⟩ = .error (.refused .invalidValue) := rfl

end LoxTokens.Arguments
