import LoxTokens.Proofs.AcceptedArguments
import Mathlib.Data.List.Perm.Basic

/-!
The spellings of a command line.

A command line gives a few items, each of them once, and in any order (`Given.items`). An item has
several spellings, and two of them share one where the letter of a flag stands before another one.
`CommandLine` says which arguments spell which items.

* `AddsAll.perm` — it makes no difference in which order items are given.
* `Spelling.meet` — reading the spelling of items adds them to what was given before.
* `CommandLine.finish_eq` — so does reading a whole command line.
-/

namespace LoxTokens.Arguments

/-! ### What is given, item by item -/

/-- One thing that is given on a command line. -/
inductive Item where
  | script (path : Text)
  | value (setting : Setting) (value : Text)
  | verbose
  deriving DecidableEq

/-- The items that a command line has to give. -/
def Given.items (g : Given) : List Item :=
  (g.script.map Item.script).toList ++ (g.eval.map (Item.value .eval)).toList ++
    (g.log.map (Item.value .log)).toList ++ (if g.verbose then [.verbose] else []) ++
    (g.color.map fun choice => Item.value .color choice.spelling).toList

/-- Giving one item for which there is room. -/
inductive Adds : Given → Item → Given → Prop where
  | script {g : Given} {path : Text} :
      g.script = none → path ≠ [] → Adds g (.script path) { g with script := some path }
  | eval {g : Given} {v : Text} :
      g.eval = none → Adds g (.value .eval v) { g with eval := some v }
  | log {g : Given} {v : Text} : g.log = none → Adds g (.value .log v) { g with log := some v }
  | verbose {g : Given} : g.verbose = false → Adds g .verbose { g with verbose := true }
  | color {g : Given} {choice : ColorChoice} :
      g.color = none → Adds g (.value .color choice.spelling) { g with color := some choice }

/-- Giving items one after the other. -/
inductive AddsAll : Given → List Item → Given → Prop where
  | nil {g : Given} : AddsAll g [] g
  | cons {g given g' : Given} {i : Item} {items : List Item} :
      Adds g i given → AddsAll given items g' → AddsAll g (i :: items) g'

section

variable {g given g' : Given}

theorem AddsAll.single {i : Item} (h : Adds g i g') : AddsAll g [i] g' := .cons h .nil

theorem AddsAll.of_single {i : Item} (h : AddsAll g [i] g') : Adds g i g' := by
  obtain ⟨⟩ | ⟨one, ⟨⟩⟩ := h
  exact one

theorem addsAll_append_iff {items items' : List Item} :
    AddsAll g (items ++ items') g' ↔ ∃ given, AddsAll g items given ∧ AddsAll given items' g' := by
  induction items generalizing g with
  | nil =>
      constructor
      · intro all
        exact ⟨g, .nil, all⟩
      · rintro ⟨_, ⟨⟩, all⟩
        exact all
  | cons i items ih =>
      constructor
      · rintro ⟨⟩
        next one all =>
          obtain ⟨given, front, back⟩ := ih.mp all
          exact ⟨given, .cons one front, back⟩
      · rintro ⟨given, ⟨⟩, back⟩
        next one front => exact .cons one (ih.mpr ⟨given, front, back⟩)

/-- Two items for which there is room can be given the other way round. -/
theorem Adds.swap {i j : Item} (h : Adds g i given) (h' : Adds given j g') :
    ∃ given', Adds g j given' ∧ Adds given' i g' := by
  cases h <;> cases h' <;>
    first
      | contradiction
      | exact ⟨_, by constructor <;> assumption, by constructor <;> assumption⟩

/-- The order of items does not matter. -/
theorem AddsAll.perm {items items' : List Item} (order : items.Perm items')
    (all : AddsAll g items g') : AddsAll g items' g' := by
  induction order generalizing g with
  | nil => exact all
  | cons i _ ih =>
      cases all with
      | cons one rest => exact .cons one (ih rest)
  | swap i j items =>
      obtain ⟨⟩ | ⟨first, ⟨⟩ | ⟨second, rest⟩⟩ := all
      obtain ⟨given', second', first'⟩ := first.swap second
      exact .cons second' (.cons first' rest)
  | trans _ _ ih ih' => exact ih' (ih all)

/-- Its own items are what there is to give. -/
theorem addsAll_items (g : Given) (path : g.script ≠ some []) : AddsAll {} g.items g := by
  obtain ⟨script, eval, log, verbose, color⟩ := g
  have scripts : AddsAll {} (script.map Item.script).toList ⟨script, none, none, false, none⟩ := by
    cases script with
    | none => exact .nil
    | some p => exact .single (.script rfl (by simpa using path))
  have evals : AddsAll ⟨script, none, none, false, none⟩ (eval.map (Item.value .eval)).toList
      ⟨script, eval, none, false, none⟩ := by
    cases eval with
    | none => exact .nil
    | some v => exact .single (.eval rfl)
  have logs : AddsAll ⟨script, eval, none, false, none⟩ (log.map (Item.value .log)).toList
      ⟨script, eval, log, false, none⟩ := by
    cases log with
    | none => exact .nil
    | some v => exact .single (.log rfl)
  have flags : AddsAll ⟨script, eval, log, false, none⟩ (if verbose then [.verbose] else [])
      ⟨script, eval, log, verbose, none⟩ := by
    cases verbose with
    | false => exact .nil
    | true => exact .single (.verbose rfl)
  have colors : AddsAll ⟨script, eval, log, verbose, none⟩
      (color.map fun choice => Item.value .color choice.spelling).toList
      ⟨script, eval, log, verbose, color⟩ := by
    cases color with
    | none => exact .nil
    | some choice => exact .single (.color rfl)
  simp only [Given.items, addsAll_append_iff]
  exact ⟨_, ⟨_, ⟨_, ⟨_, scripts, evals⟩, logs⟩, flags⟩, colors⟩

end

/-! ### The spellings of an item -/

/-- The name of an option, with its two dashes. -/
def Setting.longName : Setting → Text
  | .eval => "--eval"
  | .log => "--log"
  | .color => "--color"

/-- A text that is no option where it stands by itself. -/
def StandsAlone (v : Text) : Prop := v.head? ≠ some '-' ∨ v = ['-']

/-- A text that can follow the letter of its option directly. -/
def Joins (v : Text) : Prop := v ≠ [] ∧ v.head? ≠ some '='

/-- The letter of a text to scan, with the letter of the flag before it or without. -/
inductive EvalLetters : List Item → Text → Prop where
  | alone : EvalLetters [] "-e"
  | grouped : EvalLetters [.verbose] "-ve"

/-- The arguments that spell an item, or two of them that share one. -/
inductive Spelling : List Item → List Text → Prop where
  | assigned (s : Setting) (v : Text) : Spelling [.value s v] [s.longName ++ '=' :: v]
  | separate (s : Setting) {v : Text} :
      StandsAlone v → Spelling [.value s v] [s.longName, v]
  | letterAssigned {flags : List Item} {letters : Text} (v : Text) :
      EvalLetters flags letters → Spelling (flags ++ [.value .eval v]) [letters ++ '=' :: v]
  | letterJoined {flags : List Item} {letters v : Text} :
      EvalLetters flags letters → Joins v → Spelling (flags ++ [.value .eval v]) [letters ++ v]
  | letterSeparate {flags : List Item} {letters v : Text} :
      EvalLetters flags letters → StandsAlone v →
        Spelling (flags ++ [.value .eval v]) [letters, v]
  | letter : Spelling [.verbose] ["-v"]
  | flag : Spelling [.verbose] ["--verbose"]
  | script {path : Text} : StandsAlone path → Spelling [.script path] [path]

/-- A command line: spellings of items, and perhaps two dashes and a script behind them. -/
inductive CommandLine : List Item → List Text → Prop where
  | nil : CommandLine [] []
  | dashes : CommandLine [] [separator]
  | behindDashes (path : Text) : CommandLine [.script path] (forScript path)
  | cons {items items' : List Item} {arguments rest : List Text} :
      Spelling items arguments → CommandLine items' rest →
        CommandLine (items ++ items') (arguments ++ rest)

theorem StandsAlone.shape {v : Text} (alone : StandsAlone v) : Shape.of v = .plain := by
  rcases alone with noDash | rfl
  · unfold Shape.of
    split <;> first | rfl | exact absurd rfl noDash
  · rfl

theorem Joins.attached? {v : Text} (joins : Joins v) : Progress.attached? v = some v := by
  obtain ⟨nonempty, noEquals⟩ := joins
  unfold Progress.attached?
  split
  · contradiction
  · exact absurd rfl noEquals
  · rfl

/-! ### Reading spellings -/

section

variable {g given : Given} {setting : Setting} {v : Text}

theorem Adds.set (h : Adds g (.value setting v) given) : g.set setting v = .ok given := by
  cases h with
  | eval none | log none => simp [Given.set, none]
  | color none => simp [Given.set, none, readColor, Except.map]

theorem Adds.setScript {path : Text} (h : Adds g (.script path) given) :
    g.script = none ∧ g.setScript path = .ok given := by
  cases h with
  | script none nonempty => exact ⟨none, by simp [Given.setScript, nonempty]⟩

end

namespace Progress

/-- Meets arguments, and looks at what is held back at last. -/
def finish (p : Progress) (arguments : List Text) : Reading Given :=
  p.meet arguments >>= fun q => q.settle

variable {p : Progress} {g given : Given} (settled : p.settle = .ok g)

include settled

theorem setting_none_of_settle (s : Setting) :
    p.setting s none = .ok ⟨g, .waiting s⟩ := by
  rw [setting, settled]
  rfl

theorem setting_some_of_adds {s : Setting} {v : Text} (added : Adds g (.value s v) given) :
    p.setting s (some v) = .ok ⟨given, .nothing⟩ := by
  rw [setting_of_settle settled, added.set]
  rfl

theorem flag_of_adds (long : Bool) (added : Adds g .verbose given) :
    p.flag long .verbose = .ok ⟨given, .nothing⟩ := by
  cases added with
  | verbose silent =>
      rw [flag, settled]
      show (if g.verbose then _ else _) = _
      rw [if_neg (by simp [silent])]

/-- Where nothing waits for a value, an argument that is no option is the script. -/
theorem plain_of_adds {path : Text} (added : Adds g (.script path) given) :
    p.plain path = .ok ⟨g, .script path⟩ := by
  have room : p.hasScript = false := by
    rw [hasScript_of_settle settled, added.setScript.1]
    rfl
  have read : p.positional path = .ok ⟨g, .script path⟩ := by
    rw [positional, if_neg (by simp [room]), settled]
    rfl
  unfold plain
  split
  · next held => simp [settle, held, refuse] at settled
  · exact read

end Progress

/-- An option that waits for its value takes an argument that is no option. -/
theorem meet_value {g : Given} {s : Setting} {v : Text} (alone : StandsAlone v)
    (rest : List Text) :
    Progress.meet ⟨g, .waiting s⟩ (v :: rest) = Progress.meet ⟨g, .value s v⟩ rest := by
  rw [Progress.meet, alone.shape]
  rfl

section

variable {p : Progress} {g g' : Given} (settled : p.settle = .ok g)

include settled

theorem meet_longName (s : Setting) (rest : List Text) :
    p.meet (s.longName :: rest) = Progress.meet ⟨g, .waiting s⟩ rest := by
  have met : p.meet (s.longName :: rest) = p.setting s none >>= fun q => q.meet rest := by
    cases s <;> rfl
  rw [met, Progress.setting_none_of_settle settled]
  rfl

/-- Behind its letter, and that of a flag before it, stands the text to scan. -/
theorem exists_meet_letters {flags : List Item} {letters : Text} (known : EvalLetters flags letters)
    (added : AddsAll g flags g') : ∃ q : Progress, q.settle = .ok g' ∧ ∀ more rest,
      p.meet ((letters ++ more) :: rest) =
        q.setting .eval (Progress.attached? more) >>= fun r => r.meet rest := by
  cases known with
  | alone =>
      cases added
      exact ⟨p, settled, fun more rest => rfl⟩
  | grouped =>
      have one := added.of_single
      refine ⟨⟨g', .nothing⟩, rfl, fun more rest => ?_⟩
      have met : p.meet (("-ve" ++ more) :: rest) = (p.flag false .verbose >>= fun q =>
          q.setting .eval (Progress.attached? more)) >>= fun r => r.meet rest := rfl
      rw [met, Progress.flag_of_adds settled false one]
      rfl

theorem exists_meet_attached {flags : List Item} {letters more v : Text}
    (known : EvalLetters flags letters) (attached : Progress.attached? more = some v)
    (added : AddsAll g (flags ++ [.value .eval v]) g') : ∃ q : Progress, q.settle = .ok g' ∧
      ∀ rest, p.meet ([letters ++ more] ++ rest) = q.meet rest := by
  obtain ⟨given, flagged, last⟩ := addsAll_append_iff.mp added
  have one := last.of_single
  obtain ⟨q, settled', met⟩ := exists_meet_letters settled known flagged
  refine ⟨⟨g', .nothing⟩, rfl, fun rest => ?_⟩
  rw [List.singleton_append, met, attached, Progress.setting_some_of_adds settled' one]
  rfl

/-- **Reading a spelling adds its items**, whatever is read behind it. -/
theorem Spelling.meet {items : List Item} {arguments : List Text} (h : Spelling items arguments)
    (added : AddsAll g items g') :
    ∃ q : Progress, q.settle = .ok g' ∧ ∀ rest, p.meet (arguments ++ rest) = q.meet rest := by
  cases h with
  | assigned s v =>
      have one := added.of_single
      refine ⟨⟨g', .nothing⟩, rfl, fun rest => ?_⟩
      have met : p.meet ([s.longName ++ '=' :: v] ++ rest) =
          p.setting s (some v) >>= fun q => q.meet rest := by
        cases s <;> rfl
      rw [met, Progress.setting_some_of_adds settled one]
      rfl
  | @separate s v alone =>
      have one := added.of_single
      refine ⟨⟨g, .value s v⟩, one.set, fun rest => ?_⟩
      exact (meet_longName settled s (v :: rest)).trans (meet_value alone rest)
  | letterAssigned v known =>
      exact exists_meet_attached settled known rfl added
  | letterJoined known joins =>
      exact exists_meet_attached settled known joins.attached? added
  | @letterSeparate flags letters v known alone =>
      obtain ⟨given, flagged, last⟩ := addsAll_append_iff.mp added
      have one := last.of_single
      obtain ⟨q, settled', met⟩ := exists_meet_letters settled known flagged
      refine ⟨⟨given, .value .eval v⟩, one.set, fun rest => ?_⟩
      have waits := met [] (v :: rest)
      rw [List.append_nil, Progress.attached?, Progress.setting_none_of_settle settled'] at waits
      exact waits.trans (meet_value alone rest)
  | letter =>
      have one := added.of_single
      refine ⟨⟨g', .nothing⟩, rfl, fun rest => ?_⟩
      have met : p.meet ("-v" :: rest) = (p.flag false .verbose >>= fun q => pure q) >>=
          fun q => q.meet rest := rfl
      rw [List.singleton_append, met, Progress.flag_of_adds settled false one]
      rfl
  | flag =>
      have one := added.of_single
      refine ⟨⟨g', .nothing⟩, rfl, fun rest => ?_⟩
      have met : p.meet ("--verbose" :: rest) = p.flag true .verbose >>= fun q => q.meet rest := rfl
      rw [List.singleton_append, met, Progress.flag_of_adds settled true one]
      rfl
  | @script path alone =>
      have one := added.of_single
      refine ⟨⟨g, .script path⟩, one.setScript.2, fun rest => ?_⟩
      rw [List.singleton_append, Progress.meet, alone.shape, Progress.plain_of_adds settled one]
      rfl

/-- Reading a command line adds its items. -/
theorem CommandLine.finish_eq {items : List Item} {arguments : List Text}
    (line : CommandLine items arguments) (added : AddsAll g items g') :
    p.finish arguments = .ok g' := by
  induction line generalizing p g with
  | nil | dashes =>
      cases added
      exact settled
  | behindDashes path =>
      have one := added.of_single
      rw [Progress.finish, Progress.meet_script settled one.setScript.1]
      exact one.setScript.2
  | cons spelled _ ih =>
      obtain ⟨given, front, back⟩ := addsAll_append_iff.mp added
      obtain ⟨q, settled', met⟩ := spelled.meet settled front
      rw [Progress.finish, met]
      exact ih settled' back

end

end LoxTokens.Arguments
