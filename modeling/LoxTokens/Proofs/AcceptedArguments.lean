import LoxTokens.Arguments.Reading

/-!
Arguments that are accepted, and more arguments behind them.

Arguments are read from left to right, and what was read before two dashes stand is no more than
some options and perhaps a script. So what is accepted by itself can be given more: a script behind
two dashes, or a text to scan. All else stays as it was given or as the environment has it.

* `read_eq_ok_iff` — what is accepted was given on the command line, but for what the environment
  fills in; a script and a text to scan are never given both.
* `Progress.meet_append` — reading goes on behind the first arguments from where they have led.
* `read_append_script`, `read_append_eval` — accepted arguments with a script behind them, and with
  a text to scan.
-/

namespace LoxTokens.Arguments

/-- Two steps succeed where the second succeeds with what the first gives. -/
theorem bind_eq_ok_iff {α β : Type} {x : Reading α} {f : α → Reading β} {b : β} :
    x >>= f = .ok b ↔ ∃ a, x = .ok a ∧ f a = .ok b := by
  cases x with
  | error interruption => simp [bind, Except.bind]
  | ok a => simp [bind, Except.bind]

/-! ### What is accepted -/

section

variable {g : Given} {environment : Environment} {color : ColorChoice} {a : Arguments}

theorem Given.complete_eq_ok_iff : g.complete environment color = .ok a ↔
    (g.script = none ∨ g.eval = none) ∧
      a = { g with log := g.log <|> environment.log, color := color } := by
  unfold complete
  cases script : g.script <;> cases eval : g.eval <;> simp [refuse, eq_comm]

/-- Arguments are accepted where they can be read and do not exclude each other; the environment
fills in a colour choice and a filter that were not given. -/
theorem read_eq_ok_iff {arguments : List Text} : read arguments environment = .ok a ↔
    ∃ g color, readGiven arguments = .ok g ∧ g.chooseColor environment = .ok color ∧
      (g.script = none ∨ g.eval = none) ∧
      a = { g with log := g.log <|> environment.log, color := color } := by
  rw [read, bind_eq_ok_iff]
  constructor
  · rintro ⟨g, given, filled⟩
    obtain ⟨color, chosen, completed⟩ := bind_eq_ok_iff.mp filled
    exact ⟨g, color, given, chosen, Given.complete_eq_ok_iff.mp completed⟩
  · rintro ⟨g, color, given, chosen, completed⟩
    exact ⟨g, given, bind_eq_ok_iff.mpr ⟨color, chosen, Given.complete_eq_ok_iff.mpr completed⟩⟩

/-- No accepted arguments hold both a script and a text to scan. -/
theorem script_or_eval_eq_none {arguments : List Text} (h : read arguments environment = .ok a) :
    a.script = none ∨ a.eval = none := by
  obtain ⟨g, color, -, -, either, rfl⟩ := read_eq_ok_iff.mp h
  exact either

end

/-! ### More arguments -/

/-- Two dashes, behind which no argument is an option. -/
def separator : Text := "--"

/-- The arguments that give a script, whatever its path looks like. -/
def forScript (path : Text) : List Text := [separator, path]

/-- The argument that gives a text to scan. -/
def forEval (source : Text) : List Text := ["--eval=" ++ source]

theorem Shape.eq_of_separator {argument : Text} (h : of argument = .separator) :
    argument = Arguments.separator := by
  unfold of at h
  split at h <;> first | contradiction | rfl

/-- Giving an option its value leaves the script alone. -/
theorem Given.script_of_set {g given : Given} {setting : Setting} {v : Text}
    (h : g.set setting v = .ok given) : given.script = g.script := by
  cases setting with
  | eval | log =>
      simp only [set] at h
      split at h
      · contradiction
      · cases h
        rfl
  | color =>
      simp only [set] at h
      split at h
      · contradiction
      · cases read : readColor v with
        | error interruption =>
            rw [read] at h
            contradiction
        | ok choice =>
            rw [read] at h
            cases h
            rfl

namespace Progress

/-- Behind arguments without two dashes, reading goes on from where they have led. -/
theorem meet_append {front : List Text} (noSeparator : separator ∉ front) (back : List Text)
    (p : Progress) : p.meet (front ++ back) = p.meet front >>= fun q => q.meet back := by
  induction front generalizing p with
  | nil => rfl
  | cons argument front ih =>
      rw [List.mem_cons, not_or] at noSeparator
      have later (x : Reading Progress) : (x >>= fun q => q.meet (front ++ back)) =
          (x >>= fun q => q.meet front) >>= fun q => q.meet back := by
        cases x with
        | error interruption => rfl
        | ok q => exact ih noSeparator.2 q
      rw [List.cons_append, meet, meet]
      cases shape : Shape.of argument with
      | separator => exact absurd (Shape.eq_of_separator shape).symm noSeparator.1
      | long name value => exact later _
      | cluster letters => exact later _
      | plain => exact later _

section

variable {p : Progress} {given : Given} (settled : p.settle = .ok given)

include settled

/-- What is held back counts for the script that is known before it is looked at. -/
theorem hasScript_of_settle : p.hasScript = given.script.isSome := by
  unfold settle at settled
  unfold hasScript
  split at settled
  · next held =>
      cases settled
      rw [held]
  · contradiction
  · next held => rw [held, Given.script_of_set settled]
  · next held =>
      rw [held]
      unfold Given.setScript at settled
      split at settled
      · contradiction
      · cases settled
        rfl

/-- Behind two dashes a script is accepted where there is none. -/
theorem meet_script (noScript : given.script = none) (path : Text) :
    p.meet (forScript path) = .ok ⟨given, .script path⟩ := by
  have room : p.hasScript = false := by rw [hasScript_of_settle settled, noScript]; rfl
  show p.positional path >>= pure = _
  rw [positional, if_neg (by rw [room]; exact Bool.false_ne_true), settled]
  rfl

/-- A value that is attached to its option counts at once. -/
theorem setting_of_settle (setting : Setting) (v : Text) :
    p.setting setting (some v) = (given.set setting v).map fun g => ⟨g, .nothing⟩ := by
  rw [Progress.setting, settled]
  rfl

theorem meet_eval (noEval : given.eval = none) (source : Text) :
    p.meet (forEval source) = .ok ⟨{ given with eval := some source }, .nothing⟩ := by
  have set : given.set .eval source = .ok { given with eval := some source } := by
    simp [Given.set, noEval]
  show p.setting .eval (some source) >>= pure = _
  rw [setting_of_settle settled, set]
  rfl

end

end Progress

section

variable {options : List Text} (noSeparator : separator ∉ options)

include noSeparator

/-- Options can be read with a script behind them. -/
theorem readGiven_append_script {given : Given} (h : readGiven options = .ok given)
    (noScript : given.script = none) {path : Text} (nonempty : path ≠ []) :
    readGiven (options ++ forScript path) = .ok { given with script := some path } := by
  obtain ⟨p, met, settled⟩ := bind_eq_ok_iff.mp h
  rw [readGiven, Progress.meet_append noSeparator, met]
  show (p.meet (forScript path) >>= fun q => q.settle) = _
  rw [Progress.meet_script settled noScript]
  show given.setScript path = _
  rw [Given.setScript, if_neg (by simpa using nonempty)]

/-- Options can be read with a text to scan behind them. -/
theorem readGiven_append_eval {given : Given} (h : readGiven options = .ok given)
    (noEval : given.eval = none) (source : Text) :
    readGiven (options ++ forEval source) = .ok { given with eval := some source } := by
  obtain ⟨p, met, settled⟩ := bind_eq_ok_iff.mp h
  rw [readGiven, Progress.meet_append noSeparator, met]
  show (p.meet (forEval source) >>= fun q => q.settle) = _
  rw [Progress.meet_eval settled noEval]
  rfl

variable {environment : Environment} {a : Arguments} (accepted : read options environment = .ok a)
  (noScript : a.script = none) (noEval : a.eval = none)

include accepted noScript noEval

theorem read_append_script {path : Text} (nonempty : path ≠ []) :
    read (options ++ forScript path) environment = .ok { a with script := some path } := by
  obtain ⟨g, color, given, chosen, -, rfl⟩ := read_eq_ok_iff.mp accepted
  have more := readGiven_append_script noSeparator given noScript nonempty
  exact read_eq_ok_iff.mpr ⟨_, color, more, chosen, Or.inr noEval, rfl⟩

theorem read_append_eval (source : Text) :
    read (options ++ forEval source) environment = .ok { a with eval := some source } := by
  obtain ⟨g, color, given, chosen, -, rfl⟩ := read_eq_ok_iff.mp accepted
  have more := readGiven_append_eval noSeparator given noEval source
  exact read_eq_ok_iff.mpr ⟨_, color, more, chosen, Or.inl noScript, rfl⟩

end

end LoxTokens.Arguments
