import LoxTokens.Proofs.ExitStatus
import LoxTokens.Proofs.Highlighting

/-!
What presentation does not change.

How a run looks is settled by its arguments and its environment: colours, the filter for log
messages and whether it is verbose. What it says is settled by the text that it scans. The listing
is never painted, not even where a string holds escape sequences of its own. A report is painted at
one word, and nothing that is in the text is put into it; so without the two codes of that style it
is the same, painted or not.

* `StyledRun.withoutCodes_paintAll` — painted runs without the codes of their styles are their text.
* `withoutCodes_reports` — so are reports, since they are runs (`Fault.report_eq`).
* `presentation_irrelevant` — two runs over one text differ by these codes at most.
-/

namespace LoxTokens

/-! ### Texts without some escape sequences -/

/-- How a sign is written. -/
def Sign.text : Sign → Text
  | .character c => [c]
  | .sequence code => Style.sequence code

/-- A text without the escape sequences that have one of the given codes. -/
def Text.withoutCodes (codes : List Text) (t : Text) : Text :=
  ((Sign.ofText t).filter fun s => !s.code?.any codes.contains).flatMap Sign.text

theorem Text.withoutCodes_of_noEscape {codes : List Text} {t : Text} (noEscape : '\x1b' ∉ t) :
    withoutCodes codes t = t := by
  have signs : Sign.ofText t = t.map .character := by
    simpa using Sign.ofText_append noEscape []
  rw [withoutCodes, signs, List.filter_eq_self.mpr (by simp), List.flatMap_map]
  exact List.flatMap_singleton' t

namespace StyledRun

variable {codes : List Text}

/-- The characters of a run are all that is left of its signs without the codes of its style. -/
theorem flatMap_signs {r : StyledRun}
    (listed : ∀ style, r.style = some style → style.opening ∈ codes ∧ style.closing ∈ codes) :
    (r.signs.filter fun s => !s.code?.any codes.contains).flatMap Sign.text = r.text := by
  have characters : ((r.text.map Sign.character).filter fun s =>
      !s.code?.any codes.contains).flatMap Sign.text = r.text := by
    rw [List.filter_eq_self.mpr (by simp), List.flatMap_map]
    exact List.flatMap_singleton' r.text
  unfold signs
  split
  · exact characters
  · next style same =>
      obtain ⟨opening, closing⟩ := listed style same
      rw [List.cons_append, List.filter_cons_of_neg (by simp [opening]), List.filter_append,
        List.filter_cons_of_neg (by simp [closing]), List.filter_nil, List.append_nil, characters]

/-- Runs that are painted, or are not, are their text without the codes of their styles. -/
theorem withoutCodes_paintAll {runs : List StyledRun} (readable : ∀ r ∈ runs, r.Readable)
    (listed : ∀ r ∈ runs, ∀ style, r.style = some style →
      style.opening ∈ codes ∧ style.closing ∈ codes) (colored : Bool) :
    Text.withoutCodes codes (paintAll colored runs) = runs.flatMap (·.text) := by
  cases colored with
  | false =>
      rw [paintAll_plain]
      apply Text.withoutCodes_of_noEscape
      intro escape
      obtain ⟨r, member, inside⟩ := List.mem_flatMap.mp escape
      exact (readable r member).noEscape inside
  | true =>
      rw [Text.withoutCodes, ofText_paintAll readable, List.filter_flatMap, List.flatMap_assoc]
      exact List.flatMap_congr fun r member => flatMap_signs (listed r member)

end StyledRun

/-! ### Reports -/

namespace Fault

/-- A report as runs, of which one is painted. -/
def runs (f : Fault) : List StyledRun :=
  [.bare ("[line " ++ Nat.toDigits 10 f.line ++ "] "), ⟨some .boldRed, "Error"⟩,
    .bare (": " ++ f.message ++ "\n")]

theorem report_eq (colored : Bool) (f : Fault) :
    f.report colored = StyledRun.paintAll colored f.runs := by
  have bare (t : Text) : (StyledRun.bare t).paint colored = t := rfl
  have word : StyledRun.paint colored ⟨some .boldRed, "Error"⟩ =
      Style.boldRed.paint colored "Error" := rfl
  unfold report
  rw [StyledRun.paintAll, runs, List.flatMap_cons, List.flatMap_cons, List.flatMap_cons,
    List.flatMap_nil, bare, word, bare]
  simp only [List.append_assoc, List.append_nil]
  rfl

/-- A report names its line and its kind, and nothing of the text. -/
theorem noEscape_runs (f : Fault) : ∀ r ∈ f.runs, '\x1b' ∉ r.text := by
  have number : '\x1b' ∉ Nat.toDigits 10 f.line := by
    intro escape
    have digit := Nat.isDigit_of_mem_toDigits (by decide) (by decide) escape
    contradiction
  have wording : '\x1b' ∉ f.message := by
    cases f with
    | unexpectedCharacter line c =>
        show '\x1b' ∉ ("Unexpected character." : Text)
        decide
    | unterminatedString line =>
        show '\x1b' ∉ ("Unterminated string." : Text)
        decide
  simp [runs, StyledRun.bare, number, wording]

theorem style_runs {f : Fault} {r : StyledRun} (member : r ∈ f.runs) {style : Style}
    (styled : r.style = some style) : style = .boldRed := by
  simp only [runs, StyledRun.bare, List.mem_cons, List.not_mem_nil, or_false] at member
  rcases member with rfl | rfl | rfl
  · contradiction
  · exact (Option.some.inj styled).symm
  · contradiction

theorem readable_runs (f : Fault) : ∀ r ∈ f.runs, r.Readable := by
  intro r member
  refine ⟨f.noEscape_runs r member, fun style styled => ?_⟩
  rw [style_runs member styled]
  exact ⟨rfl, rfl, .all rfl⟩

end Fault

theorem reports_eq (colored : Bool) (source : Text) :
    reports colored source =
      StyledRun.paintAll colored ((scan source).faults.flatMap Fault.runs) := by
  have same : Fault.report colored = fun f => StyledRun.paintAll colored f.runs :=
    funext (Fault.report_eq colored)
  rw [reports, same, StyledRun.paintAll, List.flatMap_assoc]
  rfl

/-- Without the codes of their style, reports are the same with colours and without. -/
theorem withoutCodes_reports (colored : Bool) (source : Text) :
    Text.withoutCodes ["31;1", "0"] (reports colored source) = reports false source := by
  rw [reports_eq, reports_eq, StyledRun.paintAll_plain]
  apply StyledRun.withoutCodes_paintAll
  · intro r member
    obtain ⟨f, -, inside⟩ := List.mem_flatMap.mp member
    exact f.readable_runs r inside
  · intro r member style styled
    obtain ⟨f, -, inside⟩ := List.mem_flatMap.mp member
    rw [Fault.style_runs inside styled]
    exact ⟨List.mem_cons_self, List.mem_cons_of_mem _ List.mem_cons_self⟩

/-! ### Two runs over one text -/

/-- Two runs differ by no more than the codes that paint a word of a report. -/
structure SameButColors (o o' : Outcome) : Prop where
  out : o.transcript.out = o'.transcript.out
  status : o.status = o'.status
  err : Text.withoutCodes ["31;1", "0"] o.transcript.err =
    Text.withoutCodes ["31;1", "0"] o'.transcript.err

/-- **Presentation changes nothing but colours.** Two runs over one text, whatever else their
arguments and environments say and wherever they have the text from, list the same, report the same
but for the codes of a colour, and have the same status. -/
theorem presentation_irrelevant {source : Text} {i j : Invocation} (scans : i.Scans source)
    (scans' : j.Scans source) : SameButColors (Program.run i) (Program.run j) := by
  obtain ⟨colored, run⟩ := scans.exists_run
  obtain ⟨colored', run'⟩ := scans'.exists_run
  rw [run, run']
  refine ⟨rfl, rfl, ?_⟩
  show Text.withoutCodes _ (reports colored source) = Text.withoutCodes _ (reports colored' source)
  rw [withoutCodes_reports, withoutCodes_reports]

/-- A string that holds an escape sequence, and a character that is refused: given by itself to be
painted, and as a script to a run that is verbose. -/
theorem presentation_of_sequences :
    Invocation.Scans { arguments := ["--color", "always", "-e", "\"\x1b[0m\" @"] } "\"\x1b[0m\" @" ∧
      Invocation.Scans
        { arguments := ["-v", "s.lox"]
          environment := { color := some "never", log := some "info" }
          files := ({ entries := [("s.lox", Utf8.encode "\"\x1b[0m\" @")] } : Files) }
        "\"\x1b[0m\" @" ∧
      SameButColors
        (Program.run { arguments := ["--color", "always", "-e", "\"\x1b[0m\" @"] })
        (Program.run
          { arguments := ["-v", "s.lox"]
            environment := { color := some "never", log := some "info" }
            files := ({ entries := [("s.lox", Utf8.encode "\"\x1b[0m\" @")] } : Files) }) := by
  have given : Invocation.Scans
      { arguments := ["--color", "always", "-e", "\"\x1b[0m\" @"] } "\"\x1b[0m\" @" :=
    ⟨_, rfl, Or.inl rfl⟩
  have named : Invocation.Scans
      { arguments := ["-v", "s.lox"]
        environment := { color := some "never", log := some "info" }
        files := ({ entries := [("s.lox", Utf8.encode "\"\x1b[0m\" @")] } : Files) }
      "\"\x1b[0m\" @" := by
    exact ⟨_, rfl, Or.inr ⟨_, rfl, rfl⟩⟩
  exact ⟨given, named, presentation_irrelevant given named⟩

end LoxTokens
