import LoxTokens.Proofs.CommandLines
import LoxTokens.Proofs.ExitStatus
import LoxTokens.Proofs.SessionParts

/-!
The ways to scan a text.

A text is given by itself, as that of a script, or as that of a file that a session is asked to
load. The path of a script is an argument, while that of a file to load is what an entry has behind
its first word; both are taken as they stand, with all blanks, brackets and quotes inside. From
there on the three ways are one, and where there is no text to scan the two that name a file say so
alike. A run with a script logs it as well, as an error that ends it; a session, which goes on, does
not.

* `Loadable.parse?_loadEntry` — an entry that loads a file names its path.
* `Input.lines_append_of_cut`, `HoldsEntries.endsAfter` — entries are put together where lines end.
* `Invocation.Holds.run_script`, `Invocation.Holds.run_eval` — what a run is that is given a script
  or a text behind the options of a session.
* `Loadable.transcript_eq` — what a session prints where it loads a file between other entries.
* `Program.fatal_unreadable` — a script and a file to load are reported in the same words.
* `ways_agree` — the three ways print the same.
* `script_is_logged` — what is logged is not the same.
-/

namespace LoxTokens

/-! ### Entries that load a file -/

/-- A path that an entry can name: it takes part of a line, and no blanks surround it. -/
structure Loadable (path : Text) : Prop where
  nonempty : path ≠ []
  inLine : '\n' ∉ path
  first : ∀ c ∈ path.head?, Text.isBlank c = false
  last : ∀ c ∈ path.getLast?, Text.isBlank c = false

/-- The entry that loads a file, without a line end. -/
def loadEntry (path : Text) : Text := ".load " ++ path

theorem loadEntry_eq (path : Text) : loadEntry path = ".load " ++ path := rfl

namespace Text

/-- A text with a line end at no other place than its end is a line. -/
theorem lines_eq_singleton {t : Text} (nonempty : t ≠ []) (inLine : '\n' ∉ t.dropLast) :
    lines t = [t] := by
  induction t with
  | nil => contradiction
  | cons c t ih =>
      cases t with
      | nil => simp [lines]
      | cons d t =>
          rw [List.dropLast_cons_cons, List.mem_cons, not_or] at inLine
          rw [lines, if_neg (Ne.symm inLine.1), ih (List.cons_ne_nil d t) inLine.2]

end Text

/-- What a dot and a word ask for, if there is such a command: the rest is its argument. -/
theorem Command.parse?_of_trim {t rest : Text} {c : Char} {command : Command} (word : Text)
    (trimmed : Text.trim t = '.' :: (word ++ c :: rest))
    (visible : word.all (!Text.isBlank ·) = true) (blank : Text.isBlank c = true)
    (known : ofName? (Text.lowerCase word) = some command) :
    parse? t = some (command, argument? (c :: rest)) := by
  have visible := List.all_eq_true.mp visible
  have stop : ¬ (!Text.isBlank c) = true := by simp [blank]
  have named : (word ++ c :: rest).takeWhile (!Text.isBlank ·) = word := by
    rw [List.takeWhile_append_of_pos visible, List.takeWhile_cons, if_neg stop, List.append_nil]
  have left : (word ++ c :: rest).dropWhile (!Text.isBlank ·) = c :: rest := by
    rw [List.dropWhile_append_of_pos visible, List.dropWhile_cons, if_neg stop]
  have parsed : parse? t = (ofName? (Text.lowerCase
      ((word ++ c :: rest).takeWhile (!Text.isBlank ·)))).map
        (·, argument? ((word ++ c :: rest).dropWhile (!Text.isBlank ·))) := by
    rw [parse?, trimmed]
    rfl
  rw [parsed, named, left, known]
  rfl

namespace Loadable

variable {path : Text} (h : Loadable path)

include h

theorem trim_eq : Text.trim path = path := Text.trim_eq_self h.first h.last

theorem trim_loadEntry : Text.trim (loadEntry path) = loadEntry path := by
  apply Text.trim_eq_self
  · rintro c ⟨⟩
    decide
  · rw [loadEntry_eq, List.getLast?_append_of_ne_nil _ h.nonempty]
    exact h.last

/-- What an entry has behind its first word is the path, however it looks. -/
theorem parse?_loadEntry : Command.parse? (loadEntry path) = some (.load, some path) := by
  have argument : Command.argument? (' ' :: path) = some path := by
    have trimmed : Text.trim (' ' :: path) = path := h.trim_eq
    rw [Command.argument?, trimmed, if_neg (by simpa using h.nonempty)]
  rw [← argument]
  exact Command.parse?_of_trim "load" h.trim_loadEntry rfl rfl (by decide +kernel)

variable {lineEnd : Text} (listed : lineEnd ∈ [] :: Entry.lineEnds)

include listed

theorem parse?_append : Command.parse? (loadEntry path ++ lineEnd) = some (.load, some path) := by
  rw [Command.parse?_append_blanks, h.parse?_loadEntry]
  rcases List.mem_cons.mp listed with rfl | listed
  · simp
  · exact Entry.isBlank_of_mem_lineEnds listed

theorem lines_append : Text.lines (loadEntry path ++ lineEnd) = [loadEntry path ++ lineEnd] := by
  have inLine : '\n' ∉ loadEntry path := by simp [loadEntry_eq, h.inLine]
  apply Text.lines_eq_singleton
  · simp [loadEntry_eq]
  · simp only [Entry.lineEnds, List.mem_cons, List.not_mem_nil, or_false] at listed
    rcases listed with rfl | rfl | rfl
    · rw [List.append_nil]
      exact fun inside => inLine (List.mem_of_mem_dropLast inside)
    · rwa [List.dropLast_concat]
    · simp [List.dropLast_append_of_ne_nil, inLine]

theorem makeEntries : MakeEntries (Text.lines (loadEntry path ++ lineEnd))
    [loadEntry path ++ lineEnd] := by
  have parsed := h.parse?_append listed
  have stays : ¬ Entry.AsksToExit (loadEntry path ++ lineEnd) := by
    rintro ⟨argument, exits⟩
    rw [Entry.parse?_withoutLineEnd, parsed] at exits
    cases exits
  have one := MakeEntries.cons (Entry.made_of_parse? parsed) (by simpa using stays) .nil
  rw [h.lines_append listed]
  simpa using one

end Loadable

/-! ### Entries of an input -/

/-- Bytes that hold whole entries, of which none asks to exit. -/
def HoldsEntries (bytes : List UInt8) (entries : List Text) : Prop :=
  ∃ lines, Input.lines bytes = lines.map some ∧ MakeEntries lines entries

namespace Input

theorem endsLine_encode {lineEnd : Text} (listed : lineEnd ∈ Entry.lineEnds) (t : Text) :
    EndsLine (Utf8.encode (t ++ lineEnd)) := by
  have ended : EndsLine (Utf8.encode lineEnd) ∧ Utf8.encode lineEnd ≠ [] := by
    simp only [Entry.lineEnds, List.mem_cons, List.not_mem_nil, or_false] at listed
    rcases listed with rfl | rfl <;> decide
  rw [EndsLine, Utf8.encode_append, List.getLast?_append_of_ne_nil _ ended.2]
  exact ended.1

/-- No line has bytes from both sides of the place between two parts of an input. -/
def Cut (p q : List UInt8) : Prop := p = [] ∨ EndsLine p ∨ q = []

theorem lines_append_of_cut {p q : List UInt8} (cut : Cut p q) :
    lines (p ++ q) = lines p ++ lines q := by
  rcases cut with rfl | ended | rfl
  · rfl
  · exact lines_append ended q
  · rw [List.append_nil]
    exact (List.append_nil _).symm

end Input

/-- Whole entries in front of an input are answered first. -/
theorem HoldsEntries.endsAfter {p q : List UInt8} {entries entries' : List Text} {ending : Ending}
    (h : HoldsEntries p entries) (cut : Input.Cut p q)
    (ends : EndsAfter (Input.lines q) entries' ending) :
    EndsAfter (Input.lines (p ++ q)) (entries ++ entries') ending := by
  obtain ⟨lines, same, make⟩ := h
  rw [Input.lines_append_of_cut cut, same]
  exact .append make ends

/-! ### Runs with the options of a session -/

namespace Invocation

/-- An invocation with more arguments. -/
def more (i : Invocation) (arguments : List Text) : Invocation :=
  { i with arguments := i.arguments ++ arguments }

variable {i : Invocation} {settings : SessionSettings}

/-- The arguments that ask for a session settle what it looks like, and give nothing to scan. -/
theorem Holds.exists_accepts (h : i.Holds settings) : ∃ a, i.Accepts a ∧ a.script = none ∧
    a.eval = none ∧ a.color.colored i.terminal = settings.colored := by
  rw [Holds, Program.task] at h
  split at h
  all_goals try contradiction
  next a accepted =>
    split at h
    all_goals try contradiction
    next noEval noScript =>
      cases h
      exact ⟨a, accepted, noScript, noEval, rfl⟩

variable (h : i.Holds settings) (noSeparator : Arguments.separator ∉ i.arguments)

include h noSeparator

theorem Holds.run_script {path : Text} (nonempty : path ≠ []) :
    Program.run (i.more (Arguments.forScript path)) =
      Program.scannedFile i.log settings.colored path (i.files.read path) := by
  obtain ⟨a, accepted, noScript, noEval, colored⟩ := h.exists_accepts
  have named : (i.more (Arguments.forScript path)).Accepts { a with script := some path } :=
    Arguments.read_append_script noSeparator accepted noScript noEval nonempty
  rw [named.run_script rfl, ← colored]
  rfl

theorem Holds.run_eval (source : Text) :
    Program.run (i.more (Arguments.forEval source)) =
      Program.scanned settings.colored source := by
  obtain ⟨a, accepted, noScript, noEval, colored⟩ := h.exists_accepts
  have given : (i.more (Arguments.forEval source)).Accepts { a with eval := some source } :=
    Arguments.read_append_eval noSeparator accepted noScript noEval source
  rw [Program.run, given.task_eval rfl, ← colored]
  rfl

end Invocation

/-! ### What cannot be read -/

/-- An error that ends the program is reported as it is in a session that it does not end. -/
theorem Program.fatal_unreadable (colored : Bool) (path : Text) (fault : ReadFault) :
    Program.fatal colored (Program.unreadable path fault) =
      Screen.unreadableFile colored path fault := by
  have words : (": could not read '" : Text) = ": " ++ "could not read '" := rfl
  unfold fatal unreadable Screen.unreadableFile
  simp only [words, List.append_assoc]

/-- What is logged of a script: why it could not be read, if it could not. -/
def Program.loggedFile (log : LoggedError → Text) (path : Text) : ReadResult → Text
  | .ok _ => []
  | .error fault => log ⟨"driver failed", Program.unreadable path fault⟩

/-- A script is printed behind what is logged of it. -/
theorem Program.transcript_scannedFile (log : LoggedError → Text) (colored : Bool) (path : Text)
    (result : ReadResult) : (Program.scannedFile log colored path result).transcript =
      { err := Program.loggedFile log path result } ++ loaded colored path result := by
  cases result with
  | ok source => rfl
  | error fault =>
      rw [loaded, ← Program.fatal_unreadable]
      rfl

/-- What a session prints for an entry that loads a file. -/
theorem Loadable.exchanges_eq {path : Text} (h : Loadable path) {lineEnd : Text}
    (listed : lineEnd ∈ [] :: Entry.lineEnds) (settings : SessionSettings)
    (read : Text → ReadResult) :
    Session.exchanges settings read [loadEntry path ++ lineEnd] =
      Session.prompt settings ++ loaded settings.colored path (read path) := by
  have one : Session.exchange settings read (loadEntry path ++ lineEnd) =
      Session.prompt settings ++ loaded settings.colored path (read path) := by
    rw [Session.exchange, Request.ofEntry_of_parse? (h.parse?_append listed)]
    rfl
  rw [← one]
  exact Transcript.append_empty _

/-! ### Sessions that load a file -/

section

variable {i : Invocation} {settings : SessionSettings} (holds : i.Holds settings)
  {before after : List UInt8} {entries entries' : List Text} {ending : Ending}
  (whole : HoldsEntries before entries) (rest : EndsAfter (Input.lines after) entries' ending)

include holds whole rest

/-- What a session prints for whole entries, and for what follows them. -/
theorem Invocation.Holds.sessionParts (cut : Input.Cut before after) :
    SessionParts i settings before after
      ({ out := Screen.banner settings.colored } ++
        Session.exchanges settings i.files.read entries)
      (Session.exchanges settings i.files.read entries' ++ Session.close settings ending) := by
  refine ⟨?_, ?_, ?_⟩
  · obtain ⟨lines, same, make⟩ := whole
    apply holds.transcript_eq
    rw [same]
    exact make.endsAfter
  · rw [holds.transcript_eq rest, Transcript.append_assoc]
  · rw [holds.transcript_eq (whole.endsAfter cut rest), Session.exchanges_append]
    simp only [Transcript.append_assoc]

/-- An entry between the two that loads a file adds what is printed for the file. -/
theorem Loadable.transcript_eq {path : Text} (loadable : Loadable path) {lineEnd : Text}
    (listed : lineEnd ∈ [] :: Entry.lineEnds)
    (cut : Input.Cut before (Utf8.encode (loadEntry path ++ lineEnd) ++ after))
    (cut' : Input.Cut (Utf8.encode (loadEntry path ++ lineEnd)) after) :
    (Program.run { i with
        input := before ++ (Utf8.encode (loadEntry path ++ lineEnd) ++ after) }).transcript =
      ({ out := Screen.banner settings.colored } ++
        Session.exchanges settings i.files.read entries) ++
      (Session.prompt settings ++ loaded settings.colored path (i.files.read path)) ++
      (Session.exchanges settings i.files.read entries' ++ Session.close settings ending) := by
  have entry : HoldsEntries (Utf8.encode (loadEntry path ++ lineEnd))
      [loadEntry path ++ lineEnd] :=
    ⟨_, Input.lines_encode _, loadable.makeEntries listed⟩
  have ends := whole.endsAfter cut (entry.endsAfter cut' rest)
  rw [holds.transcript_eq ends, Session.exchanges_append, Session.exchanges_append,
    loadable.exchanges_eq listed]
  simp only [Transcript.append_assoc]

end

/-! ### The three ways -/

/-- The ways to scan the file at a path, or to fail at it, with the options and the environment of a
session: what is logged by a run with the file as its script, and what all of them print. -/
structure WaysAgree (i : Invocation) (settings : SessionSettings) (path logged : Text)
    (printed : Transcript) : Prop where
  script : (Program.run (i.more (Arguments.forScript path))).transcript =
    { err := logged } ++ printed
  /-- Between other entries, an entry that loads the file prints the same behind its prompt, without
  what is logged, and the session goes on. -/
  loads : ∀ before entries, HoldsEntries before entries → (before = [] ∨ Input.EndsLine before) →
    ∃ written, ∀ after, ∃ later, SessionParts i settings before after written later ∧
      ∀ lineEnd ∈ [] :: Entry.lineEnds, (lineEnd = [] → after = []) →
        (Program.run { i with
            input := before ++ (Utf8.encode (loadEntry path ++ lineEnd) ++ after) }).transcript =
          written ++ (Session.prompt settings ++ printed) ++ later
  /-- The text of the file is scanned by itself as it is as a script. -/
  evals : ∀ source, i.files path = .ok (Utf8.encode source) →
    Program.run (i.more (Arguments.forEval source)) =
      Program.run (i.more (Arguments.forScript path))
  /-- Where there is a text, all of them list it, and no error is logged. -/
  scans : ∀ source, i.files path = .ok (Utf8.encode source) →
    logged = [] ∧ printed = ⟨listing source, reports settings.colored source⟩
  /-- Where there is none, those that name the file report why, and a run with a script logs it and
  ends with a status of its own. -/
  fails : i.files.Unreadable path → ∃ fault, i.files.read path = .error fault ∧
    logged = i.log ⟨"driver failed", "could not read '" ++ path ++ "': " ++ fault.message⟩ ∧
    printed = { err := (if settings.colored then "\x1b[31;1mError\x1b[0m" else "Error" : Text) ++
      ": could not read '" ++ path ++ "': " ++ fault.message ++ "\n" } ∧
    (Program.run (i.more (Arguments.forScript path))).status = 74

/-- **The ways to scan a text agree,** but for what is logged, whatever there is at the path of a
file and whatever characters the path has, as long as it can stand in an entry. -/
theorem ways_agree {i : Invocation} {settings : SessionSettings} (holds : i.Holds settings)
    (noSeparator : Arguments.separator ∉ i.arguments) {path : Text} (loadable : Loadable path) :
    ∃ logged printed, WaysAgree i settings path logged printed := by
  have script := holds.run_script noSeparator loadable.nonempty
  refine ⟨Program.loggedFile i.log path (i.files.read path),
    loaded settings.colored path (i.files.read path), ?_, ?_, ?_, ?_, ?_⟩
  · rw [script, Program.transcript_scannedFile]
  · intro before entries whole ended
    have cut (q : List UInt8) : Input.Cut before q := ended.imp_right Or.inl
    refine ⟨{ out := Screen.banner settings.colored } ++
      Session.exchanges settings i.files.read entries, fun after => ?_⟩
    obtain ⟨entries', ending, rest⟩ := exists_endsAfter (Input.lines after)
    refine ⟨Session.exchanges settings i.files.read entries' ++ Session.close settings ending,
      holds.sessionParts whole rest (cut after), fun lineEnd listed last => ?_⟩
    have cut' : Input.Cut (Utf8.encode (loadEntry path ++ lineEnd)) after := by
      rcases List.mem_cons.mp listed with none | some
      · exact Or.inr (Or.inr (last none))
      · exact Or.inr (Or.inl (Input.endsLine_encode some _))
    rw [loadable.transcript_eq holds whole rest listed (cut _) cut']
  · intro source found
    rw [script, Storage.read_eq_ok_iff.mpr found, holds.run_eval noSeparator]
    rfl
  · intro source found
    rw [Storage.read_eq_ok_iff.mpr found]
    exact ⟨rfl, rfl⟩
  · intro unreadable
    obtain ⟨fault, failed⟩ := Storage.exists_fault_iff.mpr unreadable
    refine ⟨fault, failed, ?_, ?_, ?_⟩
    · rw [failed]
      rfl
    · rw [failed, loaded, Screen.unreadableFile]
      cases settings.colored <;> rfl
    · rw [script, failed]
      rfl

/-- A path from the root with a blank, a quote and an open bracket in it, under colours and with
prompts. -/
theorem ways_agree_over_brackets :
    Invocation.Holds
        { arguments := ["--color", "always"]
          environment := { terminal := some "dumb" }
          files := ({ entries := [("/tmp/my \"(.lox", Utf8.encode "@")] } : Files) }
        ⟨true, true⟩ ∧
      Arguments.separator ∉ (["--color", "always"] : List Text) ∧
      Loadable "/tmp/my \"(.lox" ∧
      ∃ logged printed, WaysAgree
        { arguments := ["--color", "always"]
          environment := { terminal := some "dumb" }
          files := ({ entries := [("/tmp/my \"(.lox", Utf8.encode "@")] } : Files) }
        ⟨true, true⟩ "/tmp/my \"(.lox" logged printed := by
  have holds : Invocation.Holds
      { arguments := ["--color", "always"]
        environment := { terminal := some "dumb" }
        files := ({ entries := [("/tmp/my \"(.lox", Utf8.encode "@")] } : Files) }
      ⟨true, true⟩ := rfl
  have noSeparator : Arguments.separator ∉ (["--color", "always"] : List Text) := by decide
  have loadable : Loadable "/tmp/my \"(.lox" := by
    refine ⟨by decide, by decide, ?_, ?_⟩
    · rintro c ⟨⟩
      rfl
    · rintro c ⟨⟩
      rfl
  exact ⟨holds, noSeparator, loadable, ways_agree holds noSeparator loadable⟩

/-- A log that writes a line for every error, at one time of day. -/
def lineOfLog (e : LoggedError) : Text :=
  "2025-01-01T00:00:00.000000Z ERROR lox: " ++ e.message ++ " error=" ++ e.error ++ "\n"

/-- An invocation without colours and without files, with such a log. -/
def Invocation.logged (arguments : List Text) (input : Text) : Invocation where
  arguments := "--color" :: "never" :: arguments
  input := Utf8.encode input
  log := lineOfLog

/-- A file that there is not is named as a script, and in a session: what is added to the error stream
is not the same, since the script is logged. -/
theorem script_is_logged :
    (Program.run (.logged ["--", "x.lox"] "")).transcript.err =
        "2025-01-01T00:00:00.000000Z ERROR lox: driver failed " ++
          "error=could not read 'x.lox': No such file or directory (os error 2)\n" ++
          "Error: could not read 'x.lox': No such file or directory (os error 2)\n" ∧
      (Program.run (.logged [] "")).transcript.err = "" ∧
      (Program.run (.logged [] ".load x.lox\n")).transcript.err =
        "Error: could not read 'x.lox': No such file or directory (os error 2)\n" ∧
      (Program.run (.logged [] ".load x.lox\n")).transcript.err ≠
        (Program.run (.logged [] "")).transcript.err ++
          (Program.run (.logged ["--", "x.lox"] "")).transcript.err := by
  have script : (Program.run (.logged ["--", "x.lox"] "")).transcript.err =
      "2025-01-01T00:00:00.000000Z ERROR lox: driver failed " ++
        "error=could not read 'x.lox': No such file or directory (os error 2)\n" ++
        "Error: could not read 'x.lox': No such file or directory (os error 2)\n" := by
    decide +kernel
  have nothing : (Program.run (.logged [] "")).transcript.err = "" := by decide +kernel
  have load : (Program.run (.logged [] ".load x.lox\n")).transcript.err =
      "Error: could not read 'x.lox': No such file or directory (os error 2)\n" := by
    decide +kernel
  refine ⟨script, nothing, load, ?_⟩
  rw [script, nothing, load]
  decide

end LoxTokens
