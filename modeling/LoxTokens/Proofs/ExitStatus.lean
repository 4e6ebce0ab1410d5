import LoxTokens.Program
import LoxTokens.Proofs.AcceptedArguments
import LoxTokens.Proofs.ExposedFaults

/-!
The exit status of the program.

An invocation comes to one of five things: its arguments are refused, it asks for a text about the
program, it gives a text to scan, it names a script of which there is no text, or it asks for a
session. Each of the five has a status of its own, but for a text to scan, where it is told by the
faults of the text. As one of the five is always the case, a status tells which.

* `Storage.read_eq_ok_iff` — what can be read at a path is the text of the file found there.
* `Invocation.Scans.exists_run` — a text that is given is scanned, wherever it comes from.
* `Invocation.cases` — every invocation comes to one of the five.
* `exit_statuses` — so each status is had exactly where it is called for.
-/

namespace LoxTokens

/-! ### Scripts -/

namespace Storage

/-- There is no file to be read at a path, or one that is not valid UTF-8. -/
def Unreadable (storage : Storage) (path : Text) : Prop :=
  (∃ fault, storage path = .error fault) ∨
    ∃ bytes, storage path = .ok bytes ∧ ∀ t, Utf8.encode t ≠ bytes

variable {storage : Storage} {path : Text}

theorem decode_eq_ok_iff {bytes : List UInt8} {t : Text} :
    decode bytes = .ok t ↔ Utf8.encode t = bytes := by
  constructor
  · intro read
    unfold decode at read
    split at read
    · next decoded =>
        cases read
        exact Utf8.encode_of_decode? decoded
    · contradiction
  · rintro rfl
    rw [decode, Utf8.decode?_encode]

/-- A text is read at a path exactly where a file is found there that holds it. -/
theorem read_eq_ok_iff {t : Text} :
    storage.read path = .ok t ↔ storage path = .ok (Utf8.encode t) := by
  rw [read]
  cases found : storage path with
  | error fault => simp
  | ok bytes =>
      show decode bytes = .ok t ↔ Except.ok bytes = .ok (Utf8.encode t)
      rw [Except.ok.injEq, decode_eq_ok_iff, eq_comm]

/-- Where nothing can be read, there is a reason. -/
theorem exists_fault_iff :
    (∃ fault, storage.read path = .error fault) ↔ storage.Unreadable path := by
  constructor
  · rintro ⟨fault, failed⟩
    have none (t : Text) : storage path ≠ .ok (Utf8.encode t) := by
      rw [Ne, ← read_eq_ok_iff, failed]
      simp
    cases found : storage path with
    | error fault => exact Or.inl ⟨fault, found⟩
    | ok bytes =>
        refine Or.inr ⟨bytes, found, ?_⟩
        rintro t rfl
        exact none t found
  · intro unreadable
    cases read : storage.read path with
    | error fault => exact ⟨fault, rfl⟩
    | ok t =>
        have found := read_eq_ok_iff.mp read
        rcases unreadable with ⟨fault, none⟩ | ⟨bytes, other, invalid⟩
        · exact absurd (found.symm.trans none) (by simp)
        · exact absurd (Except.ok.inj (found.symm.trans other)) (invalid t)

end Storage

/-! ### What an invocation comes to -/

namespace Invocation

/-- The arguments are accepted, as they are given and filled in from the environment. -/
def Accepts (i : Invocation) (a : Arguments) : Prop :=
  Arguments.read i.arguments i.environment = .ok a

/-- The arguments are refused. -/
def Refused (i : Invocation) : Prop :=
  ∃ error, Arguments.read i.arguments i.environment = .error (.refused error)

/-- The arguments ask for help or for the version. -/
def AsksAbout (i : Invocation) : Prop :=
  (∃ long, Arguments.read i.arguments i.environment = .error (.help long)) ∨
    Arguments.read i.arguments i.environment = .error .version

/-- A text is given to be scanned, by itself or as that of a script. -/
def Scans (i : Invocation) (source : Text) : Prop :=
  ∃ a, i.Accepts a ∧ (a.eval = some source ∨
    ∃ path, a.script = some path ∧ i.files path = .ok (Utf8.encode source))

/-- A script is named of which there is no text. -/
def LacksScript (i : Invocation) : Prop :=
  ∃ a path, i.Accepts a ∧ a.script = some path ∧ i.files.Unreadable path

/-- Neither a text nor a script is given. -/
def GivesNothing (i : Invocation) : Prop :=
  ∃ a, i.Accepts a ∧ a.script = none ∧ a.eval = none

/-- Every invocation comes to one of five things. -/
theorem cases (i : Invocation) :
    i.Refused ∨ i.AsksAbout ∨ (∃ source, i.Scans source) ∨ i.LacksScript ∨ i.GivesNothing := by
  cases read : Arguments.read i.arguments i.environment with
  | error interruption =>
      cases interruption with
      | refused error => exact Or.inl ⟨error, read⟩
      | help long => exact Or.inr (Or.inl (Or.inl ⟨long, read⟩))
      | version => exact Or.inr (Or.inl (Or.inr read))
  | ok a =>
      refine Or.inr (Or.inr ?_)
      cases eval : a.eval with
      | some source => exact Or.inl ⟨source, a, read, Or.inl eval⟩
      | none =>
          cases script : a.script with
          | none => exact Or.inr (Or.inr ⟨a, read, script, eval⟩)
          | some path =>
              cases content : i.files.read path with
              | ok source =>
                  have found := Storage.read_eq_ok_iff.mp content
                  exact Or.inl ⟨source, a, read, Or.inr ⟨path, script, found⟩⟩
              | error fault =>
                  have unreadable := Storage.exists_fault_iff.mp ⟨fault, content⟩
                  exact Or.inr (Or.inl ⟨a, path, read, script, unreadable⟩)

variable {i : Invocation}

theorem Refused.run (h : i.Refused) : Program.run i = Program.refused := by
  obtain ⟨error, read⟩ := h
  simp only [Program.run, Program.task, read]

theorem AsksAbout.exists_run (h : i.AsksAbout) :
    ∃ text, Program.run i = Program.explained text := by
  rcases h with ⟨long, read⟩ | read
  · exact ⟨_, by simp only [Program.run, Program.task, read]; rfl⟩
  · exact ⟨_, by simp only [Program.run, Program.task, read]; rfl⟩

section Accepts

variable {a : Arguments} (accepted : i.Accepts a)

include accepted

theorem Accepts.task_eval {source : Text} (eval : a.eval = some source) :
    Program.task i.arguments i.environment i.terminal =
      .scanText (a.color.colored i.terminal) source := by
  rw [Accepts] at accepted
  simp only [Program.task, accepted, eval]

/-- A script is scanned: no text is given beside it. -/
theorem Accepts.task_script {path : Text} (script : a.script = some path) :
    Program.task i.arguments i.environment i.terminal =
      .scanFile (a.color.colored i.terminal) path := by
  have noEval : a.eval = none := by
    rcases Arguments.script_or_eval_eq_none accepted with none | none
    · rw [none] at script
      contradiction
    · exact none
  rw [Accepts] at accepted
  simp only [Program.task, accepted, script, noEval]

theorem Accepts.task_session (noScript : a.script = none) (noEval : a.eval = none) :
    Program.task i.arguments i.environment i.terminal =
      .hold ⟨a.color.colored i.terminal, Program.prompts i.environment⟩ := by
  rw [Accepts] at accepted
  simp only [Program.task, accepted, noScript, noEval]

theorem Accepts.run_script {path : Text} (script : a.script = some path) :
    Program.run i =
      Program.scannedFile i.log (a.color.colored i.terminal) path (i.files.read path) := by
  rw [Program.run, accepted.task_script script]

end Accepts

/-- A text that is given is scanned; the arguments that give it decide on nothing but colours. -/
theorem Scans.exists_run {source : Text} (h : i.Scans source) :
    ∃ colored, Program.run i = Program.scanned colored source := by
  obtain ⟨a, accepted, eval | ⟨path, script, found⟩⟩ := h
  · exact ⟨a.color.colored i.terminal, by rw [Program.run, accepted.task_eval eval]⟩
  · refine ⟨a.color.colored i.terminal, ?_⟩
    rw [accepted.run_script script, Storage.read_eq_ok_iff.mpr found]
    rfl

theorem LacksScript.exists_run (h : i.LacksScript) : ∃ report,
    Program.run i = ⟨Program.unreadableStatus, { err := report }⟩ := by
  obtain ⟨a, path, accepted, script, unreadable⟩ := h
  obtain ⟨fault, failed⟩ := Storage.exists_fault_iff.mpr unreadable
  let error := Program.unreadable path fault
  refine ⟨i.log ⟨"driver failed", error⟩ ++
    Program.fatal (a.color.colored i.terminal) error, ?_⟩
  rw [accepted.run_script script, failed]
  rfl

theorem GivesNothing.status (h : i.GivesNothing) : (Program.run i).status = 0 := by
  obtain ⟨a, accepted, noScript, noEval⟩ := h
  rw [Program.run, accepted.task_session noScript noEval]

end Invocation

/-! ### Statuses -/

/-- A listing ends with the line of the token that marks the end. -/
theorem exists_listing_eq (source : Text) : ∃ front, listing source = front ++ "EOF  null\n" := by
  refine ⟨(tokensFrom 0 1 (pieces source)).flatMap Token.listed, ?_⟩
  rw [listing, scan_eq, List.flatMap_append]
  rfl

namespace Program

theorem status_scanned_of_faulty (colored : Bool) {source : Text} (faulty : Faulty source) :
    (scanned colored source).status = 65 := by
  have some_fault := faults_ne_nil_iff.mpr faulty
  rw [scanned, FaultLog.scan_eq]
  simp [FaultLog.exitStatus, FaultLog.hadFault, FaultLog.isEmpty, FaultLog.empty,
    FaultLog.faultyStatus, some_fault]

theorem status_scanned_of_clean (colored : Bool) {source : Text} (clean : ¬ Faulty source) :
    (scanned colored source).status = 0 := by
  have none : (scan source).faults = [] := not_not.mp (mt faults_ne_nil_iff.mp clean)
  rw [scanned, FaultLog.scan_eq, none]
  rfl

end Program

/-- The status that an invocation calls for. -/
inductive Invocation.CallsFor (i : Invocation) : Nat → Prop where
  | refused : i.Refused → CallsFor i 64
  | unreadable : i.LacksScript → CallsFor i 74
  | faulty {source : Text} : i.Scans source → Faulty source → CallsFor i 65
  | clean {source : Text} : i.Scans source → ¬ Faulty source → CallsFor i 0
  | about : i.AsksAbout → CallsFor i 0
  | session : i.GivesNothing → CallsFor i 0

namespace Invocation

variable {i : Invocation}

theorem CallsFor.status {n : Nat} (h : i.CallsFor n) : (Program.run i).status = n := by
  cases h with
  | refused refused =>
      rw [refused.run]
      rfl
  | unreadable lacks =>
      obtain ⟨report, run⟩ := lacks.exists_run
      rw [run]
      rfl
  | faulty scans faulty =>
      obtain ⟨colored, run⟩ := scans.exists_run
      rw [run, Program.status_scanned_of_faulty colored faulty]
  | clean scans clean =>
      obtain ⟨colored, run⟩ := scans.exists_run
      rw [run, Program.status_scanned_of_clean colored clean]
  | about asks =>
      obtain ⟨text, run⟩ := asks.exists_run
      rw [run]
      rfl
  | session nothing => exact nothing.status

theorem exists_callsFor (i : Invocation) : ∃ n, i.CallsFor n := by
  rcases i.cases with refused | asks | ⟨source, scans⟩ | lacks | nothing
  · exact ⟨64, .refused refused⟩
  · exact ⟨0, .about asks⟩
  · by_cases faulty : Faulty source
    · exact ⟨65, .faulty scans faulty⟩
    · exact ⟨0, .clean scans faulty⟩
  · exact ⟨74, .unreadable lacks⟩
  · exact ⟨0, .session nothing⟩

/-- A status is had exactly where it is called for: one always is, and it is the one that is had. -/
theorem status_eq_iff {n : Nat} : (Program.run i).status = n ↔ i.CallsFor n := by
  refine ⟨?_, CallsFor.status⟩
  rintro rfl
  obtain ⟨n, calls⟩ := i.exists_callsFor
  rwa [calls.status]

end Invocation

/-- What the exit status of an invocation tells, and what is printed with it. -/
structure ExitStatuses (i : Invocation) (o : Outcome) : Prop where
  refused : o.status = 64 ↔ i.Refused
  refused_silent : o.status = 64 → o.transcript.out = []
  unreadable : o.status = 74 ↔ i.LacksScript
  unreadable_silent : o.status = 74 → o.transcript.out = []
  /-- The text has a character that can start nothing outside of its strings and comments, or it has
  a string that is never closed. -/
  faulty : o.status = 65 ↔ ∃ source, i.Scans source ∧ Faulty source
  clean : o.status = 0 ↔
    i.AsksAbout ∨ (∃ source, i.Scans source ∧ ¬ Faulty source) ∨ i.GivesNothing
  /-- There is no other status. -/
  only : o.status ∈ [0, 64, 65, 74]
  /-- Whatever its status, a run that scans a text lists all of its tokens, down to the one that
  marks the end. -/
  lists : ∀ source, i.Scans source →
    o.transcript.out = (scan source).tokens.flatMap Token.listed ∧
      ∃ front, o.transcript.out = front ++ "EOF  null\n"

/-- **A status tells what an invocation came to,** for all arguments, environments, files and
inputs. -/
theorem exit_statuses (i : Invocation) : ExitStatuses i (Program.run i) := by
  have refused : (Program.run i).status = 64 ↔ i.Refused := by
    rw [Invocation.status_eq_iff]
    refine ⟨fun calls => ?_, .refused⟩
    cases calls with
    | refused refused => exact refused
  have unreadable : (Program.run i).status = 74 ↔ i.LacksScript := by
    rw [Invocation.status_eq_iff]
    refine ⟨fun calls => ?_, .unreadable⟩
    cases calls with
    | unreadable lacks => exact lacks
  refine ⟨refused, ?_, unreadable, ?_, ?_, ?_, ?_, ?_⟩
  · intro status
    rw [(refused.mp status).run]
    rfl
  · intro status
    obtain ⟨report, run⟩ := (unreadable.mp status).exists_run
    rw [run]
  · rw [Invocation.status_eq_iff]
    refine ⟨fun calls => ?_, fun ⟨source, scans, faulty⟩ => .faulty scans faulty⟩
    cases calls with
    | faulty scans faulty => exact ⟨_, scans, faulty⟩
  · rw [Invocation.status_eq_iff]
    constructor
    · intro calls
      cases calls with
      | about asks => exact Or.inl asks
      | clean scans clean => exact Or.inr (Or.inl ⟨_, scans, clean⟩)
      | session nothing => exact Or.inr (Or.inr nothing)
    · rintro (asks | ⟨source, scans, clean⟩ | nothing)
      · exact .about asks
      · exact .clean scans clean
      · exact .session nothing
  · obtain ⟨n, calls⟩ := i.exists_callsFor
    rw [calls.status]
    cases calls <;> simp
  · intro source scans
    obtain ⟨colored, run⟩ := scans.exists_run
    rw [run]
    exact ⟨rfl, exists_listing_eq source⟩

end LoxTokens
