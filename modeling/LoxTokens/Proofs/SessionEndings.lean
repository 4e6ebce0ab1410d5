import LoxTokens.Program
import LoxTokens.Proofs.EntryLines
import LoxTokens.Proofs.InputLines

/-!
How a session ends.

A session ends at an entry that asks to exit, at a line that is not valid UTF-8, or where its input
ends, and it does so once: it answers the entries before, says why it ends unless it was asked to,
and takes its leave. What the entries print, what they find in files and what is wrong with them has
no part in it.

* `Invocation.Holds.run_eq` — what a session prints, by how its input ends.
* `exists_sessionEnds` — every input ends a session in one of the three ways and in no other.
-/

namespace LoxTokens

/-- An invocation that asks for a session. -/
def Invocation.Holds (i : Invocation) (settings : SessionSettings) : Prop :=
  Program.task i.arguments i.environment i.terminal = .hold settings

/-- What stands last on the two streams, spelled out: the words that a session leaves with, behind
what tells why it ends. One that was asked to exit tells nothing. -/
def Ending.lastWords : Ending → Bool → Transcript
  | .exited, false => { out := "\nGoodbye!\n\n" }
  | .exited, true => { out := "\n\x1b[96mGoodbye!\x1b[39m\n\n" }
  | .unreadableLine, false =>
      { out := "\nGoodbye!\n\n"
        err := "Error" ++
          ": Io(Error \x7b kind: InvalidData, message: \"stream did not contain valid UTF-8\" \x7d)\n" }
  | .unreadableLine, true =>
      { out := "\n\x1b[96mGoodbye!\x1b[39m\n\n"
        err := "\x1b[31;1mError\x1b[0m" ++
          ": Io(Error \x7b kind: InvalidData, message: \"stream did not contain valid UTF-8\" \x7d)\n" }
  | .endOfInput, false => { out := "^D\n\nGoodbye!\n\n" }
  | .endOfInput, true => { out := "\x1b[2m^D\x1b[0m\n\n\x1b[96mGoodbye!\x1b[39m\n\n" }

theorem Ending.farewell_eq_lastWords (colored : Bool) (ending : Ending) :
    ending.farewell colored = ending.lastWords colored := by
  cases ending <;> cases colored <;> rfl

/-- What a session prints up to its end: its opening, and its answers to some entries. -/
def Session.beforeEnd (settings : SessionSettings) (read : Text → ReadResult)
    (entries : List Text) : Transcript :=
  opening settings ++ .concat (entries.map (answer settings read))

/-- Bytes that end with the first entry that asks to exit, after other entries. -/
def EndsAtExit (bytes : List UInt8) (entries : List Text) : Prop :=
  ∃ front exit, Input.lines bytes = (front ++ exit).map some ∧ MakeEntries front entries ∧
    Entry.Made exit ∧ Entry.AsksToExit exit.flatten

/-- How a session over an input ends, after the entries that it answers. -/
structure SessionEnds (input : List UInt8) (entries : List Text) (ending : Ending) : Prop where
  /-- The entries and the reason to end are those of the input. -/
  ends : EndsAfter (Input.lines input) entries ending
  /-- There are no others. -/
  only : ∀ entries' ending', EndsAfter (Input.lines input) entries' ending' →
    entries' = entries ∧ ending' = ending
  /-- Whatever there is in files, the session answers these entries and no other, says why it ends
  and takes its leave, with the last words that are spelled out and with the status 0. -/
  outcome : ∀ (i : Invocation) (settings : SessionSettings), i.Holds settings →
    Program.run { i with input := input } =
      { status := 0
        transcript := Session.beforeEnd settings i.files.read entries ++
          ending.lastWords settings.colored }
  /-- No byte behind an entry that asks to exit matters. -/
  readsNoFurther : ending = .exited → ∃ upTo after, input = upTo ++ after ∧
    EndsAtExit upTo entries ∧ (Input.EndsLine upTo ∨ after = []) ∧
    ∀ other, Input.EndsLine upTo → ∀ (i : Invocation) (settings : SessionSettings),
      i.Holds settings →
        Program.run { i with input := upTo ++ other } = Program.run { i with input := input }
  /-- Entries that do not ask to exit never end a session: in front of the input they are answered,
  and then it goes on as before. -/
  goesOn : ∀ t earlier, MakeEntries (Text.lines t) earlier → Input.EndsLine (Utf8.encode t) →
    EndsAfter (Input.lines (Utf8.encode t ++ input)) (earlier ++ entries) ending

/-- What a session prints depends on its input only through the entries and the reason to end. -/
theorem Invocation.Holds.run_eq {i : Invocation} {settings : SessionSettings} (h : i.Holds settings)
    {input : List UInt8} {entries : List Text} {ending : Ending}
    (ends : EndsAfter (Input.lines input) entries ending) :
    Program.run { i with input := input } =
      { status := 0
        transcript := Session.beforeEnd settings i.files.read entries ++
          ending.farewell settings.colored } := by
  have task : Program.task i.arguments i.environment i.terminal = .hold settings := h
  have printed : Session.run settings i.files.read input =
      Session.beforeEnd settings i.files.read entries ++ ending.farewell settings.colored := by
    rw [Session.run, ends.agenda]
    rfl
  rw [Program.run]
  dsimp only
  rw [task]
  dsimp only
  rw [printed]

/-- An entry that asks to exit is the end of an input that goes no further, or of a line. -/
theorem EndsAfter.exists_upTo {input : List UInt8} {entries : List Text}
    (ends : EndsAfter (Input.lines input) entries .exited) : ∃ upTo after, input = upTo ++ after ∧
      EndsAtExit upTo entries ∧ (Input.EndsLine upTo ∨ after = []) := by
  obtain ⟨front, rest, parted, make, stops⟩ := ends
  cases stops with
  | @exited exit rest made leaves =>
      rw [← List.append_assoc, ← List.map_append] at parted
      obtain ⟨upTo, after, whole, same, cut⟩ := Input.exists_cut parted
      refine ⟨upTo, after, whole, ⟨front, exit, same, make, made, leaves⟩, ?_⟩
      rcases cut with rfl | ended | none
      · have nothing := (List.append_eq_nil_iff.mp (List.map_eq_nil_iff.mp same.symm)).2
        exact absurd nothing made.nonempty
      · exact Or.inl ended
      · exact Or.inr none

/-- An entry that asks to exit ends a session, whatever follows it on other lines. -/
theorem EndsAtExit.endsAfter {upTo : List UInt8} {entries : List Text} (h : EndsAtExit upTo entries)
    (ended : Input.EndsLine upTo) (other : List UInt8) :
    EndsAfter (Input.lines (upTo ++ other)) entries .exited := by
  obtain ⟨front, exit, lines, make, made, leaves⟩ := h
  rw [Input.lines_append ended, lines, List.map_append, List.append_assoc]
  exact ⟨front, _, rfl, make, .exited made leaves⟩

/-- **Every session ends in one of three ways.** -/
theorem exists_sessionEnds (input : List UInt8) :
    ∃ entries ending, SessionEnds input entries ending := by
  obtain ⟨entries, ending, ends⟩ := exists_endsAfter (Input.lines input)
  refine ⟨entries, ending, ⟨ends, fun _ _ other => ends.unique other, ?_, ?_, ?_⟩⟩
  · intro i settings holds
    rw [holds.run_eq ends, Ending.farewell_eq_lastWords]
  · rintro rfl
    obtain ⟨upTo, after, whole, atExit, cut⟩ := ends.exists_upTo
    refine ⟨upTo, after, whole, atExit, cut, fun other ended i settings holds => ?_⟩
    rw [holds.run_eq ends, holds.run_eq (atExit.endsAfter ended other)]
  · intro t earlier make ended
    rw [Input.lines_append ended, Input.lines_encode]
    exact .append make ends

end LoxTokens
