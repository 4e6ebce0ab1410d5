import LoxTokens.Proofs.SessionEndings

/-!
A session over an input in two parts.

A session remembers nothing of the entries that it has answered. So an input can be cut after an
entry: the session prints for the first part what it would print for it alone, up to the end of that
input, and then what a session over the second part prints behind its banner (`session_append`).

The cut has to be made between entries. Behind an entry that is not complete the second part would
go on with it, and behind one that asks to exit it would not be read.

* `Session.prompt_append_answers` — the prompts belong to the entries behind them as well as to
  those before.
* `Invocation.Holds.transcript_eq` — so what a session prints is its banner, something for each
  entry, and its end.
-/

namespace LoxTokens

namespace Session

variable (settings : SessionSettings) (read : Text → ReadResult)

/-- What a session prints for an entry: the prompt before it, and what it asks for. -/
def exchange (entry : Text) : Transcript :=
  prompt settings ++ (Request.ofEntry entry).answer settings.colored read

/-- What a session prints behind its banner, but for the last prompt and what follows it. -/
def exchanges (entries : List Text) : Transcript := .concat (entries.map (exchange settings read))

/-- What a session prints from its last prompt on. -/
def close (ending : Ending) : Transcript :=
  prompt settings ++ ending.farewell settings.colored

/-- A prompt stands in front of each entry as well as behind it. -/
theorem prompt_append_answers (entries : List Text) :
    prompt settings ++ .concat (entries.map (answer settings read)) =
      exchanges settings read entries ++ prompt settings := by
  induction entries with
  | nil => exact Transcript.append_empty _
  | cons entry entries ih =>
      calc prompt settings ++ .concat ((entry :: entries).map (answer settings read))
          = exchange settings read entry ++
              (prompt settings ++ .concat (entries.map (answer settings read))) := by
            rw [List.map_cons, Transcript.concat_cons, answer, exchange]
            simp only [Transcript.append_assoc]
        _ = exchanges settings read (entry :: entries) ++ prompt settings := by
            rw [ih, ← Transcript.append_assoc]
            rfl

theorem exchanges_append (entries later : List Text) : exchanges settings read (entries ++ later) =
    exchanges settings read entries ++ exchanges settings read later := by
  rw [exchanges, List.map_append, Transcript.concat_append]
  rfl

end Session

/-- What a session prints, with the prompts in front of the entries. -/
theorem Invocation.Holds.transcript_eq {i : Invocation} {settings : SessionSettings}
    (h : i.Holds settings) {input : List UInt8} {entries : List Text} {ending : Ending}
    (ends : EndsAfter (Input.lines input) entries ending) :
    (Program.run { i with input := input }).transcript =
      { out := Screen.banner settings.colored } ++
        Session.exchanges settings i.files.read entries ++ Session.close settings ending := by
  rw [h.run_eq ends]
  dsimp only
  rw [Session.beforeEnd, Session.opening, Transcript.append_assoc _ (Session.prompt settings),
    Session.prompt_append_answers, Session.close]
  simp only [Transcript.append_assoc]

/-- Lines that make entries end a session where they end. -/
theorem MakeEntries.endsAfter {lines entries : List Text} (h : MakeEntries lines entries) :
    EndsAfter (lines.map some) entries .endOfInput :=
  ⟨lines, [], (List.append_nil _).symm, h, .endOfInput Entry.incomplete_nil⟩

/-- A session over two inputs, one after the other, prints what sessions over each of them do. -/
structure SessionParts (i : Invocation) (settings : SessionSettings) (p q : List UInt8)
    (written later : Transcript) : Prop where
  /-- `written` is what is printed for the first alone, up to the end of that input. -/
  first : (Program.run { i with input := p }).transcript =
    written ++ Session.close settings .endOfInput
  /-- `later` is what is printed for the second alone, behind the banner. -/
  second : (Program.run { i with input := q }).transcript =
    { out := Screen.banner settings.colored } ++ later
  both : (Program.run { i with input := p ++ q }).transcript = written ++ later

/-- **Entries do not influence each other.** The first input holds whole entries, of which none asks
to exit; the second holds any bytes. -/
theorem session_append {p : List UInt8} {t : Text} {entries : List Text}
    (valid : Utf8.decode? p = some t) (ended : Input.EndsLine p)
    (make : MakeEntries (Text.lines t) entries) {i : Invocation} {settings : SessionSettings}
    (holds : i.Holds settings) :
    ∃ written, ∀ q, ∃ later, SessionParts i settings p q written later := by
  have lines : Input.lines p = (Text.lines t).map some := by
    rw [← Utf8.encode_of_decode? valid, Input.lines_encode]
  refine ⟨{ out := Screen.banner settings.colored } ++
    Session.exchanges settings i.files.read entries, fun q => ?_⟩
  obtain ⟨entries', ending, rest⟩ := exists_endsAfter (Input.lines q)
  refine ⟨Session.exchanges settings i.files.read entries' ++ Session.close settings ending,
    ?_, ?_, ?_⟩
  · apply holds.transcript_eq
    rw [lines]
    exact make.endsAfter
  · rw [holds.transcript_eq rest, Transcript.append_assoc]
  · have ends : EndsAfter (Input.lines (p ++ q)) (entries ++ entries') ending := by
      rw [Input.lines_append ended, lines]
      exact .append make rest
    rw [holds.transcript_eq ends, Session.exchanges_append]
    simp only [Transcript.append_assoc]

/-- The first input holds an entry over two lines, in which a character is refused, and the name of
a file that there is not. -/
theorem session_append_over_lines :
    Utf8.decode? (Utf8.encode "\"a\n\" @\n.load x\n") = some "\"a\n\" @\n.load x\n" ∧
      Input.EndsLine (Utf8.encode "\"a\n\" @\n.load x\n") ∧
      MakeEntries (Text.lines "\"a\n\" @\n.load x\n") ["\"a\n\" @\n", ".load x\n"] ∧
      Invocation.Holds { arguments := [], environment := { terminal := some "dumb" } }
        ⟨false, true⟩ ∧
      ∃ written, ∀ q, ∃ later, SessionParts
        { arguments := [], environment := { terminal := some "dumb" } } ⟨false, true⟩
        (Utf8.encode "\"a\n\" @\n.load x\n") q written later := by
  have valid := Utf8.decode?_encode "\"a\n\" @\n.load x\n"
  have ended : Input.EndsLine (Utf8.encode "\"a\n\" @\n.load x\n") := rfl
  have whole : Entry.Made ["\"a\n", "\" @\n"] ∧ Entry.Made [".load x\n"] ∧
      ¬ Entry.AsksToExit "\"a\n\" @\n" ∧ ¬ Entry.AsksToExit ".load x\n" := by decide +kernel
  obtain ⟨scanned, loaded, stays, stays'⟩ := whole
  have make : MakeEntries (Text.lines "\"a\n\" @\n.load x\n") ["\"a\n\" @\n", ".load x\n"] :=
    .cons scanned stays (.cons loaded stays' .nil)
  have holds : Invocation.Holds { arguments := [], environment := { terminal := some "dumb" } }
      ⟨false, true⟩ := rfl
  exact ⟨valid, ended, make, holds, session_append valid ended make holds⟩

end LoxTokens
