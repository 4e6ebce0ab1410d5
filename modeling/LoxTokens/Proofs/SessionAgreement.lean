import LoxTokens.Proofs.EntryScan
import LoxTokens.Proofs.InputLines
import LoxTokens.Session.Basic

/-!
A session over a program and a scan of the whole program.

A session cuts its input into entries and scans each of them by itself. An entry is complete only
where no string is open, so every line end between two entries is one at which a source can be cut.
`session_agrees` puts the entries together again: a session that asks for nothing but scanning prints
the tokens of its whole input, and its faults but for those in entries of blanks alone, which it
passes over.

* `Agenda.flatten_entries` — the entries, and what is left at the end, are the lines of the input.
* `Agenda.isComplete_of_mem`, `Agenda.entries_dropLast` — each of them is complete, and all but the
  last end with a line end.
* `pieces_flatten` — so the pieces of the input are those of its entries.
-/

namespace LoxTokens

/-- The agenda of an input that holds a text. -/
def agendaOf (source : Text) : Agenda := .of [] (Input.lines (Utf8.encode source))

/-- What was read of an entry that is not complete where the lines end. -/
def Agenda.unfinished (pending : Text) : List Line → Text
  | [] => pending
  | line :: rest =>
      match Turn.of pending line with
      | .goesOn pending => unfinished pending rest
      | .completes _ => unfinished [] rest
      | .ends _ => []

/-- A text that a session reads to its end, entry by entry, and that holds no commands. -/
structure EntersWhole (source : Text) : Prop where
  /-- No entry asks to exit. -/
  ending : (agendaOf source).ending = .endOfInput
  /-- No entry is left incomplete. -/
  finished : Agenda.unfinished [] (Input.lines (Utf8.encode source)) = []
  plain : ∀ entry ∈ (agendaOf source).entries, Command.parse? (Entry.withoutLineEnd entry) = none

namespace Entry

/-- The scan that a session prints for an entry. -/
def scanned (entry : Text) : Scan :=
  match Request.ofEntry entry with
  | .list source => scan source
  | _ => ⟨[], []⟩

/-- The faults that a scan finds in an entry of blanks alone. -/
def blankFaults (entry : Text) : List Fault :=
  if entry.all Text.isBlank then (scan entry).faults else []

/-- Each entry, with all that was read before it. -/
def placesAfter (before : Text) : List Text → List (Text × Text)
  | [] => []
  | entry :: rest => (before, entry) :: placesAfter (before ++ entry) rest

end Entry

/-- The listing and the reports of a scan. -/
def Scan.printed (colored : Bool) (s : Scan) : Transcript :=
  ⟨s.tokens.flatMap Token.listed, s.faults.flatMap (Fault.report colored)⟩

/-- How what a session prints for a text compares with what is printed for the text as a whole. -/
structure SessionAgrees (settings : SessionSettings) (read : Text → ReadResult) (source : Text) :
    Prop where
  /-- A session prints the scans of its entries one after the other. -/
  session : Session.run settings read (Utf8.encode source) =
    Session.opening settings ++
      .concat ((agendaOf source).entries.map fun entry =>
        (Entry.scanned entry).printed settings.colored ++ Session.prompt settings) ++
      Ending.endOfInput.farewell settings.colored
  whole : Transcript.ofSource settings.colored source = (scan source).printed settings.colored
  /-- The tokens are listed alike. -/
  tokens : ((agendaOf source).entries.flatMap fun entry =>
      (Entry.scanned entry).withoutEnd.map Token.render) = (scan source).withoutEnd.map Token.render
  /-- The faults of the whole are those of the entries, further on by the lines before the entry. -/
  faults : (scan source).faults =
    (Entry.placesAfter [] (agendaOf source).entries).flatMap fun place =>
      ((Entry.scanned place.2).faults ++ Entry.blankFaults place.2).map
        (Fault.shift (Text.newlines place.1))
  /-- A session passes over entries of blanks alone, in which a scan refuses single characters. -/
  blanks : ∀ entry ∈ (agendaOf source).entries, (∀ c ∈ entry, Text.isBlank c = true) →
    Entry.scanned entry = ⟨[], []⟩ ∧
      ∀ f ∈ Entry.blankFaults entry, ∃ line, ∃ c ∈ entry, f = .unexpectedCharacter line c

/-! ### The entries of some lines -/

namespace Turn

/-- What a readable line leads to. -/
theorem of_some_cases (pending line : Text) :
    Turn.of pending (some line) = .goesOn (pending ++ line) ∨
    Turn.of pending (some line) = .ends .exited ∨
    Turn.of pending (some line) = .completes (pending ++ line) ∧
      Entry.isComplete (pending ++ line) = true := by
  by_cases complete : Entry.isComplete (pending ++ line) = true
  · by_cases leaves : (Request.ofEntry (pending ++ line)).leaves = true
    · exact Or.inr (Or.inl (by simp [Turn.of, complete, leaves]))
    · exact Or.inr (Or.inr ⟨by simp [Turn.of, complete, leaves], complete⟩)
  · exact Or.inl (by simp [Turn.of, complete])

end Turn

namespace Agenda

theorem flatten_entries {lines : List Text} {pending : Text}
    (ending : (Agenda.of pending (lines.map some)).ending = .endOfInput) :
    (Agenda.of pending (lines.map some)).entries.flatten ++ unfinished pending (lines.map some) =
      pending ++ lines.flatten := by
  induction lines generalizing pending with
  | nil => simp [Agenda.of, unfinished]
  | cons line lines ih =>
      rw [List.map_cons, Agenda.of] at ending
      rw [List.map_cons, Agenda.of, unfinished, List.flatten_cons, ← List.append_assoc pending]
      rcases Turn.of_some_cases pending line with turn | turn | ⟨turn, -⟩
      · rw [turn] at ending ⊢
        exact ih ending
      · rw [turn] at ending
        contradiction
      · rw [turn] at ending ⊢
        have later := ih ending
        rw [List.nil_append] at later
        simp [later]

theorem isComplete_of_mem {lines : List Text} {pending : Text} :
    ∀ entry ∈ (Agenda.of pending (lines.map some)).entries, Entry.isComplete entry = true := by
  induction lines generalizing pending with
  | nil => simp [Agenda.of]
  | cons line lines ih =>
      rw [List.map_cons, Agenda.of]
      rcases Turn.of_some_cases pending line with turn | turn | ⟨turn, complete⟩
      · rw [turn]
        exact ih
      · rw [turn]
        simp
      · rw [turn]
        exact List.forall_mem_cons.mpr ⟨complete, ih⟩

/-- Where all lines but the last end with a newline, so do all entries but the last. -/
theorem entries_dropLast {lines : List Text} {pending : Text}
    (ended : ∀ line ∈ lines.dropLast, ∃ front, line = front ++ ['\n']) :
    ∀ entry ∈ (Agenda.of pending (lines.map some)).entries.dropLast,
      ∃ front, entry = front ++ ['\n'] := by
  induction lines generalizing pending with
  | nil => simp [Agenda.of]
  | cons line lines ih =>
      rw [forall_mem_dropLast_cons] at ended
      obtain ⟨first, ended⟩ := ended
      rw [List.map_cons, Agenda.of]
      rcases Turn.of_some_cases pending line with turn | turn | ⟨turn, -⟩
      · rw [turn]
        exact ih ended
      · rw [turn]
        simp
      · rw [turn]
        refine forall_mem_dropLast_cons.mpr ⟨?_, ih ended⟩
        rcases first with rfl | ⟨front, rfl⟩
        · exact Or.inl rfl
        · exact Or.inr ⟨pending ++ front, (List.append_assoc ..).symm⟩

end Agenda

/-! ### What is scanned of an entry -/

namespace Entry

theorem leavesNoString {e : Text} (complete : isComplete e = true)
    (plain : Command.parse? (withoutLineEnd e) = none) : LeavesNoString (withoutLineEnd e) := by
  have enough : needsMore (withoutLineEnd e) = false := by simpa [isComplete] using complete
  rw [needsMore, plain] at enough
  rw [leavesNoString_iff]
  intro line member
  simp only [Option.isSome_none, Bool.false_eq_true, if_false, Bool.or_eq_false_iff,
    List.any_eq_false] at enough
  exact enough.1 _ member rfl

/-- An entry that is no command is one of blanks and asks for nothing, or it asks for a scan without
its line end. -/
theorem request_cases {e : Text} (plain : Command.parse? (withoutLineEnd e) = none) :
    (Request.ofEntry e = .nothing ∧ ∀ c ∈ e, Text.isBlank c = true) ∨
      (Request.ofEntry e = .list (withoutLineEnd e) ∧ ¬ ∀ c ∈ e, Text.isBlank c = true) := by
  obtain ⟨ending, whole, blankEnding⟩ := eq_append_withoutLineEnd e
  have parts : (∀ c ∈ e, Text.isBlank c = true) ↔ Text.trim (withoutLineEnd e) = [] := by
    rw [Text.trim_eq_nil_iff]
    nth_rewrite 1 [whole]
    rw [List.forall_mem_append]
    exact and_iff_left blankEnding
  rw [parts]
  by_cases blanks : Text.trim (withoutLineEnd e) = []
  · exact Or.inl ⟨by simp [Request.ofEntry, blanks], blanks⟩
  · have trimmed : Command.parse? (Text.trim (withoutLineEnd e)) = none := by
      rw [← plain, Command.parse?, Text.trim_trim]
      rfl
    exact Or.inr ⟨by simp [Request.ofEntry, blanks, trimmed], blanks⟩

section

variable {e : Text} (plain : Command.parse? (withoutLineEnd e) = none)

include plain

theorem answer_eq (settings : SessionSettings) (read : Text → ReadResult) :
    Session.answer settings read e =
      (scanned e).printed settings.colored ++ Session.prompt settings := by
  rcases request_cases plain with ⟨request, -⟩ | ⟨request, -⟩
  · rw [Session.answer, scanned, request]
    rfl
  · rw [Session.answer, scanned, request]
    rfl

theorem scanned_blanks (blanks : ∀ c ∈ e, Text.isBlank c = true) : scanned e = ⟨[], []⟩ := by
  rcases request_cases plain with ⟨request, -⟩ | ⟨-, visible⟩
  · rw [scanned, request]
  · exact absurd blanks visible

variable (closed : LeavesNoString (withoutLineEnd e))

include closed

theorem withoutEnd_scanned : (scanned e).withoutEnd = (scan e).withoutEnd := by
  rcases request_cases plain with ⟨-, blanks⟩ | ⟨request, -⟩
  · rw [scanned_blanks plain blanks, (scan_blanks blanks).1]
    rfl
  · rw [scanned, request, (sameScan closed).tokens]

theorem faults_scanned : (scanned e).faults ++ blankFaults e = (scan e).faults := by
  rcases request_cases plain with ⟨-, blanks⟩ | ⟨request, visible⟩
  · rw [scanned_blanks plain blanks, blankFaults, if_pos (List.all_eq_true.mpr blanks)]
    rfl
  · have other : ¬ e.all Text.isBlank = true := by rwa [List.all_eq_true]
    rw [scanned, request, (sameScan closed).faults, blankFaults, if_neg other, List.append_nil]

end

end Entry

/-! ### Entries put together -/

theorem pieces_flatten {entries : List Text}
    (closed : ∀ e ∈ entries, LeavesNoString (Entry.withoutLineEnd e))
    (ended : ∀ e ∈ entries.dropLast, ∃ front, e = front ++ ['\n']) :
    pieces entries.flatten = entries.flatMap pieces := by
  induction entries with
  | nil => exact pieces_nil
  | cons e entries ih =>
      rw [List.forall_mem_cons] at closed
      rw [forall_mem_dropLast_cons] at ended
      rw [List.flatten_cons, List.flatMap_cons, ← ih closed.2 ended.2]
      rcases ended.1 with rfl | ⟨front, rfl⟩
      · simp
      · exact Entry.pieces_append closed.1 _

theorem tokensFrom_pieces (before t : Text) :
    tokensFrom (Text.byteLength before) (lineAfter before) (pieces t) =
      (scan t).withoutEnd.map (Token.shift (Text.byteLength before) (Text.newlines before)) := by
  rw [withoutEnd_scan, ← tokensFrom_shift, Nat.zero_add]
  rfl

theorem faultsFrom_pieces (before t : Text) :
    faultsFrom (Text.byteLength before) (lineAfter before) (pieces t) =
      (scan t).faults.map (Fault.shift (Text.newlines before)) := by
  rw [scan_eq, ← faultsFrom_shift (Text.byteLength before), Nat.zero_add]
  rfl

theorem render_tokensFrom (before : Text) (entries : List Text) :
    (tokensFrom (Text.byteLength before) (lineAfter before) (entries.flatMap pieces)).map
        Token.render =
      entries.flatMap fun e => (scan e).withoutEnd.map Token.render := by
  induction entries generalizing before with
  | nil => rfl
  | cons e entries ih =>
      rw [List.flatMap_cons, List.flatMap_cons, tokensFrom_append, textOf_pieces,
        ← Text.byteLength_append, ← lineAfter_append, List.map_append, ih, tokensFrom_pieces,
        List.map_map]
      rfl

theorem faultsFrom_flatMap (before : Text) (entries : List Text) :
    faultsFrom (Text.byteLength before) (lineAfter before) (entries.flatMap pieces) =
      (Entry.placesAfter before entries).flatMap fun place =>
        (scan place.2).faults.map (Fault.shift (Text.newlines place.1)) := by
  induction entries generalizing before with
  | nil => rfl
  | cons e entries ih =>
      rw [List.flatMap_cons, faultsFrom_append, textOf_pieces, ← Text.byteLength_append,
        ← lineAfter_append, ih, faultsFrom_pieces, Entry.placesAfter, List.flatMap_cons]

theorem Entry.mem_of_placesAfter {before : Text} {entries : List Text} :
    ∀ place ∈ placesAfter before entries, place.2 ∈ entries := by
  induction entries generalizing before with
  | nil => simp [placesAfter]
  | cons e entries ih =>
      rw [placesAfter, List.forall_mem_cons]
      exact ⟨List.mem_cons_self, fun place member => List.mem_cons_of_mem _ (ih place member)⟩

/-- **A session prints for a program what is printed for it as a whole.** -/
theorem session_agrees {source : Text} (enters : EntersWhole source) (settings : SessionSettings)
    (read : Text → ReadResult) : SessionAgrees settings read source := by
  obtain ⟨ending, finished, plain⟩ := enters
  have lines : agendaOf source = .of [] ((Text.lines source).map some) := by
    rw [agendaOf, Input.lines_encode]
  have whole : (agendaOf source).entries.flatten = source := by
    have entered := Agenda.flatten_entries (lines ▸ ending)
    rw [← Input.lines_encode, finished, List.append_nil, List.nil_append, Text.flatten_lines]
      at entered
    exact entered
  have closed : ∀ e ∈ (agendaOf source).entries, LeavesNoString (Entry.withoutLineEnd e) := by
    intro e member
    exact Entry.leavesNoString (Agenda.isComplete_of_mem e (lines ▸ member)) (plain e member)
  have parted : pieces source = (agendaOf source).entries.flatMap pieces := by
    nth_rewrite 1 [← whole]
    apply pieces_flatten closed
    rw [lines]
    exact Agenda.entries_dropLast (Text.lines_dropLast source)
  constructor
  · have answers : (agendaOf source).entries.map (Session.answer settings read) =
        (agendaOf source).entries.map fun e =>
          (Entry.scanned e).printed settings.colored ++ Session.prompt settings :=
      List.map_congr_left fun e member => Entry.answer_eq (plain e member) settings read
    rw [← answers, ← ending]
    rfl
  · rfl
  · have entered := render_tokensFrom [] (agendaOf source).entries
    rw [← parted] at entered
    rw [withoutEnd_scan]
    refine Eq.trans ?_ entered.symm
    apply List.flatMap_congr
    intro e member
    rw [Entry.withoutEnd_scanned (plain e member) (closed e member)]
  · have entered := faultsFrom_flatMap [] (agendaOf source).entries
    rw [← parted] at entered
    rw [scan_eq]
    refine entered.trans ?_
    apply List.flatMap_congr
    intro place member
    have inside := Entry.mem_of_placesAfter place member
    rw [Entry.faults_scanned (plain _ inside) (closed _ inside)]
  · intro e member blanks
    refine ⟨Entry.scanned_blanks (plain e member) blanks, ?_⟩
    rw [Entry.blankFaults, if_pos (List.all_eq_true.mpr blanks)]
    exact (scan_blanks blanks).2

/-- The first entry has a string and a bracket over two lines, and another bracket in a comment that
a carriage return ends; the second is blank, but holds a character that is refused. -/
theorem session_agrees_over_lines :
    EntersWhole "(\"\r\n\") // (\r\n\u00a0\n@" ∧
      SessionAgrees ⟨false, false⟩ (fun _ => .error .missing) "(\"\r\n\") // (\r\n\u00a0\n@" := by
  have agenda : agendaOf "(\"\r\n\") // (\r\n\u00a0\n@" =
      ⟨["(\"\r\n\") // (\r\n", "\u00a0\n", "@"], .endOfInput⟩ := by
    rw [agendaOf, Input.lines_encode]
    decide +kernel
  have enters : EntersWhole "(\"\r\n\") // (\r\n\u00a0\n@" := by
    constructor
    · rw [agenda]
    · rw [Input.lines_encode]
      decide +kernel
    · rw [agenda]
      decide
  exact ⟨enters, session_agrees enters _ _⟩

end LoxTokens
