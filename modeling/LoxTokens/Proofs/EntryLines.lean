import LoxTokens.Proofs.EntryScan
import LoxTokens.Session.Agenda
import Mathlib.Data.List.Infix

/-!
Entries as lines that belong together.

A session takes line after line until those it has taken are complete. Said of the lines alone, and
not of the order in which they are taken: an entry is made of lines that are complete, but not
without the last of them (`Entry.Made`). Some lines make entries, one after the other
(`MakeEntries`), and then a session stops for one of three reasons (`Stops`).

* `EndsAfter.agenda` — these are the entries and the ending of the agenda.
* `exists_endsAfter`, `EndsAfter.unique` — there is always one way in which a session ends, and
  there is no other.
-/

namespace LoxTokens

namespace Entry

/-- Whether an entry is a command to exit, with or without an argument. -/
def AsksToExit (entry : Text) : Prop :=
  ∃ argument, Command.parse? (withoutLineEnd entry) = some (.exit, argument)

/-- Lines of an entry that goes on, however many of them are taken. -/
def Incomplete (lines : List Text) : Prop :=
  ∀ front, front <+: lines → front ≠ [] → isComplete front.flatten = false

/-- Lines that make one entry: they are complete, but not without the last of them. -/
structure Made (lines : List Text) : Prop where
  nonempty : lines ≠ []
  complete : isComplete lines.flatten = true
  incomplete : Incomplete lines.dropLast

instance (lines : List Text) : Decidable (Incomplete lines) :=
  decidable_of_iff (∀ front ∈ lines.inits, front ≠ [] → isComplete front.flatten = false)
    (by simp only [Incomplete, List.mem_inits])

instance (lines : List Text) : Decidable (Made lines) :=
  decidable_of_iff (lines ≠ [] ∧ isComplete lines.flatten = true ∧ Incomplete lines.dropLast)
    ⟨fun ⟨n, c, i⟩ => ⟨n, c, i⟩, fun ⟨n, c, i⟩ => ⟨n, c, i⟩⟩

end Entry

/-- Lines that make some entries, one behind the other, of which none asks to exit. -/
inductive MakeEntries : List Text → List Text → Prop where
  | nil : MakeEntries [] []
  | cons {lines rest entries : List Text} : Entry.Made lines → ¬ Entry.AsksToExit lines.flatten →
      MakeEntries rest entries → MakeEntries (lines ++ rest) (lines.flatten :: entries)

/-- Why a session stops before the next entry. -/
inductive Stops : List Line → Ending → Prop where
  /-- The next entry asks to exit. What follows it is not read. -/
  | exited {exit : List Text} {rest : List Line} : Entry.Made exit → Entry.AsksToExit exit.flatten →
      Stops (exit.map some ++ rest) .exited
  /-- A line is not valid UTF-8, and the next entry is not complete before it. -/
  | unreadableLine {part : List Text} {rest : List Line} : Entry.Incomplete part →
      Stops (part.map some ++ none :: rest) .unreadableLine
  /-- The lines end, and the next entry is not complete by then. -/
  | endOfInput {part : List Text} : Entry.Incomplete part → Stops (part.map some) .endOfInput

/-- How a session over some lines ends, after the entries that it has answered. -/
def EndsAfter (lines : List Line) (entries : List Text) (ending : Ending) : Prop :=
  ∃ front rest, lines = front.map some ++ rest ∧ MakeEntries front entries ∧ Stops rest ending

theorem MakeEntries.append {lines lines' entries entries' : List Text}
    (h : MakeEntries lines entries) (h' : MakeEntries lines' entries') :
    MakeEntries (lines ++ lines') (entries ++ entries') := by
  induction h with
  | nil => exact h'
  | cons made stays _ ih =>
      rw [List.append_assoc]
      exact .cons made stays ih

/-- Entries in front of some lines do not change how a session over these lines ends. -/
theorem EndsAfter.append {front entries entries' : List Text} {lines : List Line} {ending : Ending}
    (h : MakeEntries front entries) (h' : EndsAfter lines entries' ending) :
    EndsAfter (front.map some ++ lines) (entries ++ entries') ending := by
  obtain ⟨front', rest, rfl, make, stops⟩ := h'
  exact ⟨front ++ front', rest, by simp, h.append make, stops⟩

/-! ### The agenda of lines that make entries -/

namespace Entry

theorem Incomplete.concat_iff {part : List Text} {line : Text} : Incomplete (part ++ [line]) ↔
    Incomplete part ∧ isComplete (part.flatten ++ line) = false := by
  have whole : (part ++ [line]).flatten = part.flatten ++ line := by simp
  constructor
  · intro h
    refine ⟨fun front first => h front (first.trans (List.prefix_append ..)), ?_⟩
    rw [← whole]
    exact h _ (List.prefix_refl _) (by simp)
  · rintro ⟨h, last⟩ front first nonempty
    rcases List.prefix_concat_iff.mp first with rfl | first
    · rw [whole, last]
    · exact h front first nonempty

theorem incomplete_nil : Incomplete [] := by
  intro front first nonempty
  exact absurd (List.prefix_nil.mp first) nonempty

/-- The lines of an entry, with the last of them apart. -/
theorem made_iff {lines : List Text} : Made lines ↔ ∃ part line, lines = part ++ [line] ∧
    Incomplete part ∧ isComplete (part.flatten ++ line) = true := by
  constructor
  · rintro ⟨nonempty, complete, incomplete⟩
    have parted := List.dropLast_concat_getLast nonempty
    refine ⟨_, _, parted.symm, incomplete, ?_⟩
    rw [← complete, ← congrArg List.flatten parted]
    simp
  · rintro ⟨part, line, rfl, incomplete, complete⟩
    exact ⟨by simp, by simpa using complete, by simpa using incomplete⟩

theorem parse?_trim (t : Text) : Command.parse? (Text.trim t) = Command.parse? t := by
  rw [Command.parse?, Text.trim_trim]
  rfl

/-- An entry asks to exit exactly where its request ends the session. -/
theorem leaves_iff {entry : Text} : (Request.ofEntry entry).leaves = true ↔ AsksToExit entry := by
  rw [AsksToExit, ← parse?_trim, Request.ofEntry]
  split
  · next blank =>
      rw [List.isEmpty_iff.mp blank]
      simp [Request.leaves, Command.parse?, Text.trim, Text.trimStart, Text.trimEnd]
  · split
    · next command argument parsed =>
        rw [parsed]
        cases command <;> simp [Request.leaves]
    · next parsed => simp [parsed, Request.leaves]

instance (entry : Text) : Decidable (AsksToExit entry) := decidable_of_iff _ leaves_iff

end Entry

namespace Agenda

/-- Lines that do not complete an entry are put before the next line. -/
theorem of_incomplete {part : List Text} (h : Entry.Incomplete part) (rest : List Line) :
    Agenda.of [] (part.map some ++ rest) = Agenda.of part.flatten rest := by
  induction part using List.reverseRecOn generalizing rest with
  | nil => rfl
  | append_singleton part line ih =>
      obtain ⟨before, last⟩ := Entry.Incomplete.concat_iff.mp h
      have step : Turn.of part.flatten (some line) = .goesOn (part.flatten ++ line) := by
        simp [Turn.of, last]
      rw [List.map_append, List.append_assoc, ih before]
      show Agenda.of part.flatten (some line :: rest) = _
      rw [Agenda.of, step, List.flatten_append]
      simp

theorem of_made {lines : List Text} (h : Entry.Made lines) (rest : List Line) :
    Agenda.of [] (lines.map some ++ rest) =
      if (Request.ofEntry lines.flatten).leaves then ⟨[], .exited⟩
      else ⟨lines.flatten :: (Agenda.of [] rest).entries, (Agenda.of [] rest).ending⟩ := by
  obtain ⟨part, line, rfl, incomplete, complete⟩ := Entry.made_iff.mp h
  have whole : (part ++ [line]).flatten = part.flatten ++ line := by simp
  rw [List.map_append, List.append_assoc, of_incomplete incomplete, whole]
  show Agenda.of part.flatten (some line :: rest) = _
  rw [Agenda.of]
  by_cases leaves : (Request.ofEntry (part.flatten ++ line)).leaves
  · have step : Turn.of part.flatten (some line) = .ends .exited := by
      simp [Turn.of, complete, leaves]
    rw [step, if_pos leaves]
  · have step : Turn.of part.flatten (some line) = .completes (part.flatten ++ line) := by
      simp [Turn.of, complete, leaves]
    rw [step, if_neg leaves]

theorem of_makeEntries {lines entries : List Text} (h : MakeEntries lines entries)
    (rest : List Line) : Agenda.of [] (lines.map some ++ rest) =
      ⟨entries ++ (Agenda.of [] rest).entries, (Agenda.of [] rest).ending⟩ := by
  induction h with
  | nil => rfl
  | cons made stays _ ih =>
      rw [← Entry.leaves_iff] at stays
      rw [List.map_append, List.append_assoc, of_made made, if_neg stays, ih]
      rfl

theorem of_stops {lines : List Line} {ending : Ending} (h : Stops lines ending) :
    Agenda.of [] lines = ⟨[], ending⟩ := by
  cases h with
  | exited made exit => rw [of_made made, if_pos (Entry.leaves_iff.mpr exit)]
  | unreadableLine incomplete =>
      rw [of_incomplete incomplete]
      rfl
  | @endOfInput part incomplete =>
      have ended := of_incomplete incomplete []
      rw [List.append_nil] at ended
      rw [ended]
      rfl

end Agenda

/-! ### Every session ends, and in one way -/

theorem EndsAfter.agenda {lines : List Line} {entries : List Text} {ending : Ending}
    (h : EndsAfter lines entries ending) : Agenda.of [] lines = ⟨entries, ending⟩ := by
  obtain ⟨front, rest, rfl, make, stops⟩ := h
  rw [Agenda.of_makeEntries make, Agenda.of_stops stops, List.append_nil]

/-- However a session goes, it ends. -/
theorem exists_endsAfter (lines : List Line) :
    ∃ entries ending, EndsAfter lines entries ending := by
  -- `part` are the lines that have been taken for the next entry
  have from_part (part : List Text) (h : Entry.Incomplete part) :
      ∃ entries ending, EndsAfter (part.map some ++ lines) entries ending := by
    induction lines generalizing part with
    | nil =>
        rw [List.append_nil]
        exact ⟨[], _, [], _, rfl, .nil, .endOfInput h⟩
    | cons line lines ih =>
        cases line with
        | none => exact ⟨[], _, [], _, rfl, .nil, .unreadableLine h⟩
        | some line =>
            have taken : part.map some ++ some line :: lines =
                (part ++ [line]).map some ++ lines := by simp
            rw [taken]
            cases complete : Entry.isComplete (part.flatten ++ line) with
            | false => exact ih _ (Entry.Incomplete.concat_iff.mpr ⟨h, complete⟩)
            | true =>
                have made := Entry.made_iff.mpr ⟨part, line, rfl, h, complete⟩
                by_cases exit : Entry.AsksToExit (part ++ [line]).flatten
                · exact ⟨[], _, [], _, rfl, .nil, .exited made exit⟩
                · obtain ⟨entries, ending, later⟩ := ih [] Entry.incomplete_nil
                  have one : MakeEntries (part ++ [line]) [(part ++ [line]).flatten] := by
                    simpa using MakeEntries.cons made exit .nil
                  exact ⟨_, ending, .append one later⟩
  exact from_part [] Entry.incomplete_nil

theorem EndsAfter.unique {lines : List Line} {entries entries' : List Text}
    {ending ending' : Ending} (h : EndsAfter lines entries ending)
    (h' : EndsAfter lines entries' ending') : entries' = entries ∧ ending' = ending :=
  Agenda.mk.inj (h'.agenda.symm.trans h.agenda)

end LoxTokens
