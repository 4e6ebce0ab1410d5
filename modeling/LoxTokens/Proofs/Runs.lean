import LoxTokens.Proofs.Rounds

/-!
All rounds of scanning.

A round leads from a sound head to a sound one, further on in the source or back in the main loop, so
the rounds come to an end. They pass each piece of the source once, and the end is what scanning the
source piece by piece gives.

* `Sound.round?` — one round from a sound head, with the pieces that it begins and passes.
* `Further.less`, `Further.current_le` — a round leaves less to do, and never goes back.
* `Sound.exists_runsOn` — all rounds from a sound head on, by induction on what is left to do.
* `exists_scanning_rounds` — the rounds from the start of a source: each of them keeps its place, and
  there are no more of the main loop than characters.
-/

namespace LoxTokens

/-! ### One round -/

/-- One where a piece was begun and not yet passed. -/
def Head.pending (h : Head) : Nat := if h.loop = .main then 0 else 1

/-- A head that a round leads to: it is sound, and either some text was taken or a loop was left. The
pieces that were passed or begun are as many as before, and one more if the main loop went round. -/
structure Further (source : Text) (h : Head) (passed : List Piece) (rest : Text)
    (h' : Head) (passed' : List Piece) (rest' : Text) : Prop where
  sound : Sound source h' passed' rest'
  taken : ∃ taken, rest = taken ++ rest' ∧ (taken = [] → h.loop ≠ .main ∧ h'.loop = .main)
  begins : passed'.length + h'.pending =
    passed.length + h.pending + if h.opensRound then 1 else 0

section

variable {source : Text} {h h' : Head} {passed passed' : List Piece} {rest rest' : Text}

theorem Begun.loop_ne {loop : Loop} {seen : Text} (begun : Begun loop seen rest) :
    loop ≠ .main := by
  cases begun <;> exact Loop.noConfusion

theorem Sound.place (sound : Sound source h passed rest) :
    ∃ front seen, StandsAt source h.registers front seen rest := by
  cases sound with
  | between between =>
      obtain ⟨front, seen, -, place⟩ := between.place
      exact ⟨front, seen, place⟩
  | midway _ midway => exact ⟨_, _, midway.place⟩

theorem Onward.exists_sound {taken : Text} (onward : Onward source passed rest taken h) :
    ∃ passed' rest', Sound source h passed' rest' ∧ rest = taken ++ rest' ∧
      passed'.length + h.pending = passed.length + 1 := by
  cases onward with
  | begun taken begun midway =>
      refine ⟨passed, _, .midway begun midway, rfl, ?_⟩
      rw [Head.pending, if_neg begun.loop_ne]
  | settled taken sound => exact ⟨_, _, sound, rfl, by simp [Head.pending]⟩

/-- A round of the main loop ends the scan, or it leads on by at least one character. -/
theorem Between.mainRound? {r : Registers} (between : Between source r passed rest) :
    rest = [] ∧ passed = pieces source ∧ r.mainRound? = some (.done (scan source)) ∨
    ∃ c back h taken, rest = c :: back ∧ r.mainRound? = some (.next h) ∧
      Onward source passed back taken h := by
  obtain ⟨front, seen, written, place⟩ := between.place
  cases rest with
  | nil =>
      have all : passed = pieces source := by simpa using between.pieces_eq.symm
      have whole : front ++ seen = source := by simpa using place.parted.symm
      refine .inl ⟨rfl, all, ?_⟩
      rw [Registers.mainRound?, if_pos (place.atEnd_iff.mpr rfl), Registers.finish, place.source,
        place.line, whole, between.tokens, between.faults, all, scan_eq]
      rfl
  | cons c back =>
      have more : ¬ r.atEnd = true := by simp [place.atEnd_iff]
      obtain ⟨h, taken, same, onward⟩ := leads_dispatch between.begin
      refine .inr ⟨c, back, h, taken, rfl, ?_, onward⟩
      rw [Registers.mainRound?, if_neg more, between.begin.place.peek?_eq]
      show (r.begin.advance.dispatch? c).map Round.next = _
      rw [same]
      rfl

/-- A round of any other loop goes on with its lexeme. -/
theorem Midway.continues {loop : Loop} {r : Registers} {seen : Text} (begun : Begun loop seen rest)
    (midway : Midway source r passed seen rest) :
    ∃ next, Head.round? ⟨loop, r⟩ = next.map Round.next ∧ Continues source passed rest next := by
  cases begun with
  | comment inLine => exact ⟨_, rfl, continues_comment inLine midway⟩
  | string inside => exact ⟨_, rfl, continues_string inside midway⟩
  | digits nonempty digits => exact ⟨_, rfl, continues_digits nonempty digits midway⟩
  | fraction nonempty digits fractional begins =>
      exact ⟨_, rfl, continues_fraction nonempty digits fractional begins midway⟩
  | word word => exact ⟨_, rfl, continues_word word midway⟩

/-- **From a sound head a round can be made.** It leads further, and at the end of the source to what
scanning gives. -/
theorem Sound.round? (sound : Sound source h passed rest) :
    h.loop = .main ∧ h.opensRound = false ∧ passed = pieces source ∧
      h.round? = some (.done (scan source)) ∨
    ∃ h' passed' rest', h.round? = some (.next h') ∧
      Further source h passed rest h' passed' rest' := by
  cases sound with
  | @between r passed rest between =>
      obtain ⟨front, seen, -, place⟩ := between.place
      have opens : Head.opensRound ⟨.main, r⟩ = !r.atEnd := rfl
      rcases between.mainRound? with ⟨rfl, all, round⟩ | ⟨c, back, h', taken, rfl, round, onward⟩
      · exact .inl ⟨rfl, by rw [opens, place.atEnd_iff.mpr rfl]; rfl, all, round⟩
      · obtain ⟨passed', rest', sound', rfl, count⟩ := onward.exists_sound
        have more : r.atEnd = false := by
          rw [← Bool.not_eq_true, place.atEnd_iff]
          simp
        refine .inr ⟨h', passed', rest', round, sound', ⟨c :: taken, rfl, by simp⟩, ?_⟩
        rw [count, opens, more]
        rfl
  | @midway loop r passed seen rest begun midway =>
      obtain ⟨next, round, h', taken, rfl, onward, back⟩ := midway.continues begun
      obtain ⟨passed', rest', sound', rfl, count⟩ := onward.exists_sound
      have other := begun.loop_ne
      refine .inr ⟨h', passed', rest', round, sound', ⟨taken, rfl, fun none => ⟨other, back none⟩⟩, ?_⟩
      rw [count, Head.pending, if_neg other]
      simp [Head.opensRound, other]

namespace Further

variable (further : Further source h passed rest h' passed' rest')

include further

/-- What is left to do grows less with each round. -/
theorem less : 2 * rest'.length + h'.pending < 2 * rest.length + h.pending := by
  obtain ⟨taken, rfl, empty⟩ := further.taken
  rw [List.length_append]
  cases taken with
  | nil =>
      obtain ⟨other, main⟩ := empty rfl
      simp [Head.pending, other, main]
  | cons c taken =>
      have one : h'.pending ≤ 1 := by
        unfold Head.pending
        split <;> omega
      rw [List.length_cons]
      omega

/-- The position never goes back, and a round of the main loop takes it further. -/
theorem current_le (sound : Sound source h passed rest) :
    h.registers.current ≤ h'.registers.current ∧
      (h.loop = .main → h.registers.current < h'.registers.current) := by
  obtain ⟨front, seen, place⟩ := sound.place
  obtain ⟨front', seen', place'⟩ := further.sound.place
  obtain ⟨taken, rfl, empty⟩ := further.taken
  have whole := place.current_add.trans place'.current_add.symm
  rw [Text.byteLength_append] at whole
  refine ⟨by omega, fun main => ?_⟩
  have positive := Text.byteLength_pos fun none => (empty none).1 main
  omega

end Further

end

/-! ### All rounds -/

namespace Runs

variable {h : Head} {heads heads' : List Head} {result result' : Scan}

/-- There is one way to run. -/
theorem unique (runs : Runs h heads result) (runs' : Runs h heads' result') :
    heads' = heads ∧ result' = result := by
  induction runs generalizing heads' with
  | done round =>
      cases runs' with
      | done round' =>
          cases round.symm.trans round'
          exact ⟨rfl, rfl⟩
      | next round' => cases round.symm.trans round'
  | next round _ ih =>
      cases runs' with
      | done round' => cases round.symm.trans round'
      | next round' more =>
          cases round.symm.trans round'
          obtain ⟨rfl, rfl⟩ := ih more
          exact ⟨rfl, rfl⟩

/-- Every round of a run can be made. -/
theorem isSome_round? (runs : Runs h heads result) : ∀ g ∈ heads, g.round?.isSome = true := by
  induction runs with
  | done round => simp [round]
  | next round _ ih => simpa [round] using ih

end Runs

/-- A head comes before another one: the position has not gone back, and if a round of the main loop
starts there it has gone on. -/
def Head.Before (h h' : Head) : Prop :=
  h.registers.current ≤ h'.registers.current ∧
    (h.loop = .main → h.registers.current < h'.registers.current)

/-- All heads from one on, down to the end of the scan. -/
structure RunsOn (source : Text) (h : Head) (passed : List Piece) (heads : List Head) : Prop where
  runs : Runs h heads (scan source)
  place : ∀ g ∈ heads, KeepsPlace source g.registers
  further : ∀ g ∈ heads, h.registers.current ≤ g.registers.current
  progress : heads.Pairwise Head.Before
  rounds : passed.length + h.pending + heads.countP Head.opensRound = (pieces source).length

section

variable {source : Text} {h h' : Head} {passed passed' : List Piece} {rest rest' : Text}

theorem Sound.keepsPlace (sound : Sound source h passed rest) : KeepsPlace source h.registers := by
  obtain ⟨front, seen, place⟩ := sound.place
  exact place.keepsPlace

/-- The last head of a run. -/
theorem Sound.runsOn_done (sound : Sound source h passed rest) (main : h.loop = .main)
    (closes : h.opensRound = false) (all : passed = pieces source)
    (round : h.round? = some (.done (scan source))) : RunsOn source h passed [h] where
  runs := .done round
  place := by simpa using sound.keepsPlace
  further := by simp
  progress := List.pairwise_singleton _ _
  rounds := by simp [all, closes, Head.pending, main]

/-- One head more in front of a run. -/
theorem Further.runsOn {heads : List Head} (sound : Sound source h passed rest)
    (further : Further source h passed rest h' passed' rest') (round : h.round? = some (.next h'))
    (on : RunsOn source h' passed' heads) : RunsOn source h passed (h :: heads) := by
  have onward := further.current_le sound
  refine ⟨.next round on.runs, ?_, ?_, ?_, ?_⟩
  · exact List.forall_mem_cons.mpr ⟨sound.keepsPlace, on.place⟩
  · exact List.forall_mem_cons.mpr ⟨le_rfl, fun g member => onward.1.trans (on.further g member)⟩
  · refine List.pairwise_cons.mpr ⟨fun g member => ⟨?_, fun main => ?_⟩, on.progress⟩
    · exact onward.1.trans (on.further g member)
    · exact (onward.2 main).trans_le (on.further g member)
  · rw [← on.rounds, further.begins, List.countP_cons]
    omega

end

/-- From a sound head the rounds come to an end, with the result of scanning the source. -/
theorem Sound.exists_runsOn {source : Text} {h : Head} {passed : List Piece} {rest : Text}
    (sound : Sound source h passed rest) :
    ∃ heads, RunsOn source h passed heads := by
  rcases sound.round? with ⟨main, closes, all, round⟩ | ⟨h', passed', rest', round, further⟩
  · exact ⟨[h], sound.runsOn_done main closes all round⟩
  · have less := further.less
    obtain ⟨heads, on⟩ := further.sound.exists_runsOn
    exact ⟨h :: heads, further.runsOn sound round on⟩
-- A round that leaves a loop may take no text: a character weighs two, a lexeme that was begun one.
termination_by 2 * rest.length + h.pending

/-- A source has no more pieces than characters. -/
theorem length_pieces_le (t : Text) : (pieces t).length ≤ t.length := by
  induction t using Piece.text_induction with
  | nil => simp
  | append p rest read ih =>
      have positive := List.length_pos_iff.mpr (Piece.text_ne_nil read)
      rw [pieces_append read, List.length_cons, List.length_append]
      omega

theorem Sound.ofSource (source : Text) : Sound source (.ofSource source) [] source :=
  .between ⟨⟨[], [], rfl, .ofSource source⟩, rfl, rfl, rfl⟩

/-- The heads that scanning a source passes. -/
structure ScansInRounds (source : Text) (heads : List Head) : Prop where
  /-- The rounds come to an end with the tokens and faults of the source, and that is the only way
  they can go. -/
  runs : ∀ heads' result, Runs (.ofSource source) heads' result ↔
    heads' = heads ∧ result = scan source
  /-- At the head of every round, of whichever loop, the registers agree on a place. -/
  place : ∀ h ∈ heads, KeepsPlace source h.registers
  /-- No text is cut out that is not there. -/
  cuts : ∀ h ∈ heads, h.round?.isSome = true
  /-- A round of the main loop takes the position further. -/
  progress : heads.Pairwise Head.Before
  /-- The main loop goes round once for each piece of the source. -/
  rounds : heads.countP Head.opensRound = (pieces source).length
  /-- That is at most once for each character. -/
  bounded : heads.countP Head.opensRound ≤ source.length

/-- **Scanning keeps its place.** Round after round, the positions, the characters that are left and
the line agree on one place of the source, so every cut can be made, every round of the main loop gets
further, and after one round for each piece the scan is done. -/
theorem exists_scanning_rounds (source : Text) : ∃ heads, ScansInRounds source heads := by
  obtain ⟨heads, on⟩ := (Sound.ofSource source).exists_runsOn
  have count : heads.countP Head.opensRound = (pieces source).length := by
    have rounds := on.rounds
    have nothing : (Head.ofSource source).pending = 0 := rfl
    rwa [List.length_nil, nothing, Nat.zero_add] at rounds
  refine ⟨heads, ?_, on.place, on.runs.isSome_round?, on.progress, count, ?_⟩
  · intro heads' result
    constructor
    · exact on.runs.unique
    · rintro ⟨rfl, rfl⟩
      exact on.runs
  · rw [count]
    exact length_pieces_le source

end LoxTokens
