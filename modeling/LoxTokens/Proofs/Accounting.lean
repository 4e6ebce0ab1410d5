import LoxTokens.Proofs.Dissection
import LoxTokens.Proofs.PieceEnds

/-!
What a scan has to account for: every byte of its source, and every fault.

A dissection accounts for a source and for the result of scanning it where its parts are the source,
where the spans of the tokens cut its lexemes and its gaps out of it, and where its refused
characters and its tail are the faults, one for one. The tokens leave no choice: what stands between
them can be taken apart in one way only, since a filler is told by its first character, and a comment
ends where its line does.

* `Filler.eq_of_append`, `Gap.eq_of_append` — the fillers of a text, one by one.
* `Accounts.unique` — two results with the same tokens are accounted for alike.
* `existsUnique_accounts` — every source has one dissection that accounts for scanning it.
-/

namespace LoxTokens

/-- A dissection that accounts for every byte of a source and for all that scanning it gave. -/
structure Accounts (source : Text) (result : Scan) (d : Dissection) : Prop where
  /-- Gaps and lexemes in turn are the source. -/
  whole : d.text = source
  /-- The last token alone marks the end, at the end. -/
  tokens : result.tokens = d.tokens ++ [closingToken source]
  nonempty : ∀ t ∈ d.tokens, t.lexeme ≠ []
  /-- Spans fall between characters and cut the lexemes out of the source. -/
  lexemes : ∀ t ∈ result.tokens,
    Text.slice? source t.span.start t.span.stop = some t.lexeme
  ordered : result.tokens.Pairwise fun t u =>
    t.span.start < u.span.start ∧ t.span.stop ≤ u.span.start
  /-- What stands between two spans is the gap there. -/
  gaps : (gapsBetween 0 result.tokens).map (fun gap => Text.slice? source gap.start gap.stop) =
    d.gapTexts.map some
  /-- Every comment in a gap takes all of its line, so no token, no refused character and no quote of
  an unclosed string stands in one. -/
  comments : d.Whole
  /-- Each refused character is reported once and in order, and then the unclosed string. -/
  faults : result.faults.map Fault.character? =
    d.refused.map some ++ if d.tail.isSome then [none] else []

/-! ### One way to take a gap apart -/

/-- Two lines are the same where they are followed by line ends, or by nothing. -/
theorem line_eq_of_append {t t' after after' : Text} (inLine : '\n' ∉ t) (inLine' : '\n' ∉ t')
    (ends : after = [] ∨ ∃ rest, after = '\n' :: rest)
    (ends' : after' = [] ∨ ∃ rest, after' = '\n' :: rest) (same : t ++ after = t' ++ after') :
    t = t' ∧ after = after' := by
  have front {t after : Text} (inLine : '\n' ∉ t)
      (ends : after = [] ∨ ∃ rest, after = '\n' :: rest) :
      (t ++ after).takeWhile (· != '\n') = t := by
    apply takeWhile_append_of_stop
    · intro c member
      simpa using ne_of_mem_of_not_mem member inLine
    · rcases ends with rfl | ⟨rest, rfl⟩ <;> rfl
  obtain rfl : t = t' := by rw [← front inLine ends, same, front inLine' ends']
  exact ⟨rfl, List.append_cancel_left same⟩

namespace StartsNothing

variable {c : Char}

theorem not_separator (h : StartsNothing c) : c ∉ [' ', '\t', '\r', '\n'] :=
  fun listed => h.2 [] (.inl (.blank listed))

theorem ne_slash (h : StartsNothing c) : c ≠ '/' := by
  rintro rfl
  exact h.2 [] (matches_mark .slash)

end StartsNothing

namespace Filler

/-- The first filler of a text, told by its first character. -/
theorem eq_of_append {f f' : Filler} {after after' : Text} (whole : f.WholeBefore after)
    (whole' : f'.WholeBefore after') (same : f.text ++ after = f'.text ++ after') :
    f = f' ∧ after = after' := by
  have slash : '/' ∉ [' ', '\t', '\r', '\n'] := by decide
  cases f with
  | blank c listed =>
      cases f' with
      | blank c' listed' => cases same; exact ⟨rfl, rfl⟩
      | comment body' inLine' => cases same; contradiction
      | refused c' hopeless' => cases same; exact absurd listed hopeless'.not_separator
  | comment body inLine =>
      cases f' with
      | blank c' listed' => cases same; contradiction
      | comment body' inLine' =>
          have lines : body ++ after = body' ++ after' :=
            (List.cons.inj (List.cons.inj same).2).2
          obtain ⟨rfl, rfl⟩ := line_eq_of_append inLine inLine' whole whole' lines
          exact ⟨rfl, rfl⟩
      | refused c' hopeless' => cases same; exact absurd rfl hopeless'.ne_slash
  | refused c hopeless =>
      cases f' with
      | blank c' listed' => cases same; exact absurd listed' hopeless.not_separator
      | comment body' inLine' => cases same; exact absurd rfl hopeless.ne_slash
      | refused c' hopeless' => cases same; exact ⟨rfl, rfl⟩

theorem not_prefix_nil (f : Filler) : ¬ f.text <+: [] := by
  rw [List.prefix_nil]
  cases f <;> exact List.cons_ne_nil _ _

/-- No filler starts with a quote. -/
theorem not_prefix_quote (f : Filler) (body : Text) : ¬ f.text <+: '"' :: body := by
  rintro ⟨rest, same⟩
  cases f with
  | blank c listed =>
      cases same
      exact absurd listed (by decide)
  | comment => cases same
  | refused c hopeless =>
      cases same
      exact hopeless.1 rfl

end Filler

namespace Gap

theorem text_cons (f : Filler) (gap : Gap) : text (f :: gap) = f.text ++ gap.text :=
  List.flatMap_cons

/-- A gap by itself is whole where it is in front of a text: a comment that ends it is followed by
nothing then. -/
theorem WholeBefore.nil {gap : Gap} {after : Text} (whole : gap.WholeBefore after) :
    gap.WholeBefore [] := by
  induction gap with
  | nil => trivial
  | cons f gap ih =>
      refine ⟨?_, ih whole.2⟩
      rw [List.append_nil]
      cases f with
      | blank | refused => trivial
      | comment body inLine =>
          rcases whole.1 with none | ⟨rest, same⟩
          · exact .inl (List.append_eq_nil_iff.mp none).1
          · cases text : Gap.text gap with
            | nil => exact .inl rfl
            | cons c t =>
                rw [text] at same
                cases same
                exact .inr ⟨t, rfl⟩

/-- The fillers that a text starts with, down to where none follows. -/
theorem eq_of_append {gap gap' : Gap} {after after' : Text} (whole : gap.WholeBefore after)
    (whole' : gap'.WholeBefore after') (stop : ∀ f : Filler, ¬ f.text <+: after)
    (stop' : ∀ f : Filler, ¬ f.text <+: after') (same : gap.text ++ after = gap'.text ++ after') :
    gap = gap' ∧ after = after' := by
  induction gap generalizing gap' with
  | nil =>
      cases gap' with
      | nil => exact ⟨rfl, same⟩
      | cons f' gap' =>
          rw [text_cons, List.append_assoc] at same
          exact absurd ⟨_, same.symm⟩ (stop f')
  | cons f gap ih =>
      cases gap' with
      | nil =>
          rw [text_cons, List.append_assoc] at same
          exact absurd ⟨_, same⟩ (stop' f)
      | cons f' gap' =>
          rw [text_cons, text_cons, List.append_assoc, List.append_assoc] at same
          obtain ⟨rfl, rest⟩ := Filler.eq_of_append whole.1 whole'.1 same
          obtain ⟨rfl, rfl⟩ := ih whole.2 whole'.2 rest
          exact ⟨rfl, rfl⟩

theorem eq_of_text {gap gap' : Gap} {after after' : Text} (whole : gap.WholeBefore after)
    (whole' : gap'.WholeBefore after') (same : gap.text = gap'.text) : gap = gap' := by
  have texts : gap.text ++ [] = gap'.text ++ [] := by rw [same]
  exact (eq_of_append whole.nil whole'.nil Filler.not_prefix_nil Filler.not_prefix_nil texts).1

end Gap

/-! ### One way to account for a source -/

namespace Dissection

/-- Parts are settled by their tokens and the texts of their gaps. -/
theorem parts_eq {parts parts' : List (Gap × Token)} {after after' : Text}
    (whole : WholePartsBefore parts after) (whole' : WholePartsBefore parts' after')
    (gaps : parts.map (·.1.text) = parts'.map (·.1.text))
    (tokens : parts.map (·.2) = parts'.map (·.2)) : parts = parts' := by
  induction parts generalizing parts' with
  | nil => exact (List.map_eq_nil_iff.mp gaps.symm).symm
  | cons part parts ih =>
      cases parts' with
      | nil => contradiction
      | cons part' parts' =>
          obtain ⟨gap, t⟩ := part
          obtain ⟨gap', t'⟩ := part'
          obtain ⟨text, otherGaps⟩ := List.cons.inj gaps
          obtain ⟨rfl, otherTokens⟩ := List.cons.inj tokens
          obtain rfl := Gap.eq_of_text whole.1 whole'.1 text
          rw [ih whole.2 whole'.2 otherGaps otherTokens]

theorem not_prefix_tailText (d : Dissection) (f : Filler) : ¬ f.text <+: d.tailText := by
  unfold tailText
  cases d.tail with
  | none => exact f.not_prefix_nil
  | some body => exact f.not_prefix_quote body.1

/-- A tail is settled by its text. -/
theorem tail_eq {d d' : Dissection} (same : d.tailText = d'.tailText) : d.tail = d'.tail := by
  unfold tailText at same
  cases tail : d.tail with
  | none =>
      cases tail' : d'.tail with
      | none => rfl
      | some body' => simp [tail, tail'] at same
  | some body =>
      cases tail' : d'.tail with
      | none => simp [tail, tail'] at same
      | some body' =>
          simp only [tail, tail', Option.elim_some, List.cons.injEq, true_and] at same
          rw [Subtype.ext same]

end Dissection

/-- The tokens of a scan settle what stands between them, and so the characters of its faults. -/
theorem Accounts.unique {source : Text} {result result' : Scan} {d d' : Dissection}
    (h : Accounts source result d) (h' : Accounts source result' d')
    (same : result.tokens = result'.tokens) : d = d' := by
  have tokens : d.tokens = d'.tokens := by
    have closed : d.tokens ++ [closingToken source] = d'.tokens ++ [closingToken source] := by
      rw [← h.tokens, same, h'.tokens]
    exact List.append_cancel_right closed
  have texts : d.gapTexts = d'.gapTexts := by
    apply (List.map_inj_right fun _ _ => Option.some.inj).mp
    rw [← h.gaps, same, h'.gaps]
  obtain ⟨gaps, last⟩ := List.append_inj' texts rfl
  obtain ⟨sameLast, tails⟩ := Gap.eq_of_append h.comments.last h'.comments.last
    d.not_prefix_tailText d'.not_prefix_tailText (List.cons.inj last).1
  have parts := Dissection.parts_eq h.comments.parts h'.comments.parts gaps tokens
  exact Dissection.ext parts sameLast (Dissection.tail_eq tails)

/-- Every source has a dissection that accounts for scanning it. -/
theorem exists_accounts (source : Text) : ∃ d : Dissection, Accounts source (scan source) d := by
  obtain ⟨d, whole, same, placed, comments, reported⟩ :=
    (Reading.of_scan source).exists_dissection
  have parted : source = Dissection.partsText d.parts ++ (d.last.text ++ d.tailText) := whole.symm
  have close : Text.slice? source (Text.byteLength source) (Text.byteLength source) = some [] := by
    simpa using Text.slice?_append source [] []
  refine ⟨d, whole, same, ?_, ?_, ?_, ?_, comments, reported⟩
  · intro t member
    obtain ⟨part, inside, rfl⟩ := List.mem_map.mp member
    exact placed.lexeme_ne_nil part inside
  · intro t member
    rw [same] at member
    rcases List.mem_append.mp member with member | member
    · obtain ⟨part, inside, rfl⟩ := List.mem_map.mp member
      have cut := Placed.slice_lexeme [] (d.last.text ++ d.tailText) placed part inside
      rwa [List.nil_append, ← parted] at cut
    · rw [List.mem_singleton.mp member]
      exact close
  · rw [same, List.pairwise_append]
    refine ⟨placed.pairwise, List.pairwise_singleton _ _, ?_⟩
    intro t member u last
    obtain ⟨part, inside, rfl⟩ := List.mem_map.mp member
    rw [List.mem_singleton.mp last]
    have bounds := placed.bounds part inside
    have fits : Text.byteLength (Dissection.partsText d.parts) ≤ Text.byteLength source := by
      rw [parted, Text.byteLength_append]
      exact Nat.le_add_right ..
    simp only [closingToken, List.nil_append, Text.byteLength_nil] at bounds ⊢
    omega
  · have atEnd : (closingToken source).span.start =
        Text.byteLength ([] ++ Dissection.partsText d.parts ++ (d.last.text ++ d.tailText)) := by
      rw [List.nil_append, ← parted]
      rfl
    have gaps := Placed.slice_gaps [] (d.last.text ++ d.tailText) placed atEnd
    rw [List.nil_append, ← parted] at gaps
    rw [same]
    exact gaps

/-- **Scanning loses nothing and counts nothing twice.** Every source can be taken apart in one way
into gaps, lexemes and perhaps the tail of an unclosed string, so that all its bytes are accounted
for, the spans of all tokens and the characters of all faults. -/
theorem existsUnique_accounts (source : Text) :
    ∃! d : Dissection, Accounts source (scan source) d := by
  obtain ⟨d, accounts⟩ := exists_accounts source
  exact ⟨d, accounts, fun d' other => other.unique accounts rfl⟩

end LoxTokens
