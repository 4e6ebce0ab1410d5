import LoxTokens.Proofs.Numerals
import LoxTokens.Proofs.RegisterPlaces

/-!
One round of scanning.

A head is sound if it stands at a piece of the source that was begun and not yet passed, or between two
pieces, and the tokens and faults so far are those of the pieces that were passed. Every round that
starts from such a head can be made, and leads to such a head: what a loop has taken when it ends is
the piece that is read there, since nothing that is left would make it grow.

* `Midway.settle` — a lexeme that was taken is the next piece of the source.
* `continues_comment`, `continues_string`, `continues_digits`, `continues_fraction`,
  `continues_word` — a round of each loop that goes on with a lexeme.
* `leads_dispatch` — the round that begins a lexeme, by its first character.
-/

namespace LoxTokens

/-! ### Lexemes that were begun -/

/-- A piece of the source was begun and not yet passed: the pieces before it, and only they, have
given their tokens and faults. -/
structure Midway (source : Text) (r : Registers) (passed : List Piece) (seen rest : Text) :
    Prop where
  place : StandsAt source r (textOf passed) seen rest
  pieces_eq : pieces source = passed ++ pieces (seen ++ rest)
  tokens : r.tokens = tokensFrom 0 1 passed
  faults : r.faults = faultsFrom 0 1 passed

/-- The registers stand between two pieces, or at an end of the source. The lexeme that they know of
is the last one. -/
structure Between (source : Text) (r : Registers) (passed : List Piece) (rest : Text) : Prop where
  place : ∃ front seen, textOf passed = front ++ seen ∧ StandsAt source r front seen rest
  pieces_eq : pieces source = passed ++ pieces rest
  tokens : r.tokens = tokensFrom 0 1 passed
  faults : r.faults = faultsFrom 0 1 passed

/-- What a loop has taken of its lexeme when a round begins; behind a point stands a digit. -/
inductive Begun : Loop → Text → Text → Prop where
  | comment {body rest : Text} : '\n' ∉ body → Begun .comment ('/' :: '/' :: body) rest
  | string {body rest : Text} : '"' ∉ body → Begun .string ('"' :: body) rest
  | digits {whole rest : Text} : whole ≠ [] → (∀ c ∈ whole, Digit c) → Begun .digits whole rest
  | fraction {whole fraction rest : Text} : whole ≠ [] → (∀ c ∈ whole, Digit c) →
      (∀ c ∈ fraction, Digit c) → (fraction ≠ [] ∨ rest.head?.any Char.isDigit = true) →
      Begun .fraction (whole ++ '.' :: fraction) rest
  | word {t rest : Text} : Word t → Begun .word t rest

/-- A head with the pieces that were passed and the text that is left. -/
inductive Sound (source : Text) : Head → List Piece → Text → Prop where
  | between {r : Registers} {passed : List Piece} {rest : Text} :
      Between source r passed rest → Sound source ⟨.main, r⟩ passed rest
  | midway {loop : Loop} {r : Registers} {passed : List Piece} {seen rest : Text} :
      Begun loop seen rest → Midway source r passed seen rest → Sound source ⟨loop, r⟩ passed rest

section

variable {source : Text} {r : Registers} {passed : List Piece} {seen rest : Text} {c : Char}

theorem Between.begin (h : Between source r passed rest) :
    Midway source r.begin passed [] rest := by
  obtain ⟨front, seen, written, place⟩ := h.place
  exact ⟨written ▸ place.begin, h.pieces_eq, h.tokens, h.faults⟩

namespace Midway

theorem pass (h : Midway source r passed seen (c :: rest)) :
    Midway source (r.pass c) passed (seen ++ [c]) rest := by
  have kept : (r.pass c).tokens = r.tokens ∧ (r.pass c).faults = r.faults := by
    rw [Registers.pass, Registers.advance, h.place.left]
    split <;> exact ⟨rfl, rfl⟩
  refine ⟨h.place.pass, ?_, kept.1.trans h.tokens, kept.2.trans h.faults⟩
  rw [List.append_assoc]
  exact h.pieces_eq

theorem advance (h : Midway source r passed seen (c :: rest)) (noNewline : c ≠ '\n') :
    Midway source r.advance passed (seen ++ [c]) rest := by
  have later := h.pass
  rwa [Registers.pass, if_neg noNewline] at later

theorem newline (h : Midway source r passed seen ('\n' :: rest)) :
    Midway source r.advance.countLine passed (seen ++ ['\n']) rest := h.pass

/-- A lexeme that was taken is the next piece: with its token and its fault it was passed. -/
theorem settle {p : Piece} (h : Midway source r passed p.text rest)
    (read : Piece.first? (p.text ++ rest) = some p) {r' : Registers}
    (place : StandsAt source r' (textOf passed) p.text rest)
    (tokens : r'.tokens = r.tokens ++ (Segment.token?
      ⟨p, Text.byteLength (textOf passed), lineAfter (textOf passed)⟩).toList)
    (faults : r'.faults = r.faults ++ (Segment.fault?
      ⟨p, Text.byteLength (textOf passed), lineAfter (textOf passed)⟩).toList) :
    Sound source ⟨.main, r'⟩ (passed ++ [p]) rest := by
  refine .between ⟨⟨textOf passed, p.text, by simp [textOf], place⟩, ?_, ?_, ?_⟩
  · rw [h.pieces_eq, pieces_append read, List.append_assoc]
    rfl
  · rw [tokens, h.tokens, tokensFrom_append, tokensFrom_cons, Nat.zero_add]
    simp [tokensFrom, segmentsFrom, lineAfter]
  · rw [faults, h.faults, faultsFrom_append, faultsFrom_cons, Nat.zero_add]
    simp [faultsFrom, segmentsFrom, lineAfter]

/-- A token is cut out and added. -/
theorem exists_push? {p : Piece} {kind : Kind} {literal : Option Literal}
    (h : Midway source r passed p.text rest) (read : Piece.first? (p.text ++ rest) = some p)
    (same : p.kind? = some kind) (value : p.literal? = literal) :
    ∃ r', r.push? kind literal = some ⟨.main, r'⟩ ∧
      Sound source ⟨.main, r'⟩ (passed ++ [p]) rest := by
  refine ⟨_, h.place.push?_eq kind literal, h.settle read (h.place.withTokens _) ?_ ?_⟩
  · simp [Segment.token?, same, value, tokenAfter, Segment.span]
  · cases p <;> first | contradiction | exact (List.append_nil _).symm

/-- A piece that is passed over leaves nothing behind. -/
theorem pass_over {p : Piece} (h : Midway source r passed p.text rest)
    (read : Piece.first? (p.text ++ rest) = some p) (silent : p.Silent) :
    Sound source ⟨.main, r⟩ (passed ++ [p]) rest := by
  obtain ⟨noToken, noFault⟩ := silent.segment (Text.byteLength (textOf passed))
    (lineAfter (textOf passed))
  refine h.settle read h.place ?_ ?_
  · rw [noToken]
    exact (List.append_nil _).symm
  · rw [noFault]
    exact (List.append_nil _).symm

/-- A fault is reported. -/
theorem report {p : Piece} {f : Fault} (h : Midway source r passed p.text rest)
    (read : Piece.first? (p.text ++ rest) = some p) (none : p.kind? = none)
    (fault : Segment.fault? ⟨p, Text.byteLength (textOf passed), lineAfter (textOf passed)⟩ =
      some f) : Sound source ⟨.main, r.report f⟩ (passed ++ [p]) rest := by
  refine h.settle read (h.place.report f) ?_ ?_
  · simp [Segment.token?, none, Registers.report]
  · rw [fault]
    rfl

end Midway

end

/-! ### Rounds that go on with a lexeme -/

/-- Where a round may lead that goes on with a lexeme, and the text that it takes: it leaves the
lexeme begun, or it comes to its end. -/
inductive Onward (source : Text) (passed : List Piece) : Text → Text → Head → Prop where
  | begun {loop : Loop} {r : Registers} {seen : Text} (taken : Text) {back : Text} :
      Begun loop seen back → Midway source r passed seen back →
        Onward source passed (taken ++ back) taken ⟨loop, r⟩
  | settled {r : Registers} {p : Piece} (taken : Text) {back : Text} :
      Sound source ⟨.main, r⟩ (passed ++ [p]) back →
        Onward source passed (taken ++ back) taken ⟨.main, r⟩

/-- A round can be made, and leads onward. -/
def Leads (source : Text) (passed : List Piece) (rest : Text) (next : Option Head) : Prop :=
  ∃ h taken, next = some h ∧ Onward source passed rest taken h

/-- A round of a loop but the main one leads onward by a character, or back to the main loop. -/
def Continues (source : Text) (passed : List Piece) (rest : Text) (next : Option Head) : Prop :=
  ∃ h taken, next = some h ∧ Onward source passed rest taken h ∧ (taken = [] → h.loop = .main)

section

variable {source : Text} {r : Registers} {passed : List Piece} {rest : Text}

theorem Continues.leads {next : Option Head} (h : Continues source passed rest next) :
    Leads source passed rest next := by
  obtain ⟨head, taken, same, onward, -⟩ := h
  exact ⟨head, taken, same, onward⟩

theorem Continues.one {loop : Loop} {seen : Text} {c : Char} (begun : Begun loop seen rest)
    (h : Midway source r passed seen rest) :
    Continues source passed (c :: rest) (some ⟨loop, r⟩) :=
  ⟨_, [c], rfl, .begun [c] begun h, by simp⟩

theorem Continues.settled {p : Piece} (sound : Sound source ⟨.main, r⟩ (passed ++ [p]) rest) :
    Continues source passed rest (some ⟨.main, r⟩) :=
  ⟨_, [], rfl, .settled [] sound, fun _ => rfl⟩

theorem Continues.push {p : Piece} {kind : Kind} {literal : Option Literal}
    (h : Midway source r passed p.text rest) (read : Piece.first? (p.text ++ rest) = some p)
    (same : p.kind? = some kind) (value : p.literal? = literal) :
    Continues source passed rest (r.push? kind literal) := by
  obtain ⟨r', pushed, sound⟩ := h.exists_push? read same value
  rw [pushed]
  exact .settled sound

theorem exists_cons_of_any {f : Char → Bool} {t : Text} (h : t.head?.any f = true) :
    ∃ c back, f c = true ∧ t = c :: back := by
  cases t with
  | nil => simp at h
  | cons c back => exact ⟨c, back, h, rfl⟩

theorem Digit.ne_newline {c : Char} (digit : Digit c) : c ≠ '\n' := by
  rintro rfl
  exact absurd digit.1 (by decide)

theorem continues_comment {body : Text} (inLine : '\n' ∉ body)
    (h : Midway source r passed ('/' :: '/' :: body) rest) :
    Continues source passed rest (some r.commentRound) := by
  rw [Registers.commentRound, h.place.peek?_eq]
  split
  · next more =>
      obtain ⟨c, back, visible, rfl⟩ := exists_cons_of_any more
      have noNewline : c ≠ '\n' := by simpa using visible
      have inLine' : '\n' ∉ body ++ [c] := by simp [inLine, noNewline.symm]
      exact .one (.comment inLine') (h.advance noNewline)
  · next stop =>
      have read : Piece.first? ((Piece.comment body).text ++ rest) = some (.comment body) :=
        Piece.first?_append_iff.mpr ⟨inLine, by simpa [Piece.grows] using stop⟩
      exact .settled (h.pass_over read trivial)

/-- A string that is never closed takes all that is left, and is one fault. -/
theorem continues_unclosed {body : Text} (inside : '"' ∉ body)
    (h : Midway source r passed ('"' :: body) []) :
    Continues source passed [] (some ⟨.main, r.report (.unterminatedString r.line)⟩) := by
  have read : Piece.first? ((Piece.openString body).text ++ []) = some (.openString body) :=
    Piece.first?_append_iff.mpr ⟨inside, rfl⟩
  have fault : Segment.fault? ⟨.openString body, Text.byteLength (textOf passed),
      lineAfter (textOf passed)⟩ = some (.unterminatedString r.line) := by
    rw [h.place.line, lineAfter_append]
    rfl
  exact .settled (h.report read rfl fault)

/-- The closing quote makes the text since the opening one a string. -/
theorem continues_quote {body : Text} (inside : '"' ∉ body)
    (h : Midway source r passed ('"' :: body) ('"' :: rest)) :
    Continues source passed ('"' :: rest) r.advance.pushString? := by
  have closed : Midway source r.advance passed (Piece.string body).text rest :=
    h.advance (by decide)
  have read : Piece.first? ((Piece.string body).text ++ rest) = some (.string body) :=
    Piece.first?_append_iff.mpr ⟨inside, rfl⟩
  obtain ⟨r', pushed, sound⟩ := closed.exists_push? read rfl rfl
  rw [Registers.pushString?, closed.place.inner?_eq]
  exact ⟨_, ['"'], pushed, .settled ['"'] sound, fun _ => rfl⟩

theorem continues_string {body : Text} (inside : '"' ∉ body)
    (h : Midway source r passed ('"' :: body) rest) :
    Continues source passed rest r.stringRound? := by
  rw [Registers.stringRound?, h.place.peek?_eq]
  cases rest with
  | nil => exact continues_unclosed inside h
  | cons c back =>
      show Continues source passed (c :: back) (if c = '"' then _ else _)
      split
      · next quote =>
          subst quote
          exact continues_quote inside h
      · next noQuote =>
          have inside' : '"' ∉ body ++ [c] := by simp [inside, Ne.symm noQuote]
          split
          · next newline =>
              subst newline
              -- Here a line end is counted before it is taken.
              rw [Registers.countLine_advance]
              exact .one (.string inside') h.newline
          · next noNewline => exact .one (.string inside') (h.advance noNewline)

/-- A number that was taken is read: no default stands in for it. -/
theorem continues_number {whole fraction : Text} (formed : (Piece.number whole fraction).WellFormed)
    (stays : (Piece.number whole fraction).grows rest = false)
    (h : Midway source r passed (Piece.number whole fraction).text rest) :
    Continues source passed rest r.pushNumber? := by
  have value : Binary64.read? (Piece.number whole fraction).text =
      some (.ofDecimal whole fraction) := by
    obtain ⟨nonempty, digits, fractional⟩ := formed
    by_cases none : fraction = []
    · subst none
      exact Binary64.read?_digits nonempty digits
    · rw [Piece.text, if_neg (by simpa using none)]
      exact Binary64.read?_pointed nonempty digits fractional
  have read := Piece.first?_append_iff.mpr ⟨formed, stays⟩
  rw [Registers.pushNumber?, h.place.lexeme?_eq, Option.bind_some, value, Option.getD_some]
  exact .push h read rfl rfl

theorem continues_digits {whole : Text} (nonempty : whole ≠ []) (digits : ∀ c ∈ whole, Digit c)
    (h : Midway source r passed whole rest) :
    Continues source passed rest r.digitsRound? := by
  rw [Registers.digitsRound?, h.place.peek?_eq, h.place.peekNext?_eq]
  split
  · next more =>
      obtain ⟨c, back, digit, rfl⟩ := exists_cons_of_any more
      have digit' := isDigit_iff.mp digit
      have digits' : ∀ d ∈ whole ++ [c], Digit d := by simp_all [or_imp]
      exact .one (.digits (by simp) digits') (h.advance digit'.ne_newline)
  · next stop =>
      split
      · next point =>
          obtain ⟨back, rfl⟩ := List.head?_eq_some_iff.mp point.1
          exact .one (.fraction nonempty digits (by simp) (.inr point.2)) (h.advance (by decide))
      · next noPoint =>
          have noFraction : startsFraction rest = false := by
            unfold startsFraction
            split
            · simpa using noPoint
            · rfl
          have stays : (Piece.number whole []).grows rest = false := by
            simpa [Piece.grows, noFraction] using stop
          exact continues_number ⟨nonempty, digits, by simp⟩ stays h

theorem continues_fraction {whole fraction : Text} (nonempty : whole ≠ [])
    (digits : ∀ c ∈ whole, Digit c) (fractional : ∀ c ∈ fraction, Digit c)
    (begins : fraction ≠ [] ∨ rest.head?.any Char.isDigit = true)
    (h : Midway source r passed (whole ++ '.' :: fraction) rest) :
    Continues source passed rest r.fractionRound? := by
  rw [Registers.fractionRound?, h.place.peek?_eq]
  split
  · next more =>
      obtain ⟨c, back, digit, rfl⟩ := exists_cons_of_any more
      have digit' := isDigit_iff.mp digit
      have fractional' : ∀ d ∈ fraction ++ [c], Digit d := by simp_all [or_imp]
      have later := h.advance digit'.ne_newline
      rw [List.append_assoc, List.cons_append] at later
      exact .one (.fraction nonempty digits fractional' (.inl (by simp))) later
  · next stop =>
      -- The point was taken for the digit behind it, so the fraction is not empty when it ends.
      have nonempty' : fraction ≠ [] := begins.resolve_right stop
      have written : (Piece.number whole fraction).text = whole ++ '.' :: fraction := by
        simp [Piece.text, nonempty']
      have stays : (Piece.number whole fraction).grows rest = false := by
        simpa [Piece.grows, nonempty'] using stop
      exact continues_number ⟨nonempty, digits, fractional⟩ stays (written ▸ h)

theorem continues_word {t : Text} (word : Word t) (h : Midway source r passed t rest) :
    Continues source passed rest r.wordRound? := by
  rw [Registers.wordRound?, h.place.peek?_eq]
  split
  · next more =>
      obtain ⟨c, back, continues, rfl⟩ := exists_cons_of_any more
      obtain ⟨first, inside, rfl, letter, others⟩ := word
      have noNewline : c ≠ '\n' := by
        rintro rfl
        exact absurd continues (by decide)
      have word' : Word (first :: inside ++ [c]) := by
        refine ⟨first, inside ++ [c], rfl, letter, ?_⟩
        have last := continuesWord_iff.mp continues
        simp_all [or_imp]
      exact .one (.word word') (h.advance noNewline)
  · next stop =>
      have read : Piece.first? ((Piece.word t).text ++ rest) = some (.word t) :=
        Piece.first?_append_iff.mpr ⟨word, by simpa [Piece.grows] using stop⟩
      rw [Registers.pushWord?, h.place.lexeme?_eq, Option.bind_some]
      exact .push (p := .word t) h read rfl rfl

end

/-! ### Rounds that begin a lexeme -/

namespace Mark

variable {c : Char}

theorem of_ofChar? {m : Mark} (h : ofChar? c = some m) :
    m.spelling = [c] ∧ ∀ d, m.joins d = false := by
  unfold ofChar? at h
  split at h <;> first | contradiction | (cases h; exact ⟨rfl, fun _ => rfl⟩)

theorem of_pairOfChar? {long short : Mark} (h : pairOfChar? c = some (long, short)) :
    long.spelling = [c, '='] ∧ short.spelling = [c] ∧ ∀ d, long.joins d = false ∧
      short.joins d = (d == '=') := by
  unfold pairOfChar? at h
  split at h <;> first | contradiction | (cases h; exact ⟨rfl, rfl, fun _ => ⟨rfl, rfl⟩⟩)

/-- There is no mark that starts with any other character. -/
theorem first?_eq_none (h : ofChar? c = none) (h' : pairOfChar? c = none) (noSlash : c ≠ '/')
    (rest : Text) : first? (c :: rest) = none := by
  unfold first?
  split <;> first | rfl | simp_all [ofChar?, pairOfChar?]

end Mark

section

variable {source : Text} {r : Registers} {passed : List Piece} {c : Char} {back : Text}

theorem Leads.begun {loop : Loop} {seen : Text} (begun : Begun loop seen back)
    (h : Midway source r passed seen back) : Leads source passed back (some ⟨loop, r⟩) :=
  ⟨_, [], rfl, .begun [] begun h⟩

theorem leads_blank (h : Midway source r passed [c] back) (blank : c ∈ [' ', '\t', '\r', '\n']) :
    Leads source passed back (some ⟨.main, r⟩) := by
  have read : Piece.first? ((Piece.blank c).text ++ back) = some (.blank c) :=
    Piece.first?_append_iff.mpr ⟨blank, rfl⟩
  exact Continues.leads (.settled (h.pass_over read trivial))

theorem leads_mark {m : Mark} (h : Midway source r passed [c] back) (one : m.spelling = [c])
    (stays : back.head?.any m.joins = false) :
    Leads source passed back (r.push? (.mark m) none) := by
  have read : Piece.first? ((Piece.mark m).text ++ back) = some (.mark m) :=
    Piece.first?_append_iff.mpr ⟨trivial, stays⟩
  rw [← one] at h
  exact Continues.leads (.push (p := .mark m) h read rfl rfl)

/-- The longer of two marks is taken where it stands. -/
theorem leads_pair {long short : Mark} (h : Midway source r passed [c] back)
    (known : Mark.pairOfChar? c = some (long, short)) :
    Leads source passed back (if back.head? = some '=' then r.advance.push? (.mark long) none
      else r.push? (.mark short) none) := by
  obtain ⟨two, one, joins⟩ := Mark.of_pairOfChar? known
  split
  · next equals =>
      obtain ⟨back, rfl⟩ := List.head?_eq_some_iff.mp equals
      have both := h.advance (by decide)
      have read : Piece.first? ((Piece.mark long).text ++ back) = some (.mark long) :=
        Piece.first?_append_iff.mpr ⟨trivial, by cases back <;> simp [Piece.grows, joins]⟩
      rw [List.singleton_append, ← two] at both
      obtain ⟨r', pushed, sound⟩ := both.exists_push? (p := .mark long) read rfl rfl
      exact ⟨_, ['='], pushed, .settled ['='] sound⟩
  · next noEquals => exact leads_mark h one (by cases back <;> simp_all)

theorem leads_slash (h : Midway source r passed ['/'] back) :
    Leads source passed back (if back.head? = some '/' then some ⟨.comment, r.advance⟩
      else r.push? (.mark .slash) none) := by
  split
  · next slashes =>
      obtain ⟨back, rfl⟩ := List.head?_eq_some_iff.mp slashes
      have both := h.advance (by decide)
      exact ⟨_, ['/'], rfl, .begun ['/'] (.comment List.not_mem_nil) both⟩
  · next noSlashes => exact leads_mark h rfl (by cases back <;> simp_all [Mark.joins])

/-- A character that nothing starts with is a fault by itself. -/
theorem leads_stray (h : Midway source r passed [c] back) (visible : separates c = false)
    (noMark : Mark.ofChar? c = none) (noPair : Mark.pairOfChar? c = none) (noSlash : c ≠ '/')
    (noQuote : c ≠ '"') (noDigit : ¬ c.isDigit = true) (noLetter : ¬ startsWord c = true) :
    Leads source passed back (some ⟨.main, r.report (.unexpectedCharacter r.line c)⟩) := by
  have noComment : ∀ body, c :: back ≠ '/' :: '/' :: body :=
    fun body same => noSlash (List.cons.inj same).1
  have read : Piece.first? (c :: back) = some (.stray c) := by
    rw [Piece.first?_cons noComment noQuote, Mark.first?_eq_none noMark noPair noSlash]
    simp [visible, noDigit, noLetter]
  have noNewline : Text.newlines [c] = 0 := by
    have other : c ≠ '\n' := by
      rintro rfl
      contradiction
    simp [Text.newlines, other]
  have fault : Segment.fault? ⟨.stray c, Text.byteLength (textOf passed),
      lineAfter (textOf passed)⟩ = some (.unexpectedCharacter r.line c) := by
    rw [h.place.line, lineAfter_append, noNewline]
    rfl
  exact Continues.leads (.settled (Midway.report (p := .stray c) h read rfl fault))

/-- Whatever character comes first, it begins a lexeme or is a piece, perhaps together with the
character behind it. -/
theorem leads_dispatch (h : Midway source r passed [] (c :: back)) :
    Leads source passed back (r.advance.dispatch? c) := by
  -- The end of a line comes first: it is taken before it is counted, and in between the line is not
  -- the one of the place.
  by_cases newline : c = '\n'
  · subst newline
    exact leads_blank h.newline (by simp)
  have later : Midway source r.advance passed [c] back := h.advance newline
  generalize r.advance = r at later
  unfold Registers.dispatch?
  rw [later.place.peek?_eq]
  split
  · next m _ known =>
      obtain ⟨one, never⟩ := Mark.of_ofChar? known
      exact leads_mark later one (by cases back <;> simp [never])
  · next long short _ known => exact leads_pair later known
  · next noMark noPair =>
      split
      · next slash =>
          subst slash
          exact leads_slash later
      split
      · next blank => exact leads_blank later (by rcases blank with rfl | rfl | rfl <;> simp)
      split
      · next quote =>
          subst quote
          exact .begun (.string List.not_mem_nil) later
      split
      · next digit => exact .begun (.digits (by simp) (by simpa using isDigit_iff.mp digit)) later
      split
      · next letter =>
          exact .begun (.word ⟨c, [], rfl, startsWord_iff.mp letter, by simp⟩) later
      · next noSlash noBlank noQuote noDigit noLetter =>
          have visible : separates c = false := by
            simp only [not_or] at noBlank
            simp [separates, noBlank, newline]
          exact leads_stray later visible noMark noPair noSlash noQuote noDigit noLetter

end

end LoxTokens
