import LoxTokens.Editor.Highlight
import LoxTokens.Proofs.Pieces
import Mathlib.Data.List.Basic

/-!
What highlighting leaves of a line.

Colours put escape sequences between the characters of a line and change nothing else. `Sign.ofText`
tells the two apart again in what is shown: without the sequences it is the line, and the sequences
come in pairs, each code that sets a style followed by the one that undoes it.

The runs of a line are made from its pieces. `runsBetween?` makes them from its tokens alone: it
cuts the line at the spans, and what it cuts out between two of them is a gap.

* `StyledRun.ofText_paintAll` — the signs of painted runs, none of which holds an escape character.
* `Highlight.runsBetween?_eq` — a line can be cut at the spans of its tokens; its runs are these.
* `highlight_keeps` — a highlighted line is the line, with and without colours.
-/

namespace LoxTokens

/-! ### Escape sequences in a text -/

/-- What a terminal is sent: characters, and sequences that set a style by its code. -/
inductive Sign where
  | character (c : Char)
  | sequence (code : Text)
  deriving DecidableEq, Repr

namespace Sign

/-- Whether a character can stand in the code of an escape sequence. -/
def inCode (c : Char) : Bool := c.isDigit || c == ';'

/-- The code of the escape sequence that a text starts with, and what follows the sequence. -/
def leading? : Text → Option (Text × Text)
  | '\x1b' :: '[' :: rest =>
      match rest.dropWhile inCode with
      | 'm' :: after => some (rest.takeWhile inCode, after)
      | _ => none
  | _ => none

theorem length_of_leading? {t code after : Text} (h : leading? t = some (code, after)) :
    after.length < t.length := by
  unfold leading? at h
  split at h
  · next rest =>
      split at h
      · next ended =>
          cases h
          have cut : rest.dropWhile inCode <:+ rest := List.dropWhile_suffix inCode
          have shorter := cut.length_le
          rw [ended] at shorter
          simp only [List.length_cons] at shorter ⊢
          omega
      · contradiction
  · contradiction

/-- The signs of a text. -/
def ofText : Text → List Sign
  | [] => []
  | c :: rest =>
      match _ : leading? (c :: rest) with
      | some (code, after) => .sequence code :: ofText after
      | none => .character c :: ofText rest
termination_by t => t.length
decreasing_by
  · exact length_of_leading? ‹_›
  · simp

/-- The character of a sign; `none` for a sequence. -/
def character? : Sign → Option Char
  | .character c => some c
  | .sequence _ => none

/-- The code of a sign; `none` for a character. -/
def code? : Sign → Option Text
  | .character _ => none
  | .sequence code => some code

@[simp] theorem character?_character (c : Char) : (character c).character? = some c := rfl

@[simp] theorem character?_sequence (code : Text) : (sequence code).character? = none := rfl

@[simp] theorem code?_character (c : Char) : (character c).code? = none := rfl

@[simp] theorem code?_sequence (code : Text) : (sequence code).code? = some code := rfl

@[simp] theorem ofText_nil : ofText [] = [] := by rw [ofText]

theorem ofText_of_leading? {c : Char} {rest code after : Text}
    (h : leading? (c :: rest) = some (code, after)) :
    ofText (c :: rest) = .sequence code :: ofText after := by
  rw [ofText]
  split <;> simp_all

theorem ofText_of_none {c : Char} {rest : Text} (h : leading? (c :: rest) = none) :
    ofText (c :: rest) = .character c :: ofText rest := by
  rw [ofText]
  split <;> simp_all

/-- An escape sequence is read as its code. -/
theorem ofText_sequence {code : Text} (inside : code.all inCode = true) (rest : Text) :
    ofText (Style.sequence code ++ rest) = .sequence code :: ofText rest := by
  rw [List.all_eq_true] at inside
  have stop : ¬ inCode 'm' = true := Bool.false_ne_true
  have taken : (code ++ 'm' :: rest).takeWhile inCode = code := by
    rw [List.takeWhile_append_of_pos inside, List.takeWhile_cons_of_neg stop,
      List.append_nil]
  have left : (code ++ 'm' :: rest).dropWhile inCode = 'm' :: rest := by
    rw [List.dropWhile_append_of_pos inside, List.dropWhile_cons_of_neg stop]
  have whole : Style.sequence code ++ rest = '\x1b' :: '[' :: (code ++ 'm' :: rest) := by
    simp [Style.sequence]
  rw [whole]
  apply ofText_of_leading?
  simp [leading?, taken, left]

/-- Where no escape character stands, all characters are read as they are. -/
theorem ofText_append {t : Text} (noEscape : '\x1b' ∉ t) (rest : Text) :
    ofText (t ++ rest) = t.map .character ++ ofText rest := by
  induction t with
  | nil => rfl
  | cons c t ih =>
      rw [List.mem_cons, not_or] at noEscape
      have unread : leading? (c :: (t ++ rest)) = none := by
        unfold leading?
        split
        · next same => exact absurd (List.cons.inj same).1.symm noEscape.1
        · rfl
      rw [List.cons_append, ofText_of_none unread, ih noEscape.2]
      rfl

end Sign

namespace Text

/-- A text without its escape sequences. -/
def withoutSequences (t : Text) : Text := (Sign.ofText t).filterMap Sign.character?

/-- The codes of the escape sequences of a text, in order. -/
def codes (t : Text) : List Text := (Sign.ofText t).filterMap Sign.code?

end Text

/-! ### Codes in pairs -/

namespace Style

/-- The code that undoes all that codes set. -/
def resetCode : Text := "0"

/-- The code that undoes a colour. -/
def hueResetCode : Text := "39"

/-- The codes of colours, dark and bright. -/
def hueCodes : List Text :=
  ["30", "31", "32", "33", "34", "35", "36", "37", "90", "91", "92", "93", "94", "95", "96", "97"]

/-- Whether a code sets nothing of its own, and only undoes what others set. -/
def undoes (code : Text) : Bool := code == resetCode || code == hueResetCode

/-- What one code sets, the other code undoes. -/
inductive Undoes : Text → Text → Prop where
  | all {opening : Text} : undoes opening = false → Undoes opening resetCode
  | hue {opening : Text} : opening ∈ hueCodes → Undoes opening hueResetCode

/-- Codes of which each one that sets a style is undone by the next, before another is set. -/
inductive Paired : List Text → Prop where
  | nil : Paired []
  | cons {opening closing : Text} {rest : List Text} : Undoes opening closing → Paired rest →
      Paired (opening :: closing :: rest)

/-- A style whose codes can stand in escape sequences, and whose end undoes its start. -/
structure Undone (style : Style) : Prop where
  opening : style.opening.all Sign.inCode = true
  closing : style.closing.all Sign.inCode = true
  undoes : Undoes style.opening style.closing

theorem Paired.append {codes more : List Text} (h : Paired codes) (h' : Paired more) :
    Paired (codes ++ more) := by
  induction h with
  | nil => exact h'
  | cons undoes _ ih => exact .cons undoes ih

/-- The styles of tokens and of comments reset everything at their end. -/
theorem undone_of_mem {style : Style}
    (listed : style ∈ [blue, boldMagenta, green, yellow, cyan, dimmed]) : style.Undone := by
  simp only [List.mem_cons, List.not_mem_nil, or_false] at listed
  rcases listed with rfl | rfl | rfl | rfl | rfl | rfl <;> exact ⟨rfl, rfl, .all rfl⟩

theorem undone_hue {opening : Text} (listed : opening ∈ hueCodes) : (hue opening).Undone where
  opening := by
    have all : hueCodes.all (·.all Sign.inCode) = true := rfl
    exact List.all_eq_true.mp all opening listed
  closing := rfl
  undoes := .hue listed

end Style

/-! ### Painted runs -/

namespace StyledRun

/-- The signs of a run that is painted. -/
def signs (r : StyledRun) : List Sign :=
  match r.style with
  | none => r.text.map .character
  | some style =>
      .sequence style.opening :: r.text.map .character ++ [.sequence style.closing]

/-- A run that can be told from the sequences around it: it holds no escape character, and its style
is undone. -/
structure Readable (r : StyledRun) : Prop where
  noEscape : '\x1b' ∉ r.text
  undone : ∀ style, r.style = some style → style.Undone

theorem ofText_paint {r : StyledRun} (h : r.Readable) (rest : Text) :
    Sign.ofText (r.paint true ++ rest) = r.signs ++ Sign.ofText rest := by
  cases same : r.style with
  | none => simp [paint, signs, same, Sign.ofText_append h.noEscape]
  | some style =>
      have undone := h.undone style same
      simp [paint, signs, same, Style.paint, Sign.ofText_sequence undone.opening,
        Sign.ofText_sequence undone.closing, Sign.ofText_append h.noEscape]

/-- Painted runs are read back run by run. -/
theorem ofText_paintAll {runs : List StyledRun} (h : ∀ r ∈ runs, r.Readable) :
    Sign.ofText (paintAll true runs) = runs.flatMap signs := by
  induction runs with
  | nil => exact Sign.ofText_nil
  | cons r runs ih =>
      rw [List.forall_mem_cons] at h
      rw [List.flatMap_cons, ← ih h.2]
      exact ofText_paint h.1 _

theorem characters_signs (r : StyledRun) : r.signs.filterMap Sign.character? = r.text := by
  unfold signs
  split <;> simp [List.filterMap_cons, Function.comp_def]

theorem paired_signs {r : StyledRun} (h : r.Readable) :
    Style.Paired (r.signs.filterMap Sign.code?) := by
  unfold signs
  split
  · simpa [Function.comp_def] using Style.Paired.nil
  · next style same =>
      have pair := Style.Paired.cons (h.undone style same).undoes .nil
      simpa [List.filterMap_cons, Function.comp_def] using pair

/-- Without its escape sequences, what is painted is the text of the runs. -/
theorem withoutSequences_paintAll {runs : List StyledRun} (h : ∀ r ∈ runs, r.Readable) :
    Text.withoutSequences (paintAll true runs) = runs.flatMap (·.text) := by
  rw [Text.withoutSequences, ofText_paintAll h, List.filterMap_flatMap]
  exact List.flatMap_congr fun r _ => characters_signs r

theorem paired_paintAll {runs : List StyledRun} (h : ∀ r ∈ runs, r.Readable) :
    Style.Paired (Text.codes (paintAll true runs)) := by
  rw [Text.codes, ofText_paintAll h, List.filterMap_flatMap]
  induction runs with
  | nil => exact .nil
  | cons r runs ih =>
      rw [List.forall_mem_cons] at h
      exact (paired_signs h.1).append (ih h.2)

end StyledRun

/-! ### The runs of a line -/

theorem Kind.undone_of_style? {kind : Kind} {style : Style} (h : kind.style? = some style) :
    style.Undone := by
  apply Style.undone_of_mem
  cases kind with
  | keyword k => cases k <;> simp_all [style?, Keyword.isValue]
  | mark m => cases m <;> simp_all [style?, Mark.isBracket, Mark.isSeparator]
  | string | number => simp_all [style?]
  | identifier | endOfSource => contradiction

namespace Highlight

variable {r : StyledRun} {style : Style}

theorem undone_of_gapRuns {gap : Text} (member : r ∈ gapRuns gap) (styled : r.style = some style) :
    style.Undone := by
  have dimmed : r.style = none ∨ r.style = some .dimmed := by
    unfold gapRuns at member
    split at member
    next before after split =>
      cases after with
      | nil => simp_all [StyledRun.bare]
      | cons c after =>
          have either : r = .bare before ∨ r = ⟨some .dimmed, c :: after⟩ := by simpa using member
          rcases either with rfl | rfl
          · exact .inl rfl
          · exact .inr rfl
  rcases dimmed with plain | same
  · simp [plain] at styled
  · cases same.symm.trans styled
    exact Style.undone_of_mem (by simp)

theorem undone_of_segmentRuns {passed : Text} {segments : List Segment}
    (member : r ∈ segmentRuns passed segments) (styled : r.style = some style) :
    style.Undone := by
  induction segments generalizing passed with
  | nil => exact undone_of_gapRuns member styled
  | cons s rest ih =>
      rw [segmentRuns] at member
      split at member
      · exact ih member
      · rcases List.mem_append.mp member with gap | member
        · exact undone_of_gapRuns gap styled
        · rcases List.mem_cons.mp member with rfl | later
          · exact Kind.undone_of_style? styled
          · exact ih later

theorem readable_sourceRuns {t : Text} (noEscape : '\x1b' ∉ t) :
    ∀ r ∈ sourceRuns t, r.Readable := by
  intro r member
  constructor
  · intro escape
    apply noEscape
    rw [← flatMap_text_sourceRuns t]
    exact List.mem_flatMap.mpr ⟨r, member, escape⟩
  · intro style styled
    exact undone_of_segmentRuns member styled

theorem readable_lineRuns {t : Text} (noEscape : '\x1b' ∉ t) : ∀ r ∈ lineRuns t, r.Readable := by
  unfold lineRuns
  split
  · intro r member
    rw [List.mem_singleton.mp member]
    refine ⟨noEscape, ?_⟩
    rintro style ⟨⟩
    exact Style.undone_hue (by simp [Style.hueCodes])
  · exact readable_sourceRuns noEscape

/-! ### Cutting a line at the spans of its tokens -/

/-- The runs of a line from a byte on: what stands before each token is a gap. `none` where the line
cannot be cut at a span. -/
def runsBetween? (line : Text) : Nat → List Token → Option (List StyledRun)
  | start, [] => (Text.dropBytes? start line).map gapRuns
  | start, t :: rest => do
      let gap ← Text.slice? line start t.span.start
      let later ← runsBetween? line t.span.stop rest
      some (gapRuns gap ++ ⟨t.kind.style?, t.lexeme⟩ :: later)

/-- What stands between two bytes of a line is a gap, and a token follows. -/
theorem runsBetween?_cons {line gap : Text} {start : Nat} {t : Token} {rest : List Token}
    {later : List StyledRun} (cut : Text.slice? line start t.span.start = some gap)
    (next : runsBetween? line t.span.stop rest = some later) :
    runsBetween? line start (t :: rest) =
      some (gapRuns gap ++ ⟨t.kind.style?, t.lexeme⟩ :: later) := by
  rw [runsBetween?, cut, next]
  rfl

/-- Cutting at the spans of tokens follows the pieces. What was passed since the last token, and is
none, is `passed`. -/
theorem runsBetween?_pieces {line front passed : Text} {ps : List Piece} (l : Nat)
    (whole : line = front ++ passed ++ textOf ps) :
    runsBetween? line (Text.byteLength front)
        (tokensFrom (Text.byteLength (front ++ passed)) l ps ++ [closingToken line]) =
      some (segmentRuns passed (segmentsFrom (Text.byteLength (front ++ passed)) l ps) ++
        [.bare [], .bare []]) := by
  induction ps generalizing front passed l with
  | nil =>
      rw [textOf_nil, List.append_nil] at whole
      have gap : Text.slice? line (Text.byteLength front) (Text.byteLength line) = some passed := by
        rw [whole]
        simpa using Text.slice?_append front passed []
      have last : Text.dropBytes? (Text.byteLength line) line = some [] := by
        simpa using Text.dropBytes?_append line []
      have ended : runsBetween? line (Text.byteLength line) [] = some [.bare []] := by
        rw [runsBetween?, last]
        rfl
      rw [← whole]
      exact runsBetween?_cons gap ended
  | cons p ps ih =>
      have offset := Text.byteLength_append (front ++ passed) p.text
      rw [tokensFrom_cons, segmentsFrom, segmentRuns]
      -- a piece that is no token joins the gap before it, and a token ends the gap
      cases kind : p.kind? with
      | none =>
          have token : Segment.token? ⟨p, Text.byteLength (front ++ passed), l⟩ = none := by
            simp [Segment.token?, kind]
          have later := @ih front (passed ++ p.text) (l + Text.newlines p.text) (by simp [whole])
          rw [← List.append_assoc, offset] at later
          rw [token]
          exact later
      | some kind =>
          have gap := Text.slice?_append front passed (p.text ++ textOf ps)
          have later := @ih (front ++ passed ++ p.text) [] (l + Text.newlines p.text)
            (by simp [whole])
          rw [List.append_nil, offset] at later
          rw [textOf_cons] at whole
          rw [← whole] at gap
          rw [Segment.token?, kind, Option.map_some, Option.toList_some, List.append_assoc,
            List.append_assoc (gapRuns passed)]
          exact runsBetween?_cons gap later

theorem runsBetween?_eq (line : Text) :
    runsBetween? line 0 (scan line).tokens = some (sourceRuns line ++ [.bare [], .bare []]) := by
  have cut := @runsBetween?_pieces line [] [] (pieces line) 1 (textOf_pieces line).symm
  rw [scan_eq, sourceRuns, course, Cursor.start, Cursor.course_eq]
  exact cut

/-! ### Highlighted lines -/

/-- A way to show a line that keeps the line. -/
structure Keeps (line : Text) (shown : Bool → Text) : Prop where
  plain : shown false = line
  /-- Without its escape sequences, what is shown in colours is the line. -/
  colored : '\x1b' ∉ line → Text.withoutSequences (shown true) = line
  /-- No code is left open, and none is set while another one is. -/
  paired : '\x1b' ∉ line → Style.Paired (Text.codes (shown true))

theorem keeps_of_runs {line : Text} {runs : List StyledRun} (whole : runs.flatMap (·.text) = line)
    (readable : '\x1b' ∉ line → ∀ r ∈ runs, r.Readable) :
    Keeps line fun colored => StyledRun.paintAll colored runs where
  plain := by rw [StyledRun.paintAll_plain, whole]
  colored noEscape := by rw [StyledRun.withoutSequences_paintAll (readable noEscape), whole]
  paired noEscape := StyledRun.paired_paintAll (readable noEscape)

end Highlight

/-- **Highlighting keeps a line**, whether it is taken for a command or cut by its tokens. Cut at the
spans of its tokens, it is shown the same. -/
theorem highlight_keeps (line : Text) :
    Highlight.Keeps line (fun colored => StyledRun.paintAll colored (Highlight.lineRuns line)) ∧
      Highlight.Keeps line (fun colored => StyledRun.paintAll colored (Highlight.sourceRuns line)) ∧
      ∀ colored, (Highlight.runsBetween? line 0 (scan line).tokens).map
        (StyledRun.paintAll colored) =
          some (StyledRun.paintAll colored (Highlight.sourceRuns line)) := by
  refine ⟨?_, ?_, fun colored => ?_⟩
  · exact Highlight.keeps_of_runs (Highlight.flatMap_text_lineRuns line)
      Highlight.readable_lineRuns
  · exact Highlight.keeps_of_runs (Highlight.flatMap_text_sourceRuns line)
      Highlight.readable_sourceRuns
  · rw [Highlight.runsBetween?_eq]
    simp [StyledRun.paintAll, StyledRun.bare, StyledRun.paint]

end LoxTokens
