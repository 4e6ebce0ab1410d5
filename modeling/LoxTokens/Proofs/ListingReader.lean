import LoxTokens.Proofs.LimitedSinks
import LoxTokens.Proofs.PieceEnds

/-!
Listings read back.

A listing shows lexemes and values as they are. So a string can put anything but a quote into it:
spaces, line ends, and whole lines that look like those of other tokens. All the same a listing is
read back line by line, from its start (`readLines?`).

The name of a kind has no space in it, and the kind tells where the lexeme ends: that of a string at
the second quote, any other at the next space. The lexeme tells the value, and with the value the
length of the line is known. That a line is cut where it ends is checked, so that nothing but lines
is read.

* `Content.Lexical.read` — of each line of a scan the token is read back, whatever stands behind it.
* `readLines?_listing` — so a listing gives all its tokens back, but for their places.
* `listing_unambiguous` — two listings are equal only if their tokens are.
-/

namespace LoxTokens

/-- What a listing tells of a token: all but its place. -/
structure Content where
  kind : Kind
  lexeme : Text
  literal : Option Literal
  deriving DecidableEq, Repr

def Token.content (t : Token) : Content := ⟨t.kind, t.lexeme, t.literal⟩

/-! ### Reading -/

/-- The lexeme of a token of some kind at the start of a text. -/
def Kind.lexeme : Kind → Text → Text
  | .string, t => t.take 1 ++ (t.drop 1).takeWhile (· != '"') ++ ['"']
  | _, t => t.takeWhile (· != ' ')

/-- The value that a lexeme of some kind stands for. -/
def Kind.literal : Kind → Text → Option Literal
  | .string, t => some (.text (t.drop 1).dropLast)
  | .number, t =>
      some (.number (.ofDecimal (t.takeWhile (· != '.')) ((t.dropWhile (· != '.')).drop 1)))
  | _, _ => none

namespace Content

/-- The line of a content in a listing, with its end. -/
def listed (c : Content) : Text :=
  c.kind.name ++ ' ' :: (c.lexeme ++ ' ' :: (Token.renderLiteral c.literal ++ ['\n']))

/-- The content of the line at the start of a text, if there is a line. -/
def first? (t : Text) : Option Content :=
  (Kind.ofName? (t.takeWhile (· != ' '))).map fun kind =>
    let lexeme := kind.lexeme ((t.dropWhile (· != ' ')).drop 1)
    ⟨kind, lexeme, kind.literal lexeme⟩

end Content

/-- The contents of the lines that a text is made of; `none` where it is not made of lines. -/
def readLines? (t : Text) : Option (List Content) :=
  if t = [] then some []
  else match Content.first? t with
    | none => none
    | some c =>
        if c.listed <+: t then (readLines? (t.drop c.listed.length)).map (c :: ·) else none
termination_by t.length
decreasing_by
  have := List.length_pos_iff.mpr ‹¬ t = []›
  simp only [List.length_drop, Content.listed, List.length_append, List.length_cons]
  omega

/-- The contents of the lines that bytes hold. -/
def readListing? (bytes : List UInt8) : Option (List Content) :=
  (Utf8.decode? bytes).bind readLines?

theorem readLines?_nil : readLines? [] = some [] := by rw [readLines?, if_pos rfl]

/-- A line that is known at the start of a text is read, and then the rest. -/
theorem readLines?_listed_append {c : Content} {rest : Text}
    (known : Content.first? (c.listed ++ rest) = some c) :
    readLines? (c.listed ++ rest) = (readLines? rest).map (c :: ·) := by
  have nonempty : c.listed ++ rest ≠ [] := by simp [Content.listed]
  rw [readLines?, if_neg nonempty, known]
  dsimp only
  rw [if_pos (List.prefix_append ..), List.drop_left]

/-! ### The lines of a scan -/

/-- The name of a kind is one word. -/
theorem Kind.separator_not_mem_name (kind : Kind) {c : Char} (separator : separates c = true) :
    c ∉ kind.name := by
  have none : Kind.all.all (fun k => k.name.all fun c => !separates c) = true := by decide
  intro member
  have other := List.all_eq_true.mp (List.all_eq_true.mp none kind kind.mem_all) c member
  rw [separator] at other
  contradiction

/-- What scanning says of a token: a lexeme of the grammar with its kind and its value, or the end
of a source. -/
inductive Content.Lexical : Content → Prop where
  | lexeme {t : Text} {kind : Kind} {literal : Option Literal} : Lexeme t kind literal →
      Lexical ⟨kind, t, literal⟩
  | endOfSource : Lexical ⟨.endOfSource, [], none⟩

theorem Reading.lexical {before rest : Text} {tokens : List Token} {faults : List Fault}
    (h : Reading before rest tokens faults) : ∀ t ∈ tokens, t.content.Lexical := by
  have closing (source : Text) : ∀ t ∈ [closingToken source], t.content.Lexical := by
    intro t member
    rw [List.mem_singleton.mp member]
    exact .endOfSource
  induction h with
  | done => exact closing _
  | skip _ _ _ ih => exact ih
  | token lexeme _ _ ih =>
      intro t member
      rcases List.mem_cons.mp member with rfl | later
      · exact .lexeme lexeme
      · exact ih t later
  | refused _ _ _ ih => exact ih
  | unclosed => exact closing _

/-- A word has none of the characters that end other lexemes. -/
theorem Word.not_mem {t : Text} (h : Word t) {c : Char} (other : continuesWord c = false) :
    c ∉ t := by
  obtain ⟨first, rest, rfl, letter, inside⟩ := h
  have all : ∀ d ∈ first :: rest, continuesWord d = true := by
    intro d member
    rcases List.mem_cons.mp member with rfl | member
    · exact continuesWord_iff.mpr (Or.inl letter)
    · exact continuesWord_iff.mpr (inside d member)
  intro member
  rw [all c member] at other
  contradiction

theorem not_mem_of_digits {t : Text} (h : ∀ c ∈ t, Digit c) {c : Char}
    (other : c.isDigit = false) : c ∉ t := by
  intro member
  rw [isDigit_iff.mpr (h c member)] at other
  contradiction

/-- A lexeme that is no string has none of the characters that separate tokens. -/
theorem Lexeme.separator_not_mem {t : Text} {kind : Kind} {literal : Option Literal}
    (h : Lexeme t kind literal) (noString : kind ≠ .string) {c : Char}
    (separator : separates c = true) : c ∉ t := by
  have listed := separates_iff.mp separator
  simp only [List.mem_cons, List.not_mem_nil, or_false] at listed
  have other : c.isDigit = false ∧ continuesWord c = false ∧ c ≠ '.' := by
    rcases listed with rfl | rfl | rfl | rfl <;> decide
  obtain ⟨noDigit, noWord, noPoint⟩ := other
  cases h with
  | mark m => rcases listed with rfl | rfl | rfl | rfl <;> cases m <;> decide
  | string => contradiction
  | whole _ digits => exact not_mem_of_digits digits noDigit
  | decimal _ digits _ fractional =>
      have before := not_mem_of_digits digits noDigit
      have behind := not_mem_of_digits fractional noDigit
      simp [before, behind, noPoint]
  | keyword k => exact (word_spelling k).not_mem noWord
  | identifier word _ => exact word.not_mem noWord

/-- A lexeme is cut where it ends, whatever stands behind the space after it. -/
theorem Lexeme.cut {t : Text} {kind : Kind} {literal : Option Literal} (h : Lexeme t kind literal)
    (rest : Text) : kind.lexeme (t ++ ' ' :: rest) = t := by
  by_cases string : kind = .string
  · subst string
    cases h with
    | @string body inside =>
        have stop : ('"' :: ' ' :: rest).head?.any (· != '"') = false := rfl
        have whole : '"' :: body ++ ['"'] ++ ' ' :: rest = '"' :: (body ++ '"' :: ' ' :: rest) := by
          simp
        rw [whole, Kind.lexeme, List.drop_succ_cons, List.drop_zero,
          takeWhile_append_of_stop (Piece.bne_of_not_mem inside) stop]
        rfl
  · have stop : (' ' :: rest).head?.any (· != ' ') = false := rfl
    have cut := takeWhile_append_of_stop (Piece.bne_of_not_mem (h.separator_not_mem string rfl)) stop
    cases kind with
    | string => contradiction
    | _ => exact cut

theorem Lexeme.value {t : Text} {kind : Kind} {literal : Option Literal}
    (h : Lexeme t kind literal) : kind.literal t = literal := by
  cases h with
  | mark | keyword | identifier => rfl
  | string => simp [Kind.literal]
  | whole nonempty digits =>
      have inside := Piece.bne_of_not_mem (not_mem_of_digits digits (c := '.') rfl)
      rw [Kind.literal, List.takeWhile_eq_self_iff.mpr inside, List.dropWhile_eq_nil_iff.mpr inside]
      rfl
  | decimal _ digits _ _ =>
      have inside := Piece.bne_of_not_mem (not_mem_of_digits digits (c := '.') rfl)
      have point (back : Text) : ('.' :: back).head?.any (· != '.') = false := rfl
      rw [Kind.literal, takeWhile_append_of_stop inside (point _),
        dropWhile_append_of_stop inside (point _), List.drop_succ_cons, List.drop_zero]

/-- A line of a scan is read back, whatever stands behind it. -/
theorem Content.Lexical.read {c : Content} (h : c.Lexical) (rest : Text) :
    first? (c.listed ++ rest) = some c := by
  -- behind the name and the lexeme stands a space, whatever the rest of the line
  obtain ⟨more, line⟩ : ∃ more,
      c.listed ++ rest = c.kind.name ++ ' ' :: (c.lexeme ++ ' ' :: more) :=
    ⟨Token.renderLiteral c.literal ++ '\n' :: rest, by simp [listed]⟩
  have cut : c.kind.lexeme (c.lexeme ++ ' ' :: more) = c.lexeme ∧
      c.kind.literal c.lexeme = c.literal := by
    cases h with
    | lexeme lexical => exact ⟨lexical.cut more, lexical.value⟩
    | endOfSource => exact ⟨rfl, rfl⟩
  have name := Piece.bne_of_not_mem (c.kind.separator_not_mem_name (c := ' ') rfl)
  have stop : (' ' :: (c.lexeme ++ ' ' :: more)).head?.any (· != ' ') = false := rfl
  rw [line, first?, takeWhile_append_of_stop name stop, dropWhile_append_of_stop name stop,
    Kind.ofName?_name, List.drop_succ_cons, List.drop_zero]
  dsimp only [Option.map_some]
  rw [cut.1, cut.2]

/-! ### Whole listings -/

theorem listed_content (t : Token) : t.content.listed = t.listed := by
  simp [Content.listed, Token.content, Token.listed, Token.render]

/-- The lines of lexical contents are read back, one after the other. -/
theorem readLines?_flatMap {cs : List Content} (lexical : ∀ c ∈ cs, c.Lexical) :
    readLines? (cs.flatMap Content.listed) = some cs := by
  induction cs with
  | nil => exact readLines?_nil
  | cons c cs ih =>
      rw [List.forall_mem_cons] at lexical
      rw [List.flatMap_cons, readLines?_listed_append (lexical.1.read _), ih lexical.2,
        Option.map_some]

theorem listing_eq (source : Text) :
    listing source = ((scan source).tokens.map Token.content).flatMap Content.listed := by
  have same : Token.listed = fun t => t.content.listed := funext fun t => (listed_content t).symm
  rw [listing, List.flatMap_map, same]

theorem readLines?_listing (source : Text) :
    readLines? (listing source) = some ((scan source).tokens.map Token.content) := by
  rw [listing_eq]
  apply readLines?_flatMap
  intro c member
  obtain ⟨t, scanned, rfl⟩ := List.mem_map.mp member
  exact (Reading.of_scan source).lexical t scanned

/-- **A listing is unambiguous.** From the bytes that are written for a source its tokens are read
back, all but their places; so the bytes for two sources are the same exactly where they have the
same tokens. -/
theorem listing_unambiguous :
    (∀ colored source, readListing? (list colored source {} {}).out.held.toList =
      some ((scan source).tokens.map Token.content)) ∧
    ∀ colored colored' a b,
      (list colored a {} {}).out.held = (list colored' b {} {}).out.held ↔
        (scan a).tokens.map Token.content = (scan b).tokens.map Token.content := by
  have back (colored : Bool) (source : Text) :
      readListing? (list colored source {} {}).out.held.toList =
        some ((scan source).tokens.map Token.content) := by
    rw [readListing?, (list_unlimited colored source).1, Utf8.decode?_encode, Option.bind_some,
      readLines?_listing]
  refine ⟨back, fun colored colored' a b => ⟨fun same => ?_, fun same => ?_⟩⟩
  · apply Option.some.inj
    rw [← back colored a, same, back colored' b]
  · rw [← Array.toList_inj, (list_unlimited colored a).1, (list_unlimited colored' b).1, listing_eq,
      listing_eq, same]

end LoxTokens
