import LoxTokens.Proofs.Dissection
import LoxTokens.Proofs.ListingReader
import Mathlib.Data.List.Nodup

/-!
What makes two tokens of scans the same token.

A lexeme settles the kind and the value of its token, whatever stands around it and whichever source
it comes from; the line and the span say where it stands. `Token.agrees` compares numbers as
numbers, so among arbitrary tokens it is no equivalence: one that carries NaN differs from itself.
No decimal is read as NaN, so on the tokens of scans it is equality.

* `Content.Lexical.eq_of_lexeme` — what a listing tells of a token is settled by its lexeme.
* `Token.Scanned.agrees_iff_eq` — scanned tokens agree exactly where they are equal.
* `nodup_tokens_scan` — no token comes twice in one scan, since each starts further on.
-/

namespace LoxTokens

theorem Lexeme.unique {t : Text} {kind kind' : Kind} {literal literal' : Option Literal}
    (h : Lexeme t kind literal) (h' : Lexeme t kind' literal') :
    kind = kind' ∧ literal = literal' := by
  obtain ⟨p, written, formed, sameKind, sameValue⟩ := h.exists_piece
  obtain ⟨q, written', formed', kind, value⟩ := h'.exists_piece
  obtain rfl := Piece.eq_of_text formed formed' (written.trans written'.symm)
  exact ⟨Option.some.inj (sameKind.symm.trans kind), sameValue.symm.trans value⟩

namespace Content.Lexical

theorem eq_of_lexeme {c d : Content} (hc : c.Lexical) (hd : d.Lexical)
    (same : c.lexeme = d.lexeme) : c = d := by
  -- the end of a source alone has an empty lexeme
  have nonempty {t : Text} {kind : Kind} {literal : Option Literal} (h : Lexeme t kind literal) :
      t ≠ [] := Matches.ne_nil (Or.inr ⟨kind, literal, h⟩)
  cases hc with
  | lexeme lexical =>
      cases hd with
      | lexeme lexical' =>
          obtain rfl := same
          obtain ⟨rfl, rfl⟩ := lexical.unique lexical'
          rfl
      | endOfSource => exact absurd same (nonempty lexical)
  | endOfSource =>
      cases hd with
      | lexeme lexical => exact absurd same.symm (nonempty lexical)
      | endOfSource => rfl

/-- The value of a lexeme is never NaN. -/
theorem not_isNaN {c : Content} (h : c.Lexical) {x : Binary64}
    (value : c.literal = some (.number x)) : x.isNaN = false := by
  cases h with
  | lexeme lexical =>
      cases lexical with
      | mark | string | keyword | identifier => cases value
      | whole | decimal =>
          cases value
          exact Binary64.isNaN_ofDecimal ..
  | endOfSource => contradiction

end Content.Lexical

namespace Token

variable {t u : Token}

/-- A token agrees with itself unless it carries NaN. -/
theorem agrees_self (h : ∀ x, t.literal = some (.number x) → x.isNaN = false) :
    t.agrees t = true := by
  obtain ⟨kind, lexeme, literal, line, span⟩ := t
  match literal with
  | none | some (.text _) => simp [agrees, Literal.agrees]
  | some (.number x) => simp [agrees, Literal.agrees, Binary64.agrees_self, h x rfl]

/-- Tokens that agree have one lexeme and stand at one place. -/
theorem place_of_agrees (h : t.agrees u = true) :
    t.lexeme = u.lexeme ∧ t.line = u.line ∧ t.span = u.span := by
  simp only [agrees, Bool.and_eq_true, beq_iff_eq] at h
  exact ⟨h.1.1.1.2, h.1.2, h.2⟩

theorem eq_of_content (content : t.content = u.content) (line : t.line = u.line)
    (span : t.span = u.span) : t = u := by
  cases t
  cases u
  simp_all [Token.content]

/-- A token that scanning some source gives. -/
def Scanned (t : Token) : Prop := ∃ source, t ∈ (scan source).tokens

namespace Scanned

theorem lexical (h : t.Scanned) : t.content.Lexical := by
  obtain ⟨source, member⟩ := h
  exact (Reading.of_scan source).lexical t member

theorem content_eq_iff (ht : t.Scanned) (hu : u.Scanned) :
    t.content = u.content ↔ t.lexeme = u.lexeme :=
  ⟨fun same => congrArg Content.lexeme same, ht.lexical.eq_of_lexeme hu.lexical⟩

theorem eq_iff (ht : t.Scanned) (hu : u.Scanned) :
    t = u ↔ t.lexeme = u.lexeme ∧ t.line = u.line ∧ t.span = u.span := by
  constructor
  · rintro rfl
    exact ⟨rfl, rfl, rfl⟩
  · rintro ⟨lexeme, line, span⟩
    exact eq_of_content ((ht.content_eq_iff hu).mpr lexeme) line span

theorem agrees_iff_eq (ht : t.Scanned) (hu : u.Scanned) : t.agrees u = true ↔ t = u := by
  constructor
  · intro agree
    exact (ht.eq_iff hu).mpr (place_of_agrees agree)
  · rintro rfl
    exact agrees_self fun _ value => ht.lexical.not_isNaN value

end Scanned

end Token

/-- The tokens of a reading start behind what has been passed, each behind the one before it. -/
theorem Reading.starts_increase {before rest : Text} {tokens : List Token} {faults : List Fault}
    (h : Reading before rest tokens faults) :
    (∀ t ∈ tokens, Text.byteLength before ≤ t.span.start) ∧
      tokens.Pairwise fun t u => t.span.start < u.span.start := by
  have further (before more : Text) :
      Text.byteLength before ≤ Text.byteLength (before ++ more) := by
    rw [Text.byteLength_append]
    exact Nat.le_add_right ..
  induction h with
  | done => exact ⟨by simp [closingToken], List.pairwise_singleton _ _⟩
  | skip _ _ _ ih => exact ⟨fun t member => (further ..).trans (ih.1 t member), ih.2⟩
  | @token before t rest kind literal tokens faults lexeme _ _ ih =>
      have positive := Text.byteLength_pos (Matches.ne_nil (Or.inr ⟨kind, literal, lexeme⟩))
      have later : ∀ u ∈ tokens, Text.byteLength before < u.span.start := by
        intro u member
        have behind := ih.1 u member
        rw [Text.byteLength_append] at behind
        omega
      refine ⟨?_, List.Pairwise.cons later ih.2⟩
      rw [List.forall_mem_cons]
      exact ⟨Nat.le_refl _, fun u member => Nat.le_of_lt (later u member)⟩
  | refused _ _ _ ih => exact ⟨fun t member => (further ..).trans (ih.1 t member), ih.2⟩
  | unclosed =>
      refine ⟨?_, List.pairwise_singleton _ _⟩
      intro t member
      rw [List.mem_singleton.mp member]
      exact further ..

theorem nodup_tokens_scan (source : Text) : (scan source).tokens.Nodup := by
  apply (Reading.of_scan source).starts_increase.2.imp
  rintro t _ less rfl
  exact Nat.lt_irrefl _ less

/-- **A lexeme settles its token.** Scanned tokens with one lexeme have one kind and one value, bit
for bit, wherever they come from. So the comparison of tokens is an equivalence on them, which holds
exactly where the lexeme and the place are the same; and within one scan a token agrees with none
but itself. -/
theorem lexeme_settles_token :
    (∀ t u : {t : Token // t.Scanned}, t.1.lexeme = u.1.lexeme →
      t.1.kind = u.1.kind ∧ t.1.literal = u.1.literal) ∧
    Equivalence (fun t u : {t : Token // t.Scanned} => t.1.agrees u.1 = true) ∧
    (∀ t u : {t : Token // t.Scanned}, t.1.agrees u.1 = true ↔
      t.1.lexeme = u.1.lexeme ∧ t.1.line = u.1.line ∧ t.1.span = u.1.span) ∧
    ∀ source (i j : Fin (scan source).tokens.length),
      ((scan source).tokens.get i).agrees ((scan source).tokens.get j) = true ↔ i = j := by
  have agree (t u : {t : Token // t.Scanned}) : t.1.agrees u.1 = true ↔ t = u := by
    rw [t.2.agrees_iff_eq u.2, Subtype.ext_iff]
  refine ⟨?_, ?_, ?_, ?_⟩
  · intro t u same
    have content := (t.2.content_eq_iff u.2).mpr same
    exact ⟨congrArg Content.kind content, congrArg Content.literal content⟩
  · simp only [agree]
    exact eq_equivalence
  · intro t u
    rw [t.2.agrees_iff_eq u.2, t.2.eq_iff u.2]
  · intro source i j
    have scanned (k : Fin (scan source).tokens.length) :
        ((scan source).tokens.get k).Scanned := ⟨source, List.get_mem ..⟩
    rw [(scanned i).agrees_iff_eq (scanned j)]
    exact (List.nodup_iff_injective_get.mp (nodup_tokens_scan source)).eq_iff

end LoxTokens
