import LoxTokens.Session.Agenda

/-!
The lines of an input that holds a text.

An input is cut into lines byte by byte, and each line is decoded by itself. In UTF-8 the byte of a
line end occurs in no other character, so both can be exchanged: the lines of an encoded text are
the lines of the text (`Input.lines_encode`). After a line end an input can be cut, and before and
behind the cut it has the lines of its parts (`Input.lines_append`, `Input.exists_cut`).
-/

namespace LoxTokens

/-- What holds of all but the last of a list, taken apart at its first. -/
theorem forall_mem_dropLast_cons {α : Type} {P : α → Prop} {x : α} {xs : List α} :
    (∀ y ∈ (x :: xs).dropLast, P y) ↔ (xs = [] ∨ P x) ∧ ∀ y ∈ xs.dropLast, P y := by
  cases xs with
  | nil => simp
  | cons x' xs => simp

namespace Text

/-- A text cut after each line end. -/
def lines : Text → List Text
  | [] => []
  | c :: rest =>
      if c = '\n' then [c] :: lines rest
      else match lines rest with
        | [] => [[c]]
        | line :: more => (c :: line) :: more

@[simp] theorem flatten_lines (t : Text) : (lines t).flatten = t := by
  fun_induction lines t <;> simp_all

/-- A line that another one follows ends with a line end. -/
theorem lines_dropLast (t : Text) :
    ∀ line ∈ (lines t).dropLast, ∃ front, line = front ++ ['\n'] := by
  induction t with
  | nil => simp [lines]
  | cons c t ih =>
      rw [lines]
      split
      · next newline =>
          rw [forall_mem_dropLast_cons]
          exact ⟨Or.inr ⟨[], by rw [newline]; rfl⟩, ih⟩
      · split
        · simp
        · next line more same =>
            rw [same, forall_mem_dropLast_cons] at ih
            rw [forall_mem_dropLast_cons]
            refine ⟨ih.1.imp_right ?_, ih.2⟩
            rintro ⟨front, rfl⟩
            exact ⟨c :: front, rfl⟩

end Text

namespace Input

/-- The bytes of a character that is no line end have none among them. -/
theorem newlineByte_not_mem {c : Char} (h : c ≠ '\n') : newlineByte ∉ String.utf8EncodeChar c := by
  have other : c.val.toNat ≠ 10 := fun same => h (Char.toNat_inj.mp same)
  have small {n : Nat} (bound : n < 256) (different : n ≠ 10) : newlineByte ≠ UInt8.ofNat n := by
    intro same
    have value := congrArg UInt8.toNat same
    rw [UInt8.toNat_ofNat', Nat.mod_eq_of_lt bound] at value
    exact different value.symm
  unfold String.utf8EncodeChar
  dsimp only
  generalize c.val.toNat = v at other
  split
  · rw [List.mem_singleton]
    exact small (by omega) other
  split
  · simp only [List.mem_cons, List.not_mem_nil, or_false, not_or]
    exact ⟨small (by omega) (by omega), small (by omega) (by omega)⟩
  split
  · simp only [List.mem_cons, List.not_mem_nil, or_false, not_or]
    exact ⟨small (by omega) (by omega), small (by omega) (by omega), small (by omega) (by omega)⟩
  · simp only [List.mem_cons, List.not_mem_nil, or_false, not_or]
    exact ⟨small (by omega) (by omega), small (by omega) (by omega), small (by omega) (by omega),
      small (by omega) (by omega)⟩

/-- Bytes without a line end belong to the line that they stand in front of. -/
theorem splitLines_append {bytes : List UInt8} (visible : bytes ≠ []) (inLine : newlineByte ∉ bytes)
    (rest : List UInt8) :
    splitLines (bytes ++ rest) = match splitLines rest with
      | [] => [bytes]
      | line :: more => (bytes ++ line) :: more := by
  induction bytes with
  | nil => contradiction
  | cons b bytes ih =>
      rw [List.mem_cons, not_or] at inLine
      obtain ⟨other, inLine⟩ := inLine
      rw [List.cons_append, splitLines, if_neg (Ne.symm other)]
      by_cases none : bytes = []
      · subst none
        rfl
      · rw [ih none inLine]
        cases splitLines rest <;> rfl

theorem splitLines_encode (t : Text) :
    splitLines (Utf8.encode t) = (Text.lines t).map Utf8.encode := by
  induction t with
  | nil => rfl
  | cons c t ih =>
      have bytes : Utf8.encode (c :: t) = String.utf8EncodeChar c ++ Utf8.encode t := rfl
      rw [bytes, Text.lines]
      split
      · next newline =>
          subst newline
          show splitLines (newlineByte :: Utf8.encode t) = _
          rw [splitLines, if_pos rfl, ih]
          rfl
      · next other =>
          have visible : String.utf8EncodeChar c ≠ [] := by
            rw [← List.length_pos_iff, String.length_utf8EncodeChar]
            exact c.utf8Size_pos
          rw [splitLines_append visible (newlineByte_not_mem other), ih]
          cases Text.lines t with
          | nil => simp [Utf8.encode]
          | cons line more => simp [Utf8.encode]

/-- The lines of an encoded text are those of the text. -/
theorem lines_encode (t : Text) : lines (Utf8.encode t) = (Text.lines t).map some := by
  rw [lines, splitLines_encode, List.map_map]
  exact List.map_congr_left fun line _ => Utf8.decode?_encode line

/-! ### Inputs cut between two lines -/

/-- Whether bytes end with a line end. -/
def EndsLine (bytes : List UInt8) : Prop := bytes.getLast? = some newlineByte

instance (bytes : List UInt8) : Decidable (EndsLine bytes) :=
  inferInstanceAs (Decidable (bytes.getLast? = some newlineByte))

theorem endsLine_cons {b : UInt8} {bytes : List UInt8} :
    EndsLine (b :: bytes) ↔ bytes = [] ∧ b = newlineByte ∨ EndsLine bytes := by
  cases bytes <;> simp [EndsLine]

theorem splitLines_ne_nil (b : UInt8) (rest : List UInt8) : splitLines (b :: rest) ≠ [] := by
  intro none
  have whole := flatten_splitLines (b :: rest)
  rw [none] at whole
  contradiction

theorem splitLines_append_of_endsLine {p : List UInt8} (ended : EndsLine p) (q : List UInt8) :
    splitLines (p ++ q) = splitLines p ++ splitLines q := by
  induction p with
  | nil => contradiction
  | cons b p ih =>
      rw [List.cons_append, splitLines, splitLines]
      rcases endsLine_cons.mp ended with ⟨rfl, newline⟩ | later
      · rw [if_pos newline, if_pos newline]
        rfl
      · rw [ih later]
        split
        · rfl
        · cases p with
          | nil => contradiction
          | cons c p =>
              cases first : splitLines (c :: p) with
              | nil => exact absurd first (splitLines_ne_nil c p)
              | cons line more => rfl

/-- An input that is cut at a line end has the lines of both parts. -/
theorem lines_append {p : List UInt8} (ended : EndsLine p) (q : List UInt8) :
    lines (p ++ q) = lines p ++ lines q := by
  rw [lines, splitLines_append_of_endsLine ended, List.map_append]
  rfl

/-- The first lines of an input are themselves an input, with these lines. Something follows them
only if the last of them has a line end. -/
theorem splitLines_flatten {input : List UInt8} {ls rest : List (List UInt8)}
    (h : splitLines input = ls ++ rest) :
    splitLines ls.flatten = ls ∧ (ls = [] ∨ EndsLine ls.flatten ∨ rest = []) := by
  induction input generalizing ls rest with
  | nil =>
      have none : ls = [] := (List.append_eq_nil_iff.mp h.symm).1
      subst none
      exact ⟨rfl, Or.inl rfl⟩
  | cons b input ih =>
      cases ls with
      | nil => exact ⟨rfl, Or.inl rfl⟩
      | cons l ls =>
          rw [splitLines] at h
          split at h
          · next newline =>
              obtain ⟨rfl, later⟩ := List.cons.inj h
              obtain ⟨same, ended⟩ := ih later
              rw [List.flatten_cons, List.singleton_append, splitLines, if_pos newline, same,
                endsLine_cons]
              refine ⟨rfl, Or.inr ?_⟩
              rcases ended with rfl | ended | rfl
              · exact Or.inl (Or.inl ⟨rfl, newline⟩)
              · exact Or.inl (Or.inr ended)
              · exact Or.inr rfl
          · next other =>
              cases first : splitLines input with
              | nil =>
                  rw [first] at h
                  obtain ⟨rfl, later⟩ := List.cons.inj h
                  obtain ⟨rfl, rfl⟩ := List.append_eq_nil_iff.mp later.symm
                  exact ⟨by simp [splitLines, other], Or.inr (Or.inr rfl)⟩
              | cons line more =>
                  rw [first] at h
                  obtain ⟨rfl, rfl⟩ := List.cons.inj h
                  have later : splitLines input = (line :: ls) ++ rest := first
                  obtain ⟨same, ended⟩ := ih later
                  rw [List.flatten_cons] at same ended
                  rw [List.flatten_cons, List.cons_append, splitLines, if_neg other, same,
                    endsLine_cons]
                  refine ⟨rfl, Or.inr ?_⟩
                  rcases ended with none | ended | none
                  · contradiction
                  · exact Or.inl (Or.inr ended)
                  · exact Or.inr none

/-- The first lines of an input are the lines of a part of it. The input ends with that part, or the
part ends with a line end. -/
theorem exists_cut {input : List UInt8} {front rest : List Line}
    (h : lines input = front ++ rest) : ∃ part after, input = part ++ after ∧
      lines part = front ∧ (part = [] ∨ EndsLine part ∨ after = []) := by
  obtain ⟨ls, ls', parted, rfl, -⟩ := List.map_eq_append_iff.mp h
  obtain ⟨same, ended⟩ := splitLines_flatten parted
  refine ⟨ls.flatten, ls'.flatten, ?_, by rw [lines, same], ?_⟩
  · rw [← List.flatten_append, ← parted, flatten_splitLines]
  · rcases ended with rfl | ended | rfl
    · exact Or.inl rfl
    · exact Or.inr (Or.inl ended)
    · exact Or.inr (Or.inr rfl)

end Input

end LoxTokens
