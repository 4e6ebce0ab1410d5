/-!
Text as a list of characters, measured in bytes of UTF-8.

A character is the unit that scanning reads; a byte is the unit in which spans, cursor positions of
a line editor and the limits of a writer are counted. `byteLength` relates the two, and
`takeBytes?`, `dropBytes?` and `slice?` cut a text at byte positions: they fail exactly at a position
past the end or inside a character.
-/

namespace LoxTokens

/-- A text: its characters in order. -/
abbrev Text := List Char

instance : Coe String Text := ⟨String.toList⟩

namespace Text

/-- The number of bytes of a text in UTF-8. -/
def byteLength : Text → Nat
  | [] => 0
  | c :: t => c.utf8Size + byteLength t

@[simp] theorem byteLength_nil : byteLength [] = 0 := rfl

@[simp] theorem byteLength_cons (c : Char) (t : Text) :
    byteLength (c :: t) = c.utf8Size + byteLength t := rfl

@[simp] theorem byteLength_append (s t : Text) :
    byteLength (s ++ t) = byteLength s + byteLength t := by
  induction s with
  | nil => simp
  | cons c s ih => simp [ih, Nat.add_assoc]

theorem byteLength_pos {t : Text} (h : t ≠ []) : 0 < byteLength t := by
  cases t with
  | nil => contradiction
  | cons c t => exact Nat.add_pos_left c.utf8Size_pos _

theorem byteLength_reverse (t : Text) : byteLength t.reverse = byteLength t := by
  induction t with
  | nil => rfl
  | cons c t ih => simp [ih, Nat.add_comm]

/-- The number of line ends in a text. -/
def newlines (t : Text) : Nat := t.count '\n'

@[simp] theorem newlines_nil : newlines [] = 0 := rfl

@[simp] theorem newlines_append (s t : Text) :
    newlines (s ++ t) = newlines s + newlines t := List.count_append

/-- The text before a byte position; `none` where the position is past the end or inside a
character. -/
def takeBytes? : Nat → Text → Option Text
  | 0, _ => some []
  | _ + 1, [] => none
  | n + 1, c :: t =>
      if c.utf8Size ≤ n + 1 then (takeBytes? (n + 1 - c.utf8Size) t).map (c :: ·) else none

/-- The text from a byte position on; `none` where the position is past the end or inside a
character. -/
def dropBytes? : Nat → Text → Option Text
  | 0, t => some t
  | _ + 1, [] => none
  | n + 1, c :: t => if c.utf8Size ≤ n + 1 then dropBytes? (n + 1 - c.utf8Size) t else none

/-- The text between two byte positions, both of which must fall between characters. -/
def slice? (t : Text) (start stop : Nat) : Option Text :=
  (takeBytes? stop t).bind (dropBytes? start)

@[simp] theorem takeBytes?_zero (t : Text) : takeBytes? 0 t = some [] := by
  cases t <;> rfl

@[simp] theorem dropBytes?_zero (t : Text) : dropBytes? 0 t = some t := by
  cases t <;> rfl

theorem takeBytes?_cons (c : Char) (t : Text) (n : Nat) :
    takeBytes? (c.utf8Size + n) (c :: t) = (takeBytes? n t).map (c :: ·) := by
  have pos := c.utf8Size_pos
  obtain ⟨m, hm⟩ : ∃ m, c.utf8Size + n = m + 1 := ⟨_, (Nat.succ_pred_eq_of_pos (by omega)).symm⟩
  have rest : m + 1 - c.utf8Size = n := by omega
  rw [hm, takeBytes?, if_pos (by omega), rest]

theorem dropBytes?_cons (c : Char) (t : Text) (n : Nat) :
    dropBytes? (c.utf8Size + n) (c :: t) = dropBytes? n t := by
  have pos := c.utf8Size_pos
  obtain ⟨m, hm⟩ : ∃ m, c.utf8Size + n = m + 1 := ⟨_, (Nat.succ_pred_eq_of_pos (by omega)).symm⟩
  have rest : m + 1 - c.utf8Size = n := by omega
  rw [hm, dropBytes?, if_pos (by omega), rest]

/-- A text cannot be cut inside its first character. -/
theorem cut_inside {c : Char} {n : Nat} (t : Text) (positive : 0 < n) (inside : n < c.utf8Size) :
    takeBytes? n (c :: t) = none ∧ dropBytes? n (c :: t) = none := by
  obtain ⟨m, rfl⟩ := Nat.exists_eq_succ_of_ne_zero (Nat.pos_iff_ne_zero.mp positive)
  rw [takeBytes?, dropBytes?, if_neg (by omega), if_neg (by omega)]
  exact ⟨rfl, rfl⟩

/-- A cut behind a front of a text is a cut of what follows it. -/
theorem takeBytes?_append_add (s t : Text) (n : Nat) :
    takeBytes? (byteLength s + n) (s ++ t) = (takeBytes? n t).map (s ++ ·) := by
  induction s with
  | nil => simp
  | cons c s ih =>
      rw [byteLength_cons, Nat.add_assoc, List.cons_append, takeBytes?_cons, ih, Option.map_map]
      rfl

/-- A cut behind a front of a text is a cut of what follows it. -/
theorem dropBytes?_append_add (s t : Text) (n : Nat) :
    dropBytes? (byteLength s + n) (s ++ t) = dropBytes? n t := by
  induction s with
  | nil => simp
  | cons c s ih => rw [byteLength_cons, Nat.add_assoc, List.cons_append, dropBytes?_cons, ih]

/-- A text can be cut after each of its fronts, and the cut gives that front. -/
theorem takeBytes?_append (s t : Text) : takeBytes? (byteLength s) (s ++ t) = some s := by
  simpa using takeBytes?_append_add s t 0

/-- A text can be cut after each of its fronts, and what follows is the rest. -/
theorem dropBytes?_append (s t : Text) : dropBytes? (byteLength s) (s ++ t) = some t := by
  simpa using dropBytes?_append_add s t 0

/-- Whether a byte position of a text is between two characters or at an end. -/
def IsBoundary (t : Text) (position : Nat) : Prop :=
  ∃ front back, t = front ++ back ∧ byteLength front = position

/-- A text can be cut exactly at its boundaries. -/
theorem takeBytes?_isSome_iff {t : Text} {position : Nat} :
    (takeBytes? position t).isSome ↔ IsBoundary t position := by
  constructor
  · intro cut
    induction t generalizing position with
    | nil =>
        cases position with
        | zero => exact ⟨[], [], rfl, rfl⟩
        | succ n => simp [takeBytes?] at cut
    | cons c t ih =>
        cases position with
        | zero => exact ⟨[], c :: t, rfl, rfl⟩
        | succ n =>
            rw [takeBytes?] at cut
            split at cut
            · next fits =>
                rw [Option.isSome_map] at cut
                obtain ⟨front, back, rfl, length⟩ := ih cut
                exact ⟨c :: front, back, rfl, by rw [byteLength_cons, length]; omega⟩
            · simp at cut
  · rintro ⟨front, back, rfl, rfl⟩
    rw [takeBytes?_append]
    rfl

/-- What stands between two fronts of a text is the slice between their ends. -/
theorem slice?_append (s t rest : Text) :
    slice? (s ++ t ++ rest) (byteLength s) (byteLength (s ++ t)) = some t := by
  rw [slice?, takeBytes?_append, Option.bind_some, dropBytes?_append]

end Text

end LoxTokens
