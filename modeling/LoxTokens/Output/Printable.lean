import LoxTokens.Text.Basic

/-!
What is left of a text where it does not go to a terminal.

Control characters and the sequences that steer a terminal are dropped. A sequence starts with an
escape character, and what follows tells how it ends; the phases are those in which a terminal of
the VT500 kind reads its input, merged where they differ only in what such a terminal would do.

White space inside a sequence is not dropped and ends it for now: what follows is shown until the
next control character, which takes the sequence up again. So `strip` keeps the phase beside the
question whether text is being shown.
-/

namespace LoxTokens.Printable

/-- How far a sequence has been read. -/
inductive Phase where
  /-- Outside of all sequences. -/
  | ground
  /-- After an escape character. -/
  | escape
  /-- After an escape character and an intermediate one. -/
  | escapeIntermediate
  /-- In a control sequence, which ends with a letter or one of a few signs. -/
  | control
  /-- At the start of a device control string. -/
  | deviceEntry
  /-- In the parameters of a device control string. -/
  | deviceParameters
  /-- In the intermediate characters of a device control string. -/
  | deviceIntermediate
  /-- In the data of a device control string or of another string without a meaning here. -/
  | stringBody
  /-- In a command to the operating system. -/
  | systemCommand
  deriving DecidableEq, Repr

/-- Whether the code point of a character lies in a range. -/
def within (c : Char) (low high : Nat) : Bool := low ≤ c.toNat && c.toNat ≤ high

/-- The characters that cancel a sequence. -/
def cancels (c : Char) : Bool := c.toNat == 0x18 || c.toNat == 0x1A

/-- The character that starts a sequence. -/
def isEscape (c : Char) : Bool := c.toNat == 0x1B

/-- Whether a character is beyond ASCII. -/
def isWide (c : Char) : Bool := 0x80 ≤ c.toNat

/-- Whether a byte of a character is the one that ends a string. -/
def holdsTerminator (c : Char) : Bool := isWide c && (String.utf8EncodeChar c).contains 0x9C

/-- White space among the control characters. -/
def isLayout (c : Char) : Bool := within c 0x09 0x0A || within c 0x0C 0x0D

/-- Whether a character is shown where it stands outside of all sequences. -/
def isShown (c : Char) : Bool := within c 0x20 0x7E || isWide c || isLayout c

/-- Whether a character is shown where it stands in a given phase. -/
def Phase.shows (p : Phase) (c : Char) : Bool :=
  match p with
  | .ground => isShown c
  | .escape | .escapeIntermediate | .control => isLayout c
  | .deviceEntry | .deviceParameters | .deviceIntermediate | .stringBody | .systemCommand => false

/-- The phase after an escape character and one more. -/
def afterEscape (c : Char) : Phase :=
  if c == '[' then .control
  else if c == ']' then .systemCommand
  else if c == 'P' then .deviceEntry
  else if c == 'X' || c == '^' || c == '_' then .stringBody
  else if within c 0x20 0x2F then .escapeIntermediate
  else if within c 0x30 0x7E then .ground
  else .escape

/-- The phase after one more character of the head of a device control string: its data starts with
a letter or one of a few signs, or where the head is malformed. -/
def afterDeviceHead (p : Phase) (c : Char) : Phase :=
  if within c 0x40 0x7E then .stringBody
  else if within c 0x20 0x2F then .deviceIntermediate
  else if within c 0x30 0x3F then
    match p with
    | .deviceEntry => .deviceParameters
    | .deviceParameters => if within c 0x30 0x3B then .deviceParameters else .stringBody
    | _ => .stringBody
  else p

/-- The phase after one more character. -/
def Phase.after (p : Phase) (c : Char) : Phase :=
  if isEscape c then .escape
  else if cancels c then .ground
  else match p with
    | .ground => .ground
    | .escape => afterEscape c
    | .escapeIntermediate => if within c 0x30 0x7E then .ground else .escapeIntermediate
    | .control => if within c 0x40 0x7E then .ground else .control
    | .deviceEntry | .deviceParameters | .deviceIntermediate => afterDeviceHead p c
    | .stringBody => if holdsTerminator c then .ground else .stringBody
    | .systemCommand => if c.toNat == 0x07 then .ground else .systemCommand

/-- The phase after a character that was shown. -/
def Phase.afterShown (p : Phase) (c : Char) : Phase := if isWide c then .ground else p

/-- The phase that a character dropped while text is shown leads to. -/
def Phase.interrupted (p : Phase) (c : Char) : Phase :=
  if isEscape c then .escape else if cancels c then .ground else p

/-- What is shown of a text from a phase on; `showing` tells whether text is being shown. -/
def stripFrom (p : Phase) (showing : Bool) : Text → Text
  | [] => []
  | c :: rest =>
      if (if showing then isShown c else p.shows c) then c :: stripFrom (p.afterShown c) true rest
      else stripFrom (if showing then p.interrupted c else p.after c) false rest

/-- A text without control characters and the sequences that steer a terminal. -/
def strip (t : Text) : Text := stripFrom .ground false t

/-- Text without control characters is left as it is. -/
theorem strip_of_shown {t : Text} (h : ∀ c ∈ t, isShown c = true) : strip t = t := by
  have shown (showing : Bool) : stripFrom .ground showing t = t := by
    induction t generalizing showing with
    | nil => rfl
    | cons c t ih =>
        have first : isShown c = true := h c (by simp)
        have rest := ih fun d hd => h d (List.mem_cons_of_mem c hd)
        have stays : Phase.ground.afterShown c = .ground := by simp [Phase.afterShown]
        simp [stripFrom, Phase.shows, first, stays, rest]
  exact shown false

end LoxTokens.Printable
