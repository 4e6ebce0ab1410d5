import LoxTokens.Text.Basic

/-!
Texts as bytes of UTF-8.

`decode?` reads a whole list of bytes and refuses any that is not valid UTF-8; `decode?_encode` and
`encode_of_decode?` say that it reads exactly what `encode` writes. `display` shows bytes that were
cut off in the middle of a character.
-/

namespace LoxTokens.Utf8

/-- The bytes of a text. -/
def encode (t : Text) : List UInt8 := t.flatMap String.utf8EncodeChar

/-- The text that the bytes hold; `none` where they are not valid UTF-8. -/
def decode? (bytes : List UInt8) : Option Text :=
  bytes.toByteArray.utf8Decode?.map Array.toList

@[simp] theorem encode_nil : encode [] = [] := rfl

@[simp] theorem encode_append (s t : Text) : encode (s ++ t) = encode s ++ encode t :=
  List.flatMap_append

/-- The bytes of a text are as many as `byteLength` counts. -/
theorem length_encode (t : Text) : (encode t).length = Text.byteLength t := by
  induction t with
  | nil => rfl
  | cons c t ih => simp [encode, String.length_utf8EncodeChar] at ih ⊢; omega

/-- Each text can be read back from its bytes. -/
@[simp] theorem decode?_encode (t : Text) : decode? (encode t) = some t := by
  have bytes : (encode t).toByteArray = t.utf8Encode := rfl
  simp [decode?, bytes]

/-- A text that was read has the bytes that it was read from. -/
theorem encode_of_decode? {bytes : List UInt8} {t : Text} (h : decode? bytes = some t) :
    encode t = bytes := by
  obtain ⟨chars, read, rfl⟩ := Option.map_eq_some_iff.mp h
  have same := ByteArray.utf8Encode_get_utf8Decode? (h := Option.isSome_of_eq_some read)
  simp only [read, Option.get_some] at same
  exact List.toByteArray_inj.mp same

/-- The bytes of a text that may have been cut off inside its last character: the characters that
are whole, and one replacement character for what is left of the last one. -/
def display (bytes : List UInt8) : Text :=
  match decode? bytes with
  | some t => t
  | none =>
      let whole := [1, 2, 3].findSome? fun left => decode? (bytes.take (bytes.length - left))
      whole.getD [] ++ [Char.ofNat 0xFFFD]

end LoxTokens.Utf8
