import LoxTokens.Text.Utf8

/-!
Places that text is written to, some with room for a limited number of bytes.

A write that does not fit fails, after the sink has taken the bytes for which it has room. A list of
texts is written up to the first failure, so a sink always ends with a front of the bytes that were
meant for it (`held_write` for one text).
-/

namespace LoxTokens

/-- A place that bytes are written to; `limit` is the number of bytes it can hold in all. -/
structure Sink where
  limit : Option Nat := none
  held : Array UInt8 := #[]
  deriving DecidableEq, Repr

/-- What a write leaves behind: the sink, and whether all was written. -/
structure Written where
  sink : Sink
  complete : Bool
  deriving DecidableEq, Repr

namespace Sink

/-- The reason of a sink that refuses a write. -/
def refusal : Text := "disk full"

/-- How many of `n` more bytes a sink has room for. -/
def room (s : Sink) (n : Nat) : Nat := s.limit.elim n fun limit => min n (limit - s.held.size)

/-- Writes a text, or as many of its bytes as there is room for. -/
def write (s : Sink) (t : Text) : Written :=
  let bytes := Utf8.encode t
  let room := s.room bytes.length
  ⟨{ s with held := s.held ++ bytes.take room }, room == bytes.length⟩

/-- Writes texts one after the other up to the first that does not fit. -/
def writeAll (s : Sink) : List Text → Written
  | [] => ⟨s, true⟩
  | t :: rest =>
      let written := s.write t
      if written.complete then written.sink.writeAll rest else written

/-- The bytes that a sink holds, as text; a last character that was cut is shown as one replacement
character. -/
def display (s : Sink) : Text := Utf8.display s.held.toList

/-- A write adds a front of the bytes of its text to what a sink holds. -/
theorem held_write (s : Sink) (t : Text) :
    (s.write t).sink.held.toList =
      s.held.toList ++ (Utf8.encode t).take (s.room (Utf8.encode t).length) := by
  simp [write]

/-- A write is complete exactly where there is room for all bytes of its text. -/
theorem complete_write (s : Sink) (t : Text) :
    (s.write t).complete = true ↔ s.room (Utf8.encode t).length = (Utf8.encode t).length := by
  simp [write]

end Sink

end LoxTokens
