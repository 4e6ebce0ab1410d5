import LoxTokens.Output.Listing

/-!
Listings written to sinks with room for a limited number of bytes.

A listing and the reports behind it are written in many small texts, and a sink may run out of room
before, after or inside of any of them. Where it does makes no difference: a sink takes the bytes of
all texts as if they were one (`Sink.writeAll_eq`), so what it holds in the end is a front of what a
sink without a limit holds.

* `Sink.write_append` — a text that is written in two parts, the second only if the first fits.
* `list_eq` — a listing and its reports are two texts, the second only if the first fits.
* `list_within` — so what both sinks hold, and when writing fails, is told by two comparisons.
-/

namespace LoxTokens

namespace Sink

/-- The first bytes, as many as there is room for within a limit. -/
def front (limit : Option Nat) (bytes : List UInt8) : List UInt8 :=
  bytes.take (limit.elim bytes.length (min · bytes.length))

/-- Whether bytes are more than a limit allows. -/
def exceeds (limit : Option Nat) (bytes : List UInt8) : Bool := limit.any (· < bytes.length)

/-! ### Texts written one after the other -/

section Room

variable {s : Sink} {n : Nat}

/-- Behind bytes that fit there is room for as many less. -/
theorem room_add (fits : s.room n = n) {bytes : List UInt8} (length : bytes.length = n) (m : Nat) :
    s.room (n + m) = n + room { s with held := s.held ++ bytes } m := by
  have size : (s.held ++ bytes).size = s.held.size + n := by
    rw [← Array.length_toList, Array.toList_appendList, List.length_append, length]
    rfl
  cases limit : s.limit with
  | none => simp [room, limit]
  | some limit =>
      simp only [room, limit, Option.elim_some, size] at fits ⊢
      omega

/-- Bytes that do not fit take all the room there is. -/
theorem room_of_full (full : s.room n ≠ n) (m : Nat) :
    s.room n < n ∧ s.room (n + m) = s.room n := by
  cases limit : s.limit with
  | none => simp [room, limit] at full
  | some limit =>
      simp only [room, limit, Option.elim_some] at full ⊢
      omega

end Room

section Write

variable (s : Sink)

theorem write_of_fits {t : Text} (fits : s.room (Utf8.encode t).length = (Utf8.encode t).length) :
    s.write t = ⟨{ s with held := s.held ++ Utf8.encode t }, true⟩ := by
  simp [write, fits]

theorem write_nil : s.write [] = ⟨s, true⟩ := by
  have fits : s.room 0 = 0 := by cases limit : s.limit <;> simp [room, limit]
  exact write_of_fits s fits

/-- A text is written like two parts of it, the second only if the first fits. -/
theorem write_append (a b : Text) :
    s.write (a ++ b) =
      if (s.write a).complete then (s.write a).sink.write b else s.write a := by
  by_cases fits : s.room (Utf8.encode a).length = (Utf8.encode a).length
  · have behind := room_add fits rfl (Utf8.encode b).length
    have held (more : List UInt8) :
        s.held ++ (Utf8.encode a ++ more) = s.held ++ Utf8.encode a ++ more := by
      rw [← Array.toList_inj]
      simp
    rw [write_of_fits s fits, if_pos rfl]
    simp only [write, Utf8.encode_append, List.length_append, behind, List.take_length_add_append,
      held]
    congr 1
    rw [Bool.eq_iff_iff, beq_iff_eq, beq_iff_eq, Nat.add_left_cancel_iff]
  · have full := room_of_full fits (Utf8.encode b).length
    have incomplete : ¬ (s.write a).complete = true := by rwa [complete_write]
    rw [if_neg incomplete]
    simp only [write, Utf8.encode_append, List.length_append, full.2,
      List.take_append_of_le_length (Nat.le_of_lt full.1)]
    congr 1
    rw [beq_eq_false_iff_ne.mpr fits, beq_eq_false_iff_ne]
    omega

/-- Texts are written one after the other like the one that they make up. -/
theorem writeAll_eq (ts : List Text) : s.writeAll ts = s.write ts.flatten := by
  induction ts generalizing s with
  | nil => rw [List.flatten_nil, write_nil, writeAll]
  | cons t ts ih => rw [List.flatten_cons, write_append, writeAll, ih]

end Write

section Fresh

variable (limit : Option Nat) (t : Text)

theorem held_write_fresh :
    (write { limit } t).sink.held.toList = front limit (Utf8.encode t) := by
  rw [held_write, front]
  cases limit with
  | none => rfl
  | some most => simp [room, Nat.min_comm]

theorem complete_write_fresh :
    (write { limit } t).complete = !exceeds limit (Utf8.encode t) := by
  rw [Bool.eq_iff_iff, complete_write]
  cases limit with
  | none => simp [room, exceeds]
  | some most =>
      simp only [room, exceeds, Option.elim_some, Option.any_some, Bool.not_eq_true',
        decide_eq_false_iff_not]
      show min (Utf8.encode t).length (most - 0) = (Utf8.encode t).length ↔ _
      omega

end Fresh

end Sink

/-! ### A listing and its reports -/

/-- How a listing in sinks with limits compares with the whole of it, in sinks without. -/
structure Listed.Within (colored : Bool) (source : Text) (outLimit errLimit : Option Nat)
    (whole l : Listed) : Prop where
  /-- Without limits all is written, and nothing fails. -/
  unlimited : whole.out.held.toList = Utf8.encode (listing source) ∧
    whole.err.held.toList = Utf8.encode (reports colored source) ∧ whole.log ≠ none
  out : l.out.held.toList = Sink.front outLimit whole.out.held.toList
  /-- Where the listing does not fit, writing fails, and no byte of a report is written. -/
  full : Sink.exceeds outLimit whole.out.held.toList = true → l.log = none ∧ l.err.held = #[]
  /-- Where it fits, the reports are written, and writing fails only if they do not fit. -/
  fits : Sink.exceeds outLimit whole.out.held.toList = false →
    l.err.held.toList = Sink.front errLimit whole.err.held.toList ∧
      (l.log = none ↔ Sink.exceeds errLimit whole.err.held.toList = true)
  /-- Where nothing fails, all faults are known. -/
  log : ∀ log, l.log = some log → log.faults = (scan source).faults
  hadFault : l.hadFault = true ↔ l.log ≠ none ∧ (scan source).faults ≠ []
  /-- It does not matter into which texts the listing is cut to be written, nor the reports. -/
  cuts : ∀ outs errs : List Text, outs.flatten = listing source →
    errs.flatten = reports colored source →
      (Sink.writeAll { limit := outLimit } outs).sink = l.out ∧
        (Sink.exceeds outLimit whole.out.held.toList = false →
          (Sink.writeAll { limit := errLimit } errs).sink = l.err)

section

variable (colored : Bool) (source : Text)

/-- A listing and its reports are each written like one text. -/
theorem list_eq (out err : Sink) :
    list colored source out err =
      if (out.write (listing source)).complete then
        ⟨(out.write (listing source)).sink, (err.write (reports colored source)).sink,
          if (err.write (reports colored source)).complete then some ⟨(scan source).faults⟩
          else none⟩
      else ⟨(out.write (listing source)).sink, err, none⟩ := by
  have lines : ((scan source).tokens.map Token.listed).flatten = listing source :=
    (List.flatMap_def ..).symm
  have reported : ((scan source).faults.map (Fault.report colored)).flatten =
      reports colored source := (List.flatMap_def ..).symm
  rw [list, FaultLog.scan_eq]
  dsimp only [FaultLog.empty]
  rw [List.nil_append, Sink.writeAll_eq, Sink.writeAll_eq, lines, reported]

variable (outLimit errLimit : Option Nat)

theorem list_of_full (full : Sink.exceeds outLimit (Utf8.encode (listing source)) = true) :
    list colored source { limit := outLimit } { limit := errLimit } =
      ⟨(Sink.write { limit := outLimit } (listing source)).sink, { limit := errLimit }, none⟩ := by
  rw [list_eq, if_neg]
  simp [Sink.complete_write_fresh, full]

theorem list_of_fits (fits : Sink.exceeds outLimit (Utf8.encode (listing source)) = false) :
    list colored source { limit := outLimit } { limit := errLimit } =
      ⟨(Sink.write { limit := outLimit } (listing source)).sink,
        (Sink.write { limit := errLimit } (reports colored source)).sink,
        if Sink.exceeds errLimit (Utf8.encode (reports colored source)) then none
        else some ⟨(scan source).faults⟩⟩ := by
  rw [list_eq, if_pos (by simp [Sink.complete_write_fresh, fits]), Sink.complete_write_fresh]
  cases Sink.exceeds errLimit (Utf8.encode (reports colored source)) <;> rfl

end

theorem list_unlimited (colored : Bool) (source : Text) :
    (list colored source {} {}).out.held.toList = Utf8.encode (listing source) ∧
      (list colored source {} {}).err.held.toList = Utf8.encode (reports colored source) ∧
      (list colored source {} {}).log ≠ none := by
  have fits := list_of_fits colored source none none rfl
  rw [fits]
  refine ⟨?_, ?_, Option.some_ne_none _⟩
  · exact (Sink.held_write_fresh none _).trans (List.take_length ..)
  · exact (Sink.held_write_fresh none _).trans (List.take_length ..)

/-- **Sinks with limits hold exact fronts.** What does not fit is cut off, and a report is written
only behind a whole listing. -/
theorem list_within (colored : Bool) (source : Text) (outLimit errLimit : Option Nat) :
    Listed.Within colored source outLimit errLimit (list colored source {} {})
      (list colored source { limit := outLimit } { limit := errLimit }) := by
  have unlimited := list_unlimited colored source
  have wholeOut := unlimited.1
  have wholeErr := unlimited.2.1
  have out := Sink.held_write_fresh outLimit (listing source)
  have err := Sink.held_write_fresh errLimit (reports colored source)
  cases full : Sink.exceeds outLimit (Utf8.encode (listing source)) with
  | true =>
      rw [list_of_full colored source outLimit errLimit full]
      constructor
      · exact unlimited
      · rw [wholeOut, out]
      · exact fun _ => ⟨rfl, rfl⟩
      · simp [wholeOut, full]
      · simp
      · simp [Listed.hadFault]
      · intro outs errs sameOut sameErr
        refine ⟨by rw [Sink.writeAll_eq, sameOut], ?_⟩
        simp [wholeOut, full]
  | false =>
      rw [list_of_fits colored source outLimit errLimit full]
      constructor
      · exact unlimited
      · rw [wholeOut, out]
      · simp [wholeOut, full]
      · intro _
        rw [wholeErr, err]
        refine ⟨rfl, ?_⟩
        simp
      · simp
      · cases Sink.exceeds errLimit (Utf8.encode (reports colored source)) with
        | true => simp [Listed.hadFault]
        | false => simp [Listed.hadFault, FaultLog.hadFault, FaultLog.isEmpty]
      · intro outs errs sameOut sameErr
        exact ⟨by rw [Sink.writeAll_eq, sameOut], fun _ => by rw [Sink.writeAll_eq, sameErr]⟩

end LoxTokens
