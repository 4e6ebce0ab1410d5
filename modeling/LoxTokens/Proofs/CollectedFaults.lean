import LoxTokens.FaultLog
import Mathlib.Data.List.DropRight
import Mathlib.Data.List.Induction

/-!
What a log holds while it is in use.

A log goes through scans, reports of single faults, and operations that empty it. At every moment it
holds the faults of the scans and the reports since it was emptied last, in order, and no others:
`FaultLog.collected` reads them off the operations alone.

Scanning itself does not depend on who listens. A fresh log, any reporter, and a callback that is
told lines and wordings get the same tokens and are handed the same faults.

* `FaultLog.faults_perform` — what one operation does to the faults of a log.
* `FaultLog.faults_after` — so what a log holds after some operations, by induction on the last one.
* `faults_collected` — what each step of a run answers and leaves behind.
-/

namespace LoxTokens

namespace FaultLog

/-! ### The faults since a log was emptied -/

namespace Operation

/-- The faults that an operation brings. -/
def adds : Operation → List Fault
  | .scan source => (LoxTokens.scan source).faults
  | .report fault => [fault]
  | .clear | .take => []

/-- Whether an operation leaves an empty log behind, whatever was in it. -/
def empties : Operation → Bool
  | .clear | .take => true
  | .scan _ | .report _ => false

end Operation

/-- The faults that operations have brought since one of them emptied the log. -/
def collected (ops : List Operation) : List Fault :=
  (ops.rtakeWhile fun op => !op.empties).flatMap Operation.adds

theorem collected_concat (ops : List Operation) (op : Operation) :
    collected (ops ++ [op]) = if op.empties then [] else collected ops ++ op.adds := by
  unfold collected
  cases kept : op.empties with
  | true =>
      rw [List.rtakeWhile_concat_neg _ _ _ (by simp [kept]), if_pos rfl]
      rfl
  | false =>
      rw [List.rtakeWhile_concat_pos _ _ _ (by simp [kept]), List.flatMap_append,
        if_neg Bool.false_ne_true, List.flatMap_singleton]

/-- What an operation gives back after others. -/
def Operation.answer (before : List Operation) : Operation → Answer
  | .scan source => .tokens (LoxTokens.scan source).tokens
  | .report _ | .clear => .nothing
  | .take => .faults (collected before)

/-! ### Operations in turn -/

/-- The log that operations leave behind. -/
def after (log : FaultLog) (ops : List Operation) : FaultLog :=
  ops.foldl (fun log op => (log.perform op).2) log

theorem after_concat (log : FaultLog) (ops : List Operation) (op : Operation) :
    log.after (ops ++ [op]) = ((log.after ops).perform op).2 := List.foldl_concat ..

theorem faults_perform (log : FaultLog) (op : Operation) :
    (log.perform op).2.faults = if op.empties then [] else log.faults ++ op.adds := by
  cases op with
  | scan source =>
      rw [perform, scan_eq]
      rfl
  | report | clear | take => rfl

theorem faults_after (ops : List Operation) : (empty.after ops).faults = collected ops := by
  induction ops using List.reverseRecOn with
  | nil => rfl
  | append_singleton ops op ih => rw [after_concat, faults_perform, collected_concat, ih]

theorem answer_after (before : List Operation) (op : Operation) :
    ((empty.after before).perform op).1 = op.answer before := by
  cases op with
  | scan source => rw [perform, scan_eq, Operation.answer]
  | report | clear => rfl
  | take => rw [Operation.answer, ← faults_after, perform, FaultLog.take]

/-- Each step of a run works on what the steps before it have left behind. -/
theorem getElem?_run (log : FaultLog) (before later : List Operation) (op : Operation) :
    (log.run (before ++ op :: later))[before.length]? = some ((log.after before).perform op) := by
  induction before generalizing log with
  | nil => rfl
  | cons first before ih =>
      rw [List.cons_append, run, List.length_cons, List.getElem?_cons_succ, ih]
      rfl

/-! ### What a log shows -/

/-- All that a log tells of itself where it holds some faults. -/
structure Shows (log : FaultLog) (faults : List Fault) : Prop where
  holds : log.faults = faults
  size : log.size = faults.length
  isEmpty : log.isEmpty = true ↔ faults = []
  hadFault : log.hadFault = true ↔ faults ≠ []
  exitStatus : log.exitStatus = if faults = [] then 0 else 65

theorem shows_faults (log : FaultLog) : log.Shows log.faults where
  holds := rfl
  size := rfl
  isEmpty := List.isEmpty_iff
  hadFault := by simp [hadFault, isEmpty]
  exitStatus := by
    cases held : log.faults <;>
      simp [exitStatus, hadFault, isEmpty, held, cleanStatus, faultyStatus]

end FaultLog

/-! ### Whoever listens -/

/-- A callback is called once for each fault, in order, with its line and its wording. -/
theorem scanInto_tell {σ : Type} (callback : σ → Nat → Text → σ) (log : σ) (source : Text) :
    scanInto (Fault.tell callback) log source =
      ((scan source).tokens, ((scan source).faults.map fun f => (f.line, f.message)).foldl
        (fun log note => callback log note.1 note.2) log) := by
  rw [scanInto_eq, List.foldl_map]
  rfl

/-- **A log holds the faults since it was emptied last.** In every run on a log that starts empty,
each step gives the answer it should and leaves behind a log that shows the faults of the scans and
the reports since the last time it was cleared or taken. What a scan gives is the same in a log that
holds faults, in an empty one, for every reporter and for every callback. -/
theorem faults_collected :
    (∀ before op later, ∃ log,
      (FaultLog.empty.run (before ++ op :: later))[before.length]? = some (op.answer before, log) ∧
        log.Shows (FaultLog.collected (before ++ [op]))) ∧
    (∀ (log : FaultLog) source,
      log.scan source = ((FaultLog.empty.scan source).1,
        ⟨log.faults ++ (FaultLog.empty.scan source).2.faults⟩)) ∧
    (∀ source, FaultLog.empty.scan source = ((scan source).tokens, ⟨(scan source).faults⟩)) ∧
    (∀ (σ : Type) (report : σ → Fault → σ) log source,
      scanInto report log source =
        ((scan source).tokens, (scan source).faults.foldl report log)) ∧
    ∀ (σ : Type) (callback : σ → Nat → Text → σ) log source,
      scanInto (Fault.tell callback) log source =
        ((scan source).tokens, ((scan source).faults.map fun f => (f.line, f.message)).foldl
          (fun log note => callback log note.1 note.2) log) := by
  refine ⟨?_, ?_, ?_, ?_, ?_⟩
  · intro before op later
    refine ⟨((FaultLog.empty.after before).perform op).2, ?_, ?_⟩
    · rw [FaultLog.getElem?_run, ← FaultLog.answer_after]
    · rw [← FaultLog.faults_after, FaultLog.after_concat]
      exact FaultLog.shows_faults _
  · intro log source
    simp only [FaultLog.scan_eq]
    rfl
  · intro source
    rw [FaultLog.scan_eq]
    rfl
  · intro σ report log source
    exact scanInto_eq report log source
  · intro σ callback log source
    exact scanInto_tell callback log source

end LoxTokens
