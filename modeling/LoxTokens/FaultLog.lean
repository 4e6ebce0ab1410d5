import LoxTokens.Scan.Basic

/-!
A log that collects lexical faults over one or more scans.

A scan into a log adds its faults to those already there. The status of a log is the exit status of
a program that read a source into it. `run` uses a log step by step: sources are scanned into it,
single faults are recorded, and it is emptied or taken over.
-/

namespace LoxTokens

/-- The faults collected so far, in order. -/
structure FaultLog where
  faults : List Fault := []
  deriving DecidableEq, Repr

namespace FaultLog

def empty : FaultLog := {}

/-- A log with one more fault. -/
def record (log : FaultLog) (fault : Fault) : FaultLog := ⟨log.faults ++ [fault]⟩

/-- The tokens of a source, and the log with its faults. -/
def scan (log : FaultLog) (source : Text) : List Token × FaultLog := scanInto record log source

/-- The faults of a log, and the empty log that is left behind. -/
def take (log : FaultLog) : List Fault × FaultLog := (log.faults, empty)

def size (log : FaultLog) : Nat := log.faults.length

def isEmpty (log : FaultLog) : Bool := log.faults.isEmpty

def hadFault (log : FaultLog) : Bool := !log.isEmpty

/-- The exit status for sources without a fault. -/
def cleanStatus : Nat := 0

/-- The exit status for sources with faults. -/
def faultyStatus : Nat := 65

/-- The exit status that a log stands for. -/
def exitStatus (log : FaultLog) : Nat := if log.hadFault then faultyStatus else cleanStatus

/-- What can be done with a log. -/
inductive Operation where
  | scan (source : Text)
  | report (fault : Fault)
  /-- Forgets all faults. -/
  | clear
  /-- Hands over all faults and goes on with an empty log. -/
  | take
  deriving DecidableEq, Repr

/-- What an operation gives back. -/
inductive Answer where
  | nothing
  | tokens (tokens : List Token)
  | faults (faults : List Fault)
  deriving DecidableEq, Repr

/-- The answer to an operation, and the log that is left behind. -/
def perform (log : FaultLog) : Operation → Answer × FaultLog
  | .scan source =>
      let (tokens, log) := log.scan source
      (.tokens tokens, log)
  | .report fault => (.nothing, log.record fault)
  | .clear => (.nothing, empty)
  | .take =>
      let (faults, log) := log.take
      (.faults faults, log)

/-- The answers to operations in turn, each with the log that is left behind. -/
def run : FaultLog → List Operation → List (Answer × FaultLog)
  | _, [] => []
  | log, op :: ops =>
      let next := log.perform op
      next :: run next.2 ops

theorem foldl_record (faults : List Fault) (log : FaultLog) :
    faults.foldl record log = ⟨log.faults ++ faults⟩ := by
  induction faults generalizing log with
  | nil => simp
  | cons f faults ih => simp [ih, record]

/-- A scan gives the tokens of the source and adds its faults at the end. -/
@[simp] theorem scan_eq (log : FaultLog) (source : Text) :
    log.scan source =
      ((LoxTokens.scan source).tokens, ⟨log.faults ++ (LoxTokens.scan source).faults⟩) := by
  rw [scan, scanInto_eq, foldl_record]

end FaultLog

end LoxTokens
