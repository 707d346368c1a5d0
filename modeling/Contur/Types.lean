import Mathlib.Data.Nat.Notation
import Mathlib.Tactic.Common

/-!
# Identifiers, error codes and results of the simulator

Identifiers and ticks are natural numbers. The two reserved values are the ones
of the source: process `0` and frame `0xFFFFFFFF` name nothing. A `Result` is
either a value or one of the error codes; the void result carries `Unit`.
-/

namespace Contur

abbrev ProcessId := ℕ
abbrev MemoryAddress := ℕ
abbrev FrameId := ℕ
abbrev Tick := ℕ

def invalidPid : ProcessId := 0
def invalidFrame : FrameId := 0xFFFFFFFF
def maxProcesses : ℕ := 1024

inductive ErrorCode where
  | outOfMemory
  | invalidPid
  | invalidAddress
  | divisionByZero
  | invalidInstruction
  | segmentationFault
  | deviceError
  | processNotFound
  | permissionDenied
  | timeout
  | deadlockDetected
  | invalidState
  | invalidArgument
  | resourceBusy
  | notFound
  | alreadyExists
  | bufferFull
  | bufferEmpty
  | endOfFile
  | notImplemented
  deriving DecidableEq, Repr

inductive Result (α : Type*) where
  | ok (value : α)
  | error (code : ErrorCode)
  deriving DecidableEq, Repr

namespace Result
variable {α : Type*}

def isOk : Result α → Bool
  | .ok _ => true
  | .error _ => false

@[simp] theorem isOk_ok (a : α) : (Result.ok a).isOk = true := rfl
@[simp] theorem isOk_error (e : ErrorCode) : (Result.error e : Result α).isOk = false := rfl

theorem isOk_iff {r : Result α} : r.isOk = true ↔ ∃ a, r = .ok a := by
  cases r <;> simp

end Result
end Contur
