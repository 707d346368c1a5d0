import Mathlib.Data.Fintype.Basic
import Contur.PhysicalMemory

/-!
# Process images and execution engines

An engine runs a process for a number of ticks. Besides its own state it may change
the registers of the process and the cells of the memory it is given, but not the
size of the memory, and it never sees a control block.
-/

namespace Contur

abbrev registerCount : ℕ := 16

/-- Sixteen registers; the last two are the program counter and the stack pointer. -/
abbrev RegisterFile := Fin registerCount → RegisterValue

structure ProcessImage where
  code : List Block
  registers : RegisterFile := fun _ => 0
  deriving DecidableEq

inductive StopReason where
  | budgetExhausted | processExited | error | interrupted | halted
  deriving DecidableEq, Repr

structure ExecutionResult where
  reason : StopReason
  interrupt : Interrupt
  ticksConsumed : ℕ
  pid : ProcessId
  deriving DecidableEq, Repr

namespace ExecutionResult

def budgetExhausted (pid : ProcessId) (ticks : ℕ) : ExecutionResult :=
  ⟨.budgetExhausted, .ok, ticks, pid⟩

def exited (pid : ProcessId) (ticks : ℕ) : ExecutionResult := ⟨.processExited, .exit, ticks, pid⟩

def error (pid : ProcessId) (ticks : ℕ) (interrupt : Interrupt) : ExecutionResult :=
  ⟨.error, interrupt, ticks, pid⟩

def interrupted (pid : ProcessId) (ticks : ℕ) (interrupt : Interrupt) : ExecutionResult :=
  ⟨.interrupted, interrupt, ticks, pid⟩

def halted (pid : ProcessId) (ticks : ℕ) : ExecutionResult := ⟨.halted, .exit, ticks, pid⟩

end ExecutionResult

structure Outcome (σ : Type) where
  result : ExecutionResult
  engine : σ
  memory : PhysicalMemory
  registers : RegisterFile

structure ExecutionEngine (σ : Type) where
  execute : σ → PhysicalMemory → ProcessId → ProcessImage → ℕ → Outcome σ
  halt : σ → ProcessId → σ
  size_execute : ∀ engine memory pid process tickBudget,
    (execute engine memory pid process tickBudget).memory.size = memory.size

end Contur
