import Contur.Interpreter
import Contur.KernelInvariant

/-!
# Execution and virtual pages

The kernel of the application gives one physical memory to the memory management
unit, the processor and the interpreter. The frames of the unit are the cells that
the interpreter copies code into and the processor stores to by physical address, so
running a process can overwrite the resident pages of another one. What it cannot
reach are pages that are swapped out, and frames that lie above its code and that no
store of the slice hits.
-/

namespace Contur

/-- The state of the interpreter besides the memory. An undefined slice is recorded; the states
after it no longer describe the program. -/
structure Interpreter where
  flags : RegisterValue := 0
  haltedPids : Finset ProcessId := ∅
  undefined : Option Undefined := none

namespace Interpreter

def engine (e : Interpreter) (memory : PhysicalMemory) : InterpreterEngine :=
  ⟨⟨memory, e.flags⟩, e.haltedPids⟩

def execute (e : Interpreter) (memory : PhysicalMemory) (pid : ProcessId) (process : ProcessImage)
    (tickBudget : ℕ) : Outcome Interpreter :=
  match (e.engine memory).execute pid process tickBudget with
  -- the code does anything here; what is proved of runs is about those whose slices are defined
  | .error undefined =>
    { result := .error pid 0 .error
      engine := { e with undefined := some undefined }
      memory := memory
      registers := process.registers }
  | .ok (result, engine, registers) =>
    { result := result
      engine := { e with flags := engine.cpu.flags, haltedPids := engine.haltedPids }
      memory := engine.cpu.memory
      registers := registers }

def executionEngine : ExecutionEngine Interpreter where
  execute := execute
  halt e pid := { e with haltedPids := insert pid e.haltedPids }
  size_execute e memory pid process tickBudget := by
    unfold execute
    split
    · rfl
    · next hexec => exact (InterpreterEngine.execute_memory hexec).1

theorem execute_cell {e : Interpreter} {memory : PhysicalMemory} {pid : ProcessId}
    {process : ProcessImage} {tickBudget : ℕ} {a : MemoryAddress} (ha : process.code.length ≤ a)
    (hstore : a ∉ InterpreterEngine.stores (e.engine memory) pid process tickBudget) :
    (e.execute memory pid process tickBudget).memory.cells[a]? = memory.cells[a]? := by
  unfold execute
  split
  · rfl
  · next hexec => exact (InterpreterEngine.execute_memory hexec).2 a ha hstore

end Interpreter

theorem Mmu.content_setMemory {P : ReplacementPolicy} {s : Mmu P} {memory : PhysicalMemory}
    {q : ProcessId} {v : ℕ}
    (h : ∀ f, s.frameOf q v = some f → memory.cells[f]? = s.memory.cells[f]?) :
    ({ s with memory := memory } : Mmu P).content q v = s.content q v := by
  have hframe : ({ s with memory := memory } : Mmu P).frameOf q v = s.frameOf q v := rfl
  unfold Mmu.content
  rw [hframe]
  cases hf : s.frameOf q v with
  | none => rfl
  | some f =>
    dsimp only
    rw [h f hf]
    rfl

namespace Dispatcher
variable {P : ReplacementPolicy}

def stores (d : Dispatcher P Interpreter) (p : ProcessId) (process : ProcessImage)
    (tickBudget : ℕ) : List MemoryAddress :=
  InterpreterEngine.stores (d.engine.engine d.virtualMemory.mmu.memory) p process tickBudget

def content (d : Dispatcher P Interpreter) (q : ProcessId) (v : ℕ) : Option Block :=
  d.virtualMemory.mmu.content q v

theorem content_execute {d : Dispatcher P Interpreter} {p q : ProcessId} {process : ProcessImage}
    {tickBudget v : ℕ}
    (hframe : ∀ f, d.virtualMemory.mmu.frameOf q v = some f →
      process.code.length ≤ f ∧ f ∉ d.stores p process tickBudget) :
    (d.execute Interpreter.executionEngine p process tickBudget).2.content q v = d.content q v := by
  refine Mmu.content_setMemory fun f hf => ?_
  obtain ⟨hcode, hstore⟩ := hframe f hf
  exact Interpreter.execute_cell hcode hstore

end Dispatcher

namespace Kernel
variable {P : ReplacementPolicy}

/-- The kernel of the application: one memory for the unit and the interpreter. -/
def wired (P : ReplacementPolicy) (policy : PolicyKind) (cellCount : ℕ) (order : ℕ → ℕ)
    (maxSlots defaultTickBudget : ℕ) : Kernel P Interpreter :=
  create policy {} (VirtualMemory.init (Mmu.init P (.ofSize cellCount) order) maxSlots)
    defaultTickBudget

def selecting (k : Kernel P Interpreter) : Dispatcher P Interpreter :=
  { k.dispatcher with scheduler := (k.dispatcher.scheduler.selectNext k.dispatcher.clock).2 }

/-- Executing the selected process leaves the content of a page of another process unchanged if
the page is swapped out, or if its frame is above the code of the executed process and is not
stored to in the slice. -/
theorem pages_protected (P : ReplacementPolicy) (policy : PolicyKind) (cellCount : ℕ)
    (order : ℕ → ℕ) (maxSlots defaultTickBudget : ℕ) (ops : List Op) (p : ProcessId)
    (process : ProcessImage) (tickBudget : ℕ) :
    let k := (machine Interpreter.executionEngine).run
      (wired P policy cellCount order maxSlots defaultTickBudget) ops
    (k.dispatcher.scheduler.selectNext k.dispatcher.clock).1 = .ok p →
    k.selecting.processes.lookup p = some process →
    let d := (k.selecting.execute Interpreter.executionEngine p process tickBudget).2
    d.engine.undefined = none →
      ∀ q v, q ≠ p →
        (∀ f, k.selecting.virtualMemory.mmu.frameOf q v = some f →
          process.code.length ≤ f ∧ f ∉ k.selecting.stores p process tickBudget) →
        d.content q v = k.selecting.content q v := by
  intro k _ _ d _ q v _ hframe
  exact Dispatcher.content_execute hframe

def quietOps : List Op :=
  [.createProcess { code := [{ code := .mov, operand := 5 }] },
    .createProcess { code := [{ code := .mov, operand := 7 }] }]

theorem pages_protected_quiet :
    let k := (machine Interpreter.executionEngine).run
      (wired fifoReplacement (.roundRobin 4) 64 (63 - ·) 1024 1) quietOps
    (k.selecting.execute Interpreter.executionEngine 1 { code := [{ code := .mov, operand := 5 }] }
      1).2.content 2 0 = k.selecting.content 2 0 := by
  refine pages_protected fifoReplacement (.roundRobin 4) 64 (63 - ·) 1024 1 quietOps 1
    { code := [{ code := .mov, operand := 5 }] } 1 (by decide +kernel) (by decide +kernel)
    (by decide +kernel) 2 0 (by decide) fun f hf => ?_
  have hframe : ((machine Interpreter.executionEngine).run (wired fifoReplacement (.roundRobin 4) 64
      (63 - ·) 1024 1) quietOps).selecting.virtualMemory.mmu.frameOf 2 0 = some 62 := by
    decide +kernel
  rw [hframe] at hf
  cases hf
  decide +kernel

def storingOps : List Op :=
  [.createProcess { code := [{ code := .writeMemory, operand := 62 }] },
    .createProcess { code := [{ code := .mov, operand := 7 }] }]

theorem pages_not_protected :
    ¬ ∀ (ops : List Op) (p : ProcessId) (process : ProcessImage) (tickBudget : ℕ),
      let k := (machine Interpreter.executionEngine).run
        (wired fifoReplacement (.roundRobin 4) 64 (63 - ·) 1024 1) ops
      (k.dispatcher.scheduler.selectNext k.dispatcher.clock).1 = .ok p →
      k.selecting.processes.lookup p = some process →
      let d := (k.selecting.execute Interpreter.executionEngine p process tickBudget).2
      d.engine.undefined = none →
        ∀ q v, q ≠ p → d.content q v = k.selecting.content q v := by
  intro h
  have hpage := h storingOps 1 { code := [{ code := .writeMemory, operand := 62 }] } 1
    (by decide +kernel) (by decide +kernel) (by decide +kernel) 2 0 (by decide)
  revert hpage
  decide +kernel

end Kernel
end Contur
