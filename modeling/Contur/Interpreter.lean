import Mathlib.Data.Finset.Basic
import Contur.Cpu

/-!
# The interpreter engine

Before each slice the code of the process is copied to the base of the memory, and
the slice then steps the processor until the budget is used up or an interrupt ends
it. The memory above the code and the compare flags are as the last slice of any
process has left them; registers and code belong to the process.
-/

namespace Contur

structure InterpreterEngine where
  cpu : Cpu
  haltedPids : Finset ProcessId

namespace InterpreterEngine

/-- The write loop of `loadCode`, from address `i` on. -/
def loadFrom (memory : PhysicalMemory) (i : ℕ) : List Block → Bool × PhysicalMemory
  | [] => (true, memory)
  | block :: blocks =>
    match memory.write i block with
    | (.error _, memory) => (false, memory)
    | (.ok _, memory) => loadFrom memory (i + 1) blocks

def loadCode (memory : PhysicalMemory) (code : List Block) : Bool × PhysicalMemory :=
  if memory.size < code.length then (false, memory) else loadFrom memory 0 code

def stopResult (pid : ProcessId) (ticks : ℕ) : Interrupt → Option ExecutionResult
  | .ok => none
  | .exit => some (.exited pid ticks)
  | .divByZero => some (.error pid ticks .divByZero)
  | .error => some (.error pid ticks .error)
  | .systemCall => some (.interrupted pid ticks .systemCall)
  | .deviceIo => some (.interrupted pid ticks .deviceIo)
  | .networkIo => some (.interrupted pid ticks .networkIo)
  | .pageFault => some (.interrupted pid ticks .pageFault)
  | .timer => some (.interrupted pid ticks .timer)
  | .other code => some (.error pid ticks (.other code))

def runLoop (e : InterpreterEngine) (pid : ProcessId) (regs : RegisterFile) (ticks : ℕ) :
    ℕ → Except Undefined (ExecutionResult × InterpreterEngine × RegisterFile)
  | 0 => .ok (.budgetExhausted pid ticks, e, regs)
  | n + 1 =>
    if pid ∈ e.haltedPids then
      .ok (.halted pid ticks, { e with haltedPids := e.haltedPids.erase pid }, regs)
    else
      match e.cpu.step regs with
      | .error undefined => .error undefined
      | .ok (interrupt, cpu, regs) =>
        match stopResult pid (ticks + 1) interrupt with
        | some result => .ok (result, { e with cpu := cpu }, regs)
        | none => runLoop { e with cpu := cpu } pid regs (ticks + 1) n

def execute (e : InterpreterEngine) (pid : ProcessId) (process : ProcessImage) (tickBudget : ℕ) :
    Except Undefined (ExecutionResult × InterpreterEngine × RegisterFile) :=
  if pid ∈ e.haltedPids then
    .ok (.halted pid 0, { e with haltedPids := e.haltedPids.erase pid }, process.registers)
  else
    match loadCode e.cpu.memory process.code with
    | (false, memory) =>
      .ok (.error pid 0 .error, { e with cpu := { e.cpu with memory := memory } },
        process.registers)
    | (true, memory) =>
      { e with cpu := { e.cpu with memory := memory } : InterpreterEngine }.runLoop pid
        process.registers 0 tickBudget

theorem loadFrom_eq (cells rest : List Block) (code : List Block) (h : code.length ≤ rest.length) :
    loadFrom ⟨cells ++ rest⟩ cells.length code =
      (true, ⟨cells ++ (code ++ rest.drop code.length)⟩) := by
  induction code generalizing cells rest with
  | nil => simp [loadFrom]
  | cons block code ih =>
    cases rest with
    | nil => simp at h
    | cons old rest =>
      have hwrite : PhysicalMemory.write ⟨cells ++ old :: rest⟩ cells.length block =
          (.ok (), ⟨(cells ++ [block]) ++ rest⟩) := by
        rw [PhysicalMemory.write_ok block (by simp [PhysicalMemory.size])]
        simp
      have hrest := ih (cells ++ [block]) rest (by simpa using h)
      simp only [loadFrom, hwrite]
      simpa using hrest

theorem loadCode_eq (memory : PhysicalMemory) (code : List Block) :
    loadCode memory code = if memory.size < code.length then (false, memory)
      else (true, ⟨code ++ memory.cells.drop code.length⟩) := by
  unfold loadCode
  split_ifs with h
  · rfl
  · simpa using loadFrom_eq [] memory.cells code (Nat.not_lt.mp h)

theorem loadCode_size (memory : PhysicalMemory) (code : List Block) :
    (loadCode memory code).2.size = memory.size := by
  rw [loadCode_eq]
  split_ifs with h
  · rfl
  · simp only [PhysicalMemory.size, List.length_append, List.length_drop] at h ⊢
    omega

theorem loadCode_cell (memory : PhysicalMemory) {code : List Block} {a : MemoryAddress}
    (ha : code.length ≤ a) : (loadCode memory code).2.cells[a]? = memory.cells[a]? := by
  rw [loadCode_eq]
  split_ifs with h
  · rfl
  · rw [List.getElem?_append_right ha, List.getElem?_drop, Nat.add_sub_cancel' ha]

def loopStores (c : Cpu) (regs : RegisterFile) : ℕ → List MemoryAddress
  | 0 => []
  | n + 1 =>
    (c.nextStore regs).toList ++
      match c.step regs with
      | .ok (.ok, c, regs) => loopStores c regs n
      | _ => []

/-- The addresses that a slice stores to after the code has been loaded. A slice that is halted or
whose code does not fit executes no step. -/
def stores (e : InterpreterEngine) (pid : ProcessId) (process : ProcessImage) (tickBudget : ℕ) :
    List MemoryAddress :=
  if pid ∈ e.haltedPids ∨ e.cpu.memory.size < process.code.length then []
  else loopStores { e.cpu with memory := (loadCode e.cpu.memory process.code).2 } process.registers
    tickBudget

variable {e e' : InterpreterEngine} {pid : ProcessId} {result : ExecutionResult}
  {regs regs' : RegisterFile} {ticks n : ℕ}

theorem stopResult_eq_none {interrupt : Interrupt} (h : stopResult pid ticks interrupt = none) :
    interrupt = .ok := by
  cases interrupt <;> simp_all [stopResult]

theorem runLoop_memory (h : e.runLoop pid regs ticks n = .ok (result, e', regs')) :
    e'.cpu.memory.size = e.cpu.memory.size ∧
      ∀ a ∉ loopStores e.cpu regs n, e'.cpu.memory.cells[a]? = e.cpu.memory.cells[a]? := by
  induction n generalizing e regs ticks with
  | zero =>
    cases h
    exact ⟨rfl, fun _ _ => rfl⟩
  | succ n ih =>
    simp only [runLoop] at h
    split_ifs at h
    · cases h
      exact ⟨rfl, fun _ _ => rfl⟩
    cases hstep : e.cpu.step regs with
    | error undefined => simp [hstep] at h
    | ok next =>
      obtain ⟨interrupt, cpu, regs₁⟩ := next
      simp only [hstep] at h
      have hsize := Cpu.step_size hstep
      have hcell : ∀ a, e.cpu.nextStore regs ≠ some a →
          cpu.memory.cells[a]? = e.cpu.memory.cells[a]? := fun a => Cpu.step_cell hstep
      cases hstop : stopResult pid (ticks + 1) interrupt with
      | some result' =>
        simp only [hstop] at h
        cases h
        refine ⟨hsize, fun a ha => hcell a ?_⟩
        rintro hnext
        simp [loopStores, hnext] at ha
      | none =>
        simp only [hstop] at h
        obtain rfl := stopResult_eq_none hstop
        obtain ⟨hsize', hcell'⟩ := ih h
        refine ⟨hsize'.trans hsize, fun a ha => ?_⟩
        simp only [loopStores, hstep, List.mem_append, Option.mem_toList, not_or] at ha
        exact (hcell' a ha.2).trans (hcell a (by simpa using ha.1))

/-- A slice keeps the size of the memory, and every cell above the code that it does not store
to. -/
theorem execute_memory {process : ProcessImage}
    (h : e.execute pid process n = .ok (result, e', regs')) :
    e'.cpu.memory.size = e.cpu.memory.size ∧
      ∀ a, process.code.length ≤ a → a ∉ stores e pid process n →
        e'.cpu.memory.cells[a]? = e.cpu.memory.cells[a]? := by
  unfold execute at h
  split_ifs at h with hhalted
  · cases h
    exact ⟨rfl, fun _ _ _ => rfl⟩
  have hsize := loadCode_size e.cpu.memory process.code
  have hcell : ∀ a, process.code.length ≤ a →
      (loadCode e.cpu.memory process.code).2.cells[a]? = e.cpu.memory.cells[a]? :=
    fun a ha => loadCode_cell e.cpu.memory ha
  have hfits : (loadCode e.cpu.memory process.code).1 = true →
      ¬ e.cpu.memory.size < process.code.length := by
    intro hloaded hlt
    simp [loadCode, hlt] at hloaded
  unfold stores
  cases hload : loadCode e.cpu.memory process.code with
  | mk loaded memory =>
    rw [hload] at h hsize hcell hfits
    cases loaded with
    | false =>
      cases h
      exact ⟨hsize, fun a ha _ => hcell a ha⟩
    | true =>
      obtain ⟨hsize', hcell'⟩ := runLoop_memory h
      refine ⟨hsize'.trans hsize, fun a ha hstore => ?_⟩
      rw [if_neg (by simp [hhalted, hfits rfl])] at hstore
      exact (hcell' a hstore).trans (hcell a ha)

theorem runLoop_not_halted {c : Cpu} {halted : Finset ProcessId} (h : pid ∉ halted) :
    runLoop ⟨c, halted⟩ pid regs ticks n =
      (runLoop ⟨c, ∅⟩ pid regs ticks n).map fun r => (r.1, ⟨r.2.1.cpu, halted⟩, r.2.2) := by
  induction n generalizing c regs ticks with
  | zero => rfl
  | succ n ih =>
    simp only [runLoop, h, Finset.notMem_empty, ↓reduceIte]
    cases c.step regs with
    | error undefined => rfl
    | ok next =>
      obtain ⟨interrupt, cpu, regs₁⟩ := next
      dsimp only
      cases stopResult pid (ticks + 1) interrupt with
      | some result => rfl
      | none => exact ih

theorem execute_of_halted {process : ProcessImage} (h : pid ∈ e.haltedPids) :
    e.execute pid process n =
      .ok (.halted pid 0, { e with haltedPids := e.haltedPids.erase pid }, process.registers) := by
  simp [execute, h]

theorem execute_of_not_fits {process : ProcessImage} (h : pid ∉ e.haltedPids)
    (hfits : e.cpu.memory.size < process.code.length) :
    e.execute pid process n = .ok (.error pid 0 .error, e, process.registers) := by
  simp [execute, h, loadCode_eq, hfits]

def loaded (c : Cpu) (code : List Block) : Cpu where
  memory := ⟨code ++ c.memory.cells.drop code.length⟩
  flags := c.flags

theorem execute_of_fits {process : ProcessImage} (h : pid ∉ e.haltedPids)
    (hfits : ¬ e.cpu.memory.size < process.code.length) :
    e.execute pid process n =
      (runLoop ⟨loaded e.cpu process.code, ∅⟩ pid process.registers 0 n).map fun r =>
        (r.1, ⟨r.2.1.cpu, e.haltedPids⟩, r.2.2) := by
  simp only [execute, h, ↓reduceIte, loadCode_eq, hfits]
  exact runLoop_not_halted h

theorem execute_halted {p : ProcessId} {process : ProcessImage} (hp : p ≠ pid)
    (h : e.execute pid process n = .ok (result, e', regs')) :
    p ∈ e'.haltedPids ↔ p ∈ e.haltedPids := by
  by_cases hhalted : pid ∈ e.haltedPids
  · rw [execute_of_halted hhalted] at h
    cases h
    simp [hp]
  by_cases hfits : e.cpu.memory.size < process.code.length
  · rw [execute_of_not_fits hhalted hfits] at h
    cases h
    rfl
  · rw [execute_of_fits hhalted hfits] at h
    cases hrun : runLoop ⟨loaded e.cpu process.code, ∅⟩ pid process.registers 0 n with
    | error undefined =>
      rw [hrun] at h
      cases h
    | ok r =>
      rw [hrun] at h
      cases h
      rfl

end InterpreterEngine
end Contur
