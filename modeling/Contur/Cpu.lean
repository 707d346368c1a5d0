import Mathlib.Algebra.Group.Int.Defs
import Mathlib.Data.Int.Notation
import Mathlib.Logic.Function.Basic
import Contur.Execution

/-!
# The processor

One step fetches the block under the program counter and executes it. Loads, stores,
pushes and calls address the memory directly. A step that would use a register that
does not exist, or a signed operation whose result does not fit in 32 bits, has no
defined result: the outcome is then an `Undefined` and not a state. The compare flags
belong to the processor and not to the process.
-/

namespace Contur
open Function (update)

inductive Undefined where
  | registerIndex (index : BitVec 8)
  | arithmetic
  deriving DecidableEq, Repr

namespace RegisterFile

def get (regs : RegisterFile) (index : BitVec 8) : Except Undefined RegisterValue :=
  if h : index.toNat < registerCount then .ok (regs ⟨index.toNat, h⟩)
  else .error (.registerIndex index)

def set (regs : RegisterFile) (index : BitVec 8) (value : RegisterValue) :
    Except Undefined RegisterFile :=
  if h : index.toNat < registerCount then .ok (update regs ⟨index.toNat, h⟩ value)
  else .error (.registerIndex index)

def pc (regs : RegisterFile) : RegisterValue := regs 14
def setPc (regs : RegisterFile) (value : RegisterValue) : RegisterFile := update regs 14 value
def sp (regs : RegisterFile) : RegisterValue := regs 15
def setSp (regs : RegisterFile) (value : RegisterValue) : RegisterFile := update regs 15 value

end RegisterFile

namespace Alu

/-- The result of a signed 32-bit operation, if it has one. -/
def checked (x : ℤ) : Except Undefined RegisterValue :=
  if -2 ^ 31 ≤ x ∧ x < 2 ^ 31 then .ok (BitVec.ofInt 32 x) else .error .arithmetic

def add (a b : RegisterValue) : Except Undefined (Result RegisterValue) :=
  (checked (a.toInt + b.toInt)).map .ok

def sub (a b : RegisterValue) : Except Undefined (Result RegisterValue) :=
  (checked (a.toInt - b.toInt)).map .ok

def mul (a b : RegisterValue) : Except Undefined (Result RegisterValue) :=
  (checked (a.toInt * b.toInt)).map .ok

def div (a b : RegisterValue) : Except Undefined (Result RegisterValue) :=
  if b = 0 then .ok (.error .divisionByZero) else (checked (a.toInt.tdiv b.toInt)).map .ok

/-- A shift is defined for the distances from `0` to `31`. -/
def shift (op : ℕ → RegisterValue) (b : RegisterValue) : Except Undefined (Result RegisterValue) :=
  if b.toNat < 32 then .ok (.ok (op b.toNat)) else .error .arithmetic

def shiftLeft (a b : RegisterValue) : Except Undefined (Result RegisterValue) := shift (a <<< ·) b

def shiftRight (a b : RegisterValue) : Except Undefined (Result RegisterValue) :=
  shift a.sshiftRight b

def zeroFlag : RegisterValue := 1
def signFlag : RegisterValue := 2

def compare (a b : RegisterValue) : RegisterValue :=
  (if a = b then zeroFlag else 0) ||| (if a.slt b then signFlag else 0)

def apply (code : Instruction) (a b : RegisterValue) : Except Undefined (Result RegisterValue) :=
  match code with
  | .add => add a b
  | .sub => sub a b
  | .mul => mul a b
  | .div => div a b
  | .and => .ok (.ok (a &&& b))
  | .or => .ok (.ok (a ||| b))
  | .xor => .ok (.ok (a ^^^ b))
  | .shiftLeft => shiftLeft a b
  | .shiftRight => shiftRight a b
  | _ => .ok (.error .invalidInstruction)

end Alu

structure Cpu where
  memory : PhysicalMemory
  flags : RegisterValue
  deriving DecidableEq

namespace Cpu

/-- The operand is a register index in state `1` and an immediate value otherwise. -/
def resolveOperand (block : Block) (regs : RegisterFile) : Except Undefined RegisterValue :=
  if block.state = 1 then regs.get (block.operand.setWidth 8) else .ok block.operand

def executeAluOp (code : Instruction) (regs : RegisterFile) (dstReg : BitVec 8)
    (operandValue : RegisterValue) : Except Undefined (Interrupt × RegisterFile) := do
  let dstVal ← regs.get dstReg
  match ← Alu.apply code dstVal operandValue with
  | .error .divisionByZero => .ok (.divByZero, regs)
  | .error _ => .ok (.error, regs)
  | .ok value => return (.ok, ← regs.set dstReg value)

def shouldJump (c : Cpu) (code : Instruction) : Bool :=
  let zeroSet := c.flags &&& Alu.zeroFlag ≠ 0
  let signSet := c.flags &&& Alu.signFlag ≠ 0
  match code with
  | .jumpEqual => zeroSet
  | .jumpNotEqual => ¬ zeroSet
  | .jumpGreater => ¬ zeroSet ∧ ¬ signSet
  | .jumpLess => signSet
  | .jumpGreaterEqual => ¬ signSet
  | .jumpLessEqual => zeroSet ∨ signSet
  | _ => false

def store (c : Cpu) (address : RegisterValue) (value : RegisterValue) : Result Unit × Cpu :=
  let written := c.memory.write address.toNat { operand := value }
  (written.1, { c with memory := written.2 })

/-- Executes a fetched block; the program counter already points behind it. -/
def execute (c : Cpu) (block : Block) (regs : RegisterFile) :
    Except Undefined (Interrupt × Cpu × RegisterFile) :=
  match block.code with
  | .nop => .ok (.ok, c, regs)
  | .mov => do
    let value ← resolveOperand block regs
    return (.ok, c, ← regs.set block.reg value)
  | .add | .sub | .mul | .div | .and | .or | .xor | .shiftLeft | .shiftRight => do
    let operand ← resolveOperand block regs
    let (interrupt, regs) ← executeAluOp block.code regs block.reg operand
    return (interrupt, c, regs)
  | .compare => do
    let a ← regs.get block.reg
    let b ← resolveOperand block regs
    return (.ok, { c with flags := Alu.compare a b }, regs)
  | .jumpEqual | .jumpNotEqual | .jumpGreater | .jumpLess | .jumpGreaterEqual | .jumpLessEqual =>
    .ok (.ok, c, if c.shouldJump block.code then regs.setPc block.operand else regs)
  | .push => do
    let sp ← Alu.checked (regs.sp.toInt - 1)
    let value ← regs.get block.reg
    match c.store sp value with
    | (.error _, c) => return (.error, c, regs)
    | (.ok _, c) => return (.ok, c, regs.setSp sp)
  | .pop =>
    match c.memory.read regs.sp.toNat with
    | .error _ => .ok (.error, c, regs)
    | .ok top => do
      let popped ← regs.set block.reg top.operand
      let sp ← Alu.checked (regs.sp.toInt + 1)
      return (.ok, c, popped.setSp sp)
  | .call => do
    let sp ← Alu.checked (regs.sp.toInt - 1)
    match c.store sp regs.pc with
    | (.error _, c) => return (.error, c, regs)
    | (.ok _, c) => return (.ok, c, (regs.setSp sp).setPc block.operand)
  | .return =>
    match c.memory.read regs.sp.toNat with
    | .error _ => .ok (.error, c, regs)
    | .ok top => do
      let sp ← Alu.checked (regs.sp.toInt + 1)
      return (.ok, c, (regs.setPc top.operand).setSp sp)
  | .readMemory => do
    let address ← resolveOperand block regs
    match c.memory.read address.toNat with
    | .error _ => return (.error, c, regs)
    | .ok cell => return (.ok, c, ← regs.set block.reg cell.operand)
  | .writeMemory => do
    let value ← regs.get block.reg
    match c.store block.operand value with
    | (.error _, c) => return (.error, c, regs)
    | (.ok _, c) => return (.ok, c, regs)
  | .interrupt => .ok (.ofOperand block.operand, c, regs)
  | .halt => .ok (.exit, c, regs)
  | .unknown _ => .ok (.error, c, regs)

/-- A failed fetch leaves the program counter where it is. -/
def step (c : Cpu) (regs : RegisterFile) : Except Undefined (Interrupt × Cpu × RegisterFile) :=
  match c.memory.read regs.pc.toNat with
  | .error _ => .ok (.error, c, regs)
  | .ok block => do
    let next ← Alu.checked (regs.pc.toInt + 1)
    c.execute block (regs.setPc next)

def storeTarget (block : Block) (regs : RegisterFile) : Option MemoryAddress :=
  match block.code with
  | .push | .call => some (regs.sp - 1).toNat
  | .writeMemory => some block.operand.toNat
  | _ => none

theorem checked_sub_one {x y : RegisterValue} (h : Alu.checked (x.toInt - 1) = .ok y) :
    y = x - 1 := by
  unfold Alu.checked at h
  split_ifs at h
  cases h
  simp [BitVec.sub_eq_add_neg, Int.sub_eq_add_neg, BitVec.ofInt_add]

theorem bind_eq_ok {α β : Type} {x : Except Undefined α} {f : α → Except Undefined β} {r : β} :
    (x >>= f) = .ok r ↔ ∃ a, x = .ok a ∧ f a = .ok r := by
  cases x <;> simp [bind, Except.bind]

theorem execute_memory {c c' : Cpu} {block : Block} {regs regs' : RegisterFile}
    {interrupt : Interrupt} (h : c.execute block regs = .ok (interrupt, c', regs')) :
    c'.memory = c.memory ∨ ∃ a cell, storeTarget block regs = some a ∧
      c'.memory = (c.memory.write a cell).2 := by
  cases hcode : block.code with
  | nop | halt | interrupt | unknown code =>
    simp only [execute, hcode, Except.ok.injEq, Prod.mk.injEq] at h
    exact Or.inl (by rw [h.2.1])
  | jumpEqual | jumpNotEqual | jumpGreater | jumpLess | jumpGreaterEqual | jumpLessEqual =>
    simp only [execute, hcode, Except.ok.injEq, Prod.mk.injEq] at h
    exact Or.inl (by rw [h.2.1])
  | mov | compare =>
    simp only [execute, hcode, bind_eq_ok] at h
    obtain ⟨x, -, y, -, h⟩ := h
    cases h
    exact Or.inl rfl
  | add | sub | mul | div | and | or | xor | shiftLeft | shiftRight =>
    simp only [execute, hcode, bind_eq_ok] at h
    obtain ⟨x, -, y, -, h⟩ := h
    cases h
    exact Or.inl rfl
  | push =>
    simp only [execute, hcode, bind_eq_ok] at h
    obtain ⟨sp, hsp, value, -, h⟩ := h
    refine Or.inr ⟨sp.toNat, { operand := value }, ?_, ?_⟩
    · simp [storeTarget, hcode, checked_sub_one hsp]
    · split at h <;> next hs => cases h; exact (congrArg (fun r => r.2.memory) hs).symm
  | call =>
    simp only [execute, hcode, bind_eq_ok] at h
    obtain ⟨sp, hsp, h⟩ := h
    refine Or.inr ⟨sp.toNat, { operand := regs.pc }, ?_, ?_⟩
    · simp [storeTarget, hcode, checked_sub_one hsp]
    · split at h <;> next hs => cases h; exact (congrArg (fun r => r.2.memory) hs).symm
  | writeMemory =>
    simp only [execute, hcode, bind_eq_ok] at h
    obtain ⟨value, -, h⟩ := h
    refine Or.inr ⟨block.operand.toNat, { operand := value }, ?_, ?_⟩
    · simp [storeTarget, hcode]
    · split at h <;> next hs => cases h; exact (congrArg (fun r => r.2.memory) hs).symm
  | pop =>
    simp only [execute, hcode] at h
    split at h
    · cases h
      exact Or.inl rfl
    · simp only [bind_eq_ok] at h
      obtain ⟨x, -, y, -, h⟩ := h
      cases h
      exact Or.inl rfl
  | «return» =>
    simp only [execute, hcode] at h
    split at h
    · cases h
      exact Or.inl rfl
    · simp only [bind_eq_ok] at h
      obtain ⟨x, -, h⟩ := h
      cases h
      exact Or.inl rfl
  | readMemory =>
    simp only [execute, hcode, bind_eq_ok] at h
    obtain ⟨x, -, h⟩ := h
    split at h
    · cases h
      exact Or.inl rfl
    · simp only [bind_eq_ok] at h
      obtain ⟨y, -, h⟩ := h
      cases h
      exact Or.inl rfl

def nextStore (c : Cpu) (regs : RegisterFile) : Option MemoryAddress :=
  match c.memory.read regs.pc.toNat with
  | .error _ => none
  | .ok block => storeTarget block regs

theorem sp_setPc (regs : RegisterFile) (value : RegisterValue) :
    (regs.setPc value).sp = regs.sp := by
  simp [RegisterFile.sp, RegisterFile.setPc, Function.update]

theorem storeTarget_setPc (block : Block) (regs : RegisterFile) (value : RegisterValue) :
    storeTarget block (regs.setPc value) = storeTarget block regs := by
  simp only [storeTarget, sp_setPc]

theorem step_memory {c c' : Cpu} {regs regs' : RegisterFile} {interrupt : Interrupt}
    (h : c.step regs = .ok (interrupt, c', regs')) :
    c'.memory = c.memory ∨ ∃ a cell, c.nextStore regs = some a ∧
      c'.memory = (c.memory.write a cell).2 := by
  unfold step at h
  unfold nextStore
  split at h
  · cases h
    exact Or.inl rfl
  · next block hread =>
    rw [bind_eq_ok] at h
    obtain ⟨next, -, h⟩ := h
    simpa only [hread, storeTarget_setPc] using execute_memory h

theorem step_size {c c' : Cpu} {regs regs' : RegisterFile} {interrupt : Interrupt}
    (h : c.step regs = .ok (interrupt, c', regs')) : c'.memory.size = c.memory.size := by
  rcases step_memory h with hmem | ⟨a, cell, -, hmem⟩
  · rw [hmem]
  · rw [hmem, PhysicalMemory.size_write]

theorem step_cell {c c' : Cpu} {regs regs' : RegisterFile} {interrupt : Interrupt}
    (h : c.step regs = .ok (interrupt, c', regs')) {a : MemoryAddress}
    (ha : c.nextStore regs ≠ some a) : c'.memory.cells[a]? = c.memory.cells[a]? := by
  rcases step_memory h with hmem | ⟨b, cell, hb, hmem⟩
  · rw [hmem]
  · rw [hmem]
    refine PhysicalMemory.cell_write_ne c.memory cell ?_
    rintro rfl
    exact ha hb

end Cpu
end Contur
