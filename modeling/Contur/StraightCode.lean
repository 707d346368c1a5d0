import Mathlib.Algebra.Order.Floor.Div
import Contur.KernelProtection
import Contur.StackDiscipline

/-!
# Programs that finish

A program of plain instructions and one that halts goes forward with every step. A
slice of it either ends the process or leaves it further on, never waits for anything,
and is not concerned with what other processes have done to the memory and the flags
before it.
-/

namespace Contur

/-- Slices of the processes of `C` never end in an interrupt for which a process waits, and a
process that goes on after a slice of `n` ticks needs fewer further ones than before, by the count
`rank n`. -/
structure Finishes {σ : Type} (E : ExecutionEngine σ) (C : ProcessImage → Prop)
    (rank : ℕ → ProcessImage → ℕ) : Prop where
  positive : ∀ n process, 0 < n → C process → 0 < rank n process
  waits : ∀ e memory pid process n, C process →
    (E.execute e memory pid process n).result.reason ≠ .interrupted
  advances : ∀ e memory pid process n, 0 < n → C process →
    (E.execute e memory pid process n).result.reason = .budgetExhausted →
    C { process with registers := (E.execute e memory pid process n).registers } ∧
      rank n { process with registers := (E.execute e memory pid process n).registers } <
        rank n process

/-- Plain instructions up to the address `last`, where the program halts. -/
structure StraightCode (code : List Block) (last : ℕ) : Prop where
  plain : ∀ i, i < last → ∃ block, code[i]? = some block ∧ Cpu.IsPlain block
  halt : ∃ block, code[last]? = some block ∧ block.code = .halt

namespace Cpu

theorem interrupt_plain {c c' : Cpu} {block : Block} {regs regs' : RegisterFile}
    {interrupt : Interrupt}
    (hblock : IsPlain block) (h : c.execute block regs = .ok (interrupt, c', regs')) :
    interrupt = .ok ∨ interrupt = .divByZero ∨ interrupt = .error := by
  have halu : ∀ {code : Instruction} {operand : RegisterValue} {regs₁ : RegisterFile},
      executeAluOp code regs block.reg operand = .ok (interrupt, regs₁) →
        interrupt = .ok ∨ interrupt = .divByZero ∨ interrupt = .error := by
    intro code operand regs₁ halu
    simp only [executeAluOp, bind_eq_ok] at halu
    obtain ⟨a, -, result, -, halu⟩ := halu
    split at halu
    · cases halu
      exact Or.inr (Or.inl rfl)
    · cases halu
      exact Or.inr (Or.inr rfl)
    · rw [bind_eq_ok] at halu
      obtain ⟨regs₂, -, halu⟩ := halu
      cases halu
      exact Or.inl rfl
  cases hcode : block.code <;> simp only [IsPlain, hcode] at hblock
  case nop =>
    simp only [execute, hcode] at h
    cases h
    exact Or.inl rfl
  case mov =>
    simp only [execute, hcode, bind_eq_ok] at h
    obtain ⟨value, -, regs₁, -, h⟩ := h
    cases h
    exact Or.inl rfl
  case compare =>
    simp only [execute, hcode, bind_eq_ok] at h
    obtain ⟨a, -, b, -, h⟩ := h
    cases h
    exact Or.inl rfl
  case readMemory =>
    simp only [execute, hcode, bind_eq_ok] at h
    obtain ⟨address, -, h⟩ := h
    split at h
    · cases h
      exact Or.inr (Or.inr rfl)
    · rw [bind_eq_ok] at h
      obtain ⟨regs₁, -, h⟩ := h
      cases h
      exact Or.inl rfl
  all_goals
    simp only [execute, hcode, bind_eq_ok] at h
    obtain ⟨operand, -, result, hresult, h⟩ := h
    cases h
    exact halu hresult

end Cpu

namespace InterpreterEngine
variable {code : List Block} {last : ℕ} {e e' : InterpreterEngine} {pid : ProcessId}
  {regs regs' : RegisterFile} {ticks n : ℕ} {result : ExecutionResult}

theorem toNat_add_one {pc : RegisterValue} (hsmall : pc.toNat < 2 ^ 31) (hlimit : pc ≠ 0x7FFFFFFF) :
    (pc + 1).toNat = pc.toNat + 1 ∧ (pc + 1).toNat < 2 ^ 31 := by
  bv_omega

theorem runLoop_straight (hcode : StraightCode code last)
    (hloaded : ∀ i, i ≤ last → e.cpu.memory.cells[i]? = code[i]?) (hpc : regs.pc.toNat ≤ last)
    (hsmall : regs.pc.toNat < 2 ^ 31) (h : e.runLoop pid regs ticks n = .ok (result, e', regs')) :
    result.reason ≠ .interrupted ∧ (result.reason = .budgetExhausted →
      regs'.pc.toNat = regs.pc.toNat + n ∧ regs'.pc.toNat ≤ last ∧ regs'.pc.toNat < 2 ^ 31) := by
  induction n generalizing e regs ticks with
  | zero =>
    cases h
    exact ⟨fun hreason => (by cases hreason), fun _ => ⟨rfl, hpc, hsmall⟩⟩
  | succ n ih =>
    simp only [runLoop] at h
    split_ifs at h
    · cases h
      exact ⟨fun hreason => (by cases hreason), fun hreason => (by cases hreason)⟩
    cases hstep : e.cpu.step regs with
    | error undefined => simp [hstep] at h
    | ok next =>
      obtain ⟨interrupt, cpu, regs₁⟩ := next
      simp only [hstep] at h
      have hcell := hloaded _ hpc
      rcases Nat.lt_or_eq_of_le hpc with hlt | hlast
      · -- a plain instruction
        obtain ⟨block, hblock, hplain⟩ := hcode.plain _ hlt
        have hfetch : e.cpu.memory.read regs.pc.toNat = .ok block :=
          PhysicalMemory.read_ok_iff.mpr (hcell.trans hblock)
        obtain ⟨hlimit, hexec⟩ := (Cpu.step_eq_ok_iff hfetch).mp hstep
        have hne : regs.pc ≠ 0x7FFFFFFF := (Cpu.add_one_lt_iff _).mp hlimit
        obtain ⟨hnext, hsmall'⟩ := toNat_add_one hsmall hne
        obtain ⟨hmemory, hpc', -⟩ := Cpu.execute_plain hplain hexec
        rw [Cpu.pc_setPc] at hpc'
        rcases Cpu.interrupt_plain hplain hexec with rfl | rfl | rfl
        · have hlater := ih (fun i hi => by rw [hmemory]; exact hloaded i hi)
            (by rw [hpc', hnext]; exact hlt) (by rw [hpc']; exact hsmall') h
          refine ⟨hlater.1, fun hreason => ?_⟩
          obtain ⟨hend, hle, hend'⟩ := hlater.2 hreason
          refine ⟨?_, hle, hend'⟩
          rw [hend, hpc', hnext]
          omega
        · cases h
          exact ⟨fun hreason => (by cases hreason), fun hreason => (by cases hreason)⟩
        · cases h
          exact ⟨fun hreason => (by cases hreason), fun hreason => (by cases hreason)⟩
      · -- the instruction that halts
        obtain ⟨block, hblock, hhalt⟩ := hcode.halt
        have hfetch : e.cpu.memory.read regs.pc.toNat = .ok block :=
          PhysicalMemory.read_ok_iff.mpr (hcell.trans (hlast ▸ hblock))
        obtain ⟨-, hexec⟩ := (Cpu.step_eq_ok_iff hfetch).mp hstep
        simp only [Cpu.execute, hhalt] at hexec
        cases hexec
        cases h
        exact ⟨fun hreason => (by cases hreason), fun hreason => (by cases hreason)⟩

theorem execute_straight {process : ProcessImage} (hcode : StraightCode process.code last)
    (hpc : process.registers.pc.toNat ≤ last) (hsmall : process.registers.pc.toNat < 2 ^ 31)
    (h : e.execute pid process n = .ok (result, e', regs')) :
    result.reason ≠ .interrupted ∧ (result.reason = .budgetExhausted →
      regs'.pc.toNat = process.registers.pc.toNat + n ∧ regs'.pc.toNat ≤ last ∧
        regs'.pc.toNat < 2 ^ 31) := by
  unfold execute at h
  split_ifs at h
  · cases h
    exact ⟨fun hreason => (by cases hreason), fun hreason => (by cases hreason)⟩
  rw [loadCode_eq] at h
  split_ifs at h
  · cases h
    exact ⟨fun hreason => (by cases hreason), fun hreason => (by cases hreason)⟩
  · refine runLoop_straight hcode (fun i hi => ?_) hpc hsmall h
    obtain ⟨block, hblock, -⟩ := hcode.halt
    have hlt : last < process.code.length := (List.getElem?_eq_some_iff.mp hblock).1
    exact List.getElem?_append_left (Nat.lt_of_le_of_lt hi hlt)

end InterpreterEngine

namespace Interpreter

structure InStraightCode (process : ProcessImage) : Prop where
  exists_last : ∃ last, StraightCode process.code last ∧ process.registers.pc.toNat ≤ last
  small : process.registers.pc.toNat < 2 ^ 31

def slicesLeft (n : ℕ) (process : ProcessImage) : ℕ :=
  (process.code.length - process.registers.pc.toNat) ⌈/⌉ n

theorem InStraightCode.pc_lt {process : ProcessImage} (h : InStraightCode process) :
    process.registers.pc.toNat < process.code.length := by
  obtain ⟨last, hcode, hpc⟩ := h.exists_last
  obtain ⟨block, hblock, -⟩ := hcode.halt
  have hlt : last < process.code.length := (List.getElem?_eq_some_iff.mp hblock).1
  exact Nat.lt_of_le_of_lt hpc hlt

theorem sub_ceilDiv_lt {left n : ℕ} (hn : 0 < n) (hleft : 0 < left) :
    (left - n) ⌈/⌉ n < left ⌈/⌉ n := by
  have hceil : left ≤ n * (left ⌈/⌉ n) := (ceilDiv_le_iff_le_mul hn).mp le_rfl
  have hpos : left ⌈/⌉ n ≠ 0 := by
    intro hzero
    rw [hzero] at hceil
    omega
  have hpred : (left - n) ⌈/⌉ n ≤ left ⌈/⌉ n - 1 := by
    rw [ceilDiv_le_iff_le_mul hn, Nat.mul_sub_one]
    omega
  omega

theorem finishes_straight : Finishes executionEngine InStraightCode slicesLeft where
  positive n process hn h := by
    have hpc := h.pc_lt
    have hlt := sub_ceilDiv_lt hn
      (by omega : 0 < process.code.length - process.registers.pc.toNat)
    exact Nat.zero_lt_of_lt hlt
  waits e memory pid process n h := by
    obtain ⟨last, hcode, hpc⟩ := h.exists_last
    change (e.execute memory pid process n).result.reason ≠ .interrupted
    unfold execute
    split
    · intro hreason
      cases hreason
    · next hexec => exact (InterpreterEngine.execute_straight hcode hpc h.small hexec).1
  advances e memory pid process n hn h hreason := by
    obtain ⟨last, hcode, hpc⟩ := h.exists_last
    have houtcome : (e.execute memory pid process n).registers.pc.toNat =
        process.registers.pc.toNat + n ∧
        (e.execute memory pid process n).registers.pc.toNat ≤ last ∧
        (e.execute memory pid process n).registers.pc.toNat < 2 ^ 31 := by
      change (e.execute memory pid process n).result.reason = .budgetExhausted at hreason
      unfold execute at hreason ⊢
      cases hexec : (e.engine memory).execute pid process n with
      | error undefined =>
        rw [hexec] at hreason
        cases hreason
      | ok next =>
        rw [hexec] at hreason
        exact (InterpreterEngine.execute_straight hcode hpc h.small hexec).2 hreason
    obtain ⟨hpc', hle, hsmall⟩ := houtcome
    refine ⟨⟨⟨last, hcode, hle⟩, hsmall⟩, ?_⟩
    change (process.code.length - (e.execute memory pid process n).registers.pc.toNat) ⌈/⌉ n <
      (process.code.length - process.registers.pc.toNat) ⌈/⌉ n
    have hlt := h.pc_lt
    rw [hpc', ← Nat.sub_sub]
    exact sub_ceilDiv_lt hn (by omega)

end Interpreter
end Contur
