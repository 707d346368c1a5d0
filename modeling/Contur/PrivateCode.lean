import Contur.KernelProtection
import Contur.TimeSlices

/-!
# Code that keeps to the registers

An instruction is private if what it does to the registers depends on the registers only.
Steps of private instructions are the same on every processor that holds the code, whatever
the cells above it and the flags are. So the registers after a slice are those after as many
steps of the code alone, in a memory of its own, as the slice has taken ticks.
-/

namespace Contur

namespace Cpu
variable {c c' : Cpu} {code : List Block} {block : Block} {regs regs' regs'' : RegisterFile}
  {interrupt : Interrupt}

/-- It neither reads the memory or the flags nor stores to the memory. -/
def isPrivate (block : Block) : Bool :=
  match block.code with
  | .jumpEqual | .jumpNotEqual | .jumpGreater | .jumpLess | .jumpGreaterEqual | .jumpLessEqual =>
      false
  | .push | .pop | .call | .return | .readMemory | .writeMemory => false
  | _ => true

def onlyCode (code : List Block) : Cpu := ⟨⟨code⟩, 0⟩

theorem execute_private (h : isPrivate block = true)
    (hexec : c.execute block regs = .ok (interrupt, c', regs')) (c₁ : Cpu) :
    ∃ c₁', c₁.execute block regs = .ok (interrupt, c₁', regs') := by
  cases hcode : block.code <;> simp only [isPrivate, hcode, Bool.false_eq_true] at h
  case nop | halt | interrupt | unknown =>
    simp only [execute, hcode] at hexec ⊢
    cases hexec
    exact ⟨c₁, rfl⟩
  case mov =>
    simp only [execute, hcode, bind_eq_ok] at hexec ⊢
    obtain ⟨value, hvalue, regs₁, hset, hexec⟩ := hexec
    cases hexec
    exact ⟨c₁, value, hvalue, regs', hset, rfl⟩
  case compare =>
    simp only [execute, hcode, bind_eq_ok] at hexec ⊢
    obtain ⟨a, ha, b, hb, hexec⟩ := hexec
    cases hexec
    exact ⟨_, a, ha, b, hb, rfl⟩
  all_goals
    simp only [execute, hcode, bind_eq_ok] at hexec ⊢
    obtain ⟨operand, hoperand, result, hresult, hexec⟩ := hexec
    cases hexec
    exact ⟨c₁, operand, hoperand, result, hresult, rfl⟩

theorem execute_private_memory (h : isPrivate block = true)
    (hexec : c.execute block regs = .ok (interrupt, c', regs')) : c'.memory = c.memory := by
  rcases execute_memory hexec with hsame | ⟨a, cell, htarget, -⟩
  · exact hsame
  · unfold storeTarget at htarget
    split at htarget
    all_goals simp_all [isPrivate]

def stepAlone (code : List Block) (regs : RegisterFile) : Option RegisterFile :=
  match code[regs.pc.toNat]? with
  | none => none
  | some block =>
    if isPrivate block then
      match (onlyCode code).step regs with
      | .error _ => none
      | .ok (_, _, regs) => some regs
    else none

theorem step_of_stepAlone (hholds : InterpreterEngine.HoldsCode c.memory code)
    (halone : stepAlone code regs = some regs'')
    (hstep : c.step regs = .ok (interrupt, c', regs')) :
    regs' = regs'' ∧ c'.memory = c.memory := by
  unfold stepAlone at halone
  cases hfetch : code[regs.pc.toNat]? with
  | none =>
    rw [hfetch] at halone
    cases halone
  | some block =>
    have hlt : regs.pc.toNat < code.length := (List.getElem?_eq_some_iff.mp hfetch).1
    have hread : c.memory.read regs.pc.toNat = .ok block := by
      rw [← hholds, List.getElem?_take_of_lt hlt] at hfetch
      exact PhysicalMemory.read_ok_iff.mpr hfetch
    have hread₁ : (onlyCode code).memory.read regs.pc.toNat = .ok block :=
      PhysicalMemory.read_ok_iff.mpr hfetch
    rw [hfetch] at halone
    dsimp only at halone
    split_ifs at halone with hprivate
    simp only [step, hread, bind_eq_ok] at hstep
    obtain ⟨next, hnext, hexec⟩ := hstep
    obtain ⟨c₁, hexec₁⟩ := execute_private hprivate hexec (onlyCode code)
    have hstep₁ : (onlyCode code).step regs = .ok (interrupt, c₁, regs') := by
      simp only [step, hread₁, bind_eq_ok]
      exact ⟨next, hnext, hexec₁⟩
    rw [hstep₁] at halone
    exact ⟨Option.some.inj halone, execute_private_memory hprivate hexec⟩

/-- The registers after a number of steps of the code alone, as long as it is private. -/
def runAlone (code : List Block) : ℕ → RegisterFile → Option RegisterFile
  | 0, regs => some regs
  | n + 1, regs => (stepAlone code regs).bind (runAlone code n)

theorem runAlone_add (code : List Block) (m n : ℕ) (regs : RegisterFile) :
    runAlone code (m + n) regs = (runAlone code m regs).bind (runAlone code n) := by
  induction m generalizing regs with
  | zero =>
    rw [Nat.zero_add]
    rfl
  | succ m ih =>
    rw [Nat.succ_add]
    change (stepAlone code regs).bind (runAlone code (m + n)) = _
    cases hstep : stepAlone code regs with
    | none => simp only [runAlone, hstep, Option.bind_none]
    | some regs₁ => simp only [runAlone, hstep, Option.bind_some, ih]

end Cpu

def AfterSteps (code : List Block) (n : ℕ) (regs regs' : RegisterFile) : Prop :=
  ∀ regs'', Cpu.runAlone code n regs = some regs'' → regs' = regs''

namespace AfterSteps
variable {code : List Block} {m n : ℕ} {regs regs' regs'' : RegisterFile}

theorem zero (code : List Block) (regs : RegisterFile) : AfterSteps code 0 regs regs :=
  fun _ h => Option.some.inj h

theorem of_none (h : Cpu.stepAlone code regs = none) : AfterSteps code (1 + n) regs regs' := by
  intro regs'' hrun
  rw [Nat.add_comm, Cpu.runAlone, h] at hrun
  cases hrun

theorem trans (h : AfterSteps code m regs regs') (h' : AfterSteps code n regs' regs'') :
    AfterSteps code (m + n) regs regs'' := by
  intro last hlast
  rw [Cpu.runAlone_add, Option.bind_eq_some_iff] at hlast
  obtain ⟨mid, hmid, hrest⟩ := hlast
  rw [← h mid hmid] at hrest
  exact h' last hrest

end AfterSteps

namespace InterpreterEngine
variable {e e' : InterpreterEngine} {pid : ProcessId} {code : List Block}
  {regs regs' : RegisterFile} {ticks n : ℕ} {result : ExecutionResult}

theorem stopResult_ticks {interrupt : Interrupt}
    (h : stopResult pid ticks interrupt = some result) :
    result.ticksConsumed = ticks := by
  cases interrupt <;> cases h <;> rfl

theorem runLoop_ticks_le (h : e.runLoop pid regs ticks n = .ok (result, e', regs')) :
    ticks ≤ result.ticksConsumed := by
  induction n generalizing e regs ticks with
  | zero =>
    cases h
    exact le_rfl
  | succ n ih =>
    simp only [runLoop] at h
    split_ifs at h
    · cases h
      exact le_rfl
    cases hstep : e.cpu.step regs with
    | error undefined =>
      rw [hstep] at h
      cases h
    | ok next =>
      rw [hstep] at h
      dsimp only at h
      cases hstop : stopResult pid (ticks + 1) next.1 with
      | some stopped =>
        rw [hstop] at h
        cases h
        exact (stopResult_ticks hstop).symm ▸ Nat.le_succ ticks
      | none =>
        rw [hstop] at h
        exact Nat.le_of_succ_le (ih h)

theorem runLoop_afterSteps (hholds : HoldsCode e.cpu.memory code)
    (h : e.runLoop pid regs ticks n = .ok (result, e', regs')) :
    ∃ m, result.ticksConsumed = ticks + m ∧ AfterSteps code m regs regs' := by
  induction n generalizing e regs ticks with
  | zero =>
    cases h
    exact ⟨0, rfl, .zero code _⟩
  | succ n ih =>
    simp only [runLoop] at h
    split_ifs at h
    · cases h
      exact ⟨0, rfl, .zero code _⟩
    cases hstep : e.cpu.step regs with
    | error undefined =>
      rw [hstep] at h
      cases h
    | ok next =>
      obtain ⟨interrupt, cpu, regs₁⟩ := next
      rw [hstep] at h
      dsimp only at h
      have hone : AfterSteps code 1 regs regs₁ := by
        intro regs₂ halone
        obtain ⟨regs₃, hregs₃, hlast⟩ := Option.bind_eq_some_iff.mp halone
        cases hlast
        exact (Cpu.step_of_stepAlone hholds hregs₃ hstep).1
      cases hstop : stopResult pid (ticks + 1) interrupt with
      | some stopped =>
        rw [hstop] at h
        cases h
        exact ⟨1, stopResult_ticks hstop, hone⟩
      | none =>
        rw [hstop] at h
        cases hprivate : Cpu.stepAlone code regs with
        | none =>
          obtain ⟨m, hm⟩ := Nat.exists_eq_add_of_le (runLoop_ticks_le h)
          exact ⟨1 + m, hm.trans (Nat.add_assoc ticks 1 m), .of_none hprivate⟩
        | some regs₂ =>
          have hkept : HoldsCode cpu.memory code := by
            rw [(Cpu.step_of_stepAlone hholds hprivate hstep).2]
            exact hholds
          obtain ⟨m, hticks, hrest⟩ := ih hkept h
          refine ⟨1 + m, ?_, hone.trans hrest⟩
          rw [hticks, Nat.add_assoc]

theorem holds_loaded (c : Cpu) (code : List Block) : HoldsCode (loaded c code).memory code :=
  List.take_left

theorem execute_afterSteps {process : ProcessImage}
    (h : e.execute pid process n = .ok (result, e', regs')) :
    AfterSteps process.code result.ticksConsumed process.registers regs' := by
  by_cases hhalted : pid ∈ e.haltedPids
  · rw [execute, if_pos hhalted] at h
    cases h
    exact .zero _ _
  by_cases hfits : e.cpu.memory.size < process.code.length
  · rw [execute_of_not_fits hhalted hfits] at h
    cases h
    exact .zero _ _
  · rw [execute_eq_runLoop hhalted hfits] at h
    obtain ⟨m, hticks, hsteps⟩ := runLoop_afterSteps (holds_loaded e.cpu process.code) h
    rwa [hticks, Nat.zero_add]

end InterpreterEngine

/-- A slice takes as many steps of the code as it takes ticks, whatever the others have left in the
memory and the flags. -/
theorem Interpreter.execute_afterSteps (e : Interpreter) (memory : PhysicalMemory) (pid : ProcessId)
    (process : ProcessImage) (tickBudget : ℕ) :
    AfterSteps process.code (e.execute memory pid process tickBudget).result.ticksConsumed
      process.registers (e.execute memory pid process tickBudget).registers := by
  unfold Interpreter.execute
  cases hexec : (e.engine memory).execute pid process tickBudget with
  | error undefined => exact .zero _ _
  | ok next => exact InterpreterEngine.execute_afterSteps hexec

end Contur
