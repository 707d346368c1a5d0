import Contur.Interpreter

/-!
# A program in several slices

A slice that has used up its budget is followed by another one. The loop of the engine
goes on where it has stopped, but before it does the code is loaded again. The two
slices together are one slice of the summed budget exactly if the first one has left
the code in the memory as it was loaded: a program that stores into its own code loses
these stores at every slice boundary.
-/

namespace Contur

def ExecutionResult.later (ticks : ℕ) (result : ExecutionResult) : ExecutionResult :=
  { result with ticksConsumed := ticks + result.ticksConsumed }

namespace InterpreterEngine

variable {e e' : InterpreterEngine} {pid : ProcessId} {result : ExecutionResult}
  {regs regs' : RegisterFile} {ticks n : ℕ}

theorem stopResult_later (ticks : ℕ) (interrupt : Interrupt) :
    stopResult pid (ticks + n) interrupt = (stopResult pid n interrupt).map (.later ticks) := by
  cases interrupt <;> rfl

theorem runLoop_later (e : InterpreterEngine) (regs : RegisterFile) (ticks before m : ℕ) :
    e.runLoop pid regs (ticks + before) m =
      (e.runLoop pid regs before m).map fun r => (r.1.later ticks, r.2) := by
  induction m generalizing e regs before with
  | zero => rfl
  | succ m ih =>
    simp only [runLoop]
    split_ifs
    · rfl
    · cases e.cpu.step regs with
      | error undefined => rfl
      | ok next =>
        dsimp only
        rw [Nat.add_assoc, stopResult_later]
        cases stopResult pid (before + 1) next.1 with
        | some result => rfl
        | none => exact ih _ _ _

theorem stopResult_reason {interrupt : Interrupt}
    (h : stopResult pid ticks interrupt = some result) :
    result.reason ≠ .budgetExhausted := by
  cases interrupt <;> simp only [stopResult, Option.some.injEq, reduceCtorEq] at h
  all_goals
    rw [← h]
    exact StopReason.noConfusion

theorem runLoop_add (m : ℕ) (h : e.runLoop pid regs ticks n = .ok (result, e', regs'))
    (hreason : result.reason = .budgetExhausted) :
    e.runLoop pid regs ticks (n + m) = e'.runLoop pid regs' (ticks + n) m := by
  induction n generalizing e regs ticks with
  | zero =>
    cases h
    rw [Nat.zero_add, Nat.add_zero]
  | succ n ih =>
    rw [Nat.add_right_comm]
    simp only [runLoop] at h ⊢
    split_ifs at h with hhalted
    · cases h
      cases hreason
    · rw [if_neg hhalted]
      cases hstep : e.cpu.step regs with
      | error undefined =>
        rw [hstep] at h
        cases h
      | ok next =>
        rw [hstep] at h
        dsimp only at h ⊢
        cases hstop : stopResult pid (ticks + 1) next.1 with
        | some stopped =>
          rw [hstop] at h
          cases h
          exact absurd hreason (stopResult_reason hstop)
        | none =>
          rw [hstop] at h
          rw [ih h, Nat.add_assoc, Nat.add_comm 1]

theorem runLoop_result (h : e.runLoop pid regs ticks n = .ok (result, e', regs'))
    (hreason : result.reason = .budgetExhausted) : result.ticksConsumed = ticks + n := by
  have hsame := runLoop_add 0 h hreason
  rw [Nat.add_zero, h, runLoop] at hsame
  cases hsame
  rfl

theorem runLoop_haltedPids (h : e.runLoop pid regs ticks n = .ok (result, e', regs'))
    (hreason : result.reason = .budgetExhausted) : e'.haltedPids = e.haltedPids := by
  induction n generalizing e regs ticks with
  | zero =>
    cases h
    rfl
  | succ n ih =>
    simp only [runLoop] at h
    split_ifs at h
    · cases h
      cases hreason
    · cases hstep : e.cpu.step regs with
      | error undefined =>
        rw [hstep] at h
        cases h
      | ok next =>
        rw [hstep] at h
        dsimp only at h
        split at h
        · cases h
          rfl
        · have hrest := ih h
          exact hrest

def HoldsCode (memory : PhysicalMemory) (code : List Block) : Prop :=
  memory.cells.take code.length = code

theorem loaded_eq_iff (c : Cpu) (code : List Block) :
    loaded c code = c ↔ HoldsCode c.memory code := by
  constructor
  · intro h
    rw [HoldsCode, ← h]
    simp [loaded]
  · intro h
    have hcells : code ++ c.memory.cells.drop code.length = c.memory.cells := by
      nth_rewrite 1 [← h]
      exact List.take_append_drop _ _
    rw [loaded, hcells]

theorem execute_eq_runLoop {process : ProcessImage} (h : pid ∉ e.haltedPids)
    (hfits : ¬ e.cpu.memory.size < process.code.length) (n : ℕ) :
    e.execute pid process n =
      runLoop ⟨loaded e.cpu process.code, e.haltedPids⟩ pid process.registers 0 n := by
  rw [execute, if_neg h, loadCode_eq, if_neg hfits]
  rfl

theorem fits_of_budgetExhausted {process : ProcessImage} (hhalted : pid ∉ e.haltedPids)
    (h : e.execute pid process n = .ok (result, e', regs'))
    (hreason : result.reason = .budgetExhausted) : ¬ e.cpu.memory.size < process.code.length := by
  intro hfits
  rw [execute_of_not_fits hhalted hfits] at h
  cases h
  cases hreason

/-- Two slices make up one of the summed budget, with the ticks of both, exactly if the first one
leaves the code as it was loaded. -/
theorem slices_transparent_iff {e e' : InterpreterEngine} {pid : ProcessId} {process : ProcessImage}
    {n : ℕ} {result : ExecutionResult} {regs' : RegisterFile} (hhalted : pid ∉ e.haltedPids)
    (h : e.execute pid process n = .ok (result, e', regs'))
    (hreason : result.reason = .budgetExhausted) :
    (∀ m, e.execute pid process (n + m) =
      (e'.execute pid { process with registers := regs' } m).map fun r =>
        (r.1.later result.ticksConsumed, r.2)) ↔ HoldsCode e'.cpu.memory process.code := by
  have hfits := fits_of_budgetExhausted hhalted h hreason
  have hfits' : ¬ e'.cpu.memory.size < process.code.length := by
    rw [(execute_memory h).1]
    exact hfits
  rw [execute_eq_runLoop hhalted hfits] at h
  have hpids := runLoop_haltedPids h hreason
  have hticks := runLoop_result h hreason
  rw [Nat.zero_add] at hticks
  -- the loop of the long slice, from where the first slice has stopped
  have hlong : ∀ m, e.execute pid process (n + m) =
      (e'.runLoop pid regs' 0 m).map fun r => (r.1.later n, r.2) := by
    intro m
    rw [execute_eq_runLoop hhalted hfits, runLoop_add m h hreason, ← runLoop_later, Nat.add_comm 0]
  have hsecond : ∀ m, e'.execute pid { process with registers := regs' } m =
      runLoop ⟨loaded e'.cpu process.code, e'.haltedPids⟩ pid regs' 0 m :=
    execute_eq_runLoop (hpids ▸ hhalted) hfits'
  simp only [hlong, hsecond, hticks]
  rw [← loaded_eq_iff]
  constructor
  · intro hall
    have hzero := hall 0
    simp only [runLoop, Except.map, Except.ok.injEq, Prod.mk.injEq] at hzero
    exact (congrArg InterpreterEngine.cpu hzero.2.1).symm
  · intro hloaded m
    rw [hloaded]

theorem slices_transparent_store :
    let process : ProcessImage := ⟨[⟨.writeMemory, 0, 2, 0⟩, ⟨.halt, 0, 0, 0⟩], fun _ => 0⟩
    let e : InterpreterEngine := ⟨⟨.ofSize 3, 0⟩, ∅⟩
    let e' : InterpreterEngine := ⟨⟨⟨[⟨.writeMemory, 0, 2, 0⟩, ⟨.halt, 0, 0, 0⟩, {}]⟩, 0⟩, ∅⟩
    let regs' : RegisterFile := Function.update (fun _ => 0) 14 1
    e.execute 1 process 1 = .ok (.budgetExhausted 1 1, e', regs') ∧
      e.execute 1 process (1 + 1) =
        (e'.execute 1 { process with registers := regs' } 1).map fun r => (r.1.later 1, r.2) := by
  intro process e e' regs'
  have hfirst : e.execute 1 process 1 = .ok (.budgetExhausted 1 1, e', regs') := by
    subst process e e' regs'
    rfl
  refine ⟨hfirst, ?_⟩
  have htransparent := slices_transparent_iff (Finset.notMem_empty 1) hfirst rfl
  exact htransparent.mpr rfl 1

/-- A program that replaces its own `halt` exits in the second of two slices and runs on in a single
one. -/
theorem slices_lose_store :
    let process : ProcessImage := ⟨[⟨.writeMemory, 0, 1, 0⟩, ⟨.halt, 0, 0, 0⟩], fun _ => 0⟩
    let e : InterpreterEngine := ⟨⟨.ofSize 3, 0⟩, ∅⟩
    let e' : InterpreterEngine := ⟨⟨⟨[⟨.writeMemory, 0, 1, 0⟩, {}, {}]⟩, 0⟩, ∅⟩
    let regs' : RegisterFile := Function.update (fun _ => 0) 14 1
    e.execute 1 process 1 = .ok (.budgetExhausted 1 1, e', regs') ∧
      (e.execute 1 process (1 + 1)).map (fun r => r.1) = .ok (.budgetExhausted 1 2) ∧
      (e'.execute 1 { process with registers := regs' } 1).map (fun r => r.1) = .ok (.exited 1 1) :=
  ⟨rfl, rfl, rfl⟩

end InterpreterEngine
end Contur
