import Contur.KernelProtection
import Contur.KernelTime

/-!
# Pids that are used again

`terminateProcess` halts the pid in the interpreter before it removes the process,
and the interpreter forgets a halted pid only when it is asked to run it. So the
pid stays halted after its process is gone, and a later process with this pid is
stopped at its first slice. A process that leaves in one of its own slices leaves
nothing behind.
-/

namespace Contur

namespace InterpreterEngine
variable {c : Cpu} {p q : ProcessId} {regs : RegisterFile} {ticks n : ℕ}

/-- What a caller learns from a slice besides the pid it asked for. -/
def outcome (r : ExecutionResult) : StopReason × ℕ := (r.reason, r.ticksConsumed)

theorem outcome_stopResult (p q : ProcessId) (ticks : ℕ) (interrupt : Interrupt) :
    (stopResult p ticks interrupt).map outcome = (stopResult q ticks interrupt).map outcome := by
  cases interrupt <;> rfl

theorem reason_stopResult {result : ExecutionResult} {interrupt : Interrupt}
    (h : stopResult p ticks interrupt = some result) : result.reason ≠ .halted := by
  intro hreason
  cases interrupt <;> cases h <;> cases hreason

theorem outcome_runLoop (c : Cpu) (regs : RegisterFile) (ticks n : ℕ) (p q : ProcessId) :
    (runLoop ⟨c, ∅⟩ p regs ticks n).map (fun r => outcome r.1) =
      (runLoop ⟨c, ∅⟩ q regs ticks n).map fun r => outcome r.1 := by
  induction n generalizing c regs ticks with
  | zero => rfl
  | succ n ih =>
    simp only [runLoop, Finset.notMem_empty, ↓reduceIte]
    cases c.step regs with
    | error undefined => rfl
    | ok next =>
      obtain ⟨interrupt, cpu, regs₁⟩ := next
      have hstop := outcome_stopResult p q (ticks + 1) interrupt
      dsimp only
      cases hp : stopResult p (ticks + 1) interrupt with
      | none =>
        rw [hp, Option.map_none, eq_comm, Option.map_eq_none_iff] at hstop
        rw [hstop]
        exact ih cpu regs₁ (ticks + 1)
      | some result =>
        rw [hp, Option.map_some, eq_comm, Option.map_eq_some_iff] at hstop
        obtain ⟨result', hq, heq⟩ := hstop
        rw [hq]
        simp [Except.map, heq]

theorem reason_runLoop {r : ExecutionResult × InterpreterEngine × RegisterFile}
    (h : runLoop ⟨c, ∅⟩ p regs ticks n = .ok r) : r.1.reason ≠ .halted := by
  induction n generalizing c regs ticks with
  | zero =>
    cases h
    intro hreason
    cases hreason
  | succ n ih =>
    simp only [runLoop, Finset.notMem_empty, ↓reduceIte] at h
    cases hstep : c.step regs with
    | error undefined => simp [hstep] at h
    | ok next =>
      obtain ⟨interrupt, cpu, regs₁⟩ := next
      simp only [hstep] at h
      cases hstop : stopResult p (ticks + 1) interrupt with
      | none =>
        simp only [hstop] at h
        exact ih h
      | some result =>
        simp only [hstop] at h
        cases h
        exact reason_stopResult hstop

end InterpreterEngine

namespace Interpreter
open InterpreterEngine (outcome)
variable {e e' : Interpreter} {memory : PhysicalMemory} {p q pid : ProcessId}
  {process : ProcessImage} {n : ℕ}

theorem haltedPids_execute :
    (e.execute memory pid process n).engine.haltedPids = e.haltedPids.erase pid := by
  unfold execute
  by_cases hhalted : pid ∈ e.haltedPids
  · rw [InterpreterEngine.execute_of_halted (e := e.engine memory) hhalted]
    rfl
  · rw [Finset.erase_eq_of_notMem hhalted]
    by_cases hfits : memory.size < process.code.length
    · rw [InterpreterEngine.execute_of_not_fits (e := e.engine memory) hhalted hfits]
      rfl
    · rw [InterpreterEngine.execute_of_fits (e := e.engine memory) hhalted hfits]
      cases InterpreterEngine.runLoop
        ⟨InterpreterEngine.loaded (e.engine memory).cpu process.code, ∅⟩
        pid process.registers 0 n with
      | error undefined => rfl
      | ok r => rfl

theorem outcome_of_halted (memory : PhysicalMemory) (process : ProcessImage) (n : ℕ)
    (h : pid ∈ e.haltedPids) :
    outcome (e.execute memory pid process n).result = (.halted, 0) := by
  unfold execute
  rw [InterpreterEngine.execute_of_halted (e := e.engine memory) h]
  rfl

theorem outcome_of_not_halted (memory : PhysicalMemory) (process : ProcessImage) (n : ℕ)
    (hp : p ∉ e.haltedPids) (hq : q ∉ e'.haltedPids) (hflags : e'.flags = e.flags) :
    outcome (e.execute memory p process n).result = outcome (e'.execute memory q process n).result ∧
      (e.execute memory p process n).result.reason ≠ .halted := by
  unfold execute
  by_cases hfits : memory.size < process.code.length
  · rw [InterpreterEngine.execute_of_not_fits (e := e.engine memory) hp hfits,
      InterpreterEngine.execute_of_not_fits (e := e'.engine memory) hq hfits]
    exact ⟨rfl, fun hreason => by cases hreason⟩
  · rw [InterpreterEngine.execute_of_fits (e := e.engine memory) hp hfits,
      InterpreterEngine.execute_of_fits (e := e'.engine memory) hq hfits]
    have hcpu : (e'.engine memory).cpu = (e.engine memory).cpu := by
      simp [engine, hflags]
    have hsame := InterpreterEngine.outcome_runLoop
      (InterpreterEngine.loaded (e.engine memory).cpu process.code) process.registers 0 n p q
    rw [hcpu]
    cases hrun : InterpreterEngine.runLoop
      ⟨InterpreterEngine.loaded (e.engine memory).cpu process.code, ∅⟩ p process.registers 0 n with
    | error undefined =>
      rw [hrun] at hsame
      cases hrun' : InterpreterEngine.runLoop
        ⟨InterpreterEngine.loaded (e.engine memory).cpu process.code, ∅⟩ q
          process.registers 0 n with
      | error undefined' => exact ⟨rfl, fun hreason => by cases hreason⟩
      | ok r =>
        rw [hrun'] at hsame
        cases hsame
    | ok r =>
      rw [hrun] at hsame
      cases hrun' : InterpreterEngine.runLoop
        ⟨InterpreterEngine.loaded (e.engine memory).cpu process.code, ∅⟩ q
          process.registers 0 n with
      | error undefined' =>
        rw [hrun'] at hsame
        cases hsame
      | ok r' =>
        rw [hrun'] at hsame
        exact ⟨Except.ok.inj hsame, InterpreterEngine.reason_runLoop hrun⟩

end Interpreter

section Lookup
variable {α : Type*} {β : α → Type*} [DecidableEq α]

theorem dlookup_kreplace_of_ne {a a' : α} {b : β a} (h : a' ≠ a) (l : List (Sigma β)) :
    (l.kreplace a b).dlookup a' = l.dlookup a' := by
  induction l with
  | nil => rfl
  | cons x l ih =>
    obtain ⟨key, value⟩ := x
    unfold List.kreplace at ih ⊢
    by_cases hkey : a = key
    · subst hkey
      rw [List.lookmap_cons]
      simp only [↓reduceIte]
      exact (List.dlookup_cons_ne l ⟨a, b⟩ h).trans (List.dlookup_cons_ne l ⟨a, value⟩ h).symm
    · rw [List.lookmap_cons_none _ _ (by simp [hkey])]
      by_cases hkey' : a' = key
      · subst hkey'
        rw [List.dlookup_cons_eq, List.dlookup_cons_eq]
      · refine (List.dlookup_cons_ne _ ⟨key, value⟩ hkey').trans (ih.trans ?_)
        exact (List.dlookup_cons_ne l ⟨key, value⟩ hkey').symm

theorem dlookup_kreplace_self {a : α} (b : β a) {l : List (Sigma β)} (h : a ∈ l.keys) :
    (l.kreplace a b).dlookup a = some b := by
  induction l with
  | nil => simp at h
  | cons x l ih =>
    obtain ⟨key, value⟩ := x
    unfold List.kreplace at ih ⊢
    by_cases hkey : a = key
    · subst hkey
      rw [List.lookmap_cons]
      simp only [↓reduceIte]
      exact List.dlookup_cons_eq l a b
    · rw [List.lookmap_cons_none _ _ (by simp [hkey])]
      refine (List.dlookup_cons_ne _ ⟨key, value⟩ hkey).trans (ih ?_)
      simpa [hkey] using h

end Lookup

/-- One call of the engine: the state it is made in and its arguments. -/
structure EngineCall (σ : Type) where
  pid : ProcessId
  engine : σ
  memory : PhysicalMemory
  process : ProcessImage
  tickBudget : ℕ

def EngineCall.outcome {σ : Type} (E : ExecutionEngine σ) (x : EngineCall σ) : Outcome σ :=
  E.execute x.engine x.memory x.pid x.process x.tickBudget

namespace Dispatcher
variable {P : ReplacementPolicy} {σ : Type} {E : ExecutionEngine σ} {d : Dispatcher P σ}

def slice (d : Dispatcher P σ) (tickBudget : ℕ) : Option (EngineCall σ) :=
  if d.processes.entries.isEmpty then none
  else match (d.scheduler.selectNext d.clock).1 with
    | .error _ => none
    | .ok pid => (d.processes.lookup pid).map fun process =>
        ⟨pid, d.engine, d.virtualMemory.mmu.memory, process, tickBudget⟩

theorem engine_stop (pid : ProcessId) (reason : StopReason) :
    (d.stop pid reason).2.engine = d.engine := by
  cases reason with
  | budgetExhausted | interrupted => rfl
  | processExited | error | halted =>
    simp only [stop]
    split <;> rfl

theorem lookup_stop {pid q : ProcessId} (hq : q ≠ pid) (reason : StopReason) :
    (d.stop pid reason).2.processes.lookup q = d.processes.lookup q := by
  cases reason with
  | budgetExhausted | interrupted => rfl
  | processExited | error | halted =>
    simp only [stop]
    split
    · rfl
    · exact AList.lookup_erase_ne hq

theorem dispatch_of_slice_none {n : ℕ} (h : d.slice n = none) :
    (d.dispatch E n).2.engine = d.engine ∧ (d.dispatch E n).2.processes = d.processes := by
  unfold slice at h
  unfold dispatch
  split_ifs at h ⊢
  · exact ⟨rfl, rfl⟩
  cases hselect : d.scheduler.selectNext d.clock with
  | mk result scheduler =>
    rw [hselect] at h
    cases result with
    | error code => exact ⟨rfl, rfl⟩
    | ok pid =>
      have hnone : d.processes.lookup pid = none := by simpa using h
      simp only [hnone, and_self]

theorem dispatch_of_slice {n : ℕ} {x : EngineCall σ} (h : d.slice n = some x) :
    x.engine = d.engine ∧ d.processes.lookup x.pid = some x.process ∧
      (d.dispatch E n).2.engine = (x.outcome E).engine ∧
      ∀ q, q ≠ x.pid → (d.dispatch E n).2.processes.lookup q = d.processes.lookup q := by
  unfold slice at h
  unfold dispatch
  split_ifs at h ⊢
  cases hselect : d.scheduler.selectNext d.clock with
  | mk result scheduler =>
    rw [hselect] at h
    cases result with
    | error code => cases h
    | ok pid =>
      simp only [Option.map_eq_some_iff] at h
      obtain ⟨process, hprocess, rfl⟩ := h
      simp only [hprocess]
      refine ⟨trivial, trivial, engine_stop _ _, fun q hq => ?_⟩
      rw [lookup_stop hq]
      exact dlookup_kreplace_of_ne hq d.processes.entries

theorem haltedPids_dispatch {d : Dispatcher P Interpreter} {n : ℕ} {x : EngineCall Interpreter}
    (h : d.slice n = some x) :
    (d.dispatch Interpreter.executionEngine n).2.engine.haltedPids =
      d.engine.haltedPids.erase x.pid := by
  obtain ⟨hstate, -, hengine, -⟩ := dispatch_of_slice (E := Interpreter.executionEngine) h
  rw [hengine, ← hstate]
  exact Interpreter.haltedPids_execute

theorem createProcess_table (d : Dispatcher P σ) (pid : ProcessId) (process : ProcessImage)
    (pcb : Pcb)
    (now : Tick) : (d.createProcess pid process pcb now).2.engine = d.engine ∧
      (((∃ code, (d.createProcess pid process pcb now).1 = .error code) ∧
          (d.createProcess pid process pcb now).2.processes = d.processes) ∨
        ((d.createProcess pid process pcb now).1 = .ok () ∧ pid ∉ d.processes ∧
          (d.createProcess pid process pcb now).2.processes = d.processes.insert pid process)) := by
  unfold createProcess
  split_ifs with hinvalid hhas
  · exact ⟨rfl, Or.inl ⟨⟨_, rfl⟩, rfl⟩⟩
  · exact ⟨rfl, Or.inl ⟨⟨_, rfl⟩, rfl⟩⟩
  have hnew : pid ∉ d.processes := by simpa [hasProcess] using hhas
  split
  · exact ⟨rfl, Or.inl ⟨⟨_, rfl⟩, rfl⟩⟩
  split
  · exact ⟨rfl, Or.inl ⟨⟨_, rfl⟩, rfl⟩⟩
  next vm₁ hload =>
  have htables : (enqueue { d with virtualMemory := vm₁ } pid pcb now).2.engine = d.engine ∧
      (enqueue { d with virtualMemory := vm₁ } pid pcb now).2.processes = d.processes := ⟨rfl, rfl⟩
  split
  next heq =>
    rw [heq] at htables
    exact ⟨htables.1, Or.inl ⟨⟨_, rfl⟩, htables.2⟩⟩
  next heq =>
    rw [heq] at htables
    refine ⟨htables.1, Or.inr ⟨rfl, hnew, ?_⟩⟩
    dsimp only at htables ⊢
    rw [htables.2]

end Dispatcher

namespace Kernel
variable {P : ReplacementPolicy} {σ : Type}

def loopSlices (E : ExecutionEngine σ) (k : Kernel P σ) (tickBudget : ℕ) :
    ℕ → List (EngineCall σ)
  | 0 => []
  | cycles + 1 => (k.dispatcher.slice (k.budget tickBudget)).toList ++
      match k.tick E tickBudget with
      | (.ok _, k) => loopSlices E k tickBudget cycles
      | (.error _, _) => []

def slices (E : ExecutionEngine σ) (k : Kernel P σ) : Op → List (EngineCall σ)
  | .tick tickBudget => (k.dispatcher.slice (k.budget tickBudget)).toList
  | .runForTicks cycles tickBudget => k.loopSlices E tickBudget cycles
  | .createProcess _ | .terminateProcess _ => []

def runSlices (E : ExecutionEngine σ) : Kernel P σ → List Op → List (EngineCall σ)
  | _, [] => []
  | k, op :: ops => k.slices E op ++ runSlices E ((machine E).next k op) ops

/-- The process that a call creates under the pid is not terminated afterwards, and this is the
first slice of it. -/
structure FirstSlice (E : ExecutionEngine σ) (k : Kernel P σ) (pid : ProcessId)
    (config : ProcessConfig) (later : List Op) (x : EngineCall σ) : Prop where
  created : (k.createProcess config).1 = .ok pid
  kept : .terminateProcess pid ∉ later
  first : (runSlices E (k.createProcess config).2 later).find? (·.pid = pid) = some x

theorem createWithPid_table (k : Kernel P σ) (pid : ProcessId) (config : ProcessConfig) :
    (k.createWithPid pid config).2.dispatcher.engine = k.dispatcher.engine ∧
      (((∃ code, (k.createWithPid pid config).1 = .error code) ∧
          (k.createWithPid pid config).2.dispatcher.processes = k.dispatcher.processes) ∨
        ∃ pid', (k.createWithPid pid config).1 = .ok pid' ∧ pid' ∉ k.dispatcher.processes ∧
          (k.createWithPid pid config).2.dispatcher.processes =
            k.dispatcher.processes.insert pid' { code := config.code }) := by
  have htable :=
    k.dispatcher.createProcess_table pid { code := config.code } (Pcb.create config.priority
    (if config.arrivalTime = 0 then k.dispatcher.clock else config.arrivalTime)) k.dispatcher.clock
  simp only [createWithPid]
  split
  next heq =>
    rw [heq] at htable
    refine ⟨htable.1, Or.inl ⟨⟨_, rfl⟩, ?_⟩⟩
    rcases htable.2 with ⟨-, hproc⟩ | ⟨hok, -⟩
    · exact hproc
    · cases hok
  next heq =>
    rw [heq] at htable
    refine ⟨htable.1, Or.inr ⟨pid, rfl, ?_⟩⟩
    rcases htable.2 with ⟨⟨code, hcode⟩, -⟩ | ⟨-, hnew, hproc⟩
    · cases hcode
    · exact ⟨hnew, hproc⟩

theorem createProcess_table (k : Kernel P σ) (config : ProcessConfig) :
    (k.createProcess config).2.dispatcher.engine = k.dispatcher.engine ∧
      (((∃ code, (k.createProcess config).1 = .error code) ∧
          (k.createProcess config).2.dispatcher.processes = k.dispatcher.processes) ∨
        ∃ pid, (k.createProcess config).1 = .ok pid ∧ pid ∉ k.dispatcher.processes ∧
          (k.createProcess config).2.dispatcher.processes =
            k.dispatcher.processes.insert pid { code := config.code }) := by
  unfold createProcess
  split_ifs
  · exact ⟨rfl, Or.inl ⟨⟨_, rfl⟩, rfl⟩⟩
  · dsimp only
    split_ifs
    · exact ⟨rfl, Or.inl ⟨⟨_, rfl⟩, rfl⟩⟩
    · exact k.allocatePid.2.createWithPid_table k.allocatePid.1 config
  · exact ⟨rfl, Or.inl ⟨⟨_, rfl⟩, rfl⟩⟩
  · exact k.createWithPid_table config.id config

theorem terminateProcess_table (E : ExecutionEngine σ) (k : Kernel P σ) (pid : ProcessId) :
    (pid ∉ k.dispatcher.processes ∧
        (k.terminateProcess E pid).2.dispatcher.engine = k.dispatcher.engine ∧
        (k.terminateProcess E pid).2.dispatcher.processes = k.dispatcher.processes) ∨
      (pid ∈ k.dispatcher.processes ∧
        (k.terminateProcess E pid).2.dispatcher.engine = E.halt k.dispatcher.engine pid ∧
        (k.terminateProcess E pid).2.dispatcher.processes = k.dispatcher.processes.erase pid) := by
  have hdispatcher : (k.terminateProcess E pid).2.dispatcher =
      (k.dispatcher.terminateProcess E pid k.dispatcher.clock).2 := by
    simp only [terminateProcess]
    split <;> next heq => rw [heq]
  rw [hdispatcher]
  by_cases hhas : pid ∈ k.dispatcher.processes
  · right
    refine ⟨hhas, ?_⟩
    simp only [Dispatcher.terminateProcess, Dispatcher.hasProcess, hhas, decide_true,
      not_true_eq_false, ↓reduceIte]
    unfold Scheduler.dequeue
    split_ifs <;> exact ⟨rfl, rfl⟩
  · left
    refine ⟨hhas, ?_⟩
    simp [Dispatcher.terminateProcess, Dispatcher.hasProcess, hhas]

end Kernel

structure Dispatcher.Waits {P : ReplacementPolicy} (d : Dispatcher P Interpreter) (pid : ProcessId)
    (process : ProcessImage) (halted : Prop) : Prop where
  image : d.processes.lookup pid = some process
  halts : pid ∈ d.engine.haltedPids ↔ halted

theorem Dispatcher.Waits.of_eq {P : ReplacementPolicy} {d d' : Dispatcher P Interpreter}
    {pid : ProcessId} {process : ProcessImage} {halted : Prop} (h : d.Waits pid process halted)
    (hengine : d'.engine = d.engine) (hlookup : d'.processes.lookup pid = d.processes.lookup pid) :
    d'.Waits pid process halted :=
  ⟨hlookup.trans h.image, hengine ▸ h.halts⟩

namespace Kernel
variable {P : ReplacementPolicy} {σ : Type} {k k₁ k₂ : Kernel P Interpreter} {pid : ProcessId}
  {process : ProcessImage} {halted : Prop}

def Shows (pid : ProcessId) (process : ProcessImage) (halted : Prop)
    (calls : List (EngineCall Interpreter)) (after : Kernel P Interpreter) : Prop :=
  match calls.find? (·.pid = pid) with
  | some x => x.process = process ∧ (pid ∈ x.engine.haltedPids ↔ halted)
  | none => after.dispatcher.Waits pid process halted

theorem Shows.append {calls calls' : List (EngineCall Interpreter)}
    (h : Shows pid process halted calls k₁)
    (h' : k₁.dispatcher.Waits pid process halted → Shows pid process halted calls' k₂) :
    Shows pid process halted (calls ++ calls') k₂ := by
  unfold Shows at h
  cases hfind : calls.find? (·.pid = pid) with
  | none =>
    rw [hfind] at h
    have hrest := h' h
    unfold Shows at hrest ⊢
    rwa [List.find?_append, hfind, Option.none_or]
  | some x =>
    rw [hfind] at h
    unfold Shows
    rwa [List.find?_append, hfind, Option.some_or]

theorem shows_of_waits (h : k.dispatcher.Waits pid process halted) :
    Shows pid process halted [] k := h

theorem tick_shows (h : k.dispatcher.Waits pid process halted) (tickBudget : ℕ) :
    Shows pid process halted (k.dispatcher.slice (k.budget tickBudget)).toList
      (k.tick Interpreter.executionEngine tickBudget).2 := by
  unfold Shows
  cases hslice : k.dispatcher.slice (k.budget tickBudget) with
  | none =>
    obtain ⟨hengine, hprocesses⟩ :=
      Dispatcher.dispatch_of_slice_none (E := Interpreter.executionEngine) hslice
    exact h.of_eq hengine (by rw [← hprocesses]; rfl)
  | some x =>
    obtain ⟨hstate, himage, -, hothers⟩ :=
      Dispatcher.dispatch_of_slice (E := Interpreter.executionEngine) hslice
    rw [Option.toList_some, List.find?_singleton]
    by_cases hpid : x.pid = pid
    · simp only [hpid, decide_true, ↓reduceIte]
      rw [hpid, h.image] at himage
      refine ⟨(Option.some.inj himage).symm, ?_⟩
      rw [hstate]
      exact h.halts
    · simp only [hpid, decide_false, Bool.false_eq_true, ↓reduceIte]
      refine ⟨(hothers pid (Ne.symm hpid)).trans h.image, ?_⟩
      have hhalted :
        (k.tick Interpreter.executionEngine tickBudget).2.dispatcher.engine.haltedPids =
          k.dispatcher.engine.haltedPids.erase x.pid := Dispatcher.haltedPids_dispatch hslice
      rw [hhalted, Finset.mem_erase, h.halts]
      exact and_iff_right (Ne.symm hpid)

theorem runLoop_shows (h : k.dispatcher.Waits pid process halted) (tickBudget : ℕ)
    (anyWorkDone : Bool) (cycles : ℕ) :
    Shows pid process halted (k.loopSlices Interpreter.executionEngine tickBudget cycles)
      (k.runLoop Interpreter.executionEngine tickBudget anyWorkDone cycles).2 := by
  induction cycles generalizing k anyWorkDone with
  | zero => exact shows_of_waits h
  | succ cycles ih =>
    have htick := tick_shows h tickBudget
    simp only [loopSlices, runLoop]
    cases hnext : k.tick Interpreter.executionEngine tickBudget with
    | mk result k₁ =>
      rw [hnext] at htick
      refine htick.append fun hwaits => ?_
      cases result with
      | ok _ => exact ih hwaits true
      | error code => cases code <;> exact shows_of_waits hwaits

theorem exec_shows (h : k.dispatcher.Waits pid process halted) (op : Op)
    (hop : op ≠ .terminateProcess pid) :
    Shows pid process halted (k.slices Interpreter.executionEngine op)
      ((machine Interpreter.executionEngine).next k op) := by
  cases op with
  | tick tickBudget => exact tick_shows h tickBudget
  | runForTicks cycles tickBudget => exact runLoop_shows h tickBudget false cycles
  | createProcess config =>
    obtain ⟨hengine, ⟨-, hprocesses⟩ | ⟨pid', -, hnew, hprocesses⟩⟩ := createProcess_table k config
    · exact h.of_eq hengine (congrArg (AList.lookup pid) hprocesses)
    · refine h.of_eq hengine ((congrArg (AList.lookup pid) hprocesses).trans ?_)
      refine AList.lookup_insert_ne fun heq => hnew ?_
      rw [← heq, ← AList.lookup_isSome, h.image]
      rfl
  | terminateProcess pid' =>
    have hne : pid ≠ pid' := fun heq => hop (heq ▸ rfl)
    rcases terminateProcess_table Interpreter.executionEngine k pid' with
      ⟨-, hengine, hprocesses⟩ | ⟨-, hengine, hprocesses⟩
    · exact h.of_eq hengine (congrArg (AList.lookup pid) hprocesses)
    · refine ⟨(congrArg (AList.lookup pid) hprocesses).trans ?_, ?_⟩
      · rw [AList.lookup_erase_ne hne, h.image]
      · have hmem : pid ∈ (k.terminateProcess Interpreter.executionEngine
            pid').2.dispatcher.engine.haltedPids ↔ pid ∈ k.dispatcher.engine.haltedPids := by
          rw [hengine]
          exact Finset.mem_insert.trans (or_iff_right hne)
        exact hmem.trans h.halts

theorem run_shows (h : k.dispatcher.Waits pid process halted) {ops : List Op}
    (hops : .terminateProcess pid ∉ ops) :
    Shows pid process halted (runSlices Interpreter.executionEngine k ops)
      ((machine Interpreter.executionEngine).run k ops) := by
  induction ops generalizing k with
  | nil => exact shows_of_waits h
  | cons op ops ih =>
    rw [List.mem_cons, not_or] at hops
    exact (exec_shows h op (Ne.symm hops.1)).append fun hwaits => ih hwaits hops.2

/-- The first slice starts on the image of the creation, and is stopped as halted if and only if
the pid was halted before the creation. -/
theorem FirstSlice.shows {config : ProcessConfig} {later : List Op} {x : EngineCall Interpreter}
    (h : FirstSlice Interpreter.executionEngine k pid config later x) :
    x.pid = pid ∧ x.process = { code := config.code } ∧ pid ∉ k.dispatcher.processes ∧
      (pid ∈ x.engine.haltedPids ↔ pid ∈ k.dispatcher.engine.haltedPids) := by
  obtain ⟨hengine, ⟨⟨code, hcode⟩, -⟩ | ⟨pid', hok, hnew, hprocesses⟩⟩ :=
    createProcess_table k config
  · rw [h.created] at hcode
    cases hcode
  rw [h.created] at hok
  cases hok
  have hwaits : (k.createProcess config).2.dispatcher.Waits pid { code := config.code }
      (pid ∈ k.dispatcher.engine.haltedPids) := by
    refine ⟨?_, by rw [hengine]⟩
    rw [hprocesses]
    exact AList.lookup_insert _
  have hshows := run_shows hwaits h.kept
  unfold Shows at hshows
  rw [h.first] at hshows
  have hpid : x.pid = pid := by simpa using List.find?_some h.first
  exact ⟨hpid, hshows.1, hnew, hshows.2⟩

/-- The pids whose last process so far was removed by `terminateProcess`, among those without a
process: a process that leaves in a slice takes its pid out again. -/
def killed (E : ExecutionEngine σ) : Kernel P σ → Finset ProcessId → List Op → Finset ProcessId
  | _, pids, [] => pids
  | k, pids, op :: ops =>
    let k' := (machine E).next k op
    let pids := match op with
      | .terminateProcess _ => pids ∪ (k.live \ k'.live)
      | _ => pids \ (k.live \ k'.live)
    killed E k' pids ops

structure Sliced (k k' : Kernel P Interpreter) : Prop where
  kept : ∀ p, p ∈ k'.live → p ∈ k.live
  halts : ∀ p, p ∉ k'.live → (p ∈ k'.dispatcher.engine.haltedPids ↔
    p ∈ k.dispatcher.engine.haltedPids ∧ p ∉ k.live)

theorem mem_live_iff {p : ProcessId} : p ∈ k.live ↔ p ∈ k.dispatcher.processes := by
  rw [live, List.mem_toFinset]
  exact AList.mem_keys.symm

theorem Sliced.refl (k : Kernel P Interpreter) : Sliced k k :=
  ⟨fun _ hp => hp, fun _ hp => (and_iff_left hp).symm⟩

theorem Sliced.trans (h₁ : Sliced k k₁) (h₂ : Sliced k₁ k₂) : Sliced k k₂ := by
  refine ⟨fun p hp => h₁.kept p (h₂.kept p hp), fun p hp => ?_⟩
  rw [h₂.halts p hp]
  by_cases hp₁ : p ∈ k₁.live
  · have hp₀ := h₁.kept p hp₁
    simp [hp₀, hp₁]
  · rw [and_iff_left hp₁]
    exact h₁.halts p hp₁

theorem tick_sliced (k : Kernel P Interpreter) (tickBudget : ℕ) :
    Sliced k (k.tick Interpreter.executionEngine tickBudget).2 := by
  cases hslice : k.dispatcher.slice (k.budget tickBudget) with
  | none =>
    obtain ⟨hengine, hprocesses⟩ :=
      Dispatcher.dispatch_of_slice_none (E := Interpreter.executionEngine) hslice
    have hlive : (k.tick Interpreter.executionEngine tickBudget).2.live = k.live := by
      unfold live
      exact congrArg (fun processes => processes.keys.toFinset) hprocesses
    refine ⟨fun p hp => hlive ▸ hp, fun p hp => ?_⟩
    rw [hlive] at hp
    rw [and_iff_left hp]
    exact iff_of_eq (congrArg (fun e => p ∈ e.haltedPids) hengine)
  | some x =>
    obtain ⟨-, himage, -, hothers⟩ :=
      Dispatcher.dispatch_of_slice (E := Interpreter.executionEngine) hslice
    have hx : x.pid ∈ k.live := by
      rw [mem_live_iff, ← AList.lookup_isSome, himage]
      rfl
    have hsame : ∀ p, p ≠ x.pid →
        (p ∈ (k.tick Interpreter.executionEngine tickBudget).2.live ↔ p ∈ k.live) := by
      intro p hp
      rw [mem_live_iff, mem_live_iff, ← AList.lookup_isSome, ← AList.lookup_isSome]
      exact iff_of_eq (congrArg (fun image => image.isSome = true) (hothers p hp))
    have hhalted : (k.tick Interpreter.executionEngine tickBudget).2.dispatcher.engine.haltedPids =
        k.dispatcher.engine.haltedPids.erase x.pid := Dispatcher.haltedPids_dispatch hslice
    refine ⟨fun p hp => ?_, fun p hp => ?_⟩
    · by_cases hpid : p = x.pid
      · rwa [hpid]
      · exact (hsame p hpid).mp hp
    · rw [hhalted, Finset.mem_erase]
      by_cases hpid : p = x.pid
      · simp [hpid, hx]
      · rw [hsame p hpid] at hp
        simp [hpid, hp]

theorem runLoop_sliced (k : Kernel P Interpreter) (tickBudget : ℕ) (anyWorkDone : Bool)
    (cycles : ℕ) :
    Sliced k (k.runLoop Interpreter.executionEngine tickBudget anyWorkDone cycles).2 := by
  induction cycles generalizing k anyWorkDone with
  | zero => exact Sliced.refl k
  | succ cycles ih =>
    have htick := tick_sliced k tickBudget
    simp only [runLoop]
    cases hnext : k.tick Interpreter.executionEngine tickBudget with
    | mk result k₁ =>
      rw [hnext] at htick
      cases result with
      | ok _ => exact htick.trans (ih k₁ true)
      | error code => cases code <;> exact htick

def Remembers (k : Kernel P Interpreter) (pids : Finset ProcessId) : Prop :=
  ∀ p, p ∉ k.live → (p ∈ k.dispatcher.engine.haltedPids ↔ p ∈ pids)

theorem Sliced.remembers {pids : Finset ProcessId} (h : Sliced k k₁) (hpids : k.Remembers pids) :
    k₁.Remembers (pids \ (k.live \ k₁.live)) := by
  intro p hp
  rw [h.halts p hp, Finset.mem_sdiff, Finset.mem_sdiff, not_and_not_right]
  by_cases hlive : p ∈ k.live
  · simp [hlive, hp]
  · simp [hlive, hpids p hlive]

theorem createProcess_sliced (config : ProcessConfig) {p : ProcessId}
    (hp : p ∉ (k.createProcess config).2.live) :
    p ∉ k.live ∧ ((p ∈ (k.createProcess config).2.dispatcher.engine.haltedPids) ↔
      p ∈ k.dispatcher.engine.haltedPids) := by
  obtain ⟨hengine, hprocesses⟩ := createProcess_table k config
  refine ⟨fun hlive => hp ?_, by rw [hengine]⟩
  rw [mem_live_iff] at hlive ⊢
  rcases hprocesses with ⟨-, hprocesses⟩ | ⟨pid', -, -, hprocesses⟩
  · rwa [hprocesses]
  · rw [hprocesses, AList.mem_insert]
    exact Or.inr hlive

theorem exec_remembers {pids : Finset ProcessId} (hpids : k.Remembers pids) (op : Op) :
    ((machine Interpreter.executionEngine).next k op).Remembers
      (killed Interpreter.executionEngine k pids [op]) := by
  cases op with
  | tick tickBudget => exact (tick_sliced k tickBudget).remembers hpids
  | runForTicks cycles tickBudget =>
    exact (runLoop_sliced k tickBudget false cycles).remembers hpids
  | createProcess config =>
    intro p hp
    obtain ⟨hlive, hsame⟩ := createProcess_sliced config hp
    refine hsame.trans ((hpids p hlive).trans ?_)
    simp [killed, hlive]
  | terminateProcess pid' =>
    intro p hp
    have hmem : p ∈ killed Interpreter.executionEngine k pids [.terminateProcess pid'] ↔
        p ∈ pids ∨ p ∈ k.live := by
      refine Finset.mem_union.trans (or_congr_right (Finset.mem_sdiff.trans ?_))
      exact and_iff_left hp
    rw [hmem]
    change p ∉ (k.terminateProcess Interpreter.executionEngine pid').2.live at hp
    change p ∈ (k.terminateProcess Interpreter.executionEngine
      pid').2.dispatcher.engine.haltedPids ↔ _
    rw [mem_live_iff] at hp
    rcases terminateProcess_table Interpreter.executionEngine k pid' with
      ⟨-, hengine, hprocesses⟩ | ⟨hpid', hengine, hprocesses⟩
    · rw [hprocesses, ← mem_live_iff] at hp
      rw [hengine, hpids p hp]
      simp [hp]
    · rw [hprocesses, AList.mem_erase, not_and] at hp
      rw [hengine]
      refine Finset.mem_insert.trans ?_
      by_cases hpid : p = pid'
      · simp [hpid, mem_live_iff, hpid']
      · have hlive : p ∉ k.live := by
          rw [mem_live_iff]
          exact hp hpid
        simp [hpid, hlive, hpids p hlive]

theorem run_remembers {pids : Finset ProcessId} (hpids : k.Remembers pids) (ops : List Op) :
    ((machine Interpreter.executionEngine).run k ops).Remembers
      (killed Interpreter.executionEngine k pids ops) := by
  induction ops generalizing k pids with
  | nil => exact hpids
  | cons op ops ih => exact ih (exec_remembers hpids op)

def Unused (E : ExecutionEngine σ) (start : Kernel P σ) (ops : List Op) (pid : ProcessId) : Prop :=
  ∀ before, before <+: ops → pid ∉ ((machine E).run start before).live

theorem Unused.tail {E : ExecutionEngine σ} {start : Kernel P σ} {op : Op} {ops : List Op}
    (h : Unused E start (op :: ops) pid) : Unused E ((machine E).next start op) ops pid := by
  intro before hbefore
  exact h (op :: before) (List.cons_prefix_cons.mpr ⟨rfl, hbefore⟩)

theorem Unused.notMem_killed {E : ExecutionEngine σ} {start : Kernel P σ} {pids : Finset ProcessId}
    {ops : List Op} (h : Unused E start ops pid) (hpids : pid ∉ pids) :
    pid ∉ killed E start pids ops := by
  induction ops generalizing start pids with
  | nil => exact hpids
  | cons op ops ih =>
    have hstart : pid ∉ start.live := h [] (List.nil_prefix)
    refine ih h.tail ?_
    cases op <;> simp [hpids, hstart]

/-- Two processes with the same program are created in the same state, under a pid that may have
been used and under one that has not. Their first slices, on the same memory, flags and budget,
have the same result if and only if the last process with the first pid, if there was one, was not
removed by `terminateProcess`. -/
theorem reused_pid_fresh_iff (P : ReplacementPolicy) (policy : PolicyKind) (cellCount : ℕ)
    (order : ℕ → ℕ) (maxSlots defaultTickBudget : ℕ) (ops : List Op) (p q : ProcessId)
    (config config' : ProcessConfig) (later later' : List Op) (x y : EngineCall Interpreter) :
    let E := Interpreter.executionEngine
    let start := wired P policy cellCount order maxSlots defaultTickBudget
    let k := (machine E).run start ops
    p ∉ k.live → Unused E start ops q → config'.code = config.code →
    FirstSlice E k p config later x → FirstSlice E k q config' later' y →
    y.memory = x.memory → y.engine.flags = x.engine.flags → y.tickBudget = x.tickBudget →
    ((x.outcome E).result.reason = (y.outcome E).result.reason ∧
        (x.outcome E).result.ticksConsumed = (y.outcome E).result.ticksConsumed ↔
      p ∉ killed E start ∅ ops) := by
  intro E start k hp hq hcode hx hy hmemory hflags hbudget
  have hremembers : k.Remembers (killed E start ∅ ops) :=
    run_remembers (fun _ _ => iff_of_false (Finset.notMem_empty _) (Finset.notMem_empty _)) ops
  obtain ⟨hxp, hxprocess, -, hxhalted⟩ := hx.shows
  obtain ⟨hyq, hyprocess, -, hyhalted⟩ := hy.shows
  have hqfresh : q ∉ y.engine.haltedPids := by
    rw [hyhalted, hremembers q (hq ops List.prefix_rfl)]
    exact hq.notMem_killed (Finset.notMem_empty q)
  have hy' : y.outcome E = y.engine.execute x.memory q { code := config.code } x.tickBudget := by
    rw [← hcode, ← hyprocess, ← hmemory, ← hbudget, ← hyq]
    rfl
  have hx' : x.outcome E = x.engine.execute x.memory p { code := config.code } x.tickBudget := by
    rw [← hxprocess, ← hxp]
    rfl
  rw [← hremembers p hp, ← hxhalted, hx', hy']
  constructor
  · rintro ⟨hreason, -⟩ hhalted
    have hstopped := Interpreter.outcome_of_halted x.memory { code := config.code } x.tickBudget
      hhalted
    refine (Interpreter.outcome_of_not_halted x.memory { code := config.code } x.tickBudget hqfresh
      hqfresh rfl).2 ?_
    rw [← hreason]
    exact congrArg Prod.fst hstopped
  · intro hpfresh
    have hsame := (Interpreter.outcome_of_not_halted x.memory { code := config.code } x.tickBudget
      hpfresh hqfresh hflags).1
    exact ⟨congrArg Prod.fst hsame, congrArg Prod.snd hsame⟩

/-- The first call of the engine for the pid after a creation, or a call that never happens. -/
def firstCall (k : Kernel P Interpreter) (pid : ProcessId) (config : ProcessConfig)
    (later : List Op) : EngineCall Interpreter :=
  ((runSlices Interpreter.executionEngine (k.createProcess config).2 later).find?
    (·.pid = pid)).getD ⟨pid, {}, ⟨[]⟩, { code := [] }, 0⟩

theorem firstSlice_firstCall {config : ProcessConfig} {later : List Op}
    (hcreated : (k.createProcess config).1 = .ok pid) (hkept : .terminateProcess pid ∉ later)
    (hfirst : ((runSlices Interpreter.executionEngine (k.createProcess config).2 later).find?
      (·.pid = pid)).isSome) :
    FirstSlice Interpreter.executionEngine k pid config later (k.firstCall pid config later) := by
  refine ⟨hcreated, hkept, ?_⟩
  obtain ⟨x, hx⟩ := Option.isSome_iff_exists.mp hfirst
  unfold firstCall
  rw [hx, Option.getD_some]

def exitCode : List Block := [{ code := .halt }]

def reuseStart : Kernel fifoReplacement Interpreter :=
  wired fifoReplacement (.roundRobin 4) 8 id 4 1

def exitedOps : List Op := [.createProcess { id := 1, code := exitCode }, .tick 5]

def killedOps : List Op := [.createProcess { id := 1, code := exitCode }, .terminateProcess 1]

def secondCall (ops : List Op) (pid : ProcessId) : EngineCall Interpreter :=
  ((machine Interpreter.executionEngine).run reuseStart ops).firstCall pid
    { id := pid, code := exitCode } [.tick 5]

theorem reused_pid_fresh_after_exit :
    ((secondCall exitedOps 1).outcome Interpreter.executionEngine).result.reason =
        ((secondCall exitedOps 2).outcome Interpreter.executionEngine).result.reason ∧
      ((secondCall exitedOps 1).outcome Interpreter.executionEngine).result.ticksConsumed =
        ((secondCall exitedOps 2).outcome Interpreter.executionEngine).result.ticksConsumed := by
  have hunused : ∀ before ∈ exitedOps.inits,
      2 ∉ ((machine Interpreter.executionEngine).run reuseStart before).live := by
    decide +kernel
  have hiff := reused_pid_fresh_iff fifoReplacement (.roundRobin 4) 8 id 4 1 exitedOps 1 2
    { id := 1, code := exitCode } { id := 2, code := exitCode } [.tick 5] [.tick 5]
    (secondCall exitedOps 1) (secondCall exitedOps 2) (by decide +kernel)
    (fun before h => hunused before ((List.mem_inits _ _).mpr h)) rfl
    (firstSlice_firstCall (by decide +kernel) (by simp) (by decide +kernel))
    (firstSlice_firstCall (by decide +kernel) (by simp) (by decide +kernel))
    (by decide +kernel) (by decide +kernel) (by decide +kernel)
  have hkept : 1 ∉ killed Interpreter.executionEngine reuseStart ∅ exitedOps := by decide +kernel
  exact hiff.mpr hkept

/-- After a removal the process with the pid `1` is stopped before its first instruction, where
the same program under a new pid runs to its end. -/
theorem reused_pid_not_fresh :
    let k := (machine Interpreter.executionEngine).run reuseStart killedOps
    let x := secondCall killedOps 1
    let y := secondCall killedOps 2
    1 ∉ k.live ∧ Unused Interpreter.executionEngine reuseStart killedOps 2 ∧
      FirstSlice Interpreter.executionEngine k 1 { id := 1, code := exitCode } [.tick 5] x ∧
      FirstSlice Interpreter.executionEngine k 2 { id := 2, code := exitCode } [.tick 5] y ∧
      y.memory = x.memory ∧ y.engine.flags = x.engine.flags ∧ y.tickBudget = x.tickBudget ∧
      (x.outcome Interpreter.executionEngine).result = .halted 1 0 ∧
      (y.outcome Interpreter.executionEngine).result = .exited 2 1 := by
  intro k x y
  have hunused : ∀ before ∈ killedOps.inits,
      2 ∉ ((machine Interpreter.executionEngine).run reuseStart before).live := by
    decide +kernel
  exact ⟨by decide +kernel, fun before h => hunused before ((List.mem_inits _ _).mpr h),
    firstSlice_firstCall (by decide +kernel) (by simp) (by decide +kernel),
    firstSlice_firstCall (by decide +kernel) (by simp) (by decide +kernel), by decide +kernel,
    by decide +kernel, by decide +kernel, by decide +kernel, by decide +kernel⟩

end Kernel
end Contur
