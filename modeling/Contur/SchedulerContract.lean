import Contur.SchedulerInvariant

/-!
# Termination and blocking against the scheduler's interface

The interface documents that `terminate` succeeds for every known process and
that `blockProcess` moves a running or a ready one to the blocked list. The table
of state transitions leads to `terminated` and to `blocked` from `running` only,
so both operations do what is documented exactly for the running processes.
-/

namespace Contur.Scheduler
open Function (update)
open Placement

variable {s : Scheduler} {place : ProcessId → Option Place} {pid : ProcessId} {n lane : ℕ}
  (now : Tick)

/-- The process is gone: its block says so and the scheduler has forgotten it. -/
structure Terminates (s : Scheduler) (pid : ProcessId) (now : Tick) : Prop where
  ok : (s.terminate pid now).1 = .ok ()
  state : ((s.terminate pid now).2.pcbs pid).state = .terminated
  nowhere : (s.terminate pid now).2.board.all.count pid = 0
  unknown : pid ∉ (s.terminate pid now).2.processes

structure Blocks (s : Scheduler) (pid : ProcessId) (now : Tick) : Prop where
  ok : (s.blockProcess pid now).1 = .ok ()
  state : ((s.blockProcess pid now).2.pcbs pid).state = .blocked
  listed : pid ∈ (s.blockProcess pid now).2.getBlockedSnapshot
  once : (s.blockProcess pid now).2.board.all.count pid = 1

theorem terminate_state (h : Placed n s place) (hp : place pid = some (.running lane)) :
    ((s.terminate pid now).2.pcbs pid).state = .terminated := by
  have hmem : pid ∈ s.processes := (h.registered pid).mpr (by simp [hp])
  obtain ⟨predictions, hrec⟩ := recordRunningBurst_eq s pid now
  obtain ⟨pcb, hpcb, hstate⟩ := Pcb.setState_of_valid (h.fits_of hp).1
    (rfl : isValidTransition _ .terminated = true) now
  simp [terminate, hmem, (findRunningLane_spec h.represents).mpr hp, hrec, hpcb, forget, hstate]

theorem terminate_refused (h : Placed n s place) (hpid : pid ∈ s.processes)
    (hp : ∀ lane, place pid ≠ some (.running lane)) :
    (s.terminate pid now).1 = .error .invalidState := by
  have hrefused : (s.pcbs pid).setState .terminated now = none := by
    obtain ⟨x, hx, hfits⟩ := h.exists_place hpid
    cases x with
    | ready i => exact Pcb.setState_of_invalid hfits.1 rfl now
    | running i => exact absurd hx (hp i)
    | blocked => exact Pcb.setState_of_invalid hfits.1 rfl now
  simp [terminate, hpid, findRunningLane_eq_none h.represents pid hp, hrefused]

theorem blockProcess_refused (h : Placed n s place) (hp : place pid = some (.ready lane)) :
    (s.blockProcess pid now).1 = .error .invalidState := by
  have hpid : pid ∈ s.processes := (h.registered pid).mpr (by simp [hp])
  have hrun : s.findRunningLane pid = none :=
    findRunningLane_eq_none h.represents pid (by simp [hp])
  have hrefused : (s.pcbs pid).setState .blocked now = none :=
    Pcb.setState_of_invalid (h.fits_of hp).1 rfl now
  simp [blockProcess, hpid, hrun, (findReadyLane_spec h.represents).mpr hp, hrefused]

theorem terminates_of_running (h : Placed n s place) (hp : place pid = some (.running lane)) :
    Terminates s pid now := by
  obtain ⟨hok, hplaced⟩ := terminate_spec now h hp
  refine ⟨hok, terminate_state now h hp, ?_, ?_⟩
  · rw [hplaced.represents.count_all]
    simp
  · rw [hplaced.registered]
    simp

theorem blocks_of_running (h : Placed n s place) (hp : place pid = some (.running lane)) :
    Blocks s pid now := by
  obtain ⟨hok, hplaced⟩ := blockProcess_spec now h hp
  have hplace : update place pid (some .blocked) pid = some .blocked := Function.update_self ..
  refine ⟨hok, (hplaced.fits_of hplace).1, (hplaced.represents.blocked_iff pid).mp hplace, ?_⟩
  rw [hplaced.represents.count_all, hplace]
  rfl

theorem terminates_iff (h : Placed n s place) (hpid : pid ∈ s.processes) :
    Terminates s pid now ↔ pid ∈ s.runningProcesses := by
  rw [mem_runningProcesses h.represents]
  constructor
  · intro hterm
    by_contra hnone
    have hrefused := terminate_refused now h hpid (not_exists.mp hnone)
    rw [hterm.ok] at hrefused
    cases hrefused
  · intro hrun
    obtain ⟨lane, hp⟩ := hrun
    exact terminates_of_running now h hp

theorem blocks_iff (h : Placed n s place)
    (hpid : pid ∈ s.getQueueSnapshot ∨ pid ∈ s.runningProcesses) :
    Blocks s pid now ↔ pid ∈ s.runningProcesses := by
  constructor
  · intro hblock
    apply hpid.resolve_left
    intro hready
    obtain ⟨lane, hp⟩ := (mem_getQueueSnapshot h.represents).mp hready
    have hrefused := blockProcess_refused now h hp
    rw [hblock.ok] at hrefused
    cases hrefused
  · intro hrun
    obtain ⟨lane, hp⟩ := (mem_runningProcesses h.represents).mp hrun
    exact blocks_of_running now h hp

/-- Processes come in as new ones, are selected and stolen, and block and unblock. -/
def Ordinary (s : Scheduler) : Op → Prop
  | .enqueue pid _ => (s.pcbs pid).state = .new
  | .enqueueToLane pid _ _ => (s.pcbs pid).state = .new
  | .selectNext _ => True
  | .selectNextForLane _ _ => True
  | .stealNextForLane _ _ => True
  | .blockProcess _ _ => True
  | .unblock _ _ => True
  | _ => False

theorem Ordinary.admissible {op : Op} (h : Ordinary s op) : Admissible s op := by
  cases op <;> first | exact h | exact trivial | exact h.elim

/-- After every run, `terminate` and `blockProcess` keep what is documented for a process that
they are documented for exactly when this process is running. -/
theorem contract_iff_running (policy : Option SchedulingPolicy) (pcbs : ProcessId → Pcb)
    (laneCount : ℕ) (hlanes : 0 < laneCount) (ops : List Op)
    (hops : machine.Guarded Ordinary (create policy pcbs laneCount) ops) (pid : ProcessId)
    (now : Tick) :
    let s := machine.run (create policy pcbs laneCount) ops
    (pid ∈ s.processes → (Terminates s pid now ↔ pid ∈ s.runningProcesses)) ∧
      (pid ∈ s.getQueueSnapshot ∨ pid ∈ s.runningProcesses →
        (Blocks s pid now ↔ pid ∈ s.runningProcesses)) := by
  obtain ⟨n, place, hplaced⟩ := machine.run_invariant_of_guarded
    (fun _ _ hop hinv => exec_inv hop.admissible hinv) ⟨_, _, placed_create policy pcbs hlanes⟩ hops
  exact ⟨terminates_iff now hplaced, blocks_iff now hplaced⟩

def selectingRun : List Op := [.enqueue 1 0, .enqueue 2 0, .selectNext 1]

def oneRunning : Scheduler := machine.run (create (some fcfsPolicy) (fun _ => {}) 1) selectingRun

theorem contract_of_one_running : Terminates oneRunning 1 2 ∧ Blocks oneRunning 1 2 := by
  have hrun : 1 ∈ oneRunning.runningProcesses := by decide +kernel
  obtain ⟨hterm, hblock⟩ := contract_iff_running (some fcfsPolicy) (fun _ => {}) 1 (by decide)
    selectingRun ⟨rfl, rfl, trivial, trivial⟩ 1 2
  exact ⟨(hterm (by decide +kernel)).mpr hrun, (hblock (Or.inr hrun)).mpr hrun⟩

/-- The process that waits is neither terminated nor blocked. -/
theorem ready_breaks_contract :
    machine.Guarded Ordinary (create (some fcfsPolicy) (fun _ => {}) 1) selectingRun ∧
      2 ∈ oneRunning.processes ∧ 2 ∈ oneRunning.getQueueSnapshot ∧
      (oneRunning.terminate 2 2).1 = .error .invalidState ∧ ¬ Terminates oneRunning 2 2 ∧
      (oneRunning.blockProcess 2 2).1 = .error .invalidState ∧ ¬ Blocks oneRunning 2 2 := by
  have hterm : (oneRunning.terminate 2 2).1 = .error .invalidState := by decide +kernel
  have hblock : (oneRunning.blockProcess 2 2).1 = .error .invalidState := by decide +kernel
  refine ⟨⟨rfl, rfl, trivial, trivial⟩, by decide +kernel, by decide +kernel, hterm, ?_, hblock, ?_⟩
  · intro h
    have hok := h.ok
    rw [hterm] at hok
    cases hok
  · intro h
    have hok := h.ok
    rw [hblock] at hok
    cases hok

end Contur.Scheduler
