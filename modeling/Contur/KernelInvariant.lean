import Contur.Kernel
import Contur.SchedulerInvariant

/-!
# The bookkeeping of the kernel

Five components keep a table of the live processes: the dispatcher, the scheduler,
the virtual memory, the memory management unit and the kernel. `Live` says that the
first four agree with one map of places. Creation, dispatching and termination each
change this map in at most one process, whatever the engine returns, so the tables
agree after every sequence of kernel calls; and since a selected process is running
and has an image, a tick can fail only for lack of a process.
-/

namespace Contur
open Function (update)
open Placement

variable {P : ReplacementPolicy} {σ : Type} {E : ExecutionEngine σ} {d : Dispatcher P σ}
  {place : ProcessId → Option Place} {pid : ProcessId}

namespace Dispatcher

structure Live (d : Dispatcher P σ) (place : ProcessId → Option Place) : Prop where
  placed : d.scheduler.Placed 1 place
  policy : ∃ policy, d.scheduler.policy = some policy ∧ policy.Selects
  processes : ∀ pid, pid ∈ d.processes ↔ (place pid).isSome
  slots : ∀ pid, pid ∈ d.virtualMemory.slots ↔ (place pid).isSome
  slotsMatch : d.virtualMemory.SlotsMatch

theorem Live.fresh (h : d.Live place) (hp : d.hasProcess pid = false) : place pid = none := by
  rw [← Option.not_isSome_iff_eq_none, ← h.processes]
  simpa [hasProcess] using hp

theorem Live.policy_of (h : d.Live place) {scheduler : Scheduler}
    (hpolicy : scheduler.policy = d.scheduler.policy) :
    ∃ policy, scheduler.policy = some policy ∧ policy.Selects :=
  hpolicy ▸ h.policy

theorem Live.reschedule (h : d.Live place) {scheduler : Scheduler}
    {place' : ProcessId → Option Place} (hplaced : scheduler.Placed 1 place')
    (hpolicy : scheduler.policy = d.scheduler.policy)
    (hsame : Scheduler.SameProcesses place place') :
    { d with scheduler := scheduler : Dispatcher P σ }.Live place' := by
  refine ⟨hplaced, h.policy_of hpolicy, fun q => ?_, fun q => ?_, h.slotsMatch⟩
  · rw [hsame q]
    exact h.processes q
  · rw [hsame q]
    exact h.slots q

/-- The virtual memory with one slot more than the live processes, as it is while a process is
being created and after one has been taken off the tables. -/
structure Extra (vm : VirtualMemory P) (pid : ProcessId) (place : ProcessId → Option Place) :
    Prop where
  slots : ∀ q, q ∈ vm.slots ↔ q = pid ∨ (place q).isSome
  slotsMatch : vm.SlotsMatch
  fresh : place pid = none

theorem Extra.freeSlot {vm : VirtualMemory P} (h : Extra vm pid place) :
    (∀ q, q ∈ (vm.freeSlot pid).2.slots ↔ (place q).isSome) ∧ (vm.freeSlot pid).2.SlotsMatch := by
  have hfree := VirtualMemory.freeSlot_spec h.slotsMatch ((h.slots pid).mpr (Or.inl rfl))
  refine ⟨fun q => ?_, VirtualMemory.freeSlot_slotsMatch h.slotsMatch pid⟩
  rw [hfree, AList.mem_erase, h.slots]
  by_cases hq : q = pid
  · simp [hq, h.fresh]
  · simp [hq]

theorem allocateSlot_live (h : d.Live place) {size : ℕ} {result : Result MemoryAddress}
    {vm : VirtualMemory P} (halloc : d.virtualMemory.allocateSlot pid size = (result, vm)) :
    (∀ q, q ∈ vm.slots ↔ (result.isOk ∧ q = pid) ∨ (place q).isSome) ∧ vm.SlotsMatch := by
  have hmatch := VirtualMemory.allocateSlot_slotsMatch h.slotsMatch pid size
  rw [halloc] at hmatch
  refine ⟨fun q => ?_, hmatch⟩
  have hmem := VirtualMemory.mem_slots_allocateSlot (s := d.virtualMemory) (p := pid) (q := q)
    (n := size)
  rwa [halloc, h.slots] at hmem

theorem Extra.allocated (h : d.Live place) (hp : place pid = none) {size : ℕ}
    {address : MemoryAddress} {vm : VirtualMemory P}
    (halloc : d.virtualMemory.allocateSlot pid size = (.ok address, vm)) : Extra vm pid place := by
  obtain ⟨hslots, hmatch⟩ := allocateSlot_live h halloc
  exact ⟨fun q => by simpa using hslots q, hmatch, hp⟩

theorem Extra.loaded {vm : VirtualMemory P} (h : Extra vm pid place) (data : List Block) :
    Extra (vm.loadSegment pid data).2 pid place := by
  refine ⟨fun q => ?_, VirtualMemory.exec_slotsMatch (.loadSegment pid data) h.slotsMatch, h.fresh⟩
  rw [VirtualMemory.slots_loadSegment]
  exact h.slots q

def Created (pid : ProcessId) (place : ProcessId → Option Place) :
    Result Unit × Dispatcher P σ → Prop
  | (.ok _, d) => d.Live (update place pid (some (.ready 0)))
  | (.error _, d) => d.Live place

theorem enqueue_created (hplaced : d.scheduler.Placed 1 place)
    (hpolicy : ∃ policy, d.scheduler.policy = some policy ∧ policy.Selects)
    (hprocesses : ∀ q, q ∈ d.processes ↔ (place q).isSome)
    (hextra : Extra d.virtualMemory pid place) (process : ProcessImage) {pcb : Pcb} (now : Tick)
    (hnew : pcb.state = .new) (hvalid : pid ≠ invalidPid) :
    (d.enqueue pid pcb now).1 = .ok () ∧
      { (d.enqueue pid pcb now).2 with
        processes := (d.enqueue pid pcb now).2.processes.insert pid process : Dispatcher P σ }.Live
        (update place pid (some (.ready 0))) := by
  obtain ⟨hok, hready⟩ := Scheduler.enqueueToLane_spec now (hplaced.setPcb hextra.fresh pcb)
    hextra.fresh (by simpa using hnew) hvalid Nat.zero_lt_one
  refine ⟨hok, hready, ?_, ?_, ?_, hextra.slotsMatch⟩
  · have hsame : (d.enqueue pid pcb now).2.scheduler.policy = d.scheduler.policy :=
      Scheduler.enqueue_policy _ pid now
    exact hsame ▸ hpolicy
  · intro q
    rw [AList.mem_insert]
    by_cases hq : q = pid
    · simp [hq]
    · simpa [enqueue, hq] using hprocesses q
  · intro q
    by_cases hq : q = pid
    · simpa [enqueue, hq] using (hextra.slots pid).mpr (Or.inl rfl)
    · simpa [enqueue, hq] using hextra.slots q

theorem createProcess_spec (h : d.Live place) (pid : ProcessId) (process : ProcessImage) {pcb : Pcb}
    (now : Tick) (hnew : pcb.state = .new) :
      Created pid place (d.createProcess pid process pcb now) := by
  unfold createProcess
  split_ifs with hinvalid hhas
  · exact h
  · exact h
  have hp := h.fresh (by simpa using hhas)
  cases halloc : d.virtualMemory.allocateSlot pid (max 1 process.code.length) with
  | mk result vm =>
    cases result with
    | error code =>
      obtain ⟨hslots, hmatch⟩ := allocateSlot_live h halloc
      exact ⟨h.placed, h.policy, h.processes, fun q => by simpa using hslots q, hmatch⟩
    | ok address =>
      have hextra := (Extra.allocated h hp halloc).loaded process.code
      dsimp only
      cases hload : vm.loadSegment pid process.code with
      | mk result vm₁ =>
        rw [hload] at hextra
        cases result with
        | error code =>
          obtain ⟨hslots, hmatch⟩ := hextra.freeSlot
          exact ⟨h.placed, h.policy, h.processes, hslots, hmatch⟩
        | ok _ =>
          obtain ⟨hok, hlive⟩ := enqueue_created (d := { d with virtualMemory := vm₁ }) h.placed
            h.policy h.processes hextra process now hnew hinvalid
          dsimp only
          cases henq : enqueue { d with virtualMemory := vm₁ } pid pcb now with
          | mk result d₁ =>
            rw [henq] at hok hlive
            subst hok
            exact hlive

theorem execute_live (h : d.Live place) (pid : ProcessId) (process : ProcessImage)
    (tickBudget : ℕ) :
    (d.execute E pid process tickBudget).2.Live place :=
  ⟨h.placed, h.policy, fun _ => AList.mem_replace.trans (h.processes _), h.slots, h.slotsMatch⟩

theorem erase_live (h : d.Live place) {scheduler : Scheduler} (hp : (place pid).isSome)
    (hplaced : scheduler.Placed 1 (update place pid none))
    (hpolicy : scheduler.policy = d.scheduler.policy) :
    { { d with scheduler := scheduler : Dispatcher P σ }.freeSlot pid with
      processes := d.processes.erase pid : Dispatcher P σ }.Live (update place pid none) := by
  have hextra : Extra d.virtualMemory pid (update place pid none) := by
    refine ⟨fun q => ?_, h.slotsMatch, by simp⟩
    rw [h.slots]
    by_cases hq : q = pid
    · simpa [hq] using hp
    · simp [hq]
  obtain ⟨hslots, hmatch⟩ := hextra.freeSlot
  refine ⟨hplaced, h.policy_of hpolicy, fun q => ?_, hslots, hmatch⟩
  rw [AList.mem_erase, h.processes]
  by_cases hq : q = pid
  · simp [hq]
  · simp [hq]

def Shrinks (place place' : ProcessId → Option Place) : Prop :=
  ∀ q, (place' q).isSome → (place q).isSome

theorem shrinks_erase : Shrinks place (update place pid none) := by
  intro q hq
  by_cases hqp : q = pid
  · simp [hqp] at hq
  · simpa [hqp] using hq

theorem terminate_live (h : d.Live place) (hp : place pid = some (.running 0)) :
    ∃ scheduler, d.scheduler.terminate pid d.clock = (.ok (), scheduler) ∧
      { { d with scheduler := scheduler : Dispatcher P σ }.freeSlot pid with
        processes := d.processes.erase pid : Dispatcher P σ }.Live (update place pid none) := by
  obtain ⟨hok, hplaced⟩ := Scheduler.terminate_spec d.clock h.placed hp
  exact ⟨_, Prod.ext hok rfl, erase_live h (by simp [hp]) hplaced
    (Scheduler.terminate_policy d.scheduler pid d.clock)⟩

theorem stop_spec (h : d.Live place) (hp : place pid = some (.running 0)) (reason : StopReason) :
    (d.stop pid reason).1 = .ok () ∧
      ∃ place', (d.stop pid reason).2.Live place' ∧ Shrinks place place' := by
  cases reason with
  | budgetExhausted => exact ⟨rfl, place, h, fun _ hq => hq⟩
  | interrupted =>
    obtain ⟨hok, hplaced⟩ := Scheduler.blockProcess_spec d.clock h.placed hp
    have hsame := Scheduler.sameProcesses_update (by simp [hp] : (place pid).isSome) .blocked
    refine ⟨hok, update place pid (some .blocked), ?_, fun q hq => by rwa [← hsame q]⟩
    exact h.reschedule hplaced (Scheduler.blockProcess_policy d.scheduler pid d.clock) hsame
  | processExited | error | halted =>
    obtain ⟨scheduler, hterm, hlive⟩ := terminate_live h hp
    simp only [stop, hterm, true_and]
    exact ⟨_, hlive, shrinks_erase⟩

theorem selectNext_live (h : d.Live place) {result : Result ProcessId} {scheduler : Scheduler}
    (hselect : d.scheduler.selectNext d.clock = (result, scheduler)) :
    ∃ place', { d with scheduler := scheduler : Dispatcher P σ }.Live place' ∧
      Scheduler.SameProcesses place place' ∧
      (∀ pid, result = .ok pid → place' pid = some (.running 0)) ∧
      ∀ code, result = .error code → code = .notFound := by
  have hselected : Scheduler.Selected 1 d.scheduler (d.scheduler.selectNext d.clock).2 0 place
      (d.scheduler.selectNext d.clock).1 := Scheduler.selectNextForLane_selected d.clock h.placed
  have herror : ∀ code, (d.scheduler.selectNext d.clock).1 = .error code → code = .notFound := by
    obtain ⟨policy, hpolicy, hselects⟩ := h.policy
    intro code hcode
    exact Scheduler.selectNextForLane_error d.clock h.placed hpolicy hselects Nat.zero_lt_one hcode
  rw [hselect] at hselected herror
  obtain ⟨place', hplaced, hsame, hrun⟩ := hselected.placed
  exact ⟨place', h.reschedule hplaced hselected.policy hsame, hsame, hrun, herror⟩

theorem dispatch_spec (h : d.Live place) (tickBudget : ℕ) :
    (∃ place', (d.dispatch E tickBudget).2.Live place' ∧ Shrinks place place') ∧
      ∀ code, (d.dispatch E tickBudget).1 = .error code → code = .notFound := by
  unfold dispatch
  split_ifs
  · refine ⟨⟨place, h, fun _ hq => hq⟩, ?_⟩
    intro code hcode
    cases hcode
    rfl
  cases hselect : d.scheduler.selectNext d.clock with
  | mk result scheduler =>
    obtain ⟨place₁, hlive, hsame, hrun, herror⟩ := selectNext_live h hselect
    have hshrinks : Shrinks place place₁ := fun q hq => by rwa [← hsame q]
    cases result with
    | error code =>
      refine ⟨⟨place₁, hlive, hshrinks⟩, ?_⟩
      intro code' hcode
      cases hcode
      exact herror code rfl
    | ok pid =>
      have hp := hrun pid rfl
      obtain ⟨process, hprocess⟩ : ∃ process, d.processes.lookup pid = some process :=
        Option.isSome_iff_exists.mp
          (AList.lookup_isSome.mpr ((hlive.processes pid).mpr (by simp [hp])))
      simp only [hprocess]
      have hexec := execute_live (E := E) hlive pid process tickBudget
      obtain ⟨hok, place₂, hstop, hshrinks₂⟩ := stop_spec hexec hp
        (execute E { d with scheduler := scheduler } pid process tickBudget).1.reason
      refine ⟨⟨place₂, hstop, fun q hq => hshrinks q (hshrinks₂ q hq)⟩, ?_⟩
      intro code hcode
      rw [hok] at hcode
      cases hcode

theorem terminateProcess_spec (h : d.Live place) (pid : ProcessId) (now : Tick) :
    (pid ∈ d.processes ∧ (d.terminateProcess E pid now).1 = .ok () ∧
      (d.terminateProcess E pid now).2.Live (update place pid none)) ∨
    (∃ code, d.terminateProcess E pid now = (.error code, d)) := by
  by_cases hhas : pid ∈ d.processes
  · have hp := (h.processes pid).mp hhas
    obtain ⟨hok, hplaced⟩ := Scheduler.dequeue_spec h.placed hp
    have hpolicy := Scheduler.dequeue_policy d.scheduler pid
    refine Or.inl ⟨hhas, ?_⟩
    cases hdequeue : d.scheduler.dequeue pid with
    | mk result scheduler =>
      rw [hdequeue] at hok hplaced hpolicy
      subst hok
      simp only [terminateProcess, hasProcess, hhas, decide_true, not_true_eq_false, ↓reduceIte,
        hdequeue, true_and]
      exact erase_live (d := { d with engine := E.halt d.engine pid })
        ⟨h.placed, h.policy, h.processes, h.slots, h.slotsMatch⟩ hp (hplaced.setPcb (by simp) _)
        hpolicy
  · exact Or.inr ⟨.notFound, by simp [terminateProcess, hasProcess, hhas]⟩

end Dispatcher

namespace Kernel
variable {k : Kernel P σ}

structure Tracked (k : Kernel P σ) (place : ProcessId → Option Place) : Prop where
  live : k.dispatcher.Live place
  refs : ∀ pid, pid ∈ k.processRefs ↔ (place pid).isSome

def Inv (k : Kernel P σ) : Prop := ∃ place, k.Tracked place

theorem createWithPid_inv (h : k.Inv) (config : ProcessConfig) :
    (k.createWithPid pid config).2.Inv := by
  obtain ⟨place, h⟩ := h
  have hcreated := Dispatcher.createProcess_spec h.live pid { code := config.code }
    k.dispatcher.clock (rfl : (Pcb.create config.priority (if config.arrivalTime = 0 then
      k.dispatcher.clock else config.arrivalTime)).state = .new)
  simp only [createWithPid]
  split
  · next hs =>
    rw [hs] at hcreated
    exact ⟨place, hcreated, h.refs⟩
  · next hs =>
    rw [hs] at hcreated
    refine ⟨_, hcreated, fun q => ?_⟩
    rw [Finset.mem_insert, h.refs]
    by_cases hq : q = pid
    · simp [hq]
    · simp [hq]

theorem createProcess_inv (h : k.Inv) (config : ProcessConfig) :
    (k.createProcess config).2.Inv := by
  unfold createProcess
  split_ifs
  · exact h
  · have hnext : k.allocatePid.2.Inv := by
      obtain ⟨place, h⟩ := h
      exact ⟨place, h.live, h.refs⟩
    dsimp only
    split_ifs
    · exact hnext
    · exact createWithPid_inv hnext config
  · exact h
  · exact createWithPid_inv h config

theorem terminateProcess_inv (h : k.Inv) (pid : ProcessId) : (k.terminateProcess E pid).2.Inv := by
  obtain ⟨place, h⟩ := h
  simp only [terminateProcess]
  rcases Dispatcher.terminateProcess_spec (E := E) h.live pid k.dispatcher.clock with
    ⟨-, hok, hlive⟩ | ⟨code, heq⟩
  · split
    · next hs =>
      rw [hs] at hok
      cases hok
    · next hs =>
      rw [hs] at hlive
      refine ⟨_, hlive, fun q => ?_⟩
      rw [Finset.mem_erase, h.refs]
      by_cases hq : q = pid
      · simp [hq]
      · simp [hq]
  · rw [heq]
    exact ⟨place, h.live, h.refs⟩

theorem tick_inv (h : k.Inv) (tickBudget : ℕ) : (k.tick E tickBudget).2.Inv := by
  obtain ⟨place, h⟩ := h
  obtain ⟨⟨place', hlive, hshrinks⟩, -⟩ :=
    Dispatcher.dispatch_spec (E := E) h.live (k.budget tickBudget)
  refine ⟨place', hlive, fun q => ?_⟩
  simp only [tick, pruneDeadProcessRefs, Finset.mem_filter, h.refs, Dispatcher.hasProcess,
    decide_eq_true_eq, hlive.processes]
  exact ⟨fun hq => hq.2, fun hq => ⟨hshrinks q hq, hq⟩⟩

theorem tick_error (h : k.Inv) {tickBudget : ℕ} {code : ErrorCode}
    (herror : (k.tick E tickBudget).1 = .error code) : code = .notFound := by
  obtain ⟨place, h⟩ := h
  exact (Dispatcher.dispatch_spec h.live (k.budget tickBudget)).2 code herror

theorem runLoop_inv (h : k.Inv) (tickBudget : ℕ) (anyWorkDone : Bool) (cycles : ℕ) :
    (k.runLoop E tickBudget anyWorkDone cycles).2.Inv := by
  induction cycles generalizing k anyWorkDone with
  | zero => exact h
  | succ cycles ih =>
    have htick := tick_inv (E := E) h tickBudget
    simp only [runLoop]
    split
    · next hs => rwa [hs] at htick
    · next hs => rwa [hs] at htick
    · next hs =>
      rw [hs] at htick
      exact ih htick true

theorem exec_inv (h : k.Inv) (op : Op) : ((machine E).next k op).Inv := by
  cases op with
  | createProcess config => exact createProcess_inv h config
  | terminateProcess pid => exact terminateProcess_inv h pid
  | tick tickBudget => exact tick_inv h tickBudget
  | runForTicks cycles tickBudget => exact runLoop_inv h tickBudget false cycles

theorem inv_create (policy : PolicyKind) (engine : σ) (memory : PhysicalMemory) (order : ℕ → ℕ)
    (maxSlots defaultTickBudget : ℕ) :
    (create policy engine (VirtualMemory.init (Mmu.init P memory order) maxSlots)
      defaultTickBudget).Inv := by
  refine ⟨fun _ => none,
    ⟨Scheduler.placed_create _ _ Nat.zero_lt_one, ?_, ?_, ?_, fun _ => rfl⟩, ?_⟩
  · exact ⟨policy.policy, rfl, policy.selects⟩
  all_goals simp [create, VirtualMemory.init]

/-- The five tables of live processes are equal, and each process of them has one place in the
scheduler. -/
structure Bookkeeping (k : Kernel P σ) : Prop where
  scheduler : ∀ pid, pid ∈ k.dispatcher.scheduler.processes ↔ pid ∈ k.dispatcher.processes
  slots : ∀ pid, pid ∈ k.dispatcher.virtualMemory.slots ↔ pid ∈ k.dispatcher.processes
  pageTables : ∀ pid, (k.dispatcher.virtualMemory.mmu.pageTables pid).isSome ↔
    pid ∈ k.dispatcher.processes
  processRefs : ∀ pid, pid ∈ k.processRefs ↔ pid ∈ k.dispatcher.processes
  partitioned : k.dispatcher.scheduler.Partitioned

theorem Inv.bookkeeping (h : k.Inv) : k.Bookkeeping := by
  obtain ⟨place, h⟩ := h
  have hslots : ∀ pid, pid ∈ k.dispatcher.virtualMemory.slots ↔ pid ∈ k.dispatcher.processes :=
    fun pid => (h.live.slots pid).trans (h.live.processes pid).symm
  refine ⟨fun pid => ?_, hslots, fun pid => ?_, fun pid => ?_, h.live.placed.partitioned⟩
  · rw [h.live.placed.registered, h.live.processes]
  · rw [← hslots, ← Mmu.isSome_tableSize, ← h.live.slotsMatch pid, Option.isSome_map,
      AList.lookup_isSome]
  · rw [h.refs, h.live.processes]

/-- After every sequence of kernel calls, with any engine, the tables agree and a tick fails only
for lack of a process to run. -/
theorem bookkeeping_run (E : ExecutionEngine σ) (policy : PolicyKind) (engine : σ)
    (memory : PhysicalMemory) (order : ℕ → ℕ) (maxSlots defaultTickBudget : ℕ) (ops : List Op) :
    let k := (machine E).run (create policy engine
      (VirtualMemory.init (Mmu.init P memory order) maxSlots) defaultTickBudget) ops
    k.Bookkeeping ∧ ∀ tickBudget code,
      (k.tick E tickBudget).1 = .error code → code = .notFound := by
  intro k
  have hinv : k.Inv := (machine E).run_invariant (P := Inv) (fun _ op h => exec_inv h op)
    (inv_create policy engine memory order maxSlots defaultTickBudget) ops
  exact ⟨hinv.bookkeeping, fun _ _ herror => tick_error hinv herror⟩

end Kernel
end Contur
