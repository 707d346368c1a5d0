import Mathlib.Data.Finset.Sort
import Contur.KernelFacade
import Contur.KernelInvariant
import Contur.KernelProtection

/-!
# Snapshots of the kernel

A snapshot puts together what the dispatcher, the scheduler and the virtual memory say
about the processes. In every state that calls of the facade can bring about these
accounts fit together, as long as no handler moves a process to another state on its
own: the rows are the live processes, each of them stands in exactly one queue, the one
of its state, and the counts add up.
-/

namespace Contur
open Function (update)
open Transition
open Placement

structure KernelProcessSnapshot where
  id : ProcessId
  name : String
  state : ProcessState
  basePriority : ℤ
  effectivePriority : ℤ
  nice : ℤ
  cpuTime : Tick
  laneIndex : Option ℕ
  deriving DecidableEq

/-- The kernel does not fill in the fields about frames. -/
structure KernelSnapshot where
  currentTick : Tick
  processCount : ℕ
  readyCount : ℕ
  blockedCount : ℕ
  runningPids : List ProcessId
  readyQueue : List ProcessId
  blockedQueue : List ProcessId
  perLaneReadyQueues : List (List ProcessId)
  policyName : String
  processes : List KernelProcessSnapshot
  totalVirtualSlots : ℕ
  freeVirtualSlots : ℕ
  totalFrames : Option ℕ := none
  freeFrames : Option ℕ := none
  frameOwners : List (Option ProcessId) := []
  deriving DecidableEq

namespace KernelFacade

def noteLane (lane : ℕ) (lanes : ProcessId → Option ℕ) (queue : List ProcessId) :
    ProcessId → Option ℕ :=
  queue.foldl (fun lanes pid => update lanes pid (some lane)) lanes

/-- The lane of each process in the queues from `lane` on; later queues overwrite earlier ones. -/
def laneByPid (lane : ℕ) (lanes : ProcessId → Option ℕ) :
    List (List ProcessId) → ProcessId → Option ℕ
  | [] => lanes
  | queue :: queues => laneByPid (lane + 1) (noteLane lane lanes queue) queues

variable {P : ReplacementPolicy} {σ η : Type} (k : KernelFacade P σ η)

def row (pid : ProcessId) : KernelProcessSnapshot :=
  let scheduler := k.kernel.dispatcher.scheduler
  let pcb := scheduler.pcbs pid
  { id := pid
    name := (k.labels pid).name
    state := pcb.state
    basePriority := (k.labels pid).basePriority
    effectivePriority := pcb.priority.effective
    nice := pcb.priority.nice
    cpuTime := pcb.timing.totalCpuTime
    laneIndex := laneByPid 0 (fun _ => none) scheduler.readyByLane pid }

/-- The rows are sorted by their pids, whatever the order of the table of references. -/
def snapshot : KernelSnapshot :=
  let scheduler := k.kernel.dispatcher.scheduler
  let virtualMemory := k.kernel.dispatcher.virtualMemory
  { currentTick := k.now
    processCount := k.processCount
    readyCount := scheduler.getQueueSnapshot.length
    blockedCount := scheduler.getBlockedSnapshot.length
    runningPids := scheduler.runningProcesses
    readyQueue := scheduler.getQueueSnapshot
    blockedQueue := scheduler.getBlockedSnapshot
    perLaneReadyQueues := scheduler.readyByLane
    policyName := k.policyName
    processes := (k.kernel.processRefs.sort (· ≤ ·)).map k.row
    totalVirtualSlots := virtualMemory.maxSlots
    freeVirtualSlots := virtualMemory.maxSlots - virtualMemory.slots.entries.length }

end KernelFacade

structure KernelSnapshot.RowFits (s : KernelSnapshot) (row : KernelProcessSnapshot) : Prop where
  state : row.state = .ready ∨ row.state = .running ∨ row.state = .blocked
  ready : row.state = .ready ↔ row.id ∈ s.readyQueue
  running : row.state = .running ↔ row.id ∈ s.runningPids
  blocked : row.state = .blocked ↔ row.id ∈ s.blockedQueue
  lane : ∀ lane, row.laneIndex = some lane ↔
    ∃ queue, s.perLaneReadyQueues[lane]? = some queue ∧ row.id ∈ queue

/-- The accounts of a snapshot fit together. -/
structure KernelSnapshot.Coherent (s : KernelSnapshot) : Prop where
  sorted : (s.processes.map (·.id)).Pairwise (· < ·)
  once : (s.readyQueue ++ s.runningPids ++ s.blockedQueue).Perm (s.processes.map (·.id))
  rows : ∀ row ∈ s.processes, s.RowFits row
  lanes : s.readyQueue = s.perLaneReadyQueues.flatten
  processCount : s.processCount = s.processes.length
  counts : s.readyCount + s.runningPids.length + s.blockedCount = s.processCount
  slots : s.freeVirtualSlots + s.processCount = s.totalVirtualSlots

namespace KernelFacade
variable {P : ReplacementPolicy} {σ η : Type} {E : ExecutionEngine σ} {k : KernelFacade P σ η}

theorem noteLane_apply (lane : ℕ) (lanes : ProcessId → Option ℕ) (queue : List ProcessId)
    (pid : ProcessId) :
      noteLane lane lanes queue pid = if pid ∈ queue then some lane else lanes pid := by
  unfold noteLane
  induction queue generalizing lanes with
  | nil => simp
  | cons first queue ih =>
    rw [List.foldl_cons, ih]
    by_cases hq : pid ∈ queue
    · simp [hq]
    · by_cases hfirst : pid = first
      · simp [hfirst]
      · simp [hq, hfirst]

theorem laneByPid_spec (lane : ℕ) (lanes : ProcessId → Option ℕ) (queues : List (List ProcessId))
    (pid : ProcessId) :
    (laneByPid lane lanes queues pid = lanes pid ∧ ∀ queue ∈ queues, pid ∉ queue) ∨
      ∃ (i : ℕ) (queue : List ProcessId), queues[i]? = some queue ∧ pid ∈ queue ∧
        laneByPid lane lanes queues pid = some (lane + i) := by
  induction queues generalizing lane lanes with
  | nil => exact Or.inl ⟨rfl, by simp⟩
  | cons first queues ih =>
    rw [laneByPid]
    rcases ih (lane + 1) (noteLane lane lanes first) with ⟨hkeep, hnone⟩ |
      ⟨i, queue, hi, hmem, hlane⟩
    · rw [hkeep, noteLane_apply]
      by_cases hfirst : pid ∈ first
      · exact Or.inr ⟨0, first, rfl, hfirst, by rw [if_pos hfirst, Nat.add_zero]⟩
      · rw [if_neg hfirst]
        refine Or.inl ⟨rfl, fun queue hqueue => ?_⟩
        rcases List.mem_cons.mp hqueue with rfl | hqueue
        · exact hfirst
        · exact hnone queue hqueue
    · exact Or.inr ⟨i + 1, queue, hi, hmem, by rw [hlane, Nat.add_assoc, Nat.add_comm 1 i]⟩

theorem laneByPid_eq_some {b : Board ProcessId} {place : ProcessId → Option Place}
    (h : Represents b place) {pid : ProcessId} {lane : ℕ} :
    laneByPid 0 (fun _ => none) b.ready pid = some lane ↔
      ∃ queue, b.ready[lane]? = some queue ∧ pid ∈ queue := by
  rcases laneByPid_spec 0 (fun _ => none) b.ready pid with ⟨hnone, hall⟩ |
    ⟨i, queue, hi, hmem, hlane⟩
  · rw [hnone]
    constructor
    · rintro ⟨⟩
    · rintro ⟨queue, hqueue, hpid⟩
      exact absurd hpid (hall queue (List.mem_of_getElem? hqueue))
  · rw [hlane, Nat.zero_add, Option.some.injEq]
    have hplace := h.ready_of_mem hi hmem
    rw [← h.ready_iff, hplace, Option.some.injEq, Place.ready.injEq]

end KernelFacade

def VirtualMemory.WithinSlots {P : ReplacementPolicy} (s : VirtualMemory P) : Prop :=
  s.slots.entries.length ≤ s.maxSlots

namespace VirtualMemory
variable {P : ReplacementPolicy} {s : VirtualMemory P}

theorem WithinSlots.allocateSlot (h : s.WithinSlots) (pid : ProcessId) (size : ℕ) :
    (s.allocateSlot pid size).2.WithinSlots := by
  unfold VirtualMemory.allocateSlot
  split_ifs with hsize hfull hmem
  · exact h
  · exact h
  · exact h
  · cases hmmu : s.mmu.allocate pid size with
    | mk result mmu =>
      cases result with
      | error code => exact h
      | ok address =>
        have hentries : (s.slots.insert pid ⟨pid, size⟩).entries.length =
            s.slots.entries.length + 1 := by
          rw [AList.entries_insert_of_notMem hmem, List.length_cons]
        unfold WithinSlots
        dsimp only
        rw [hentries]
        omega

theorem WithinSlots.freeSlot (h : s.WithinSlots) (pid : ProcessId) :
    (s.freeSlot pid).2.WithinSlots := by
  unfold VirtualMemory.freeSlot
  cases s.slots.lookup pid with
  | none => exact h
  | some slot =>
    dsimp only
    cases s.mmu.deallocate pid with
    | mk result mmu =>
      cases result with
      | error code => exact h
      | ok _ => exact le_trans (List.kerase_sublist pid s.slots.entries).length_le h

theorem WithinSlots.loadSegment (h : s.WithinSlots) (pid : ProcessId) (data : List Block) :
    (s.loadSegment pid data).2.WithinSlots := by
  unfold VirtualMemory.loadSegment
  cases s.slots.lookup pid with
  | none => exact h
  | some slot =>
    dsimp only
    split_ifs
    · exact h
    · exact h

end VirtualMemory

namespace Dispatcher
variable {P : ReplacementPolicy} {σ : Type} {E : ExecutionEngine σ} {d : Dispatcher P σ}

def WithinSlots (d : Dispatcher P σ) : Prop := d.virtualMemory.WithinSlots

theorem WithinSlots.createProcess (h : d.WithinSlots) (pid : ProcessId) (process : ProcessImage)
    (pcb : Pcb) (now : Tick) : (d.createProcess pid process pcb now).2.WithinSlots := by
  unfold Dispatcher.createProcess
  split_ifs
  · exact h
  · exact h
  · have halloc := h.allocateSlot pid (max 1 process.code.length)
    split
    · next hs =>
      rw [hs] at halloc
      exact halloc
    · next hs =>
      rw [hs] at halloc
      have hload := halloc.loadSegment pid process.code
      split
      · next hl =>
        rw [hl] at hload
        exact hload.freeSlot pid
      · next hl =>
        rw [hl] at hload
        split
        · next he =>
          obtain rfl := (Prod.mk.inj he).2
          exact hload.freeSlot pid
        · next he =>
          obtain rfl := (Prod.mk.inj he).2
          exact hload

theorem WithinSlots.stop (h : d.WithinSlots) (pid : ProcessId) (reason : StopReason) :
    (d.stop pid reason).2.WithinSlots := by
  cases reason with
  | budgetExhausted | interrupted => exact h
  | processExited | error | halted =>
    unfold Dispatcher.stop
    dsimp only
    split
    · exact h
    · exact h.freeSlot pid

theorem WithinSlots.dispatch (h : d.WithinSlots) (tickBudget : ℕ) :
    (d.dispatch E tickBudget).2.WithinSlots := by
  unfold Dispatcher.dispatch
  split_ifs
  · exact h
  · split
    · exact h
    · dsimp only
      split
      · exact h
      · exact WithinSlots.stop (by exact h) _ _

theorem WithinSlots.terminateProcess (h : d.WithinSlots) (pid : ProcessId) (now : Tick) :
    (d.terminateProcess E pid now).2.WithinSlots := by
  unfold Dispatcher.terminateProcess
  split_ifs
  · dsimp only
    split
    · exact h.freeSlot pid
    · exact h.freeSlot pid
    · exact h
  · exact h

end Dispatcher

namespace Kernel
variable {P : ReplacementPolicy} {σ : Type} {E : ExecutionEngine σ} {k : Kernel P σ}

theorem createWithPid_withinSlots (h : k.dispatcher.WithinSlots) (pid : ProcessId)
    (config : ProcessConfig) : (k.createWithPid pid config).2.dispatcher.WithinSlots := by
  have hcreated := h.createProcess pid { code := config.code } (Pcb.create config.priority
    (if config.arrivalTime = 0 then k.dispatcher.clock else config.arrivalTime)) k.dispatcher.clock
  unfold createWithPid
  dsimp only
  split
  · next hs => rwa [hs] at hcreated
  · next hs => rwa [hs] at hcreated

theorem createProcess_withinSlots (h : k.dispatcher.WithinSlots) (config : ProcessConfig) :
    (k.createProcess config).2.dispatcher.WithinSlots := by
  unfold createProcess
  split_ifs
  · exact h
  · dsimp only
    split_ifs
    · exact h
    · exact createWithPid_withinSlots (k := k.allocatePid.2) h _ config
  · exact h
  · exact createWithPid_withinSlots h _ config

theorem terminateProcess_withinSlots (h : k.dispatcher.WithinSlots) (pid : ProcessId) :
    (k.terminateProcess E pid).2.dispatcher.WithinSlots := by
  have hterminated := h.terminateProcess (E := E) pid k.dispatcher.clock
  unfold terminateProcess
  split
  · next hs => rwa [hs] at hterminated
  · next hs => rwa [hs] at hterminated

theorem runLoop_withinSlots (h : k.dispatcher.WithinSlots) (tickBudget : ℕ) (anyWorkDone : Bool)
    (cycles : ℕ) : (k.runLoop E tickBudget anyWorkDone cycles).2.dispatcher.WithinSlots := by
  induction cycles generalizing k anyWorkDone with
  | zero => exact h
  | succ cycles ih =>
    have htick : (k.tick E tickBudget).2.dispatcher.WithinSlots := h.dispatch _
    simp only [runLoop]
    split
    · next hs => rwa [hs] at htick
    · next hs => rwa [hs] at htick
    · next hs =>
      rw [hs] at htick
      exact ih htick true

end Kernel

/-- The handler leaves the process in the state in which it is. -/
def SyscallHandlerFn.KeepsState {η : Type} (handler : SyscallHandlerFn η) : Prop :=
  ∀ args caller host, (handler args caller host).2.1.pcb.state = caller.pcb.state

namespace KernelFacade
variable {P : ReplacementPolicy} {σ η : Type} {E : ExecutionEngine σ} {k : KernelFacade P σ η}

/-- What a call hands to the kernel keeps processes in their states. -/
def KeepsStates : Op η → Prop
  | .registerSyscallHandler _ (some handler) => handler.KeepsState
  | _ => True

structure Sound (k : KernelFacade P σ η) : Prop where
  kernel : k.kernel.Inv
  slots : k.kernel.dispatcher.WithinSlots
  handlers : ∀ id handler, k.syscallTable.handlers id = some handler → handler.KeepsState

end KernelFacade

theorem Scheduler.Placed.sameState {n : ℕ} {s : Scheduler} {place : ProcessId → Option Place}
    (h : s.Placed n place) {pid : ProcessId} {pcb : Pcb} (hstate : pcb.state = (s.pcbs pid).state) :
    Scheduler.Placed n { s with pcbs := update s.pcbs pid pcb } place := by
  refine ⟨h.represents, h.ready_length, h.running_length, h.lanes_pos, h.registered, fun p => ?_,
    h.invalidPid⟩
  have hsame : ∀ p, (update s.pcbs pid pcb p).state = (s.pcbs p).state := by
    intro p
    by_cases hp : p = pid
    · subst hp
      rw [Function.update_self, hstate]
    · rw [Function.update_of_ne hp]
  have hfits := h.fits p
  generalize place p = x at hfits ⊢
  rcases x with _ | _ | _ | _
  · exact hfits
  · exact ⟨(hsame p).trans hfits.1, hfits.2⟩
  · exact ⟨(hsame p).trans hfits.1, hfits.2⟩
  · exact ⟨(hsame p).trans hfits.1, hfits.2⟩

namespace KernelFacade
variable {P : ReplacementPolicy} {σ η : Type} {E : ExecutionEngine σ} {k : KernelFacade P σ η}

theorem setCaller_inv (h : k.kernel.Inv) {pid : ProcessId} {caller : SyscallCaller}
    (hstate : caller.pcb.state = (k.kernel.dispatcher.scheduler.pcbs pid).state) :
    (k.setCaller pid caller).kernel.Inv := by
  obtain ⟨place, h⟩ := h
  refine ⟨place, ⟨h.live.placed.sameState hstate, h.live.policy, fun p => ?_, h.live.slots,
    h.live.slotsMatch⟩, h.refs⟩
  exact AList.mem_replace.trans (h.live.processes p)

theorem Sound.refs (h : k.Sound) (pid : ProcessId) :
    pid ∈ k.kernel.processRefs ↔ pid ∈ k.kernel.dispatcher.processes :=
  h.kernel.bookkeeping.processRefs pid

theorem Sound.caller?_eq (h : k.Sound) (pid : ProcessId) :
    k.caller? pid = (k.kernel.dispatcher.processes.lookup pid).map fun image =>
      ⟨pid, image, k.kernel.dispatcher.scheduler.pcbs pid, k.labels pid⟩ := by
  unfold caller?
  by_cases hpid : pid ∈ k.kernel.processRefs
  · rw [if_pos hpid]
  · have hnone := AList.lookup_eq_none.mpr fun hmem => hpid ((h.refs pid).mpr hmem)
    rw [if_neg hpid, hnone, Option.map_none]

theorem Sound.syscall_dead (h : k.Sound) {pid : ProcessId} (hpid : k.hasProcess pid = false)
    (id : SyscallId) (args : List RegisterValue) :
      k.syscall pid id args = (.error .notFound, k) := by
  have hdead : pid ∉ k.kernel.dispatcher.processes := of_decide_eq_false hpid
  have hnone : k.caller? pid = none := by
    rw [h.caller?_eq, AList.lookup_eq_none.mpr hdead, Option.map_none]
  have hrefs : k.kernel.processRefs.erase pid = k.kernel.processRefs :=
    Finset.erase_eq_of_notMem fun hmem => hdead ((h.refs pid).mp hmem)
  rw [syscall, hnone]
  dsimp only
  rw [hrefs]

theorem Sound.syscall (h : k.Sound) (pid : ProcessId) (id : SyscallId) (args : List RegisterValue) :
    (k.syscall pid id args).2.Sound := by
  by_cases hpid : k.hasProcess pid = true
  · have hcaller := h.caller?_eq pid
    obtain ⟨image, himage⟩ := Option.isSome_iff_exists.mp
      (AList.lookup_isSome.mpr (of_decide_eq_true hpid))
    rw [himage, Option.map_some] at hcaller
    rw [KernelFacade.syscall, hcaller]
    refine ⟨setCaller_inv h.kernel ?_, h.slots, h.handlers⟩
    unfold SyscallTable.dispatch
    cases hhandler : k.syscallTable.handlers id with
    | none => rfl
    | some handler => exact h.handlers id handler hhandler _ _ _
  · rw [h.syscall_dead (by simpa using hpid)]
    exact h

theorem Sound.registerSyscallHandler (h : k.Sound) {id : SyscallId}
    {handler : Option (SyscallHandlerFn η)}
      (hop : KeepsStates (.registerSyscallHandler id handler)) :
    (k.registerSyscallHandler id handler).2.Sound := by
  cases handler with
  | none => exact h
  | some handler =>
    refine ⟨h.kernel, h.slots, fun id' handler' hhandler => ?_⟩
    by_cases hid : id' = id
    · subst hid
      obtain rfl : handler = handler' := by
        simpa [KernelFacade.registerSyscallHandler, SyscallTable.registerHandler] using hhandler
      exact hop
    · refine h.handlers id' handler' ?_
      simpa [KernelFacade.registerSyscallHandler, SyscallTable.registerHandler, hid] using hhandler

theorem registerSyncPrimitive_kernel (k : KernelFacade P σ η) (name : String)
    (primitive : Option SyncPrimitive) :
    (k.registerSyncPrimitive name primitive).2.kernel = k.kernel ∧
      (k.registerSyncPrimitive name primitive).2.syscallTable = k.syscallTable := by
  unfold registerSyncPrimitive
  cases primitive with
  | none => exact ⟨rfl, rfl⟩
  | some primitive =>
    dsimp only
    split_ifs
    · exact ⟨rfl, rfl⟩
    · exact ⟨rfl, rfl⟩
    · exact ⟨rfl, rfl⟩

theorem callPrimitive_kernel (k : KernelFacade P σ η) (name : String) (op : SyncPrimitive.Op) :
    (k.callPrimitive name op).2.kernel = k.kernel ∧
      (k.callPrimitive name op).2.syscallTable = k.syscallTable := by
  unfold callPrimitive
  cases k.syncPrimitives.lookup name with
  | none => exact ⟨rfl, rfl⟩
  | some primitive => exact ⟨rfl, rfl⟩

theorem Sound.of_eq (h : k.Sound) {k' : KernelFacade P σ η}
    (hsame : k'.kernel = k.kernel ∧ k'.syscallTable = k.syscallTable) : k'.Sound := by
  refine ⟨hsame.1 ▸ h.kernel, hsame.1 ▸ h.slots, ?_⟩
  rw [hsame.2]
  exact h.handlers

theorem Sound.createProcess (h : k.Sound) (config : NamedProcessConfig) :
    (k.createProcess config).2.Sound := by
  have hinv := Kernel.createProcess_inv h.kernel config.toProcessConfig
  have hslots := Kernel.createProcess_withinSlots h.slots config.toProcessConfig
  unfold KernelFacade.createProcess
  split
  · next hs =>
    rw [hs] at hinv hslots
    exact ⟨hinv, hslots, h.handlers⟩
  · next hs =>
    rw [hs] at hinv hslots
    exact ⟨hinv, hslots, h.handlers⟩

theorem Sound.next (h : k.Sound) {op : Op η} (hop : KeepsStates op) :
    ((machine E).next k op).Sound := by
  cases op with
  | createProcess config => exact h.createProcess config
  | terminateProcess pid =>
    exact ⟨Kernel.terminateProcess_inv h.kernel pid,
      Kernel.terminateProcess_withinSlots h.slots pid, h.handlers⟩
  | tick tickBudget => exact ⟨Kernel.tick_inv h.kernel tickBudget, h.slots.dispatch _, h.handlers⟩
  | runForTicks cycles tickBudget =>
    exact ⟨Kernel.runLoop_inv h.kernel tickBudget false cycles,
      Kernel.runLoop_withinSlots h.slots tickBudget false cycles, h.handlers⟩
  | syscall pid id args => exact h.syscall pid id args
  | registerSyscallHandler id handler => exact h.registerSyscallHandler hop
  | registerSyncPrimitive name primitive =>
      exact h.of_eq (registerSyncPrimitive_kernel k name primitive)
  | enterCritical pid primitiveName => exact h.of_eq (callPrimitive_kernel k primitiveName _)
  | leaveCritical pid primitiveName => exact h.of_eq (callPrimitive_kernel k primitiveName _)

theorem sound_create (policy : PolicyKind) (engine : σ) (host : η) (memory : PhysicalMemory)
    (order : ℕ → ℕ) (maxSlots defaultTickBudget : ℕ) :
    (create policy engine host (VirtualMemory.init (Mmu.init P memory order) maxSlots)
      defaultTickBudget).Sound :=
  ⟨Kernel.inv_create policy engine memory order maxSlots defaultTickBudget, Nat.zero_le _,
    fun _ _ hnone => by cases hnone⟩

theorem run_sound (E : ExecutionEngine σ) (policy : PolicyKind) (engine : σ) (host : η)
    (memory : PhysicalMemory) (order : ℕ → ℕ) (maxSlots defaultTickBudget : ℕ) {ops : List (Op η)}
    (hops : ∀ op ∈ ops, KeepsStates op) :
    ((machine E).run (create policy engine host
      (VirtualMemory.init (Mmu.init P memory order) maxSlots) defaultTickBudget) ops).Sound :=
  (machine E).run_invariant_of_guarded (fun _ _ hop h => h.next hop)
    (sound_create policy engine host memory order maxSlots defaultTickBudget)
    ((machine E).guarded_of_forall _ hops)

theorem row_fits (h : k.Sound) {pid : ProcessId} (hpid : pid ∈ k.kernel.processRefs) :
    k.snapshot.RowFits (k.row pid) := by
  obtain ⟨place, hplace⟩ := h.kernel
  have hplaced := hplace.live.placed
  have hregistered : pid ∈ k.kernel.dispatcher.scheduler.processes := by
    rw [hplaced.registered, ← hplace.refs]
    exact hpid
  have hpartitioned := hplaced.partitioned
  refine ⟨?_, hpartitioned.ready pid hregistered, hpartitioned.running pid hregistered,
    hpartitioned.blocked pid hregistered, fun lane => laneByPid_eq_some hplaced.represents⟩
  obtain ⟨x, -, hfits⟩ := hplaced.exists_place hregistered
  rcases x with _ | _ | _
  · exact Or.inl hfits.1
  · exact Or.inr (Or.inl hfits.1)
  · exact Or.inr (Or.inr hfits.1)

theorem processes_ids (k : KernelFacade P σ η) :
    k.snapshot.processes.map (·.id) = k.kernel.processRefs.sort (· ≤ ·) := by
  have hid : (fun row : KernelProcessSnapshot => row.id) ∘ k.row = id := rfl
  rw [snapshot, List.map_map, hid, List.map_id]

theorem length_entries_eq {β γ : Type} {a : AList (fun _ : ProcessId => β)}
    {b : AList (fun _ : ProcessId => γ)} (h : ∀ pid, pid ∈ a ↔ pid ∈ b) :
    a.entries.length = b.entries.length := by
  have hperm : a.keys.Perm b.keys := (List.perm_ext_iff_of_nodup a.keys_nodup b.keys_nodup).mpr h
  have hlength := hperm.length_eq
  rwa [AList.keys, AList.keys, List.keys, List.keys, List.length_map, List.length_map] at hlength

theorem card_processRefs (h : k.Sound) : k.kernel.processRefs.card = k.processCount := by
  have hrefs : k.kernel.processRefs = k.kernel.dispatcher.processes.keys.toFinset := by
    ext pid
    rw [List.mem_toFinset]
    exact h.refs pid
  rw [hrefs, List.toFinset_card_of_nodup k.kernel.dispatcher.processes.keys_nodup, AList.keys,
    List.keys, List.length_map, processCount]

theorem queues_perm (h : k.Sound) :
    (k.snapshot.readyQueue ++ k.snapshot.runningPids ++ k.snapshot.blockedQueue).Perm
      (k.snapshot.processes.map (·.id)) := by
  rw [processes_ids]
  refine List.perm_iff_count.mpr fun pid => ?_
  have honce := h.kernel.bookkeeping.partitioned.once pid
  have hscheduler := h.kernel.bookkeeping.scheduler pid
  refine honce.trans ?_
  by_cases hpid : pid ∈ k.kernel.processRefs
  · rw [if_pos (hscheduler.mpr ((h.refs pid).mp hpid))]
    exact (List.count_eq_one_of_mem (Finset.sort_nodup _ _) ((Finset.mem_sort _).mpr hpid)).symm
  · rw [if_neg fun hmem => hpid ((h.refs pid).mpr (hscheduler.mp hmem))]
    exact (List.count_eq_zero_of_not_mem fun hmem => hpid ((Finset.mem_sort _).mp hmem)).symm

theorem Sound.coherent (h : k.Sound) : k.snapshot.Coherent := by
  have hlength : k.snapshot.processes.length = k.snapshot.processCount := by
    rw [snapshot, List.length_map, Finset.length_sort]
    exact card_processRefs h
  refine ⟨?_, queues_perm h, fun row hrow => ?_, rfl, hlength.symm, ?_, ?_⟩
  · rw [processes_ids]
    exact (Finset.sortedLT_sort k.kernel.processRefs).pairwise
  · obtain ⟨pid, hpid, rfl⟩ := List.mem_map.mp hrow
    exact row_fits h ((Finset.mem_sort _).mp hpid)
  · have hqueues := (queues_perm h).length_eq
    rw [List.length_append, List.length_append, List.length_map, hlength] at hqueues
    exact hqueues
  · have hslots : k.kernel.dispatcher.virtualMemory.slots.entries.length = k.processCount :=
      length_entries_eq h.kernel.bookkeeping.slots
    have hwithin : k.kernel.dispatcher.virtualMemory.slots.entries.length ≤
        k.kernel.dispatcher.virtualMemory.maxSlots := h.slots
    rw [hslots] at hwithin
    have hfree : k.snapshot.freeVirtualSlots =
        k.kernel.dispatcher.virtualMemory.maxSlots - k.processCount := by
      rw [snapshot, hslots]
    have htotal : k.snapshot.totalVirtualSlots = k.kernel.dispatcher.virtualMemory.maxSlots := rfl
    have hcount : k.snapshot.processCount = k.processCount := rfl
    omega

/-- After any sequence of calls, with any engine and handlers that leave the states of processes
alone, a snapshot has one row for each live process, sorted by pid; every process is in exactly one
queue, the one that the state in its row names, and a lane is shown for the ready ones only; and the
counts of processes and of slots add up. -/
theorem snapshot_coherent (E : ExecutionEngine σ) (policy : PolicyKind) (engine : σ) (host : η)
    (memory : PhysicalMemory) (order : ℕ → ℕ) (maxSlots defaultTickBudget : ℕ) (ops : List (Op η))
    (hops : ∀ op ∈ ops, KeepsStates op) :
    let k := (machine E).run (create policy engine host
      (VirtualMemory.init (Mmu.init P memory order) maxSlots) defaultTickBudget) ops
    k.snapshot.Coherent ∧
      ∀ pid, pid ∈ k.snapshot.processes.map (·.id) ↔ k.hasProcess pid = true := by
  intro k
  have hsound : k.Sound :=
    run_sound E policy engine host memory order maxSlots defaultTickBudget hops
  refine ⟨hsound.coherent, fun pid => ?_⟩
  rw [processes_ids, Finset.mem_sort, hsound.refs]
  exact decide_eq_true_iff.symm

def countingHandler : SyscallHandlerFn ℕ := fun _ caller calls =>
  (.ok (BitVec.ofNat 32 caller.pid), { caller with image := { caller.image with
    registers := update caller.image.registers ⟨0, by decide⟩ (BitVec.ofNat 32 caller.pid) } },
    calls + 1)

theorem snapshot_coherent_call :
    let ops : List (Op ℕ) := [.createProcess { name := "a", code := [{ code := .nop }] },
      .createProcess { code := [{ code := .nop }] }, .tick 1,
      .registerSyscallHandler .getPid (some countingHandler), .syscall 2 .getPid []]
    let k := (machine Interpreter.executionEngine).run (create .fcfs ⟨0, ∅, none⟩ 0
      (VirtualMemory.init (Mmu.init fifoReplacement (.ofSize 8) id) 4) 1) ops
    k.snapshot.Coherent ∧ k.host = 1 ∧ k.snapshot.runningPids = [1] ∧ k.snapshot.readyQueue = [2] ∧
      k.row 2 = ⟨2, "process-2", .ready, 3, 3, 0, 0, some 0⟩ := by
  intro ops k
  have hops : ∀ op ∈ ops, KeepsStates op := by
    intro op hop
    simp only [ops, List.mem_cons, List.not_mem_nil, or_false] at hop
    rcases hop with rfl | rfl | rfl | rfl | rfl
    · trivial
    · trivial
    · trivial
    · exact fun _ _ _ => rfl
    · trivial
  have hcoherent := snapshot_coherent (P := fifoReplacement) Interpreter.executionEngine .fcfs
    ⟨0, ∅, none⟩ 0 (.ofSize 8) id 4 1 ops hops
  exact ⟨hcoherent.1, by decide +kernel, by decide +kernel, by decide +kernel, by decide +kernel⟩

end KernelFacade
end Contur
