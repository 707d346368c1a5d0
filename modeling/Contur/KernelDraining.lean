import Mathlib.Algebra.Order.BigOperators.Group.Finset
import Contur.KernelBatching
import Contur.KernelPids
import Contur.StraightCode

/-!
# Kernels that run empty

A tick that succeeds gives a slice to one process, and the others keep their images. As
long as no process waits for an interrupt there is something to select while there is a
process at all, so every tick lowers the number of slices that are left, and as many
cycles as there are slices empty the kernel. Which process is selected does not matter.
-/

namespace Contur
open Placement

variable {P : ReplacementPolicy} {σ : Type} {E : ExecutionEngine σ} {C : ProcessImage → Prop}
  {rank : ℕ → ProcessImage → ℕ}

namespace Scheduler
variable {s s' : Scheduler} {pid : ProcessId} {lane : ℕ} {now : Tick}

theorem recordRunningBurst_blocked : (s.recordRunningBurst pid now).blocked = s.blocked := by
  obtain ⟨predictions, heq⟩ := recordRunningBurst_eq s pid now
  rw [heq]

theorem startOn_blocked : (s.startOn lane pid now).2.blocked = s.blocked := by
  unfold startOn
  dsimp only
  cases (s.pcbs pid).setState .running now <;> rfl

theorem preempt_blocked : (s.preempt lane pid now).2.blocked = s.blocked := by
  unfold preempt
  dsimp only
  cases ((s.recordRunningBurst pid now).pcbs pid).setState .ready now <;>
    exact recordRunningBurst_blocked

theorem selectNextForLane_blocked (s : Scheduler) (lane : ℕ) (now : Tick) :
    (s.selectNextForLane lane now).2.blocked = s.blocked := by
  have hselect := s.selectNextForLane_eq lane now
  cases hchoice : s.choice lane now with
  | refused =>
    rw [hchoice] at hselect
    obtain ⟨code, heq⟩ := hselect
    rw [heq]
  | keeps running =>
    rw [hchoice] at hselect
    rw [show s.selectNextForLane lane now = (.ok running, s) from hselect]
  | starts candidate =>
    rw [hchoice] at hselect
    rw [hselect.1]
    exact startOn_blocked
  | replaces running candidate =>
    rw [hchoice] at hselect
    have hpreempt : (s.preempt lane running now).2.blocked = s.blocked := preempt_blocked
    cases heq : s.preempt lane running now with
    | mk result t =>
      rw [heq] at hpreempt
      cases result with
      | error code =>
        rw [hselect.2.1 code t heq]
        exact hpreempt
      | ok done =>
        rw [hselect.2.2 t heq]
        exact startOn_blocked.trans hpreempt

theorem terminate_blocked (pid : ProcessId) (now : Tick) (h : s.blocked = []) :
    (s.terminate pid now).2.blocked = [] := by
  unfold terminate
  split_ifs
  · dsimp only
    cases s.findRunningLane pid with
    | none => cases (s.pcbs pid).setState .terminated now <;> simp [forget, removeFrom, h]
    | some found =>
      dsimp only
      cases ((s.recordRunningBurst pid now).pcbs pid).setState .terminated now <;>
        exact recordRunningBurst_blocked.trans h
  · exact h

theorem enqueue_blocked : (s.enqueue pid now).2.blocked = s.blocked := by
  unfold enqueue enqueueToLane
  split_ifs <;> try rfl
  dsimp only
  split_ifs <;> try rfl
  cases (s.pcbs pid).setState .ready now <;> rfl

theorem dequeue_blocked (pid : ProcessId) (h : s.blocked = []) :
    (s.dequeue pid).2.blocked = [] := by
  unfold dequeue
  split_ifs
  · simp [removeFrom, h]
  · exact h

theorem startOn_ne_notFound : (s.startOn lane pid now).1 ≠ .error .notFound := by
  unfold startOn
  dsimp only
  cases (s.pcbs pid).setState .running now <;> exact fun h => by cases h

theorem preempt_ne_notFound : (s.preempt lane pid now).1 ≠ .error .notFound := by
  unfold preempt
  dsimp only
  cases ((s.recordRunningBurst pid now).pcbs pid).setState .ready now <;>
    exact fun h => by cases h

theorem idle_of_notFound (h : s.selectNextForLane lane now = (.error .notFound, s')) :
    s.readyByLane[lane]? = some [] ∧ (s.runningByLane[lane]?).join = none := by
  unfold selectNextForLane at h
  cases hready : s.readyByLane[lane]? with
  | none => simp [hready] at h
  | some ready =>
    cases hpolicy : s.policy with
    | none => simp [hready, hpolicy] at h
    | some policy =>
      cases ready with
      | nil =>
        cases hrunning : (s.runningByLane[lane]?).join with
        | none => exact ⟨rfl, rfl⟩
        | some running => simp [hready, hpolicy, hrunning] at h
      | cons first rest =>
        simp only [hready, hpolicy] at h
        split_ifs at h
        · cases h
        · cases hrunning : (s.runningByLane[lane]?).join with
          | none =>
            rw [hrunning] at h
            exact absurd (congrArg Prod.fst h) startOn_ne_notFound
          | some running =>
            rw [hrunning] at h
            dsimp only at h
            split_ifs at h
            · cases hpreempt : s.preempt lane running now with
              | mk result t =>
                rw [hpreempt] at h
                cases result with
                | error code =>
                  cases h
                  exact absurd (congrArg Prod.fst hpreempt) preempt_ne_notFound
                | ok done => exact absurd (congrArg Prod.fst h) startOn_ne_notFound
            · cases h
        · cases h

theorem Placed.none_of_idle {place : ProcessId → Option Place} (h : s.Placed 1 place)
    (hblocked : s.blocked = []) (hready : s.readyByLane[0]? = some [])
    (hrunning : (s.runningByLane[0]?).join = none) : place pid = none := by
  cases hplace : place pid with
  | none => rfl
  | some x =>
    cases x with
    | ready lane =>
      obtain ⟨queue, hqueue, hmem⟩ := (h.represents.ready_iff pid lane).mp hplace
      change s.readyByLane[lane]? = some queue at hqueue
      have hlt : lane < s.readyByLane.length := (List.getElem?_eq_some_iff.mp hqueue).1
      rw [h.ready_length, Nat.lt_one_iff] at hlt
      rw [hlt, hready] at hqueue
      cases hqueue
      cases hmem
    | running lane =>
      have hslot := (h.represents.running_iff pid lane).mp hplace
      rw [Nat.lt_one_iff.mp (h.running_lt_lanes hplace)] at hslot
      change s.runningByLane[0]? = some (some pid) at hslot
      rw [hslot] at hrunning
      cases hrunning
    | blocked =>
      have hmem := (h.represents.blocked_iff pid).mp hplace
      change pid ∈ s.blocked at hmem
      rw [hblocked] at hmem
      cases hmem

end Scheduler

namespace Dispatcher
variable {d d' : Dispatcher P σ} {place : ProcessId → Option Place} {pid : ProcessId} {n : ℕ}

/-- No process is blocked, and all of them run programs of `C`. -/
structure Draining (C : ProcessImage → Prop) (d : Dispatcher P σ) : Prop where
  blocked : d.scheduler.blocked = []
  programs : ∀ pid process, d.processes.lookup pid = some process → C process

def left (rank : ProcessImage → ℕ) (d : Dispatcher P σ) (pid : ProcessId) : ℕ :=
  (d.processes.lookup pid).elim 0 rank

def work (rank : ProcessImage → ℕ) (d : Dispatcher P σ) : ℕ :=
  ∑ pid ∈ d.processes.keys.toFinset, d.left rank pid

theorem work_lt {rank : ProcessImage → ℕ}
    (hkept : ∀ q, q ∈ d'.processes → q ∈ d.processes) (hpid : pid ∈ d.processes)
    (hleft : d'.left rank pid < d.left rank pid)
    (hothers : ∀ q, q ≠ pid → d'.processes.lookup q = d.processes.lookup q) :
    d'.work rank < d.work rank := by
  have hsubset : d'.processes.keys.toFinset ⊆ d.processes.keys.toFinset := by
    intro q hq
    rw [List.mem_toFinset] at hq ⊢
    exact AList.mem_keys.mp (hkept q (AList.mem_keys.mpr hq))
  calc
    d'.work rank ≤ ∑ q ∈ d.processes.keys.toFinset, d'.left rank q :=
      Finset.sum_le_sum_of_subset hsubset
    _ < d.work rank := by
      refine Finset.sum_lt_sum (fun q _ => ?_) ⟨pid, ?_, hleft⟩
      · by_cases hq : q = pid
        · rw [hq]
          exact hleft.le
        · unfold left
          rw [hothers q hq]
      · rw [List.mem_toFinset]
        exact AList.mem_keys.mp hpid

theorem replace_drains {process process' : ProcessImage} (hd : d.Draining C)
    (hprocess : d.processes.lookup pid = some process)
    (hprocesses : d'.processes = d.processes.replace pid process')
    (hblocked : d'.scheduler.blocked = []) (hC : C process')
    (hrank : rank n process' < rank n process) :
    d'.Draining C ∧ d'.work (rank n) < d.work (rank n) := by
  have hpid : pid ∈ d.processes := by
    rw [← AList.lookup_isSome, hprocess]
    rfl
  have hself : d'.processes.lookup pid = some process' := by
    rw [hprocesses]
    exact dlookup_kreplace_self process' (AList.mem_keys.mp hpid)
  have hothers : ∀ q, q ≠ pid → d'.processes.lookup q = d.processes.lookup q := by
    intro q hq
    rw [hprocesses]
    exact dlookup_kreplace_of_ne hq d.processes.entries
  refine ⟨⟨hblocked, fun q process'' hq => ?_⟩, work_lt (fun q hq => ?_) hpid ?_ hothers⟩
  · by_cases hqp : q = pid
    · rw [hqp, hself] at hq
      cases hq
      exact hC
    · rw [hothers q hqp] at hq
      exact hd.programs q process'' hq
  · rw [hprocesses] at hq
    exact AList.mem_replace.mp hq
  · unfold left
    rw [hself, hprocess]
    exact hrank

theorem erase_drains {process : ProcessImage} (hd : d.Draining C)
    (hprocess : d.processes.lookup pid = some process)
    (hgone : d'.processes.lookup pid = none)
    (hothers : ∀ q, q ≠ pid → d'.processes.lookup q = d.processes.lookup q)
    (hblocked : d'.scheduler.blocked = []) (hrank : 0 < rank n process) :
    d'.Draining C ∧ d'.work (rank n) < d.work (rank n) := by
  have hpid : pid ∈ d.processes := by
    rw [← AList.lookup_isSome, hprocess]
    rfl
  refine ⟨⟨hblocked, fun q process' hq => ?_⟩, work_lt (fun q hq => ?_) hpid ?_ hothers⟩
  · by_cases hqp : q = pid
    · rw [hqp, hgone] at hq
      cases hq
    · rw [hothers q hqp] at hq
      exact hd.programs q process' hq
  · by_cases hqp : q = pid
    · rwa [hqp]
    · rw [← AList.lookup_isSome] at hq ⊢
      rwa [hothers q hqp] at hq
  · unfold left
    rw [hgone, hprocess]
    exact hrank

theorem stop_drains (hE : Finishes E C rank) (hn : 0 < n) (h : d.Live place)
    (hp : place pid = some (.running 0)) (hd : d.Draining C) {process : ProcessImage}
    (hprocess : d.processes.lookup pid = some process) :
    ((d.execute E pid process n).2.stop pid (d.execute E pid process n).1.reason).2.Draining C ∧
      ((d.execute E pid process n).2.stop pid
        (d.execute E pid process n).1.reason).2.work (rank n) < d.work (rank n) := by
  have hC := hd.programs pid process hprocess
  have hexec := execute_live (E := E) h pid process n
  cases hreason : (d.execute E pid process n).1.reason with
  | budgetExhausted =>
    obtain ⟨hC', hrank⟩ :=
      hE.advances d.engine d.virtualMemory.mmu.memory pid process n hn hC hreason
    exact replace_drains hd hprocess rfl hd.blocked hC' hrank
  | interrupted =>
    exact absurd hreason (hE.waits d.engine d.virtualMemory.mmu.memory pid process n hC)
  | processExited | error | halted =>
    obtain ⟨scheduler, hterm, -⟩ := terminate_live hexec hp
    have hblocked : scheduler.blocked = [] := by
      have hkeeps := Scheduler.terminate_blocked pid (d.execute E pid process n).2.clock hd.blocked
      exact (congrArg (fun r => r.2.blocked) hterm).symm.trans hkeeps
    simp only [stop, hterm]
    refine erase_drains hd hprocess (AList.lookup_erase pid _) (fun q hq => ?_) hblocked
      (hE.positive n process hn hC)
    exact (AList.lookup_erase_ne hq).trans (dlookup_kreplace_of_ne hq d.processes.entries)

theorem none_of_notFound {scheduler : Scheduler} (h : d.Live place) (hd : d.Draining C)
    (hselect : d.scheduler.selectNext d.clock = (.error .notFound, scheduler)) :
    pid ∉ d.processes := by
  obtain ⟨hready, hrunning⟩ := Scheduler.idle_of_notFound hselect
  rw [h.processes, h.placed.none_of_idle hd.blocked hready hrunning]
  exact Bool.false_ne_true

theorem dispatch_drains (hE : Finishes E C rank) (hn : 0 < n) (h : d.Live place)
    (hd : d.Draining C) :
    ((d.dispatch E n).1 = .ok () ∧ (d.dispatch E n).2.Draining C ∧
        (d.dispatch E n).2.work (rank n) < d.work (rank n)) ∨
      (d.dispatch E n).1 = .error .notFound ∧ ∀ q, q ∉ d.processes := by
  unfold dispatch
  split_ifs with hempty
  · refine Or.inr ⟨rfl, fun q hq => ?_⟩
    rw [List.isEmpty_iff] at hempty
    simp [AList.mem_keys, AList.keys, hempty] at hq
  cases hselect : d.scheduler.selectNext d.clock with
  | mk result scheduler =>
    obtain ⟨place₁, hlive, -, hrun, herror⟩ := selectNext_live h hselect
    cases result with
    | error code =>
      obtain rfl := herror code rfl
      exact Or.inr ⟨rfl, fun q => none_of_notFound h hd hselect⟩
    | ok pid =>
      have hp := hrun pid rfl
      obtain ⟨process, hprocess⟩ : ∃ process, d.processes.lookup pid = some process :=
        Option.isSome_iff_exists.mp
          (AList.lookup_isSome.mpr ((hlive.processes pid).mpr (by simp [hp])))
      simp only [hprocess]
      have hblocked : scheduler.blocked = [] := by
        have hkeeps := d.scheduler.selectNextForLane_blocked 0 d.clock
        exact (congrArg (fun r => r.2.blocked) hselect).symm.trans (hkeeps.trans hd.blocked)
      have hd₁ : Draining C { d with scheduler := scheduler } := ⟨hblocked, hd.programs⟩
      obtain ⟨hok, -⟩ := stop_spec (execute_live (E := E) hlive pid process n) hp
        (execute E { d with scheduler := scheduler } pid process n).1.reason
      exact Or.inl ⟨hok, stop_drains hE hn hlive hp hd₁ hprocess⟩

theorem createProcess_scheduler_blocked (pid : ProcessId) (process : ProcessImage) (pcb : Pcb)
    (now : Tick) : (d.createProcess pid process pcb now).2.scheduler.blocked =
      d.scheduler.blocked := by
  unfold createProcess
  split_ifs
  · rfl
  · rfl
  split
  · rfl
  split
  · rfl
  split
  · next heq =>
    have h := congrArg (fun r => r.2.scheduler.blocked) heq
    exact h.symm.trans Scheduler.enqueue_blocked
  · next heq =>
    have h := congrArg (fun r => r.2.scheduler.blocked) heq
    exact h.symm.trans Scheduler.enqueue_blocked

theorem terminateProcess_scheduler_blocked (hd : d.scheduler.blocked = []) (pid : ProcessId)
    (now : Tick) : (d.terminateProcess E pid now).2.scheduler.blocked = [] := by
  have hdequeue := Scheduler.dequeue_blocked pid hd
  unfold terminateProcess
  split_ifs
  · dsimp only
    split <;> next heq => exact (congrArg (fun r => r.2.blocked) heq).symm.trans hdequeue
  · exact hd

end Dispatcher

namespace Kernel
variable {k : Kernel P σ} {tickBudget cycles : ℕ}

/-- The slices of the live processes up to the ends of their code, with the budget of a tick. -/
def workLeft (k : Kernel P σ) (tickBudget : ℕ) : ℕ :=
  k.dispatcher.work (Interpreter.slicesLeft (k.budget tickBudget))

structure Draining (C : ProcessImage → Prop) (k : Kernel P σ) : Prop where
  inv : k.Inv
  dispatcher : k.dispatcher.Draining C

theorem createProcess_blocked (config : ProcessConfig) :
    (k.createProcess config).2.dispatcher.scheduler.blocked = k.dispatcher.scheduler.blocked := by
  have hcreate : ∀ (k : Kernel P σ) (pid : ProcessId),
      (k.createWithPid pid config).2.dispatcher.scheduler.blocked =
        k.dispatcher.scheduler.blocked := by
    intro k pid
    have h := Dispatcher.createProcess_scheduler_blocked (d := k.dispatcher) pid
      { code := config.code }
      (Pcb.create config.priority
        (if config.arrivalTime = 0 then k.dispatcher.clock else config.arrivalTime))
      k.dispatcher.clock
    simp only [createWithPid]
    split <;> next heq => exact (congrArg (fun r => r.2.scheduler.blocked) heq).symm.trans h
  unfold createProcess
  split_ifs
  · rfl
  · dsimp only
    split_ifs
    · rfl
    · exact hcreate _ _
  · rfl
  · exact hcreate _ _

theorem Draining.createProcess (h : k.Draining C) {config : ProcessConfig}
    (hC : C { code := config.code }) : (k.createProcess config).2.Draining C := by
  refine ⟨createProcess_inv h.inv config, (createProcess_blocked config).trans h.dispatcher.blocked,
    fun pid process hprocess => ?_⟩
  rcases (createProcess_table k config).2 with ⟨-, hprocesses⟩ | ⟨pid', -, -, hprocesses⟩
  · rw [hprocesses] at hprocess
    exact h.dispatcher.programs pid process hprocess
  · rw [hprocesses] at hprocess
    by_cases hpid : pid = pid'
    · rw [hpid, AList.lookup_insert] at hprocess
      cases hprocess
      exact hC
    · rw [AList.lookup_insert_ne hpid] at hprocess
      exact h.dispatcher.programs pid process hprocess

theorem Draining.terminateProcess (h : k.Draining C) (pid : ProcessId) :
    (k.terminateProcess E pid).2.Draining C := by
  have hblocked : (k.terminateProcess E pid).2.dispatcher.scheduler.blocked = [] := by
    have hd := Dispatcher.terminateProcess_scheduler_blocked (E := E) h.dispatcher.blocked pid
      k.dispatcher.clock
    simp only [Kernel.terminateProcess]
    split <;> next heq => exact (congrArg (fun r => r.2.scheduler.blocked) heq).symm.trans hd
  refine ⟨terminateProcess_inv h.inv pid, hblocked, fun q process hprocess => ?_⟩
  rcases terminateProcess_table E k pid with ⟨-, -, hprocesses⟩ | ⟨-, -, hprocesses⟩
  · rw [hprocesses] at hprocess
    exact h.dispatcher.programs q process hprocess
  · rw [hprocesses] at hprocess
    by_cases hq : q = pid
    · rw [hq, AList.lookup_erase] at hprocess
      cases hprocess
    · rw [AList.lookup_erase_ne hq] at hprocess
      exact h.dispatcher.programs q process hprocess

theorem budget_pos : 0 < k.budget tickBudget := by
  unfold budget
  dsimp only
  split_ifs <;> omega

theorem tick_drains (hE : Finishes E C rank) (h : k.Draining C) (tickBudget : ℕ) :
    ((k.tick E tickBudget).1 = .ok () ∧ (k.tick E tickBudget).2.Draining C ∧
        (k.tick E tickBudget).2.dispatcher.work (rank (k.budget tickBudget)) <
          k.dispatcher.work (rank (k.budget tickBudget))) ∨
      k.tick E tickBudget = (.error .notFound, k) ∧ k.live = ∅ := by
  have hinv := tick_inv (E := E) h.inv tickBudget
  obtain ⟨place, htracked⟩ := h.inv
  rcases Dispatcher.dispatch_drains hE budget_pos htracked.live h.dispatcher with
    ⟨hok, hd, hwork⟩ | ⟨herror, hnone⟩
  · exact Or.inl ⟨hok, ⟨hinv, hd⟩, hwork⟩
  · refine Or.inr ⟨tick_of_error h.inv herror, Finset.eq_empty_of_forall_notMem fun q hq => ?_⟩
    exact hnone q (AList.mem_keys.mpr (List.mem_toFinset.mp hq))

theorem Draining.tick (hE : Finishes E C rank) (h : k.Draining C) (tickBudget : ℕ) :
    (k.tick E tickBudget).2.Draining C := by
  rcases tick_drains hE h tickBudget with ⟨-, hd, -⟩ | ⟨heq, -⟩
  · exact hd
  · rwa [heq]

theorem Draining.runLoop (hE : Finishes E C rank) (h : k.Draining C) (tickBudget cycles : ℕ)
    (anyWorkDone : Bool) :
    (k.runLoop E tickBudget anyWorkDone cycles).2.Draining C := by
  induction cycles generalizing k anyWorkDone with
  | zero => exact h
  | succ cycles ih =>
    have htick := h.tick hE tickBudget
    simp only [Kernel.runLoop]
    cases hnext : k.tick E tickBudget with
    | mk result k' =>
      rw [hnext] at htick
      cases result with
      | error code => cases code <;> exact htick
      | ok done => exact ih htick true

theorem runLoop_drains (hE : Finishes E C rank) (h : k.Draining C) (anyWorkDone : Bool)
    (hwork : k.dispatcher.work (rank (k.budget tickBudget)) ≤ cycles) :
    (k.runLoop E tickBudget anyWorkDone cycles).2.live = ∅ ∧
      (k.runLoop E tickBudget anyWorkDone cycles).1 =
        if anyWorkDone = false ∧ 0 < cycles ∧ k.live = ∅ then .error .notFound else .ok () := by
  induction cycles generalizing k anyWorkDone with
  | zero =>
    refine ⟨?_, by simp [runLoop]⟩
    rcases tick_drains hE h tickBudget with ⟨-, -, hlt⟩ | ⟨-, hnone⟩
    · omega
    · exact hnone
  | succ cycles ih =>
    simp only [runLoop]
    rcases tick_drains hE h tickBudget with ⟨hok, hd, hlt⟩ | ⟨heq, hnone⟩
    · have hsome : k.live ≠ ∅ := by
        intro hempty
        have hzero : k.dispatcher.work (rank (k.budget tickBudget)) = 0 :=
          (congrArg (fun live => ∑ pid ∈ live, k.dispatcher.left _ pid) hempty).trans
            Finset.sum_empty
        omega
      cases hnext : k.tick E tickBudget with
      | mk result k' =>
        rw [hnext] at hok hd hlt
        cases hok
        have hbudget : k'.budget tickBudget = k.budget tickBudget := by
          have hsame : (k.tick E tickBudget).2.budget tickBudget = k.budget tickBudget := rfl
          rwa [hnext] at hsame
        have hlater := ih hd true (by rw [hbudget]; omega)
        simpa [hsome] using hlater
    · rw [heq]
      cases anyWorkDone <;> simp [hnone]

theorem run_draining (hE : Finishes E C rank) (h : k.Draining C) {ops : List Op}
    (hops : ∀ config, .createProcess config ∈ ops → C { code := config.code }) :
    ((machine E).run k ops).Draining C := by
  induction ops generalizing k with
  | nil => exact h
  | cons op ops ih =>
    refine ih ?_ fun config hconfig => hops config (List.mem_cons_of_mem op hconfig)
    cases op with
    | createProcess config => exact h.createProcess (hops config List.mem_cons_self)
    | terminateProcess pid => exact h.terminateProcess pid
    | tick tickBudget => exact h.tick hE tickBudget
    | runForTicks cycles tickBudget => exact h.runLoop hE tickBudget cycles false

theorem draining_create (C : ProcessImage → Prop) (policy : PolicyKind) (engine : σ)
    (memory : PhysicalMemory) (order : ℕ → ℕ) (maxSlots defaultTickBudget : ℕ) :
    (create policy engine (VirtualMemory.init (Mmu.init P memory order) maxSlots)
      defaultTickBudget).Draining C :=
  ⟨inv_create policy engine memory order maxSlots defaultTickBudget, rfl, fun _ _ h => by cases h⟩

theorem inStraightCode_create {code : List Block} {last : ℕ} (h : StraightCode code last) :
    Interpreter.InStraightCode { code := code } :=
  ⟨⟨last, h, Nat.zero_le last⟩, Nat.two_pow_pos 31⟩

/-- Whatever was created, terminated and executed before, if every program goes straight to its
halting instruction, then as many cycles as the live processes have slices left empty the kernel,
under every policy. Only a kernel that was empty before reports that there was nothing to do. -/
theorem straight_programs_drain (P : ReplacementPolicy) (policy : PolicyKind) (cellCount : ℕ)
    (order : ℕ → ℕ) (maxSlots defaultTickBudget : ℕ) (ops : List Op) (cycles tickBudget : ℕ)
    (hops : ∀ config, .createProcess config ∈ ops → ∃ last, StraightCode config.code last)
    (hcycles : ((machine Interpreter.executionEngine).run
        (wired P policy cellCount order maxSlots defaultTickBudget) ops).workLeft tickBudget ≤
          cycles) :
    let k := (machine Interpreter.executionEngine).run
      (wired P policy cellCount order maxSlots defaultTickBudget) ops
    let drained := k.runForTicks Interpreter.executionEngine cycles tickBudget
    (drained.1 = if 0 < cycles ∧ k.live = ∅ then .error .notFound else .ok ()) ∧
      ∀ pid, pid ∉ drained.2.dispatcher.processes ∧ pid ∉ drained.2.dispatcher.scheduler.processes ∧
        pid ∉ drained.2.dispatcher.virtualMemory.slots ∧ pid ∉ drained.2.processRefs := by
  intro k drained
  have hE := Interpreter.finishes_straight
  have hk : k.Draining Interpreter.InStraightCode := by
    refine run_draining hE (draining_create _ policy {} _ order maxSlots defaultTickBudget) ?_
    intro config hconfig
    obtain ⟨last, hcode⟩ := hops config hconfig
    exact inStraightCode_create hcode
  obtain ⟨hempty, hresult⟩ := runLoop_drains hE hk false hcycles
  refine ⟨hresult.trans (by simp only [true_and]), fun pid => ?_⟩
  have hnone : pid ∉ drained.2.dispatcher.processes := by
    intro hpid
    have hmem : pid ∈ drained.2.live := List.mem_toFinset.mpr (AList.mem_keys.mp hpid)
    rw [show drained.2.live = ∅ from hempty] at hmem
    exact absurd hmem (Finset.notMem_empty pid)
  have hbooks := (hk.runLoop hE tickBudget cycles false).inv.bookkeeping
  exact ⟨hnone, mt (hbooks.scheduler pid).mp hnone, mt (hbooks.slots pid).mp hnone,
    mt (hbooks.processRefs pid).mp hnone⟩

def shortCode : List Block := [{ code := .nop }, { code := .nop }, { code := .halt }]

theorem straightCode_short : StraightCode shortCode 2 where
  plain i hi := by
    rcases i with _ | _ | i
    · exact ⟨_, rfl, trivial⟩
    · exact ⟨_, rfl, trivial⟩
    · omega
  halt := ⟨_, rfl, rfl⟩

def drainingOps : List Op :=
  [.createProcess { code := shortCode }, .tick 1, .createProcess { code := shortCode }]

theorem straight_programs_drain_two :
    let k := (machine Interpreter.executionEngine).run
      (wired fifoReplacement (.roundRobin 4) 8 id 4 1) drainingOps
    let drained := k.runForTicks Interpreter.executionEngine 3 2
    (drained.1 = if 0 < 3 ∧ k.live = ∅ then .error .notFound else .ok ()) ∧
      ∀ pid, pid ∉ drained.2.dispatcher.processes ∧ pid ∉ drained.2.dispatcher.scheduler.processes ∧
        pid ∉ drained.2.dispatcher.virtualMemory.slots ∧ pid ∉ drained.2.processRefs := by
  refine straight_programs_drain fifoReplacement (.roundRobin 4) 8 id 4 1 drainingOps 3 2 ?_ ?_
  · intro config hconfig
    have hcode : config.code = shortCode := by
      simp only [drainingOps, List.mem_cons, Op.createProcess.injEq, reduceCtorEq, List.not_mem_nil,
        or_false, false_or] at hconfig
      rcases hconfig with rfl | rfl <;> rfl
    exact ⟨2, hcode ▸ straightCode_short⟩
  · decide +kernel

end Kernel
end Contur
