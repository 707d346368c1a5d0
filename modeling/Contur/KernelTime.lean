import Mathlib.Algebra.Order.BigOperators.Group.Finset
import Contur.KernelInvariant
import Contur.SchedulerErrors
import Contur.TimeAccounts

/-!
# Where the time of the kernel goes

The clock moves only while a selected process executes, and each step of the kernel
charges, closes or opens accounts at the tick it is made at. So the clock always
agrees with the processor time of all processes, those that are gone included, and
each live process has spent the time since its admission running, waiting or
blocked. The counters of the source have 64 bits: the equations hold for them up to
wrapping, and exactly for as long as the clock has not wrapped.
-/

namespace Contur
open Function (update)
open Placement
open Transition

namespace Scheduler
variable {s : Scheduler} {place : ProcessId → Option Place} {pid : ProcessId} {n lane : ℕ}
  {b : TimeBook}

theorem Placed.charged (h : Placed n s place) (hp : (place pid).isSome) :
    (s.pcbs pid).state.Charged := by
  have hfits := h.fits pid
  cases hplace : place pid with
  | none => simp [hplace] at hp
  | some x =>
    rw [hplace] at hfits
    cases x with
    | ready lane => exact Or.inr (Or.inl hfits.1)
    | running lane => exact Or.inl hfits.1
    | blocked => exact Or.inr (Or.inr hfits.1)

theorem Placed.mem_of_ready (h : Placed n s place) {ready : List ProcessId}
    (hready : s.readyByLane[lane]? = some ready) (hmem : pid ∈ ready) : pid ∈ s.processes := by
  rw [h.registered, h.represents.ready_of_mem hready hmem]
  rfl

theorem Placed.mem_of_running (h : Placed n s place)
    (hrunning : s.runningByLane[lane]? = some (some pid)) : pid ∈ s.processes := by
  rw [h.registered, (h.represents.running_iff pid lane).mpr hrunning]
  rfl

theorem Placed.running_unique (h : Placed 1 s place) (hp : place pid = some (.running 0))
    {q : ProcessId} (hq : q ∈ s.processes) (hstate : (s.pcbs q).state = .running) : q = pid := by
  have hfits := h.fits q
  cases hplace : place q with
  | none => simp [h.registered, hplace] at hq
  | some x =>
    rw [hplace] at hfits
    cases x with
    | ready lane => simp [hfits.1] at hstate
    | blocked => simp [hfits.1] at hstate
    | running lane =>
      obtain rfl : lane = 0 := Nat.lt_one_iff.mp (h.running_lt_lanes hplace)
      have hslot := (h.represents.running_iff q 0).mp hplace
      rw [(h.represents.running_iff pid 0).mp hp] at hslot
      simpa using hslot.symm

theorem startOn_passes (lane : ℕ) (hb : b.Keeps s.pcbs s.processes) (hpid : pid ∈ s.processes) :
    ∃ b', TimeBook.Passes b s.pcbs s.processes b' (s.startOn lane pid (b.total % 2 ^ 64)).2.pcbs
      (s.startOn lane pid (b.total % 2 ^ 64)).2.processes ∧ b'.total = b.total := by
  rcases startOn_cases s lane pid (b.total % 2 ^ 64) with
    ⟨hstate, t, pcb, heq, hset, hpcbs, hproc⟩ |
    ⟨-, heq⟩
  · rw [heq, hpcbs, hproc]
    exact ⟨_, hb.change hpid (Or.inr (Or.inl hstate)) hset, rfl⟩
  · rw [heq]
    exact ⟨b, .refl hb, rfl⟩

theorem preempt_passes (h : Placed n s place) (hb : b.Keeps s.pcbs s.processes)
    (hrunning : s.runningByLane[lane]? = some (some pid)) :
    ∃ b', TimeBook.Passes b s.pcbs s.processes b' (s.preempt lane pid (b.total % 2 ^ 64)).2.pcbs
      s.processes ∧ b'.total = b.total := by
  have hmem := h.mem_of_running hrunning
  rcases preempt_cases s lane pid (b.total % 2 ^ 64) with
    ⟨-, t, pcb, heq, hset, hpcbs, -⟩ | ⟨-, heq⟩
  · rw [heq, hpcbs]
    exact ⟨_, hb.change hmem (h.charged ((h.registered pid).mp hmem)) hset, rfl⟩
  · rw [heq, pcbs_recordRunningBurst]
    exact ⟨b, .refl hb, rfl⟩

theorem selectNextForLane_passes (lane : ℕ) (h : Placed n s place)
    (hb : b.Keeps s.pcbs s.processes) :
    ∃ b', TimeBook.Passes b s.pcbs s.processes b'
      (s.selectNextForLane lane (b.total % 2 ^ 64)).2.pcbs
      (s.selectNextForLane lane (b.total % 2 ^ 64)).2.processes ∧ b'.total = b.total := by
  have hselect := selectNextForLane_eq s lane (b.total % 2 ^ 64)
  cases hchoice : s.choice lane (b.total % 2 ^ 64) with
  | refused =>
    rw [hchoice] at hselect
    obtain ⟨code, heq⟩ := hselect
    rw [heq]
    exact ⟨b, .refl hb, rfl⟩
  | keeps running =>
    rw [hchoice] at hselect
    rw [show s.selectNextForLane lane (b.total % 2 ^ 64) = (.ok running, s) from hselect]
    exact ⟨b, .refl hb, rfl⟩
  | starts candidate =>
    rw [hchoice] at hselect
    obtain ⟨heq, ready, hready, hmem⟩ := hselect
    rw [heq]
    exact startOn_passes lane hb (h.mem_of_ready hready hmem)
  | replaces running candidate =>
    rw [hchoice] at hselect
    obtain ⟨⟨⟨ready, hready, hmem⟩, hrunning⟩, herror, hok⟩ := hselect
    have hcandidate := h.mem_of_ready hready hmem
    obtain ⟨b₁, hfirst, htotal₁⟩ := preempt_passes h hb hrunning
    rcases preempt_cases s lane running (b.total % 2 ^ 64) with
      ⟨-, t, pcb, heq, -, -, hproc, -⟩ | ⟨-, heq⟩
    · rw [hok t heq]
      rw [heq, ← hproc] at hfirst
      rw [← hproc] at hcandidate
      obtain ⟨b₂, hpass, htotal₂⟩ := startOn_passes lane hfirst.keeps hcandidate
      rw [htotal₁] at hpass htotal₂
      rw [← hproc]
      exact ⟨b₂, hfirst.trans hpass, htotal₂⟩
    · rw [herror _ _ heq]
      obtain ⟨predictions, hrec⟩ := recordRunningBurst_eq s running (b.total % 2 ^ 64)
      rw [hrec]
      exact ⟨b, .refl hb, rfl⟩

theorem blockProcess_passes (h : Placed n s place) (hb : b.Keeps s.pcbs s.processes)
    (hp : place pid = some (.running lane)) :
    ∃ b', TimeBook.Passes b s.pcbs s.processes b' (s.blockProcess pid (b.total % 2 ^ 64)).2.pcbs
      (s.blockProcess pid (b.total % 2 ^ 64)).2.processes ∧ b'.total = b.total := by
  have hfits := h.fits_of hp
  have hmem : pid ∈ s.processes := (h.registered pid).mpr (by simp [hp])
  obtain ⟨predictions, hrec⟩ := recordRunningBurst_eq s pid (b.total % 2 ^ 64)
  obtain ⟨pcb, hpcb, -⟩ := Pcb.setState_of_valid hfits.1
    (rfl : isValidTransition _ .blocked = true) (b.total % 2 ^ 64)
  simp only [blockProcess, hmem, not_true_eq_false, ↓reduceIte,
    (findRunningLane_spec h.represents).mpr hp,
    blockOn, hrec, hpcb]
  exact ⟨_, hb.change hmem (Or.inl hfits.1) hpcb, rfl⟩

theorem terminate_passes (h : Placed n s place) (hb : b.Keeps s.pcbs s.processes)
    (hp : place pid = some (.running lane)) :
    ∃ b', TimeBook.Passes b s.pcbs s.processes b' (s.terminate pid (b.total % 2 ^ 64)).2.pcbs
      (s.terminate pid (b.total % 2 ^ 64)).2.processes ∧ b'.total = b.total := by
  have hfits := h.fits_of hp
  have hmem : pid ∈ s.processes := (h.registered pid).mpr (by simp [hp])
  obtain ⟨predictions, hrec⟩ := recordRunningBurst_eq s pid (b.total % 2 ^ 64)
  obtain ⟨pcb, hpcb, hstate⟩ := Pcb.setState_of_valid hfits.1
    (rfl : isValidTransition _ .terminated = true) (b.total % 2 ^ 64)
  simp only [terminate, hmem, not_true_eq_false, ↓reduceIte,
    (findRunningLane_spec h.represents).mpr hp, hrec,
    hpcb]
  have hchange := hb.change hmem (Or.inl hfits.1) hpcb
  have hleave := hchange.keeps.erase hmem (by simp [hstate])
  exact ⟨_, hchange.trans hleave, rfl⟩

end Scheduler

namespace Dispatcher
variable {P : ReplacementPolicy} {σ : Type} {E : ExecutionEngine σ} {d : Dispatcher P σ}
  {place : ProcessId → Option Place} {pid : ProcessId} {b : TimeBook}

def dispatchTicks (E : ExecutionEngine σ) (d : Dispatcher P σ) (tickBudget : ℕ) : ℕ :=
  if d.processes.entries.isEmpty then 0
  else match d.scheduler.selectNext d.clock with
    | (.error _, _) => 0
    | (.ok pid, scheduler) =>
      match d.processes.lookup pid with
      | none => 0
      | some process =>
        (execute E { d with scheduler := scheduler } pid process tickBudget).1.ticksConsumed

structure Clocked (d : Dispatcher P σ) (b : TimeBook) : Prop where
  keeps : b.Keeps d.scheduler.pcbs d.scheduler.processes
  clock : d.clock = b.total % 2 ^ 64

theorem Clocked.total_le (h : d.Clocked b) (hsmall : b.total < 2 ^ 64) : b.total ≤ d.clock := by
  rw [h.clock, Nat.mod_eq_of_lt hsmall]

theorem Clocked.last_le (h : d.Clocked b) (hsmall : b.total < 2 ^ 64)
    (hpid : pid ∈ d.scheduler.processes) :
    (d.scheduler.pcbs pid).timing.lastStateChange ≤ d.clock :=
  (h.keeps.last_le hpid).trans (h.total_le hsmall)

structure Passes (d : Dispatcher P σ) (b : TimeBook) (d' : Dispatcher P σ) (b' : TimeBook) :
    Prop where
  book : b.Passes d.scheduler.pcbs d.scheduler.processes b' d'.scheduler.pcbs
    d'.scheduler.processes
  clock : d'.clock = b'.total % 2 ^ 64

theorem Passes.clocked {d' : Dispatcher P σ} {b' : TimeBook} (h : d.Passes b d' b') :
    d'.Clocked b' := ⟨h.book.keeps, h.clock⟩

theorem Passes.refl (h : d.Clocked b) : d.Passes b d b := ⟨.refl h.keeps, h.clock⟩

theorem Passes.trans {d' d'' : Dispatcher P σ} {b' b'' : TimeBook} (h : d.Passes b d' b')
    (h' : d'.Passes b' d'' b'') : d.Passes b d'' b'' := ⟨h.book.trans h'.book, h'.clock⟩

theorem selectNext_passes (h : d.Live place) (hb : d.Clocked b) {result : Result ProcessId}
    {scheduler : Scheduler} (hselect : d.scheduler.selectNext d.clock = (result, scheduler)) :
    ∃ b', d.Passes b { d with scheduler := scheduler } b' ∧ b'.total = b.total := by
  obtain ⟨b', hpass, htotal⟩ := Scheduler.selectNextForLane_passes 0 h.placed hb.keeps
  have hsame : d.scheduler.selectNextForLane 0 (b.total % 2 ^ 64) = (result, scheduler) := by
    rw [← hb.clock]
    exact hselect
  rw [hsame] at hpass
  refine ⟨b', ⟨hpass, ?_⟩, htotal⟩
  rw [htotal]
  exact hb.clock

theorem execute_passes (h : d.Live place) (hb : d.Clocked b) (hp : place pid = some (.running 0))
    (process : ProcessImage) (tickBudget : ℕ) :
    d.Passes b (d.execute E pid process tickBudget).2
      (b.advance (d.execute E pid process tickBudget).1.ticksConsumed) := by
  have hmem : pid ∈ d.scheduler.processes := (h.placed.registered pid).mpr (by simp [hp])
  refine ⟨hb.keeps.advance hmem (h.placed.fits_of hp).1
    (fun q hq hstate => h.placed.running_unique hp hq hstate) _, ?_⟩
  simp only [execute, hb.clock, TimeBook.advance_total]
  exact tickAdd_mod_left ..

theorem stop_passes (h : d.Live place) (hb : d.Clocked b) (hp : place pid = some (.running 0))
    (reason : StopReason) :
    ∃ b', d.Passes b (d.stop pid reason).2 b' ∧ b'.total = b.total := by
  cases reason with
  | budgetExhausted => exact ⟨b, .refl hb, rfl⟩
  | interrupted =>
    obtain ⟨b', hpass, htotal⟩ := Scheduler.blockProcess_passes h.placed hb.keeps hp
    rw [← hb.clock] at hpass
    refine ⟨b', ⟨hpass, ?_⟩, htotal⟩
    rw [htotal]
    exact hb.clock
  | processExited | error | halted =>
    obtain ⟨hok, -⟩ := Scheduler.terminate_spec d.clock h.placed hp
    obtain ⟨b', hpass, htotal⟩ := Scheduler.terminate_passes h.placed hb.keeps hp
    rw [← hb.clock] at hpass
    cases hterm : d.scheduler.terminate pid d.clock with
    | mk result scheduler =>
      rw [hterm] at hok hpass
      subst hok
      simp only [stop, hterm]
      refine ⟨b', ⟨hpass, ?_⟩, htotal⟩
      rw [htotal]
      exact hb.clock

theorem dispatch_passes (h : d.Live place) (hb : d.Clocked b) (tickBudget : ℕ) :
    ∃ b', d.Passes b (d.dispatch E tickBudget).2 b' ∧
      b'.total = b.total + d.dispatchTicks E tickBudget := by
  unfold dispatch dispatchTicks
  split_ifs
  · exact ⟨b, .refl hb, rfl⟩
  cases hselect : d.scheduler.selectNext d.clock with
  | mk result scheduler =>
    obtain ⟨b₁, hpass₁, htotal₁⟩ := selectNext_passes h hb hselect
    obtain ⟨place₁, hlive, -, hrun, -⟩ := selectNext_live h hselect
    cases result with
    | error code => exact ⟨b₁, hpass₁, htotal₁⟩
    | ok pid =>
      have hp := hrun pid rfl
      dsimp only
      cases d.processes.lookup pid with
      | none => exact ⟨b₁, hpass₁, htotal₁⟩
      | some process =>
        have hexec := execute_passes (E := E) hlive hpass₁.clocked hp process tickBudget
        obtain ⟨b₂, hstop, htotal₂⟩ := stop_passes (execute_live hlive pid process tickBudget)
          hexec.clocked hp
          (execute E { d with scheduler := scheduler } pid process tickBudget).1.reason
        refine ⟨b₂, hpass₁.trans (hexec.trans hstop), ?_⟩
        rw [htotal₂, TimeBook.advance_total, htotal₁]

theorem terminateProcess_passes (h : d.Live place) (hb : d.Clocked b) (pid : ProcessId) :
    ∃ b', d.Passes b (d.terminateProcess E pid d.clock).2 b' ∧ b'.total = b.total := by
  by_cases hhas : pid ∈ d.processes
  · have hp := (h.processes pid).mp hhas
    have hmem : pid ∈ d.scheduler.processes := (h.placed.registered pid).mpr hp
    have hdequeue : ∃ scheduler, d.scheduler.dequeue pid = (.ok (), scheduler) ∧
        scheduler.pcbs = d.scheduler.pcbs ∧
        scheduler.processes = d.scheduler.processes.erase pid := by
      unfold Scheduler.dequeue
      rw [if_neg (not_not.mpr hmem)]
      exact ⟨_, rfl, rfl, rfl⟩
    obtain ⟨scheduler, heq, hpcbs, hproc⟩ := hdequeue
    simp only [terminateProcess, hasProcess, hhas, decide_true, not_true_eq_false, ↓reduceIte, heq,
      hpcbs]
    -- only a running process is charged before it leaves
    have hpass : ∃ b', b.Passes d.scheduler.pcbs d.scheduler.processes b'
        (update d.scheduler.pcbs pid (((d.scheduler.pcbs pid).setState .terminated d.clock).getD
          (d.scheduler.pcbs pid))) (d.scheduler.processes.erase pid) ∧ b'.total = b.total := by
      rw [hb.clock]
      cases hset : (d.scheduler.pcbs pid).setState .terminated (b.total % 2 ^ 64) with
      | some pcb =>
        have hchange := hb.keeps.change hmem (h.placed.charged hp) hset
        have hstate : pcb.state = .terminated := (Pcb.setState_eq_some hset).2.1
        exact ⟨_, hchange.trans (hchange.keeps.erase hmem (by simp [hstate])), rfl⟩
      | none =>
        rw [Option.getD_none, Function.update_eq_self]
        have hstate : (d.scheduler.pcbs pid).state ≠ .running := by
          simpa using Pcb.setState_eq_none.mp hset
        exact ⟨_, hb.keeps.erase hmem hstate, rfl⟩
    obtain ⟨b', hpass, htotal⟩ := hpass
    refine ⟨b', ⟨?_, ?_⟩, htotal⟩
    · simpa [freeSlot, hproc] using hpass
    · rw [htotal]
      exact hb.clock
  · have heq : d.terminateProcess E pid d.clock = (.error .notFound, d) := by
      simp [terminateProcess, hasProcess, hhas]
    rw [heq]
    exact ⟨b, .refl hb, rfl⟩

/-- The arrival time of the configuration does not count: the account is opened at the tick of the
call. -/
theorem enqueue_clocked (h : d.Live place) (hb : d.Clocked b) (hp : place pid = none)
    (hvalid : pid ≠ invalidPid) (priority : Priority) (arrival : Tick) :
    (d.enqueue pid (Pcb.create priority arrival) d.clock).1 = .ok () ∧
      (d.enqueue pid (Pcb.create priority arrival) d.clock).2.scheduler.processes =
        insert pid d.scheduler.processes ∧
      (d.enqueue pid (Pcb.create priority arrival) d.clock).2.Clocked (b.openAccount pid) := by
  obtain ⟨pcb, hset, heq⟩ := Scheduler.enqueueToLane_eq d.clock
    (h.placed.setPcb hp (Pcb.create priority arrival)) hp (by simp [Pcb.create])
      hvalid Nat.zero_lt_one
  simp only [Function.update_self, Function.update_idem] at hset heq
  have hmem : pid ∉ d.scheduler.processes := by
    rw [h.placed.registered, hp]
    simp
  have hrecords : Account.Records
      (Scheduler.estimate (d.scheduler.predictions pid) pcb).timing (.opened b.total) := by
    obtain ⟨-, -, hcpu, hwait, hblocked, hlast⟩ := Pcb.setState_eq_some hset
    rw [hb.clock] at hlast
    cases d.scheduler.predictions pid with
    | none => exact ⟨hcpu, hwait, hblocked, hlast⟩
    | some burst => exact ⟨hcpu, hwait, hblocked, hlast⟩
  simp only [enqueue, Scheduler.enqueue, heq, true_and]
  exact ⟨hb.keeps.openAccount hmem hrecords, hb.clock⟩

theorem createProcess_clocked (h : d.Live place) (hb : d.Clocked b) (pid : ProcessId)
    (process : ProcessImage) (priority : Priority) (arrival : Tick) :
    let d' := (d.createProcess pid process (Pcb.create priority arrival) d.clock).2
    (d'.scheduler = d.scheduler ∧ d'.clock = d.clock) ∨
      (pid ∉ d.scheduler.processes ∧
        d'.scheduler.processes = insert pid d.scheduler.processes ∧
          d'.Clocked (b.openAccount pid)) := by
  unfold createProcess
  split_ifs with hinvalid hhas
  · exact Or.inl ⟨rfl, rfl⟩
  · exact Or.inl ⟨rfl, rfl⟩
  have hp := h.fresh (by simpa using hhas)
  have hmem : pid ∉ d.scheduler.processes := by
    rw [h.placed.registered, hp]
    simp
  cases d.virtualMemory.allocateSlot pid (max 1 process.code.length) with
  | mk result vm =>
    cases result with
    | error code => exact Or.inl ⟨rfl, rfl⟩
    | ok address =>
      dsimp only
      cases vm.loadSegment pid process.code with
      | mk result vm₁ =>
        cases result with
        | error code => exact Or.inl ⟨rfl, rfl⟩
        | ok _ =>
          obtain ⟨hok, hproc, hclocked⟩ := enqueue_clocked h hb hp hinvalid priority arrival
          have hvm : enqueue { d with virtualMemory := vm₁ } pid (Pcb.create priority arrival)
              d.clock = ((d.enqueue pid (Pcb.create priority arrival) d.clock).1,
                { (d.enqueue pid (Pcb.create priority arrival) d.clock).2 with
                  virtualMemory := vm₁ }) := rfl
          dsimp only
          rw [hvm, hok]
          exact Or.inr ⟨hmem, hproc, hclocked.keeps, hclocked.clock⟩

end Dispatcher

namespace Kernel
variable {P : ReplacementPolicy} {σ : Type} {E : ExecutionEngine σ} {k k' : Kernel P σ}
  {b b' : TimeBook}

def live (k : Kernel P σ) : Finset ProcessId := k.dispatcher.processes.keys.toFinset

def timing (k : Kernel P σ) (pid : ProcessId) : ProcessTiming :=
  (k.dispatcher.scheduler.pcbs pid).timing

def loopTicks (E : ExecutionEngine σ) (k : Kernel P σ) (tickBudget : ℕ) : ℕ → ℕ
  | 0 => 0
  | cycles + 1 => k.dispatcher.dispatchTicks E (k.budget tickBudget) +
      match k.tick E tickBudget with
      | (.ok _, k) => loopTicks E k tickBudget cycles
      | (.error _, _) => 0

def ticks (E : ExecutionEngine σ) (k : Kernel P σ) : Op → ℕ
  | .tick tickBudget => k.dispatcher.dispatchTicks E (k.budget tickBudget)
  | .runForTicks cycles tickBudget => k.loopTicks E tickBudget cycles
  | .createProcess _ | .terminateProcess _ => 0

def elapsed (E : ExecutionEngine σ) : Kernel P σ → List Op → ℕ
  | _, [] => 0
  | k, op :: ops => k.ticks E op + elapsed E ((machine E).next k op) ops

def removed (k k' : Kernel P σ) : ℕ := ∑ pid ∈ k.live \ k'.live, (k'.timing pid).totalCpuTime

/-- The processor time of all processes that a run has removed. -/
def retired (E : ExecutionEngine σ) : Kernel P σ → List Op → ℕ
  | _, [] => 0
  | k, op :: ops =>
    k.removed ((machine E).next k op) + retired E ((machine E).next k op) ops

/-- When a process that has come with a call was admitted. -/
def admittedBy (k k' : Kernel P σ) (admitted : ProcessId → Tick) (pid : ProcessId) : Tick :=
  if pid ∈ k'.live \ k.live then k'.dispatcher.clock else admitted pid

def admissions (E : ExecutionEngine σ) (k : Kernel P σ) (admitted : ProcessId → Tick) :
    List Op → ProcessId → Tick
  | [] => admitted
  | op :: ops =>
      admissions E ((machine E).next k op) (k.admittedBy ((machine E).next k op) admitted) ops

theorem Inv.live_eq (h : k.Inv) : k.live = k.dispatcher.scheduler.processes := by
  ext pid
  rw [live, List.mem_toFinset, h.bookkeeping.scheduler]
  exact AList.mem_keys.symm

theorem tick_passes (h : k.Inv) (hb : k.dispatcher.Clocked b) (tickBudget : ℕ) :
    ∃ b', k.dispatcher.Passes b (k.tick E tickBudget).2.dispatcher b' ∧
      b'.total = b.total + k.dispatcher.dispatchTicks E (k.budget tickBudget) := by
  obtain ⟨place, h⟩ := h
  exact Dispatcher.dispatch_passes h.live hb (k.budget tickBudget)

theorem runLoop_passes (h : k.Inv) (hb : k.dispatcher.Clocked b) (tickBudget : ℕ)
    (anyWorkDone : Bool) (cycles : ℕ) :
    ∃ b', k.dispatcher.Passes b (k.runLoop E tickBudget anyWorkDone cycles).2.dispatcher b' ∧
      b'.total = b.total + k.loopTicks E tickBudget cycles := by
  induction cycles generalizing k b anyWorkDone with
  | zero => exact ⟨b, .refl hb, rfl⟩
  | succ cycles ih =>
    obtain ⟨b₁, hpass, htotal⟩ := tick_passes (E := E) h hb tickBudget
    have hinv := tick_inv (E := E) h tickBudget
    simp only [runLoop, loopTicks]
    cases htick : k.tick E tickBudget with
    | mk result k₁ =>
      rw [htick] at hpass hinv
      cases result with
      | ok u =>
        obtain ⟨b₂, hpass₂, htotal₂⟩ := ih hinv hpass.clocked true
        refine ⟨b₂, hpass.trans hpass₂, ?_⟩
        rw [htotal₂, htotal, Nat.add_assoc]
      | error code => cases code <;> exact ⟨b₁, hpass, htotal⟩

structure Timed (k : Kernel P σ) (b : TimeBook) (retired : ℕ) (admitted : ProcessId → Tick) :
    Prop where
  clocked : k.dispatcher.Clocked b
  retired_mod : retired % 2 ^ 64 = b.retired % 2 ^ 64
  retired_le : retired ≤ b.retired
  admitted_mod : ∀ pid ∈ k.dispatcher.scheduler.processes,
    admitted pid = (b.accounts pid).admitted % 2 ^ 64

variable {retiredTime : ℕ} {admitted : ProcessId → Tick}

theorem Timed.passes (h : k.Timed b retiredTime admitted) (hinv : k.Inv) (hinv' : k'.Inv)
    (hpass : k.dispatcher.Passes b k'.dispatcher b') :
    k'.Timed b' (retiredTime + k.removed k') (k.admittedBy k' admitted) := by
  have hremoved : k.removed k' = ∑ pid ∈ k.live \ k'.live, (b'.accounts pid).cpu % 2 ^ 64 := by
    apply Finset.sum_congr rfl
    rw [hinv.live_eq, hinv'.live_eq]
    exact hpass.book.closed
  have hretired := hpass.book.retired_eq
  rw [← hinv.live_eq, ← hinv'.live_eq] at hretired
  refine ⟨hpass.clocked, ?_, ?_, ?_⟩
  · rw [hretired, hremoved, Nat.add_mod, h.retired_mod, ← Finset.sum_nat_mod, ← Nat.add_mod]
  · rw [hretired, hremoved]
    exact Nat.add_le_add h.retired_le (Finset.sum_le_sum fun pid _ => Nat.mod_le _ _)
  · intro pid hpid
    have hold := hpass.book.subset hpid
    have hsame : k.admittedBy k' admitted pid = admitted pid := by
      apply if_neg
      rw [hinv.live_eq, Finset.mem_sdiff, not_and_not_right]
      exact fun _ => hold
    rw [hsame, h.admitted_mod pid hold, hpass.book.admitted_eq]

theorem Timed.same (h : k.Timed b retiredTime admitted) (hinv : k.Inv) (hinv' : k'.Inv)
    (hscheduler : k'.dispatcher.scheduler = k.dispatcher.scheduler)
    (hclock : k'.dispatcher.clock = k.dispatcher.clock) :
    k'.Timed b (retiredTime + k.removed k') (k.admittedBy k' admitted) := by
  apply h.passes hinv hinv'
  refine ⟨?_, hclock.trans h.clocked.clock⟩
  rw [hscheduler]
  exact .refl h.clocked.keeps

theorem Timed.admits (h : k.Timed b retiredTime admitted) (hinv : k.Inv) (hinv' : k'.Inv)
    {pid : ProcessId} (hpid : pid ∉ k.dispatcher.scheduler.processes)
    (hproc : k'.dispatcher.scheduler.processes = insert pid k.dispatcher.scheduler.processes)
    (hclocked : k'.dispatcher.Clocked (b.openAccount pid)) :
    k'.Timed (b.openAccount pid) (retiredTime + k.removed k') (k.admittedBy k' admitted) := by
  have hnone : k.removed k' = 0 := by
    have hempty : k.live \ k'.live = ∅ := by
      rw [hinv.live_eq, hinv'.live_eq, hproc]
      exact Finset.sdiff_eq_empty_iff_subset.mpr (Finset.subset_insert _ _)
    rw [removed, hempty, Finset.sum_empty]
  rw [hnone]
  refine ⟨hclocked, h.retired_mod, h.retired_le, ?_⟩
  intro q hq
  rw [hproc] at hq
  by_cases hqp : q = pid
  · subst q
    have hnew : pid ∈ k'.live \ k.live := by
      rw [hinv.live_eq, hinv'.live_eq, hproc]
      exact Finset.mem_sdiff.mpr ⟨Finset.mem_insert_self _ _, hpid⟩
    rw [admittedBy, if_pos hnew, hclocked.clock]
    simp [Account.opened]
  · have hold := Finset.mem_of_mem_insert_of_ne hq hqp
    have hnot : q ∉ k'.live \ k.live := by
      rw [hinv.live_eq]
      exact fun hin => (Finset.mem_sdiff.mp hin).2 hold
    rw [admittedBy, if_neg hnot, h.admitted_mod q hold]
    simp [hqp]

theorem createWithPid_timed (h : k.Timed b retiredTime admitted) (hinv : k.Inv) (pid : ProcessId)
    (config : ProcessConfig) :
    ∃ b', (k.createWithPid pid config).2.Timed b' (retiredTime +
      k.removed (k.createWithPid pid config).2)
        (k.admittedBy (k.createWithPid pid config).2 admitted) ∧
      b'.total = b.total := by
  have hinv' : (k.createWithPid pid config).2.Inv := createWithPid_inv hinv config
  have hdispatcher : (k.createWithPid pid config).2.dispatcher =
      (k.dispatcher.createProcess pid { code := config.code } (Pcb.create config.priority
        (if config.arrivalTime = 0 then k.dispatcher.clock else config.arrivalTime))
        k.dispatcher.clock).2 := by
    simp only [createWithPid]
    split <;> next heq => rw [heq]
  obtain ⟨place, htracked⟩ := hinv
  rcases Dispatcher.createProcess_clocked htracked.live h.clocked pid { code := config.code }
    config.priority (if config.arrivalTime = 0 then k.dispatcher.clock else config.arrivalTime) with
    ⟨hscheduler, hclock⟩ | ⟨hpid, hproc, hclocked⟩
  · rw [← hdispatcher] at hscheduler hclock
    exact ⟨b, h.same ⟨place, htracked⟩ hinv' hscheduler hclock, rfl⟩
  · rw [← hdispatcher] at hproc hclocked
    exact ⟨_, h.admits ⟨place, htracked⟩ hinv' hpid hproc hclocked, rfl⟩

theorem createProcess_timed (h : k.Timed b retiredTime admitted) (hinv : k.Inv)
    (config : ProcessConfig) :
    ∃ b', (k.createProcess config).2.Timed b' (retiredTime + k.removed (k.createProcess config).2)
      (k.admittedBy (k.createProcess config).2 admitted) ∧ b'.total = b.total := by
  have hsame : ∀ k' : Kernel P σ, k'.dispatcher = k.dispatcher → k'.Inv →
      k'.Timed b (retiredTime + k.removed k') (k.admittedBy k' admitted) := by
    intro k' hdispatcher hinv'
    exact h.same hinv hinv' (by rw [hdispatcher]) (by rw [hdispatcher])
  unfold createProcess
  split_ifs
  · exact ⟨b, hsame k rfl hinv, rfl⟩
  · have hnext : k.allocatePid.2.Inv := by
      obtain ⟨place, htracked⟩ := hinv
      exact ⟨place, htracked.live, htracked.refs⟩
    have htimed : k.allocatePid.2.Timed b retiredTime admitted :=
      ⟨h.clocked, h.retired_mod, h.retired_le, h.admitted_mod⟩
    dsimp only
    split_ifs
    · exact ⟨b, hsame k.allocatePid.2 rfl hnext, rfl⟩
    · exact createWithPid_timed htimed hnext k.allocatePid.1 config
  · exact ⟨b, hsame k rfl hinv, rfl⟩
  · exact createWithPid_timed h hinv config.id config

theorem exec_timed (h : k.Timed b retiredTime admitted) (hinv : k.Inv) (op : Op) :
    ∃ b', ((machine E).next k op).Timed b' (retiredTime + k.removed ((machine E).next k op))
      (k.admittedBy ((machine E).next k op) admitted) ∧ b'.total = b.total + k.ticks E op := by
  have hinv' := exec_inv (E := E) hinv op
  cases op with
  | createProcess config => exact createProcess_timed h hinv config
  | terminateProcess pid =>
    have hdispatcher : (k.terminateProcess E pid).2.dispatcher =
        (k.dispatcher.terminateProcess E pid k.dispatcher.clock).2 := by
      simp only [terminateProcess]
      split <;> next heq => rw [heq]
    obtain ⟨place, htracked⟩ := hinv
    obtain ⟨b', hpass, htotal⟩ :=
      Dispatcher.terminateProcess_passes (E := E) htracked.live h.clocked pid
    rw [← hdispatcher] at hpass
    exact ⟨b', h.passes ⟨place, htracked⟩ hinv' hpass, htotal⟩
  | tick tickBudget =>
    obtain ⟨b', hpass, htotal⟩ := tick_passes (E := E) hinv h.clocked tickBudget
    exact ⟨b', h.passes hinv hinv' hpass, htotal⟩
  | runForTicks cycles tickBudget =>
    obtain ⟨b', hpass, htotal⟩ := runLoop_passes (E := E) hinv h.clocked tickBudget false cycles
    exact ⟨b', h.passes hinv hinv' hpass, htotal⟩

theorem run_timed (h : k.Timed b retiredTime admitted) (hinv : k.Inv) (ops : List Op) :
    ∃ b', ((machine E).run k ops).Timed b' (retiredTime + retired E k ops)
      (admissions E k admitted ops) ∧ b'.total = b.total + elapsed E k ops := by
  induction ops generalizing k b retiredTime admitted with
  | nil => exact ⟨b, h, rfl⟩
  | cons op ops ih =>
    obtain ⟨b₁, htimed, htotal⟩ := exec_timed (E := E) h hinv op
    obtain ⟨b₂, htimed₂, htotal₂⟩ := ih htimed (exec_inv hinv op)
    rw [Nat.add_assoc] at htimed₂
    refine ⟨b₂, htimed₂, ?_⟩
    rw [htotal₂, htotal, Nat.add_assoc]
    rfl

theorem timed_create (policy : PolicyKind) (engine : σ) (virtualMemory : VirtualMemory P)
    (defaultTickBudget : ℕ) :
    (create policy engine virtualMemory defaultTickBudget).Timed
      ⟨0, fun _ => .opened 0, 0⟩ 0 (fun _ => 0) := by
  refine ⟨⟨⟨?_, ?_, ?_, ?_⟩, rfl⟩, rfl, le_rfl, ?_⟩
  all_goals simp [create, Scheduler.create]

/-- The blocks that a call made in this kernel asks for a change of state, each with its block
at that moment and the tick. The block of a new process is left out: its time is not charged. -/
inductive SetsState (E : ExecutionEngine σ) : Kernel P σ → Op → Pcb → Tick → Prop
  | start {k tickBudget candidate} :
      k.dispatcher.scheduler.choice 0 k.dispatcher.clock = .starts candidate →
      SetsState E k (.tick tickBudget) (k.dispatcher.scheduler.pcbs candidate) k.dispatcher.clock
  | preempt {k tickBudget running candidate} :
      k.dispatcher.scheduler.choice 0 k.dispatcher.clock = .replaces running candidate →
      SetsState E k (.tick tickBudget) (k.dispatcher.scheduler.pcbs running) k.dispatcher.clock
  | replace {k tickBudget running candidate} :
      k.dispatcher.scheduler.choice 0 k.dispatcher.clock = .replaces running candidate →
      SetsState E k (.tick tickBudget)
        ((k.dispatcher.scheduler.preempt 0 running k.dispatcher.clock).2.pcbs candidate)
        k.dispatcher.clock
  | stop {k tickBudget pid process scheduler} :
      k.dispatcher.scheduler.selectNext k.dispatcher.clock = (.ok pid, scheduler) →
      k.dispatcher.processes.lookup pid = some process →
      SetsState E k (.tick tickBudget) (scheduler.pcbs pid)
        ({ k.dispatcher with scheduler := scheduler : Dispatcher P σ }.execute E pid process
          (k.budget tickBudget)).2.clock
  | terminate {k pid} : pid ∈ k.dispatcher.processes →
      SetsState E k (.terminateProcess pid) (k.dispatcher.scheduler.pcbs pid) k.dispatcher.clock
  | first {k tickBudget cycles pcb now} : SetsState E k (.tick tickBudget) pcb now →
      SetsState E k (.runForTicks (cycles + 1) tickBudget) pcb now
  | later {k tickBudget cycles pcb now} : (k.tick E tickBudget).1 = .ok () →
      SetsState E (k.tick E tickBudget).2 (.runForTicks cycles tickBudget) pcb now →
      SetsState E k (.runForTicks (cycles + 1) tickBudget) pcb now

theorem SetsState.last_le (hinv : k.Inv) (hb : k.dispatcher.Clocked b) {op : Op} {pcb : Pcb}
    {now : Tick} (hset : SetsState E k op pcb now) (hsmall : b.total + k.ticks E op < 2 ^ 64) :
    pcb.timing.lastStateChange ≤ now := by
  induction hset generalizing b with
  | @start k tickBudget candidate hchoice =>
    obtain ⟨place, htracked⟩ := hinv
    have hselect := Scheduler.selectNextForLane_eq k.dispatcher.scheduler 0 k.dispatcher.clock
    rw [hchoice] at hselect
    obtain ⟨-, ready, hready, hmem⟩ := hselect
    exact hb.last_le (by omega) (htracked.live.placed.mem_of_ready hready hmem)
  | @preempt k tickBudget running candidate hchoice =>
    obtain ⟨place, htracked⟩ := hinv
    have hselect := Scheduler.selectNextForLane_eq k.dispatcher.scheduler 0 k.dispatcher.clock
    rw [hchoice] at hselect
    obtain ⟨⟨-, hrunning⟩, -⟩ := hselect
    exact hb.last_le (by omega) (htracked.live.placed.mem_of_running hrunning)
  | @replace k tickBudget running candidate hchoice =>
    obtain ⟨place, htracked⟩ := hinv
    have hselect := Scheduler.selectNextForLane_eq k.dispatcher.scheduler 0 k.dispatcher.clock
    rw [hchoice] at hselect
    obtain ⟨⟨⟨ready, hready, hmem⟩, hrunning⟩, -⟩ := hselect
    obtain ⟨b', hpass, htotal⟩ := Scheduler.preempt_passes htracked.live.placed hb.keeps hrunning
    rw [← hb.clock] at hpass
    have hcandidate := htracked.live.placed.mem_of_ready hready hmem
    have hlast := hpass.keeps.last_le hcandidate
    rw [htotal] at hlast
    exact hlast.trans (hb.total_le (by omega))
  | @stop k tickBudget pid process scheduler hselect hlookup =>
    obtain ⟨place, htracked⟩ := hinv
    obtain ⟨b', hpass, htotal⟩ := Dispatcher.selectNext_passes htracked.live hb hselect
    obtain ⟨place', hlive, -, hrun, -⟩ := Dispatcher.selectNext_live htracked.live hselect
    have hp := hrun pid rfl
    have hexec := Dispatcher.execute_passes (E := E) hlive hpass.clocked hp process
      (k.budget tickBudget)
    have hticks : k.ticks E (.tick tickBudget) = (Dispatcher.execute E
        { k.dispatcher with scheduler := scheduler } pid process
        (k.budget tickBudget)).1.ticksConsumed := by
      have hne : k.dispatcher.processes.entries.isEmpty = false := by
        rw [List.isEmpty_eq_false_iff]
        intro hnil
        simp [AList.lookup, hnil] at hlookup
      simp only [ticks, Dispatcher.dispatchTicks, hne, Bool.false_eq_true, ↓reduceIte, hselect,
        hlookup]
    rw [hticks, ← htotal] at hsmall
    have hmem : pid ∈ scheduler.processes := (hlive.placed.registered pid).mpr (by simp [hp])
    exact (hpass.book.keeps.last_le hmem).trans ((Nat.le_add_right _ _).trans
      (hexec.clocked.total_le hsmall))
  | @terminate k pid hpid =>
    have hmem : pid ∈ k.dispatcher.scheduler.processes := (hinv.bookkeeping.scheduler pid).mpr hpid
    exact hb.last_le (by omega) hmem
  | @first k tickBudget cycles pcb now hset ih =>
    apply ih hinv hb
    simp only [ticks, loopTicks] at hsmall ⊢
    omega
  | @later k tickBudget cycles pcb now hok hset ih =>
    obtain ⟨b', hpass, htotal⟩ := tick_passes (E := E) hinv hb tickBudget
    apply ih (tick_inv hinv tickBudget) hpass.clocked
    simp only [ticks, loopTicks] at hsmall ⊢
    cases htick : k.tick E tickBudget with
    | mk result k₁ =>
      rw [htick] at hok hsmall
      subst hok
      dsimp only at hsmall ⊢
      omega

def running (k : Kernel P σ) : Option ProcessId :=
  (k.dispatcher.scheduler.runningByLane[0]?).join

theorem sum_spent (hinv : k.Inv) (b : TimeBook) :
    ∑ pid ∈ k.live, (b.accounts pid).spent (k.dispatcher.scheduler.pcbs pid).state b.total =
      ∑ pid ∈ k.live, (b.accounts pid).cpu +
        k.running.elim 0 fun pid => b.total - (b.accounts pid).last := by
  obtain ⟨place, htracked⟩ := id hinv
  have hplaced := htracked.live.placed
  simp only [Account.spent, Finset.sum_add_distrib, Nat.add_left_cancel_iff]
  rw [hinv.live_eq]
  cases hrunning : k.running with
  | none =>
    apply Finset.sum_eq_zero
    intro pid hpid
    apply if_neg
    intro hstate
    -- a process in the state `running` stands in the one slot
    obtain ⟨x, hx⟩ := Option.isSome_iff_exists.mp ((hplaced.registered pid).mp hpid)
    have hfits := hplaced.fits_of hx
    cases x with
    | ready lane => simp [hfits.1] at hstate
    | blocked => simp [hfits.1] at hstate
    | running lane =>
      obtain rfl : lane = 0 := Nat.lt_one_iff.mp (hplaced.running_lt_lanes hx)
      have hslot : k.dispatcher.scheduler.runningByLane[0]? = some (some pid) :=
        (hplaced.represents.running_iff pid 0).mp hx
      simp [running, hslot] at hrunning
  | some pid =>
    have hslot : k.dispatcher.scheduler.runningByLane[0]? = some (some pid) :=
      Option.join_eq_some_iff.mp hrunning
    have hplace : place pid = some (.running 0) := (hplaced.represents.running_iff pid 0).mpr hslot
    rw [Finset.sum_eq_single pid]
    · exact if_pos (hplaced.fits_of hplace).1
    · intro q hq hne
      apply if_neg
      intro hstate
      exact hne (hplaced.running_unique hplace hq hstate)
    · intro hpid
      exact absurd (hplaced.mem_of_running hslot) hpid

theorem mem_live_of_running (hinv : k.Inv) {pid : ProcessId} (h : k.running = some pid) :
    pid ∈ k.dispatcher.scheduler.processes := by
  obtain ⟨place, htracked⟩ := hinv
  exact htracked.live.placed.mem_of_running (Option.join_eq_some_iff.mp h)

theorem Timed.clock_mod (h : k.Timed b retiredTime admitted) (hinv : k.Inv) :
    k.dispatcher.clock = (retiredTime + ∑ pid ∈ k.live, (k.timing pid).totalCpuTime +
      k.running.elim 0 fun pid =>
        tickSub k.dispatcher.clock (k.timing pid).lastStateChange) % 2 ^ 64 := by
  have hkeeps := h.clocked.keeps
  have hlive := hinv.live_eq
  have hsum : (∑ pid ∈ k.live, (k.timing pid).totalCpuTime) % 2 ^ 64 =
      (∑ pid ∈ k.live, (b.accounts pid).cpu) % 2 ^ 64 := by
    rw [Finset.sum_nat_mod _ _ fun pid => (b.accounts pid).cpu]
    refine congrArg (· % 2 ^ 64) (Finset.sum_congr rfl fun pid hpid => ?_)
    exact (hkeeps.records pid (hlive ▸ hpid)).cpu
  have hrun : (k.running.elim 0 fun pid =>
      tickSub k.dispatcher.clock (k.timing pid).lastStateChange) =
      (k.running.elim 0 fun pid => b.total - (b.accounts pid).last) % 2 ^ 64 := by
    cases hrunning : k.running with
    | none => rfl
    | some pid =>
      have hpid := mem_live_of_running hinv hrunning
      simp only [Option.elim_some, h.clocked.clock, timing, (hkeeps.records pid hpid).last]
      exact tickSub_mod (hkeeps.past pid hpid)
  have htotal := hkeeps.total
  rw [← hlive, sum_spent hinv b] at htotal
  have hretired := h.retired_mod
  rw [hrun, h.clocked.clock]
  unfold Tick at *
  omega

theorem Timed.last_mod (h : k.Timed b retiredTime admitted) (hinv : k.Inv) {pid : ProcessId}
    (hpid : pid ∈ k.live) :
    (k.timing pid).lastStateChange = (admitted pid + ((k.timing pid).totalCpuTime +
      (k.timing pid).totalWaitTime + (k.timing pid).totalBlockedTime)) % 2 ^ 64 := by
  rw [hinv.live_eq] at hpid
  obtain ⟨hcpu, hwait, hblocked, hlast⟩ := h.clocked.keeps.records pid hpid
  have hbalanced := h.clocked.keeps.balanced pid hpid
  have hadmitted := h.admitted_mod pid hpid
  unfold Account.Balanced at hbalanced
  rw [timing, hcpu, hwait, hblocked, hlast, hadmitted]
  unfold Tick at *
  omega

theorem Timed.exact (h : k.Timed b retiredTime admitted) (hinv : k.Inv)
    (hsmall : b.total < 2 ^ 64) :
    k.dispatcher.clock = retiredTime + ∑ pid ∈ k.live, (k.timing pid).totalCpuTime +
      (k.running.elim 0 fun pid => k.dispatcher.clock - (k.timing pid).lastStateChange) ∧
    ∀ pid ∈ k.live, admitted pid + ((k.timing pid).totalCpuTime + (k.timing pid).totalWaitTime +
        (k.timing pid).totalBlockedTime) = (k.timing pid).lastStateChange ∧
      (k.timing pid).lastStateChange ≤ k.dispatcher.clock := by
  have hkeeps := h.clocked.keeps
  have hlive := hinv.live_eq
  have hclock : k.dispatcher.clock = b.total := by
    rw [h.clocked.clock, Nat.mod_eq_of_lt hsmall]
  have hexact : ∀ pid ∈ k.live, (k.timing pid).totalCpuTime = (b.accounts pid).cpu ∧
      (k.timing pid).totalWaitTime = (b.accounts pid).wait ∧
      (k.timing pid).totalBlockedTime = (b.accounts pid).blocked ∧
      (k.timing pid).lastStateChange = (b.accounts pid).last ∧
      admitted pid = (b.accounts pid).admitted := by
    intro pid hpid
    rw [hlive] at hpid
    obtain ⟨hcpu, hwait, hblocked, hlast⟩ := hkeeps.records pid hpid
    have hbalanced := hkeeps.balanced pid hpid
    have hpast := hkeeps.past pid hpid
    have hadmitted := h.admitted_mod pid hpid
    unfold Account.Balanced at hbalanced
    rw [timing, hcpu, hwait, hblocked, hlast, hadmitted]
    refine ⟨?_, ?_, ?_, ?_, ?_⟩ <;> exact Nat.mod_eq_of_lt (by omega)
  have htotal := hkeeps.total
  rw [← hlive, sum_spent hinv b] at htotal
  constructor
  · have hsum : ∑ pid ∈ k.live, (k.timing pid).totalCpuTime = ∑ pid ∈ k.live,
      (b.accounts pid).cpu :=
      Finset.sum_congr rfl fun pid hpid => (hexact pid hpid).1
    have hrun : (k.running.elim 0 fun pid => k.dispatcher.clock - (k.timing pid).lastStateChange) =
        k.running.elim 0 fun pid => b.total - (b.accounts pid).last := by
      cases hrunning : k.running with
      | none => rfl
      | some pid =>
        have hpid : pid ∈ k.live := hlive ▸ mem_live_of_running hinv hrunning
        simp only [Option.elim_some, hclock, (hexact pid hpid).2.2.2.1]
    have hretired : retiredTime = b.retired := by
      have hmod := h.retired_mod
      have hle := h.retired_le
      rwa [Nat.mod_eq_of_lt (by omega), Nat.mod_eq_of_lt (by omega)] at hmod
    rw [hsum, hrun, hretired, hclock, Nat.add_assoc]
    exact htotal
  · intro pid hpid
    obtain ⟨hcpu, hwait, hblocked, hlast, hadmitted⟩ := hexact pid hpid
    rw [hcpu, hwait, hblocked, hlast, hadmitted, hclock]
    exact ⟨hkeeps.balanced pid (hlive ▸ hpid), hkeeps.past pid (hlive ▸ hpid)⟩

/-- The clock is the processor time of all processes and the time of every live process since its
admission is in its accounts: up to wrapping in every run, and exactly, without a subtraction that
goes below zero, in every run of fewer than `2 ^ 64` ticks. -/
theorem time_conservation (E : ExecutionEngine σ) (policy : PolicyKind) (engine : σ)
    (memory : PhysicalMemory) (order : ℕ → ℕ) (maxSlots defaultTickBudget : ℕ) (ops : List Op) :
    let start := create policy engine (VirtualMemory.init (Mmu.init P memory order) maxSlots)
      defaultTickBudget
    let k := (machine E).run start ops
    let now := k.dispatcher.clock
    let admitted := admissions E start (fun _ => 0) ops
    (now = (retired E start ops + ∑ pid ∈ k.live, (k.timing pid).totalCpuTime +
        k.running.elim 0 fun pid => tickSub now (k.timing pid).lastStateChange) % 2 ^ 64 ∧
      ∀ pid ∈ k.live, (k.timing pid).lastStateChange = (admitted pid +
        ((k.timing pid).totalCpuTime + (k.timing pid).totalWaitTime +
          (k.timing pid).totalBlockedTime)) % 2 ^ 64) ∧
    (elapsed E start ops < 2 ^ 64 →
      now = retired E start ops + ∑ pid ∈ k.live, (k.timing pid).totalCpuTime +
        (k.running.elim 0 fun pid => now - (k.timing pid).lastStateChange) ∧
      (∀ pid ∈ k.live, admitted pid + ((k.timing pid).totalCpuTime + (k.timing pid).totalWaitTime +
          (k.timing pid).totalBlockedTime) = (k.timing pid).lastStateChange ∧
        (k.timing pid).lastStateChange ≤ now) ∧
      ∀ op pcb t, elapsed E start ops + k.ticks E op < 2 ^ 64 → SetsState E k op pcb t →
        pcb.timing.lastStateChange ≤ t) := by
  intro start k now admitted
  have hstart : start.Inv := inv_create policy engine memory order maxSlots defaultTickBudget
  have hinv : k.Inv := (machine E).run_invariant (P := Inv) (fun _ op h => exec_inv h op) hstart ops
  obtain ⟨b, htimed, htotal⟩ := run_timed (E := E) (timed_create policy engine
    (VirtualMemory.init (Mmu.init P memory order) maxSlots) defaultTickBudget) hstart ops
  rw [Nat.zero_add] at htimed htotal
  refine ⟨⟨htimed.clock_mod hinv, fun pid hpid => htimed.last_mod hinv hpid⟩, fun hsmall => ?_⟩
  obtain ⟨hclock, haccounts⟩ := htimed.exact hinv (htotal ▸ hsmall)
  exact ⟨hclock, haccounts, fun op pcb t hop hset =>
    hset.last_le hinv htimed.clocked (htotal ▸ hop)⟩

def burner : ExecutionEngine Unit where
  execute engine memory pid process tickBudget :=
    ⟨.budgetExhausted pid tickBudget, engine, memory, process.registers⟩
  halt engine _ := engine
  size_execute _ _ _ _ _ := rfl

def burnerStart : Kernel fifoReplacement Unit :=
  create .fcfs () (VirtualMemory.init (Mmu.init fifoReplacement (.ofSize 4) id) 4) 1

def burnerOps (n : ℕ) : List Op :=
  [.createProcess { id := 1, code := [{ code := .nop }] }, .tick n, .terminateProcess 1,
    .createProcess { id := 2, code := [{ code := .nop }] }, .tick 5, .terminateProcess 2]

theorem time_conservation_burner :
    elapsed burner burnerStart (burnerOps 7) < 2 ^ 64 ∧
      ((machine burner).run burnerStart (burnerOps 7)).dispatcher.clock =
        retired burner burnerStart (burnerOps 7) +
          ∑ pid ∈ ((machine burner).run burnerStart (burnerOps 7)).live,
            (((machine burner).run burnerStart (burnerOps 7)).timing pid).totalCpuTime +
          (((machine burner).run burnerStart (burnerOps 7)).running.elim 0 fun pid =>
            ((machine burner).run burnerStart (burnerOps 7)).dispatcher.clock -
              (((machine burner).run burnerStart (burnerOps 7)).timing pid).lastStateChange) := by
  have hsmall : elapsed burner burnerStart (burnerOps 7) < 2 ^ 64 := by decide +kernel
  have htime := (time_conservation (P := fifoReplacement) burner .fcfs () (.ofSize 4) id 4 1
    (burnerOps 7)).2 hsmall
  exact ⟨hsmall, htime.1⟩

/-- The first process uses up all ticks but one of the clock, the second one wraps it. -/
theorem time_not_conserved :
    let before := (machine burner).run burnerStart ((burnerOps (2 ^ 64 - 1)).take 5)
    let k := (machine burner).run burnerStart (burnerOps (2 ^ 64 - 1))
    k.dispatcher.clock = 4 ∧ k.live = ∅ ∧ k.running = none ∧
      retired burner burnerStart (burnerOps (2 ^ 64 - 1)) = 2 ^ 64 + 4 ∧
      SetsState burner before (.terminateProcess 2) (before.dispatcher.scheduler.pcbs 2)
        before.dispatcher.clock ∧
      (before.dispatcher.scheduler.pcbs 2).state = .running ∧
      before.dispatcher.clock < (before.timing 2).lastStateChange := by
  intro before k
  refine ⟨by decide +kernel, by decide +kernel, by decide +kernel, by decide +kernel,
    .terminate ?_, by decide +kernel, by decide +kernel⟩
  decide +kernel

end Kernel
end Contur
