import Contur.BlockSteps
import Contur.KernelTurns
import Contur.PrivateCode

/-!
# What the processes of a kernel have computed

The time of a process on the processor is charged when it leaves the processor, and what
is not charged yet is the time since it came there. Both together are the number of steps
that the process has made: slices take as many ticks as steps, and nothing else moves that
time. So, whatever the policy and the other processes are, a process of private code has
computed what its code alone computes in that many steps.
-/

namespace Contur
open Function (update)
open Placement
open Transition

namespace Pcb
variable {pcb pcb' : Pcb} {newState : ProcessState} {now : Tick}

/-- The time on the processor, with the part that is not charged yet. -/
def cpuTimeAt (pcb : Pcb) (now : Tick) : Tick :=
  tickAdd pcb.timing.totalCpuTime
    (if pcb.state = .running then tickSub now pcb.timing.lastStateChange else 0)

theorem cpuTimeAt_of_running (h : pcb.state = .running) :
    pcb.cpuTimeAt now =
      tickAdd pcb.timing.totalCpuTime (tickSub now pcb.timing.lastStateChange) := by
  rw [cpuTimeAt, if_pos h]

theorem cpuTimeAt_of_ne (h : pcb.state ≠ .running) :
    pcb.cpuTimeAt now = tickAdd pcb.timing.totalCpuTime 0 := by
  rw [cpuTimeAt, if_neg h]

theorem tickSub_self (now : Tick) : tickSub now now = 0 := by
  rw [tickSub, Nat.add_sub_cancel, Nat.mod_self]

theorem tickAdd_zero (a b : Tick) : tickAdd (tickAdd a b) 0 = tickAdd a b := by
  rw [tickAdd, Nat.add_zero, tickAdd, Nat.mod_mod]

theorem cpuTimeAt_setState (h : pcb.setState newState now = some pcb') :
    pcb'.cpuTimeAt now = pcb.cpuTimeAt now := by
  obtain ⟨hvalid, hstate, hcpu, -, -, hlast⟩ := setState_eq_some h
  by_cases hrunning : pcb.state = .running
  · have hleft : newState ≠ .running := by
      rintro rfl
      rw [hrunning] at hvalid
      cases hvalid
    rw [hrunning] at hcpu
    rw [cpuTimeAt_of_ne (hstate.trans_ne hleft), cpuTimeAt_of_running hrunning, hcpu]
    exact tickAdd_zero _ _
  · have hsame : pcb'.timing.totalCpuTime = pcb.timing.totalCpuTime := by
      rw [hcpu]
      cases hcase : pcb.state with
      | running => exact absurd hcase hrunning
      | _ => rfl
    rw [cpuTimeAt_of_ne hrunning, cpuTimeAt, hsame, hlast]
    split_ifs
    · rw [tickSub_self]
    · rfl

theorem cpuTimeAt_advance (h : pcb.state = .running) (hlast : pcb.timing.lastStateChange < 2 ^ 64)
    (ticks : ℕ) : pcb.cpuTimeAt (tickAdd now ticks) = (pcb.cpuTimeAt now + ticks) % 2 ^ 64 := by
  rw [cpuTimeAt_of_running h, cpuTimeAt_of_running h]
  have hadvance : ∀ total last now : ℕ, last < 2 ^ 64 →
      (total + (2 ^ 64 + (now + ticks) % 2 ^ 64 - last) % 2 ^ 64) % 2 ^ 64 =
        ((total + (2 ^ 64 + now - last) % 2 ^ 64) % 2 ^ 64 + ticks) % 2 ^ 64 := by
    intro total last now hlast
    omega
  exact hadvance _ _ now hlast

end Pcb

namespace Scheduler
variable {now : Tick} {a b : Pcb}

theorem StateStep.cpuTimeAt (h : StateStep now a b) : b.cpuTimeAt now = a.cpuTimeAt now := by
  cases h with
  | same => rfl
  | change hset => exact Pcb.cpuTimeAt_setState hset
  | restart hready hrunning =>
    exact (Pcb.cpuTimeAt_setState hrunning).trans (Pcb.cpuTimeAt_setState hready)

theorem cpuTimeAt_estimate (prediction : Option Tick) (pcb : Pcb) :
    (estimate prediction pcb).cpuTimeAt now = pcb.cpuTimeAt now := by
  cases prediction <;> rfl

theorem BlockStep.cpuTimeAt (h : BlockStep now a b) : b.cpuTimeAt now = a.cpuTimeAt now := by
  cases h with
  | state hstate => exact hstate.cpuTimeAt
  | admitted hset => exact (cpuTimeAt_estimate _ _).trans (Pcb.cpuTimeAt_setState hset)

end Scheduler

def TakesSteps {σ : Type} (E : ExecutionEngine σ) : Prop :=
  ∀ engine memory pid process tickBudget,
    AfterSteps process.code (E.execute engine memory pid process tickBudget).result.ticksConsumed
      process.registers (E.execute engine memory pid process tickBudget).registers

theorem Interpreter.takesSteps : TakesSteps Interpreter.executionEngine :=
  fun e memory pid process tickBudget => e.execute_afterSteps memory pid process tickBudget

namespace Dispatcher
variable {P : ReplacementPolicy} {σ : Type} {E : ExecutionEngine σ} {d d' : Dispatcher P σ}
  {place : ProcessId → Option Place} {pid : ProcessId} {b : TimeBook} {total n : ℕ}

def cpuTime (d : Dispatcher P σ) (pid : ProcessId) : Tick :=
  (d.scheduler.pcbs pid).cpuTimeAt d.clock

def Accounted (d : Dispatcher P σ) (total : ℕ) : Prop :=
  ∀ pid process, d.processes.lookup pid = some process →
    ∃ n ≤ total, d.cpuTime pid = n % 2 ^ 64 ∧
      AfterSteps process.code n (fun _ => 0) process.registers

theorem Accounted.keep (h : d.Accounted total)
    (hkept : ∀ q process, d'.processes.lookup q = some process →
      d.processes.lookup q = some process ∧ d'.cpuTime q = d.cpuTime q) : d'.Accounted total := by
  intro q process hprocess
  obtain ⟨hbefore, htime⟩ := hkept q process hprocess
  rw [htime]
  exact h q process hbefore

theorem Accounted.reschedule (h : d.Accounted total) {scheduler : Scheduler}
    (hsteps : ∀ q, (scheduler.pcbs q).cpuTimeAt d.clock = d.cpuTime q) :
    Accounted { d with scheduler := scheduler } total :=
  h.keep fun q _ hprocess => ⟨hprocess, hsteps q⟩

theorem Accounted.execute (hE : TakesSteps E) (h : d.Accounted total) (hlive : d.Live place)
    (hb : d.Clocked b) (hp : place pid = some (.running 0)) {process : ProcessImage}
    (hprocess : d.processes.lookup pid = some process) (tickBudget : ℕ) :
    (d.execute E pid process tickBudget).2.Accounted
      (total + (d.execute E pid process tickBudget).1.ticksConsumed) := by
  have hmem : pid ∈ d.scheduler.processes := (hlive.placed.registered pid).mpr (by simp [hp])
  have hpid : pid ∈ d.processes := (hlive.processes pid).mpr (by simp [hp])
  intro q image himage
  by_cases hq : q = pid
  · subst q
    have hself : (d.execute E pid process tickBudget).2.processes.lookup pid =
        some { process with registers := (E.execute d.engine d.virtualMemory.mmu.memory pid process
          tickBudget).registers } := dlookup_kreplace_self _ (AList.mem_keys.mp hpid)
    rw [hself] at himage
    cases himage
    obtain ⟨n, hn, htime, hsteps⟩ := h pid process hprocess
    have hlast : (d.scheduler.pcbs pid).timing.lastStateChange < 2 ^ 64 := by
      rw [(hb.keeps.records pid hmem).last]
      exact Nat.mod_lt _ (Nat.two_pow_pos 64)
    have hadvance : (d.execute E pid process tickBudget).2.cpuTime pid =
        (d.cpuTime pid + (d.execute E pid process tickBudget).1.ticksConsumed) % 2 ^ 64 :=
      Pcb.cpuTimeAt_advance (hlive.placed.fits_of hp).1 hlast _
    refine ⟨n + (d.execute E pid process tickBudget).1.ticksConsumed, Nat.add_le_add_right hn _, ?_,
      hsteps.trans (hE _ _ _ _ _)⟩
    rw [hadvance, htime, Nat.mod_add_mod]
  · have hother : d.processes.lookup q = some image := by
      rw [← himage]
      exact (dlookup_kreplace_of_ne hq d.processes.entries).symm
    obtain ⟨n, hn, htime, hsteps⟩ := h q image hother
    have hin : q ∈ d.scheduler.processes := by
      rw [hlive.placed.registered, ← hlive.processes, ← AList.lookup_isSome, hother]
      rfl
    have hstate : (d.scheduler.pcbs q).state ≠ .running :=
      fun hrunning => hq (hlive.placed.running_unique hp hin hrunning)
    refine ⟨n, Nat.le_add_right_of_le hn, ?_, hsteps⟩
    rw [← htime]
    exact (Pcb.cpuTimeAt_of_ne hstate).trans (Pcb.cpuTimeAt_of_ne hstate).symm

theorem Accounted.stop (h : d.Accounted total) (hlive : d.Live place)
    (hp : place pid = some (.running 0)) (reason : StopReason) :
    (d.stop pid reason).2.Accounted total := by
  cases reason with
  | budgetExhausted => exact h
  | interrupted =>
    exact h.reschedule fun q => (d.scheduler.blockProcess_stateStep pid d.clock q).cpuTimeAt
  | processExited | error | halted =>
    obtain ⟨scheduler, hterm, -⟩ := terminate_live hlive hp
    have hsteps := d.scheduler.terminate_stateStep pid d.clock
    rw [hterm] at hsteps
    simp only [Dispatcher.stop, hterm]
    refine h.keep fun q process hprocess => ⟨?_, (hsteps q).cpuTimeAt⟩
    by_cases hq : q = pid
    · rw [hq] at hprocess
      exact absurd hprocess (by simp [freeSlot])
    · exact (AList.lookup_erase_ne hq).symm.trans hprocess

theorem Accounted.dispatch (hE : TakesSteps E) (h : d.Accounted b.total) (hlive : d.Live place)
    (hb : d.Clocked b) (tickBudget : ℕ) :
    (d.dispatch E tickBudget).2.Accounted (b.total + d.dispatchTicks E tickBudget) := by
  unfold Dispatcher.dispatch dispatchTicks
  split_ifs
  · exact h
  cases hselect : d.scheduler.selectNext d.clock with
  | mk result scheduler =>
    obtain ⟨b₁, hpass, htotal⟩ := selectNext_passes hlive hb hselect
    obtain ⟨place₁, hlive₁, -, hrun, -⟩ := selectNext_live hlive hselect
    have hsteps := d.scheduler.selectNextForLane_stateStep 0 d.clock
    change d.scheduler.selectNextForLane 0 d.clock = (result, scheduler) at hselect
    rw [hselect] at hsteps
    have h₁ : Accounted { d with scheduler := scheduler } b.total :=
      h.reschedule fun q => (hsteps q).cpuTimeAt
    cases result with
    | error code => exact h₁
    | ok pid =>
      have hp := hrun pid rfl
      dsimp only
      cases hprocess : d.processes.lookup pid with
      | none => exact h₁
      | some process =>
        have hexec := h₁.execute hE hlive₁ hpass.clocked hp hprocess tickBudget
        exact hexec.stop (execute_live hlive₁ pid process tickBudget) hp _

theorem Accounted.erase (h : d.Accounted total) {scheduler : Scheduler}
    (hpcbs : ∀ q, q ≠ pid → scheduler.pcbs q = d.scheduler.pcbs q) (engine : σ) :
    Accounted { freeSlot { d with engine := engine, scheduler := scheduler } pid with
      processes := d.processes.erase pid } total := by
  refine h.keep fun q process hprocess => ?_
  have hq : q ≠ pid := by
    rintro rfl
    rw [AList.lookup_erase] at hprocess
    cases hprocess
  refine ⟨(AList.lookup_erase_ne hq).symm.trans hprocess, ?_⟩
  exact congrArg (fun pcb => Pcb.cpuTimeAt pcb d.clock) (hpcbs q hq)

theorem Accounted.terminateProcess (h : d.Accounted total) (pid : ProcessId) (now : Tick) :
    (d.terminateProcess E pid now).2.Accounted total := by
  unfold Dispatcher.terminateProcess
  split_ifs with hhas
  · have hpcbs : (d.scheduler.dequeue pid).2.pcbs = d.scheduler.pcbs := by
      unfold Scheduler.dequeue
      split_ifs <;> rfl
    have hgone : ∀ (scheduler : Scheduler) (pcb : Pcb), scheduler.pcbs = d.scheduler.pcbs →
        ∀ q, q ≠ pid → update scheduler.pcbs pid pcb q = d.scheduler.pcbs q := by
      intro scheduler pcb hsame q hq
      rw [Function.update_of_ne hq, hsame]
    dsimp only
    split
    · next heq =>
      exact h.erase (hgone _ _ ((congrArg (fun r => r.2.pcbs) heq).symm.trans hpcbs)) _
    · next heq =>
      exact h.erase (hgone _ _ ((congrArg (fun r => r.2.pcbs) heq).symm.trans hpcbs)) _
    · next heq =>
      have hsame := (congrArg (fun r => r.2.pcbs) heq).symm.trans hpcbs
      refine h.keep fun q process hprocess => ⟨hprocess, ?_⟩
      exact congrArg (fun pcbs => Pcb.cpuTimeAt (pcbs q) d.clock) hsame
  · exact h

theorem Accounted.createProcess (h : d.Accounted total) (pid : ProcessId) (code : List Block)
    {pcb : Pcb} (hpcb : pcb.cpuTimeAt d.clock = 0) :
    (d.createProcess pid { code := code } pcb d.clock).2.Accounted total := by
  obtain ⟨-, htable⟩ := d.createProcess_table pid { code := code } pcb d.clock
  obtain ⟨hclock, hscheduler⟩ := d.createProcess_scheduler pid { code := code } pcb d.clock
  have henqueue : ∀ q, (Scheduler.pcbs (Scheduler.enqueue
      { d.scheduler with pcbs := update d.scheduler.pcbs pid pcb } pid d.clock).2
        q).cpuTimeAt d.clock =
        (update d.scheduler.pcbs pid pcb q).cpuTimeAt d.clock := fun q =>
    (Scheduler.enqueueToLane_block { d.scheduler with pcbs := update d.scheduler.pcbs pid pcb }
      pid 0 d.clock q).cpuTimeAt
  have htime : ∀ q, q ∈ d.processes →
    (d.createProcess pid { code := code } pcb d.clock).2.cpuTime q =
      d.cpuTime q := by
    intro q hq
    unfold cpuTime
    rw [hclock]
    rcases hscheduler with ⟨-, hsame⟩ | ⟨hhas, hsame⟩
    · rw [hsame]
    · have hne : q ≠ pid := by
        rintro rfl
        simp [hasProcess, hq] at hhas
      rw [hsame, henqueue, Function.update_of_ne hne]
  have hmem : ∀ {q process}, d.processes.lookup q = some process → q ∈ d.processes := by
    intro q process hprocess
    rw [← AList.lookup_isSome, hprocess]
    rfl
  rcases htable with ⟨-, hprocesses⟩ | ⟨hok, hnew, hprocesses⟩
  · refine h.keep fun q process hprocess => ?_
    rw [hprocesses] at hprocess
    exact ⟨hprocess, htime q (hmem hprocess)⟩
  · intro q process hprocess
    rw [hprocesses] at hprocess
    by_cases hq : q = pid
    · subst q
      rw [AList.lookup_insert] at hprocess
      cases hprocess
      rcases hscheduler with ⟨⟨code', herror⟩, -⟩ | ⟨-, hsame⟩
      · rw [hok] at herror
        cases herror
      · refine ⟨0, Nat.zero_le total, ?_, .zero _ _⟩
        unfold cpuTime
        rw [hclock, hsame, henqueue, Function.update_self, hpcb, Nat.zero_mod]
    · rw [AList.lookup_insert_ne hq] at hprocess
      rw [htime q (hmem hprocess)]
      exact h q process hprocess

end Dispatcher

namespace Kernel
variable {P : ReplacementPolicy} {σ : Type} {E : ExecutionEngine σ} {k : Kernel P σ} {b : TimeBook}

structure Computing (k : Kernel P σ) (b : TimeBook) : Prop where
  inv : k.Inv
  clocked : k.dispatcher.Clocked b
  accounted : k.dispatcher.Accounted b.total

theorem Computing.tick (hE : TakesSteps E) (h : k.Computing b) (tickBudget : ℕ) :
    ∃ b', (k.tick E tickBudget).2.Computing b' ∧
      b'.total = b.total + k.dispatcher.dispatchTicks E (k.budget tickBudget) := by
  obtain ⟨b', hpass, htotal⟩ := tick_passes (E := E) h.inv h.clocked tickBudget
  refine ⟨b', ⟨tick_inv h.inv tickBudget, hpass.clocked, ?_⟩, htotal⟩
  obtain ⟨place, htracked⟩ := h.inv
  rw [htotal]
  exact h.accounted.dispatch hE htracked.live h.clocked (k.budget tickBudget)

theorem Computing.runLoop (hE : TakesSteps E) (h : k.Computing b) (tickBudget : ℕ)
    (anyWorkDone : Bool) (cycles : ℕ) :
    ∃ b', (k.runLoop E tickBudget anyWorkDone cycles).2.Computing b' ∧
      b'.total = b.total + k.loopTicks E tickBudget cycles := by
  induction cycles generalizing k b anyWorkDone with
  | zero => exact ⟨b, h, rfl⟩
  | succ cycles ih =>
    obtain ⟨b₁, hnext, htotal⟩ := h.tick hE tickBudget
    simp only [Kernel.runLoop, loopTicks]
    cases htick : k.tick E tickBudget with
    | mk result k₁ =>
      rw [htick] at hnext
      cases result with
      | ok done =>
        obtain ⟨b₂, hrest, htotal₂⟩ := ih hnext true
        refine ⟨b₂, hrest, ?_⟩
        rw [htotal₂, htotal, Nat.add_assoc]
      | error code => cases code <;> exact ⟨b₁, hnext, htotal⟩

theorem Computing.terminateProcess (h : k.Computing b) (pid : ProcessId) :
    ∃ b', (k.terminateProcess E pid).2.Computing b' ∧ b'.total = b.total := by
  have hinv := terminateProcess_inv (E := E) h.inv pid
  have hdispatcher := terminateProcess_dispatcher E k pid
  obtain ⟨place, htracked⟩ := h.inv
  obtain ⟨b', hpass, htotal⟩ :=
    Dispatcher.terminateProcess_passes (E := E) htracked.live h.clocked pid
  have haccounted := h.accounted.terminateProcess (E := E) pid k.dispatcher.clock
  rw [← hdispatcher] at hpass haccounted
  exact ⟨b', ⟨hinv, hpass.clocked, htotal ▸ haccounted⟩, htotal⟩

theorem Computing.createProcess (h : k.Computing b) (config : ProcessConfig) :
    ∃ b', (k.createProcess config).2.Computing b' ∧ b'.total = b.total := by
  have hinv := createProcess_inv h.inv config
  obtain ⟨place, htracked⟩ := h.inv
  rcases k.createProcess_dispatcher config with hsame | ⟨pid, arrival, hsame⟩
  · refine ⟨b, ⟨hinv, ?_, ?_⟩, rfl⟩
    · rw [hsame]
      exact h.clocked
    · rw [hsame]
      exact h.accounted
  · have haccounted := h.accounted.createProcess pid config.code
      (rfl : (Pcb.create config.priority arrival).cpuTimeAt k.dispatcher.clock = 0)
    have hclocked := Dispatcher.createProcess_clocked htracked.live h.clocked pid
      { code := config.code } config.priority arrival
    rw [← hsame] at haccounted
    dsimp only at hclocked
    rw [← hsame] at hclocked
    rcases hclocked with ⟨hscheduler, hclock⟩ | ⟨-, -, hclocked⟩
    · refine ⟨b, ⟨hinv, ⟨?_, hclock.trans h.clocked.clock⟩, haccounted⟩, rfl⟩
      rw [hscheduler]
      exact h.clocked.keeps
    · exact ⟨_, ⟨hinv, hclocked, haccounted⟩, rfl⟩

theorem Computing.exec (hE : TakesSteps E) (h : k.Computing b) (op : Op) :
    ∃ b', ((machine E).next k op).Computing b' ∧ b'.total = b.total + k.ticks E op := by
  cases op with
  | createProcess config => exact h.createProcess config
  | terminateProcess pid => exact h.terminateProcess pid
  | tick tickBudget => exact h.tick hE tickBudget
  | runForTicks cycles tickBudget => exact h.runLoop hE tickBudget false cycles

theorem Computing.run (hE : TakesSteps E) (h : k.Computing b) (ops : List Op) :
    ∃ b', ((machine E).run k ops).Computing b' ∧ b'.total = b.total + elapsed E k ops := by
  induction ops generalizing k b with
  | nil => exact ⟨b, h, rfl⟩
  | cons op ops ih =>
    obtain ⟨b₁, hnext, htotal⟩ := h.exec hE op
    obtain ⟨b₂, hrest, htotal₂⟩ := ih hnext
    refine ⟨b₂, hrest, ?_⟩
    rw [htotal₂, htotal, Nat.add_assoc]
    rfl

/-- As long as the clock has not wrapped, whatever the policy is and whatever the other processes
do: a live process of private code has computed what its code computes alone in as many steps as the
process has had ticks on the processor. -/
theorem registers_of_cpuTime (P : ReplacementPolicy) (policy : PolicyKind) (cellCount : ℕ)
    (order : ℕ → ℕ) (maxSlots defaultTickBudget : ℕ) (ops : List Op) :
    let E := Interpreter.executionEngine
    let start := wired P policy cellCount order maxSlots defaultTickBudget
    let k := (machine E).run start ops
    elapsed E start ops < 2 ^ 64 →
      ∀ pid process, k.dispatcher.processes.lookup pid = some process →
        ∀ regs, Cpu.runAlone process.code (k.dispatcher.cpuTime pid) (fun _ => 0) = some regs →
          process.registers = regs := by
  intro E start k hsmall pid process hprocess regs halone
  have htimed := timed_create policy ({} : Interpreter)
    (VirtualMemory.init (Mmu.init P (.ofSize cellCount) order) maxSlots) defaultTickBudget
  have hinv : start.Inv := inv_create _ _ _ order maxSlots defaultTickBudget
  have hstart : start.Computing ⟨0, fun _ => .opened 0, 0⟩ :=
    ⟨hinv, htimed.clocked, fun _ _ h => by cases h⟩
  obtain ⟨b, hcomputing, htotal⟩ := hstart.run Interpreter.takesSteps ops
  obtain ⟨n, hn, htime, hsteps⟩ := hcomputing.accounted pid process hprocess
  have hlt : n < 2 ^ 64 := by
    rw [htotal, Nat.zero_add] at hn
    exact Nat.lt_of_le_of_lt hn hsmall
  rw [htime, Nat.mod_eq_of_lt hlt] at halone
  exact hsteps regs halone

def doubling : List Block :=
  [{ code := .mov, reg := 0, operand := 1 }, { code := .add, reg := 0, operand := 0, state := 1 },
    { code := .mov, reg := 14, operand := 1 }]

def doublingOps : List Op :=
  [.createProcess { code := idling }, .createProcess { code := doubling }, .runForTicks 4 2]

def doubled : RegisterFile := fun i => if i.val = 0 then 4 else if i.val = 14 then 2 else 0

def doublingKernel : Kernel fifoReplacement Interpreter :=
  (machine Interpreter.executionEngine).run (wired fifoReplacement (.roundRobin 3) 16 id 4 1)
    doublingOps

theorem registers_of_cpuTime_doubling :
    ∃ process, doublingKernel.dispatcher.processes.lookup 2 = some process ∧
      process.registers = doubled := by
  have hcode : (doublingKernel.dispatcher.processes.lookup 2).map (fun process => process.code) =
      some doubling := by decide +kernel
  have htime : doublingKernel.dispatcher.cpuTime 2 = 4 := by decide +kernel
  have halone : Cpu.runAlone doubling 4 (fun _ => 0) = some doubled := by decide +kernel
  have hsmall : elapsed Interpreter.executionEngine
      (wired fifoReplacement (.roundRobin 3) 16 id 4 1) doublingOps < 2 ^ 64 := by decide +kernel
  obtain ⟨process, hprocess, hcode⟩ := Option.map_eq_some_iff.mp hcode
  rw [← hcode, ← htime] at halone
  have hregisters :=
    registers_of_cpuTime fifoReplacement (.roundRobin 3) 16 id 4 1 doublingOps hsmall
  unfold doublingKernel at hprocess halone ⊢
  exact ⟨process, hprocess, hregisters 2 process hprocess doubled halone⟩

end Kernel
end Contur
