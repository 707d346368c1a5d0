import Contur.KernelDraining
import Contur.KernelTime
import Contur.RoundRobinWaits
import Contur.TimeSlices

/-!
# Round robin starves nobody

Every tick takes some of what is left of the slice of the running process, or its lane. A
kernel call that creates or terminates a process adds nothing to the turns before one that
waits. So under round robin a process is selected within as many ticks as the others have in
their slices, unless it is terminated before.
-/

namespace Contur
open Function (update)
open Placement
open Transition

namespace Dispatcher
variable {P : ReplacementPolicy} {σ : Type} {E : ExecutionEngine σ} {d : Dispatcher P σ}
  {place : ProcessId → Option Place} {pid q : ProcessId} {b : TimeBook} {timeSlice n : ℕ}

abbrev Nearer (timeSlice : ℕ) (d d' : Dispatcher P σ) (q : ProcessId) : Prop :=
  Scheduler.Nearer timeSlice d.scheduler d.clock d'.scheduler d'.clock q

theorem createProcess_scheduler (d : Dispatcher P σ) (pid : ProcessId) (process : ProcessImage)
    (pcb : Pcb) (now : Tick) : (d.createProcess pid process pcb now).2.clock = d.clock ∧
      ((∃ code, (d.createProcess pid process pcb now).1 = .error code) ∧
          (d.createProcess pid process pcb now).2.scheduler = d.scheduler ∨
        d.hasProcess pid = false ∧ (d.createProcess pid process pcb now).2.scheduler =
          (Scheduler.enqueue
            { d.scheduler with pcbs := update d.scheduler.pcbs pid pcb } pid now).2) := by
  unfold createProcess
  split_ifs with hinvalid hhas
  · exact ⟨rfl, Or.inl ⟨⟨_, rfl⟩, rfl⟩⟩
  · exact ⟨rfl, Or.inl ⟨⟨_, rfl⟩, rfl⟩⟩
  have hhas : d.hasProcess pid = false := by simpa using hhas
  split
  · exact ⟨rfl, Or.inl ⟨⟨_, rfl⟩, rfl⟩⟩
  split
  · exact ⟨rfl, Or.inl ⟨⟨_, rfl⟩, rfl⟩⟩
  split
  · next heq =>
    have hscheduler := congrArg (fun r => r.2.scheduler) heq
    have hclock := congrArg (fun r => r.2.clock) heq
    exact ⟨hclock.symm, Or.inr ⟨hhas, hscheduler.symm⟩⟩
  · next heq =>
    have hscheduler := congrArg (fun r => r.2.scheduler) heq
    have hclock := congrArg (fun r => r.2.clock) heq
    exact ⟨hclock.symm, Or.inr ⟨hhas, hscheduler.symm⟩⟩

theorem createProcess_nearer (h : d.Live place) (hq : d.scheduler.WaitsTurn timeSlice d.clock q)
    (process : ProcessImage) (pcb : Pcb)
    (hq' : q ∈ (d.createProcess pid process pcb d.clock).2.scheduler.getQueueSnapshot) :
    Nearer timeSlice d (d.createProcess pid process pcb d.clock).2 q := by
  obtain ⟨hclock, ⟨-, hsame⟩ | ⟨hhas, henqueue⟩⟩ :=
    d.createProcess_scheduler pid process pcb d.clock
  · unfold Nearer
    rw [hclock, hsame]
    exact ⟨hq, le_rfl⟩
  · have hp := h.fresh hhas
    have hplaced := h.placed.setPcb hp pcb
    have hset := hq.setPcb h.placed hp pcb
    have hblocked : pid ∉ d.scheduler.blocked := by
      intro hmem
      have hplace := (h.placed.represents.blocked_iff pid).mpr hmem
      rw [hp] at hplace
      cases hplace
    obtain ⟨place', hmoves, -⟩ :=
      Scheduler.enqueueToLane_moves d.clock hplaced.tracked (Or.inl hblocked)
    unfold Nearer
    rw [henqueue] at hq' ⊢
    rw [hclock]
    exact hset.trans
      (hmoves.nearer hplaced.tracked hset.waits hq' (Scheduler.enqueue_policy _ pid _)
      (Scheduler.enqueueToLane_lanes _ pid 0 _).1)

theorem terminateProcess_nearer (h : d.Live place) (hq : d.scheduler.WaitsTurn timeSlice d.clock q)
    (hq' : q ∈ (d.terminateProcess E pid d.clock).2.scheduler.getQueueSnapshot) :
    Nearer timeSlice d (d.terminateProcess E pid d.clock).2 q := by
  unfold terminateProcess at hq' ⊢
  split_ifs at hq' ⊢ with hhas
  · have hp : (place pid).isSome = true := by
      rw [← h.processes]
      simpa [hasProcess] using hhas
    obtain ⟨hok, hplaced⟩ := Scheduler.dequeue_spec h.placed hp
    obtain ⟨place', hmoves⟩ := Scheduler.dequeue_moves d.clock h.placed.tracked pid
    have hpolicy := Scheduler.dequeue_policy d.scheduler pid
    have hlanes := (Scheduler.dequeue_lanes d.scheduler pid).1
    cases hdequeue : d.scheduler.dequeue pid with
    | mk result scheduler =>
      rw [hdequeue] at hok hplaced hmoves hpolicy hlanes
      subst hok
      simp only [hdequeue] at hq' ⊢
      have hnear := hmoves.nearer h.placed.tracked hq hq' hpolicy hlanes
      exact hnear.trans (hnear.waits.setPcb hplaced (by simp) _)
  · exact ⟨hq, le_rfl⟩

structure Stopped (d d' : Dispatcher P σ) (place : ProcessId → Option Place) (pid : ProcessId) :
    Prop where
  clock : d'.clock = d.clock
  moves : ∃ place', Scheduler.Moves d.scheduler d'.scheduler d.clock place place'
  placed : d'.scheduler.Placed 1 (update place pid none) ∨
    d'.scheduler.Placed 1 (update place pid (some .blocked))
  policy : d'.scheduler.policy = d.scheduler.policy
  lanes : d'.scheduler.readyByLane.length = d.scheduler.readyByLane.length

theorem stop_stopped (h : d.Live place) (hp : place pid = some (.running 0)) {reason : StopReason}
    (hreason : reason ≠ .budgetExhausted) : Stopped d (d.stop pid reason).2 place pid := by
  cases reason with
  | budgetExhausted => exact absurd rfl hreason
  | interrupted =>
    obtain ⟨-, hplaced⟩ := Scheduler.blockProcess_spec d.clock h.placed hp
    exact ⟨rfl, Scheduler.blockProcess_moves d.clock h.placed.tracked pid, Or.inr hplaced,
      Scheduler.blockProcess_policy _ pid _, (Scheduler.blockProcess_lanes _ pid _).1⟩
  | processExited | error | halted =>
    obtain ⟨hok, hplaced⟩ := Scheduler.terminate_spec d.clock h.placed hp
    have hmoves := Scheduler.terminate_moves d.clock h.placed.tracked pid
    have hpolicy := Scheduler.terminate_policy d.scheduler pid d.clock
    have hlanes := (Scheduler.terminate_lanes d.scheduler pid d.clock).1
    cases hterm : d.scheduler.terminate pid d.clock with
    | mk result scheduler =>
      rw [hterm] at hok hplaced hmoves hpolicy hlanes
      subst hok
      simp only [stop, hterm]
      exact ⟨rfl, hmoves, Or.inl hplaced, hpolicy, hlanes⟩

namespace Stopped
variable {d' : Dispatcher P σ}

theorem none_running (h : Stopped d d' place pid) (hs : d.scheduler.Placed 1 place)
    (hp : place pid = some (.running 0)) : (d'.scheduler.runningByLane[0]?).join = none := by
  have hslot : d.scheduler.runningByLane[0]? = some (some pid) :=
    (hs.represents.running_iff pid 0).mp hp
  have hother : ∀ x p, x ≠ some (.running 0) → d'.scheduler.Placed 1 (update place pid x) →
      d'.scheduler.runningByLane[0]? ≠ some (some p) := by
    intro x p hx hplaced hrun
    have hplace := (hplaced.represents.running_iff p 0).mpr hrun
    by_cases hne : p = pid
    · rw [hne, Function.update_self] at hplace
      exact hx hplace
    · rw [Function.update_of_ne hne] at hplace
      have hsame : d.scheduler.runningByLane[0]? = some (some p) :=
        (hs.represents.running_iff p 0).mp hplace
      rw [hslot] at hsame
      exact hne (Option.some.inj (Option.some.inj hsame)).symm
  rw [Option.eq_none_iff_forall_ne_some]
  intro p hjoin
  have hrun := Option.join_eq_some_iff.mp hjoin
  rcases h.placed with hplaced | hplaced
  · exact hother none p (by simp) hplaced hrun
  · exact hother (some .blocked) p (by simp) hplaced hrun

theorem waiting (h : Stopped d d' place pid) (hs : d.scheduler.Placed 1 place)
    (hq' : q ∈ d'.scheduler.getQueueSnapshot) : q ∈ d.scheduler.getQueueSnapshot := by
  have hbefore : ∀ x,
    (∀ lane, x ≠ some (.ready lane)) → d'.scheduler.Placed 1 (update place pid x) →
      q ∈ d.scheduler.getQueueSnapshot := by
    intro x hx hplaced
    obtain ⟨lane, hplace⟩ := (Scheduler.mem_getQueueSnapshot hplaced.represents).mp hq'
    by_cases hne : q = pid
    · rw [hne, Function.update_self] at hplace
      exact absurd hplace (hx lane)
    · rw [Function.update_of_ne hne] at hplace
      exact (Scheduler.mem_getQueueSnapshot hs.represents).mpr ⟨lane, hplace⟩
  rcases h.placed with hplaced | hplaced
  · exact hbefore none (by simp) hplaced
  · exact hbefore (some .blocked) (by simp) hplaced

theorem mem_of_waiting (h : Stopped d d' place pid) (hs : d.scheduler.Placed 1 place)
    (hp : place pid = some (.running 0)) (hq : q ∈ d.scheduler.getQueueSnapshot) :
    q ∈ d'.scheduler.getQueueSnapshot := by
  obtain ⟨lane, hplace⟩ := (Scheduler.mem_getQueueSnapshot hs.represents).mp hq
  have hne : q ≠ pid := by
    rintro rfl
    rw [hp] at hplace
    cases hplace
  have hkept : ∀ x, update place pid x q = some (.ready lane) := fun x => by
    rw [Function.update_of_ne hne, hplace]
  rcases h.placed with hplaced | hplaced
  · exact (Scheduler.mem_getQueueSnapshot hplaced.represents).mpr ⟨lane, hkept _⟩
  · exact (Scheduler.mem_getQueueSnapshot hplaced.represents).mpr ⟨lane, hkept _⟩

end Stopped

/-- Whoever uses up the budget has used some ticks. -/
def Ticking (E : ExecutionEngine σ) : Prop :=
  ∀ engine memory pid process tickBudget, 0 < tickBudget →
    (E.execute engine memory pid process tickBudget).result.reason = .budgetExhausted →
      0 < (E.execute engine memory pid process tickBudget).result.ticksConsumed

theorem slice_nearer (hE : Ticking E) (hn : 0 < n) (h : d.Live place)
    (hp : place pid = some (.running 0)) (hrun : (d.scheduler.runningByLane[0]?).join = some pid)
    (hlast : d.scheduler.changedAt pid ≤ d.clock) {process : ProcessImage}
    (hsmall : d.clock + (d.execute E pid process n).1.ticksConsumed < 2 ^ 64)
    (hleft : 0 < d.scheduler.sliceLeft (max 1 timeSlice) d.clock)
    (hq : d.scheduler.WaitsTurn timeSlice d.clock q) {d' : Dispatcher P σ}
    (hd' : d' = ((d.execute E pid process n).2.stop pid (d.execute E pid process n).1.reason).2)
    (hq' : q ∈ d'.scheduler.getQueueSnapshot) :
    d'.scheduler.WaitsTurn timeSlice d'.clock q ∧
      d'.scheduler.turnsBefore (max 1 timeSlice) d'.clock q <
        d.scheduler.turnsBefore (max 1 timeSlice) d.clock q := by
  have hclock : (d.execute E pid process n).2.clock =
      d.clock + (d.execute E pid process n).1.ticksConsumed := Nat.mod_eq_of_lt hsmall
  have hexec := execute_live (E := E) h pid process n
  have hlater : (d.execute E pid process n).2.scheduler.WaitsTurn timeSlice
      (d.execute E pid process n).2.clock q :=
    hq.le_clock (hclock ▸ Nat.le_add_right _ _)
  by_cases hreason : (d.execute E pid process n).1.reason = .budgetExhausted
  · have hticks := hE d.engine d.virtualMemory.mmu.memory pid process n hn hreason
    have hsame : d' = (d.execute E pid process n).2 := by rw [hd', hreason, stop]
    rw [hsame]
    refine ⟨hlater, Nat.add_lt_add_left ?_ _⟩
    rw [hclock]
    exact Scheduler.sliceLeft_lt hrun hlast hleft hticks
  · have hstopped := stop_stopped hexec hp hreason
    rw [← hd'] at hstopped
    obtain ⟨place', hmoves⟩ := hstopped.moves
    have hnear := hmoves.nearer hexec.placed.tracked hlater hq' hstopped.policy hstopped.lanes
    rw [hstopped.clock]
    refine ⟨hnear.waits, hmoves.stops hexec.placed.tracked hlater hq' ?_ _ hleft⟩
    exact hstopped.none_running hexec.placed hp

theorem waiting_of_stop (h : d.Live place) (hp : place pid = some (.running 0))
    (process : ProcessImage)
    (hq' : q ∈ ((d.execute E pid process n).2.stop pid
      (d.execute E pid process n).1.reason).2.scheduler.getQueueSnapshot) :
    q ∈ d.scheduler.getQueueSnapshot := by
  have hexec := execute_live (E := E) h pid process n
  by_cases hreason : (d.execute E pid process n).1.reason = .budgetExhausted
  · rw [hreason] at hq'
    exact hq'
  · exact (stop_stopped hexec hp hreason).waiting hexec.placed hq'

theorem dispatch_policy (h : d.Live place) :
    (d.dispatch E n).2.scheduler.policy = d.scheduler.policy := by
  unfold dispatch
  split_ifs
  · rfl
  have hpolicy : (d.scheduler.selectNext d.clock).2.policy = d.scheduler.policy :=
    Scheduler.selectNextForLane_policy h.placed.tracked 0 d.clock
  cases hselect : d.scheduler.selectNext d.clock with
  | mk result scheduler =>
    rw [hselect] at hpolicy
    cases result with
    | error code => exact hpolicy
    | ok pid =>
      obtain ⟨place₁, hlive, -, hrun, -⟩ := selectNext_live h hselect
      dsimp only
      cases d.processes.lookup pid with
      | none => exact hpolicy
      | some process =>
        have hexec := execute_live (E := E) hlive pid process n
        dsimp only
        by_cases hreason :
            (execute E { d with scheduler := scheduler } pid process n).1.reason = .budgetExhausted
        · rw [hreason]
          exact hpolicy
        · exact (stop_stopped hexec (hrun pid rfl) hreason).policy.trans hpolicy

theorem selected_of_dispatch (h : d.Live place) (hq : q ∈ d.scheduler.getQueueSnapshot)
    (hq' : q ∉ (d.dispatch E n).2.scheduler.getQueueSnapshot) :
    (d.scheduler.selectNext d.clock).1 = .ok q := by
  unfold dispatch at hq'
  split_ifs at hq'
  · exact absurd hq hq'
  cases hselect : d.scheduler.selectNext d.clock with
  | mk result scheduler =>
    obtain ⟨place₁, hlive, -, hrun, herror⟩ := selectNext_live h hselect
    cases result with
    | error code =>
      obtain rfl := herror code rfl
      obtain ⟨hready, -⟩ := Scheduler.idle_of_notFound hselect
      obtain ⟨lane, hplace⟩ := (Scheduler.mem_getQueueSnapshot h.placed.represents).mp hq
      obtain ⟨ready, hlane, hmem⟩ := (h.placed.represents.ready_iff q lane).mp hplace
      change d.scheduler.readyByLane[lane]? = some ready at hlane
      have hlt : lane < d.scheduler.readyByLane.length := (List.getElem?_eq_some_iff.mp hlane).1
      rw [h.placed.ready_length, Nat.lt_one_iff] at hlt
      rw [hlt, hready] at hlane
      cases hlane
      cases hmem
    | ok pid =>
      by_cases hne : q = pid
      · rw [hne]
      · have hp := hrun pid rfl
        obtain ⟨process, hlookup⟩ : ∃ process, d.processes.lookup pid = some process :=
          Option.isSome_iff_exists.mp
            (AList.lookup_isSome.mpr ((hlive.processes pid).mpr (by simp [hp])))
        simp only [hselect, hlookup] at hq'
        have hmid := Scheduler.mem_of_selectNext h.placed hselect hq hne
        have hexec := execute_live (E := E) hlive pid process n
        refine absurd ?_ hq'
        by_cases hreason :
            (execute E { d with scheduler := scheduler } pid process n).1.reason = .budgetExhausted
        · rw [hreason]
          exact hmid
        · exact (stop_stopped hexec hp hreason).mem_of_waiting hexec.placed hp hmid

theorem dispatch_nearer (hE : Ticking E) (hn : 0 < n) (h : d.Live place) (hb : d.Clocked b)
    (hsmall : b.total + d.dispatchTicks E n < 2 ^ 64)
      (hq : d.scheduler.WaitsTurn timeSlice d.clock q)
    (hq' : q ∈ (d.dispatch E n).2.scheduler.getQueueSnapshot) :
    (d.dispatch E n).2.scheduler.WaitsTurn timeSlice (d.dispatch E n).2.clock q ∧
      (d.dispatch E n).2.scheduler.turnsBefore (max 1 timeSlice) (d.dispatch E n).2.clock q <
        d.scheduler.turnsBefore (max 1 timeSlice) d.clock q := by
  have hs := h.placed.tracked
  obtain ⟨lane, hplace⟩ := (Scheduler.mem_getQueueSnapshot hs.represents).mp hq.waiting
  have hprocess : q ∈ d.processes := (h.processes q).mpr (by simp [hplace])
  have htotal : b.total < 2 ^ 64 := Nat.lt_of_le_of_lt (Nat.le_add_right _ _) hsmall
  have hclock : d.clock = b.total := hb.clock.trans (Nat.mod_eq_of_lt htotal)
  unfold dispatch at hq' ⊢
  unfold dispatchTicks at hsmall
  split_ifs at hq' hsmall ⊢ with hempty
  · rw [List.isEmpty_iff] at hempty
    rw [AList.mem_keys, AList.keys, hempty] at hprocess
    cases hprocess
  cases hselect : d.scheduler.selectNext d.clock with
  | mk result scheduler =>
    obtain ⟨place₁, hlive, hsame, hrun, herror⟩ := selectNext_live h hselect
    obtain ⟨b₁, hpass, htotal₁⟩ := selectNext_passes h hb hselect
    obtain ⟨place₂, hmoves, -⟩ := Scheduler.selectNextForLane_moves d.clock hs 0
    have hlanes := (Scheduler.selectNextForLane_lanes d.scheduler 0 d.clock).1
    have hpolicy := Scheduler.selectNextForLane_policy hs 0 d.clock
    change d.scheduler.selectNextForLane 0 d.clock = (result, scheduler) at hselect
    rw [hselect] at hmoves hlanes hpolicy
    change d.scheduler.selectNext d.clock = (result, scheduler) at hselect
    cases result with
    | error code =>
      -- somebody is ready, so somebody is selected
      obtain rfl := herror code rfl
      obtain ⟨hready, -⟩ := Scheduler.idle_of_notFound hselect
      obtain rfl := hq.round.lane_eq_zero hs hplace
      obtain ⟨ready, hlane, hmem⟩ := (hs.represents.ready_iff q 0).mp hplace
      change d.scheduler.readyByLane[0]? = some ready at hlane
      rw [hready] at hlane
      cases hlane
      cases hmem
    | ok pid =>
      have hp := hrun pid rfl
      obtain ⟨process, hlookup⟩ : ∃ process, d.processes.lookup pid = some process :=
        Option.isSome_iff_exists.mp
          (AList.lookup_isSome.mpr ((hlive.processes pid).mpr (by simp [hp])))
      simp only [hselect, hlookup] at hq' hsmall ⊢
      have hmem : pid ∈ d.scheduler.processes := by
        rw [h.placed.registered, ← hsame pid, hp]
        rfl
      have hmem₁ : pid ∈ scheduler.processes := (hlive.placed.registered pid).mpr (by simp [hp])
      have hnow : d.clock < 2 ^ 64 := hclock ▸ htotal
      obtain ⟨hrunning, hleft⟩ := hq.sliceLeft_pos h.placed hselect (hb.last_le htotal hmem) hnow
      have hmid : q ∈ scheduler.getQueueSnapshot :=
        waiting_of_stop (d := { d with scheduler := scheduler }) hlive hp process hq'
      have hnear := hmoves.nearer hs hq hmid hpolicy hlanes
      have hlast : scheduler.changedAt pid ≤ d.clock :=
        hpass.clocked.last_le (htotal₁ ▸ htotal) hmem₁
      rw [← hclock] at hsmall
      obtain ⟨hwaits, hlt⟩ := slice_nearer (d := { d with scheduler := scheduler }) hE hn hlive hp
        hrunning hlast hsmall hleft hnear.waits rfl hq'
      exact ⟨hwaits, hlt.trans_le hnear.turns⟩

end Dispatcher

theorem Interpreter.ticking : Dispatcher.Ticking Interpreter.executionEngine := by
  intro e memory pid process tickBudget hpos hreason
  change (e.execute memory pid process tickBudget).result.reason = .budgetExhausted at hreason
  change 0 < (e.execute memory pid process tickBudget).result.ticksConsumed
  unfold Interpreter.execute at hreason ⊢
  cases hexec : (e.engine memory).execute pid process tickBudget with
  | error undefined =>
    rw [hexec] at hreason
    cases hreason
  | ok next =>
    obtain ⟨result, engine, registers⟩ := next
    rw [hexec] at hreason
    change result.reason = .budgetExhausted at hreason
    change 0 < result.ticksConsumed
    have hhalted : pid ∉ (e.engine memory).haltedPids := by
      intro hmem
      rw [InterpreterEngine.execute, if_pos hmem] at hexec
      cases hexec
      cases hreason
    have hfits := InterpreterEngine.fits_of_budgetExhausted hhalted hexec hreason
    rw [InterpreterEngine.execute_eq_runLoop hhalted hfits] at hexec
    rw [InterpreterEngine.runLoop_result hexec hreason, Nat.zero_add]
    exact hpos

namespace Kernel
variable {P : ReplacementPolicy} {σ : Type} {E : ExecutionEngine σ} {k : Kernel P σ} {q : ProcessId}
  {timeSlice : ℕ}

def ready (k : Kernel P σ) : List ProcessId := k.dispatcher.scheduler.getQueueSnapshot

/-- The loop of `runForTicks` makes ticks. -/
def Op.unrolled : Op → List Op
  | .runForTicks cycles tickBudget => .replicate cycles (.tick tickBudget)
  | op => [op]

def Op.isTick : Op → Bool
  | .tick _ => true
  | _ => false

theorem run_ticks_of_error {tickBudget : ℕ} {code : ErrorCode}
    (h : k.tick E tickBudget = (.error code, k)) (cycles : ℕ) :
    (machine E).run k (.replicate cycles (.tick tickBudget)) = k := by
  induction cycles with
  | zero => rfl
  | succ cycles ih =>
    have hnext : (machine E).next k (.tick tickBudget) = k :=
      congrArg (fun r => r.2) h
    rw [List.replicate_succ, Machine.run_cons, hnext, ih]

theorem run_ticks (h : k.Inv) (tickBudget : ℕ) (anyWorkDone : Bool) (cycles : ℕ) :
    (machine E).run k (.replicate cycles (.tick tickBudget)) =
      (k.runLoop E tickBudget anyWorkDone cycles).2 := by
  induction cycles generalizing k anyWorkDone with
  | zero => rfl
  | succ cycles ih =>
    have hinv := tick_inv (E := E) h tickBudget
    have hnext : (machine E).next k (.tick tickBudget) = (k.tick E tickBudget).2 := rfl
    rw [List.replicate_succ, Machine.run_cons, hnext, runLoop]
    cases htick : k.tick E tickBudget with
    | mk result k' =>
      cases result with
      | ok done =>
        rw [htick] at hinv
        exact ih hinv true
      | error code =>
        have hsame := tick_of_error h (congrArg Prod.fst htick)
        rw [htick] at hsame
        cases hsame
        exact run_ticks_of_error htick cycles

theorem run_unrolled (h : k.Inv) (ops : List Op) :
    (machine E).run k (ops.flatMap Op.unrolled) = (machine E).run k ops := by
  induction ops generalizing k with
  | nil => rfl
  | cons op ops ih =>
    have hop : (machine E).run k op.unrolled = (machine E).next k op := by
      cases op with
      | runForTicks cycles tickBudget => exact run_ticks h tickBudget false cycles
      | createProcess config => rfl
      | terminateProcess pid => rfl
      | tick tickBudget => rfl
    rw [List.flatMap_cons, Machine.run_append, hop, Machine.run_cons]
    exact ih (exec_inv h op)

theorem createProcess_dispatcher (k : Kernel P σ) (config : ProcessConfig) :
    (k.createProcess config).2.dispatcher = k.dispatcher ∨
      ∃ pid arrival, (k.createProcess config).2.dispatcher =
        (k.dispatcher.createProcess pid { code := config.code } (Pcb.create config.priority arrival)
          k.dispatcher.clock).2 := by
  have hcreate : ∀ (k : Kernel P σ) (pid : ProcessId), (k.createWithPid pid config).2.dispatcher =
      (k.dispatcher.createProcess pid { code := config.code } (Pcb.create config.priority
        (if config.arrivalTime = 0 then k.dispatcher.clock else config.arrivalTime))
        k.dispatcher.clock).2 := by
    intro k pid
    simp only [createWithPid]
    split <;> next heq => rw [heq]
  unfold createProcess
  split_ifs
  · exact Or.inl rfl
  · dsimp only
    split_ifs
    · exact Or.inl rfl
    · exact Or.inr ⟨_, _, hcreate _ _⟩
  · exact Or.inl rfl
  · exact Or.inr ⟨_, _, hcreate _ _⟩

theorem terminateProcess_dispatcher (E : ExecutionEngine σ) (k : Kernel P σ) (pid : ProcessId) :
    (k.terminateProcess E pid).2.dispatcher =
      (k.dispatcher.terminateProcess E pid k.dispatcher.clock).2 := by
  simp only [terminateProcess]
  split <;> next heq => rw [heq]

/-- What takes a process off the ready queue: it is terminated or selected. -/
def Serves (k : Kernel P σ) (q : ProcessId) (op : Op) : Prop :=
  op = .terminateProcess q ∨
    op.isTick ∧ (k.dispatcher.scheduler.selectNext k.dispatcher.clock).1 = .ok q

def Op.Single : Op → Prop
  | .runForTicks _ _ => False
  | _ => True

theorem single_of_unrolled {ops : List Op} {op : Op} (h : op ∈ ops.flatMap Op.unrolled) :
    op.Single := by
  obtain ⟨op', -, hmem⟩ := List.mem_flatMap.mp h
  cases op' with
  | runForTicks cycles tickBudget =>
    rw [List.eq_of_mem_replicate hmem]
    trivial
  | createProcess config =>
    rw [List.mem_singleton.mp hmem]
    trivial
  | terminateProcess pid =>
    rw [List.mem_singleton.mp hmem]
    trivial
  | tick tickBudget =>
    rw [List.mem_singleton.mp hmem]
    trivial

theorem serves_of_leaves (h : k.Inv) {op : Op} (hop : op.Single) (hq : q ∈ k.ready)
    (hq' : q ∉ ((machine E).next k op).ready) : k.Serves q op := by
  obtain ⟨place, htracked⟩ := h
  have hlive := htracked.live
  obtain ⟨lane, hplace⟩ := (Scheduler.mem_getQueueSnapshot hlive.placed.represents).mp hq
  cases op with
  | runForTicks cycles tickBudget => exact hop.elim
  | tick tickBudget => exact Or.inr ⟨rfl, Dispatcher.selected_of_dispatch hlive hq hq'⟩
  | terminateProcess pid =>
    by_cases hpid : pid = q
    · rw [hpid]
      exact Or.inl rfl
    · refine absurd ?_ hq'
      change q ∈ (k.terminateProcess E pid).2.dispatcher.scheduler.getQueueSnapshot
      rw [terminateProcess_dispatcher]
      rcases Dispatcher.terminateProcess_spec (E := E) hlive pid k.dispatcher.clock with
        ⟨-, -, hlive'⟩ | ⟨code, heq⟩
      · refine (Scheduler.mem_getQueueSnapshot hlive'.placed.represents).mpr ⟨lane, ?_⟩
        rw [Function.update_of_ne (Ne.symm hpid), hplace]
      · rw [heq]
        exact hq
  | createProcess config =>
    refine absurd ?_ hq'
    change q ∈ (k.createProcess config).2.dispatcher.scheduler.getQueueSnapshot
    rcases k.createProcess_dispatcher config with hsame | ⟨pid, arrival, hsame⟩
    · rw [hsame]
      exact hq
    · rw [hsame]
      have hcreated := Dispatcher.createProcess_spec hlive pid { code := config.code }
        k.dispatcher.clock (rfl : (Pcb.create config.priority arrival).state = .new)
      cases hcreate : k.dispatcher.createProcess pid { code := config.code }
          (Pcb.create config.priority arrival) k.dispatcher.clock with
      | mk result d =>
        rw [hcreate] at hcreated
        cases result with
        | error code =>
          exact (Scheduler.mem_getQueueSnapshot hcreated.placed.represents).mpr ⟨lane, hplace⟩
        | ok done =>
          refine (Scheduler.mem_getQueueSnapshot hcreated.placed.represents).mpr ?_
          by_cases hpid : q = pid
          · exact ⟨0, by rw [hpid, Function.update_self]⟩
          · exact ⟨lane, by rw [Function.update_of_ne hpid, hplace]⟩

theorem next_policy (h : k.Inv) {op : Op} (hop : op.Single) :
    ((machine E).next k op).dispatcher.scheduler.policy = k.dispatcher.scheduler.policy := by
  obtain ⟨place, htracked⟩ := h
  have hlive := htracked.live
  cases op with
  | runForTicks cycles tickBudget => exact hop.elim
  | tick tickBudget => exact Dispatcher.dispatch_policy hlive
  | terminateProcess pid =>
    change (k.terminateProcess E pid).2.dispatcher.scheduler.policy = _
    rw [terminateProcess_dispatcher]
    unfold Dispatcher.terminateProcess
    split_ifs
    · have hpolicy := Scheduler.dequeue_policy k.dispatcher.scheduler pid
      dsimp only
      split <;> next heq => exact (congrArg (fun r => r.2.policy) heq).symm.trans hpolicy
    · rfl
  | createProcess config =>
    change (k.createProcess config).2.dispatcher.scheduler.policy = _
    rcases k.createProcess_dispatcher config with hsame | ⟨pid, arrival, hsame⟩
    · rw [hsame]
    · rw [hsame]
      obtain ⟨-, ⟨-, hsame⟩ | ⟨-, henqueue⟩⟩ := k.dispatcher.createProcess_scheduler pid
        { code := config.code } (Pcb.create config.priority arrival) k.dispatcher.clock
      · rw [hsame]
      · rw [henqueue]
        exact Scheduler.enqueue_policy _ pid _

theorem run_policy (h : k.Inv) (ops : List Op) :
    ((machine E).run k ops).dispatcher.scheduler.policy = k.dispatcher.scheduler.policy := by
  have hsingle : ∀ op ∈ ops.flatMap Op.unrolled, op.Single := fun op => single_of_unrolled
  rw [← run_unrolled h]
  exact (machine E).run_observation (fun k : Kernel P σ => k.dispatcher.scheduler.policy)
    (fun _ op hk => exec_inv hk op) (fun _ _ hk hop => next_policy hk hop) h hsingle

theorem next_nearer (hE : Dispatcher.Ticking E) (h : k.Inv) {b : TimeBook}
    (hb : k.dispatcher.Clocked b) {op : Op} (hop : op.Single)
    (hsmall : b.total + k.ticks E op < 2 ^ 64)
    (hq : k.dispatcher.scheduler.WaitsTurn timeSlice k.dispatcher.clock q)
    (hq' : q ∈ ((machine E).next k op).ready) :
    let k' := (machine E).next k op
    k'.dispatcher.scheduler.WaitsTurn timeSlice k'.dispatcher.clock q ∧
      k'.dispatcher.scheduler.turnsBefore (max 1 timeSlice) k'.dispatcher.clock q +
          (if op.isTick then 1 else 0) ≤
        k.dispatcher.scheduler.turnsBefore (max 1 timeSlice) k.dispatcher.clock q := by
  intro k'
  obtain ⟨place, htracked⟩ := h
  have hlive := htracked.live
  cases op with
  | runForTicks cycles tickBudget => exact hop.elim
  | tick tickBudget => exact Dispatcher.dispatch_nearer hE budget_pos hlive hb hsmall hq hq'
  | terminateProcess pid =>
    have hdispatcher : k'.dispatcher =
        (k.dispatcher.terminateProcess E pid k.dispatcher.clock).2 :=
      terminateProcess_dispatcher E k pid
    change q ∈ k'.dispatcher.scheduler.getQueueSnapshot at hq'
    rw [hdispatcher] at hq' ⊢
    have hnear := Dispatcher.terminateProcess_nearer hlive hq hq'
    exact ⟨hnear.waits, hnear.turns⟩
  | createProcess config =>
    have hcases : k'.dispatcher = k.dispatcher ∨ ∃ pid arrival, k'.dispatcher =
        (k.dispatcher.createProcess pid { code := config.code } (Pcb.create config.priority arrival)
          k.dispatcher.clock).2 := k.createProcess_dispatcher config
    change q ∈ k'.dispatcher.scheduler.getQueueSnapshot at hq'
    rcases hcases with hsame | ⟨pid, arrival, hsame⟩
    · rw [hsame]
      exact ⟨hq, le_rfl⟩
    · rw [hsame] at hq' ⊢
      have hnear := Dispatcher.createProcess_nearer hlive hq { code := config.code }
        (Pcb.create config.priority arrival) hq'
      exact ⟨hnear.waits, hnear.turns⟩

theorem elapsed_append (k : Kernel P σ) (ops ops' : List Op) :
    elapsed E k (ops ++ ops') = elapsed E k ops + elapsed E ((machine E).run k ops) ops' := by
  induction ops generalizing k with
  | nil => exact (Nat.zero_add _).symm
  | cons op ops ih =>
    rw [List.cons_append, elapsed, ih, elapsed, Nat.add_assoc]
    rfl

structure Foresees (E : ExecutionEngine σ) (timeSlice : ℕ) (q : ProcessId) (k : Kernel P σ)
    (ops : List Op) : Prop where
  inv : k.Inv
  timed : ∃ b retiredTime admitted,
    k.Timed b retiredTime admitted ∧ b.total + elapsed E k ops < 2 ^ 64
  single : ∀ op ∈ ops, op.Single
  waits : k.dispatcher.scheduler.WaitsTurn timeSlice k.dispatcher.clock q

theorem Foresees.next_nearer (hE : Dispatcher.Ticking E) {op : Op} {ops : List Op}
    (h : Foresees E timeSlice q k (op :: ops)) (hq' : q ∈ ((machine E).next k op).ready) :
    let k' := (machine E).next k op
    k'.dispatcher.scheduler.WaitsTurn timeSlice k'.dispatcher.clock q ∧
      k'.dispatcher.scheduler.turnsBefore (max 1 timeSlice) k'.dispatcher.clock q +
          (if op.isTick then 1 else 0) ≤
        k.dispatcher.scheduler.turnsBefore (max 1 timeSlice) k.dispatcher.clock q := by
  obtain ⟨b, retiredTime, admitted, htimed, hsmall⟩ := h.timed
  rw [elapsed, ← Nat.add_assoc] at hsmall
  exact Kernel.next_nearer hE h.inv htimed.clocked (h.single op List.mem_cons_self)
    (Nat.lt_of_le_of_lt (Nat.le_add_right _ _) hsmall) h.waits hq'

theorem Foresees.next (hE : Dispatcher.Ticking E) {op : Op} {ops : List Op}
    (h : Foresees E timeSlice q k (op :: ops)) (hq' : q ∈ ((machine E).next k op).ready) :
    Foresees E timeSlice q ((machine E).next k op) ops := by
  obtain ⟨b, retiredTime, admitted, htimed, hsmall⟩ := h.timed
  obtain ⟨b', htimed', htotal⟩ := exec_timed (E := E) htimed h.inv op
  refine ⟨exec_inv h.inv op, ⟨b', _, _, htimed', ?_⟩,
    fun op' hop' => h.single op' (List.mem_cons_of_mem op hop'), (h.next_nearer hE hq').1⟩
  rw [elapsed, ← Nat.add_assoc] at hsmall
  rwa [htotal]

theorem Foresees.served (hE : Dispatcher.Ticking E) {ops : List Op}
    (h : Foresees E timeSlice q k ops)
    (hcount : (k.live.card - 1) * max 1 timeSlice < ops.countP Op.isTick) :
    ∃ n op, ops[n]? = some op ∧ (∀ m ≤ n, q ∈ ((machine E).run k (ops.take m)).ready) ∧
      ((machine E).run k (ops.take n)).Serves q op := by
  classical
  obtain ⟨place, htracked⟩ := h.inv
  have hbound := Scheduler.turnsBefore_le_card htracked.live.placed.tracked h.waits.waiting
    (max 1 timeSlice) k.dispatcher.clock
  rw [← h.inv.live_eq] at hbound
  have hleaves := (machine E).exists_not_of_count (P := fun k : Kernel P σ => q ∈ k.ready)
    (fun k => k.dispatcher.scheduler.turnsBefore (max 1 timeSlice) k.dispatcher.clock q)
    (fun _ _ _ hk _ hq' => Foresees.next hE hk hq')
    (fun _ _ _ hk _ hq' => (Foresees.next_nearer hE hk hq').2) h (hbound.trans_lt hcount)
  -- the first call after which it does not wait any more
  have hfirst := Nat.find_spec hleaves
  have hbefore := fun m (hm : m < Nat.find hleaves) => Nat.find_min hleaves hm
  generalize Nat.find hleaves = n at hfirst hbefore
  obtain ⟨hn, hnot⟩ := hfirst
  cases n with
  | zero => exact absurd h.waits.waiting hnot
  | succ n =>
    have hop : ops[n]? = some ops[n] := List.getElem?_eq_getElem hn
    have hwaiting : ∀ m ≤ n, q ∈ ((machine E).run k (ops.take m)).ready := by
      intro m hm
      by_contra hcontra
      exact hbefore m (Nat.lt_succ_of_le hm) ⟨hm.trans (Nat.le_of_succ_le hn), hcontra⟩
    have hinv : ((machine E).run k (ops.take n)).Inv :=
      (machine E).run_invariant (P := Inv) (fun _ op hk => exec_inv hk op) h.inv _
    rw [(machine E).run_take_succ k hop] at hnot
    exact ⟨n, ops[n], hop, hwaiting,
      serves_of_leaves hinv (h.single _ (List.getElem_mem hn)) (hwaiting n le_rfl) hnot⟩

/-- Under round robin, a process that waits since before this tick is served in time: calls with
more ticks than a slice for each other live process have one tick that selects it, unless a call has
terminated it before. -/
theorem round_robin_serves (P : ReplacementPolicy) (cellCount : ℕ) (order : ℕ → ℕ)
    (maxSlots defaultTickBudget timeSlice : ℕ) (ops later : List Op) (q : ProcessId) :
    let E := Interpreter.executionEngine
    let start := wired P (.roundRobin timeSlice) cellCount order maxSlots defaultTickBudget
    let k := (machine E).run start ops
    let calls := later.flatMap Op.unrolled
    q ∈ k.ready → (k.timing q).lastStateChange < k.dispatcher.clock →
      elapsed E start (ops ++ calls) < 2 ^ 64 →
      (k.live.card - 1) * max 1 timeSlice < calls.countP Op.isTick →
      ∃ n op, calls[n]? = some op ∧ (∀ m ≤ n, q ∈ ((machine E).run k (calls.take m)).ready) ∧
        ((machine E).run k (calls.take n)).Serves q op := by
  intro E start k calls hq hearlier hsmall hcount
  have hstart : start.Inv := inv_create _ _ _ order maxSlots defaultTickBudget
  have hinv : k.Inv :=
    (machine E).run_invariant (P := Inv) (fun _ op hk => exec_inv hk op) hstart ops
  have hround : Scheduler.RoundRobin timeSlice k.dispatcher.scheduler := by
    obtain ⟨place, htracked⟩ := hinv
    exact ⟨run_policy hstart ops, htracked.live.placed.ready_length, place,
      htracked.live.placed.tracked⟩
  have htimed₀ := timed_create (.roundRobin timeSlice) ({} : Interpreter)
    (VirtualMemory.init (Mmu.init P (.ofSize cellCount) order) maxSlots) defaultTickBudget
  obtain ⟨b, htimed, htotal⟩ := run_timed (E := E) htimed₀ hstart ops
  refine Foresees.served Interpreter.ticking ⟨hinv, ⟨b, _, _, htimed, ?_⟩,
    fun op => single_of_unrolled, ⟨hround, hq, hearlier⟩⟩ hcount
  rw [elapsed_append] at hsmall
  rwa [htotal, Nat.zero_add]

def idling : List Block := .replicate 6 { code := .nop }

def turnOps : List Op :=
  [.createProcess { code := idling }, .createProcess { code := idling }, .tick 1,
    .createProcess { code := idling }]

def laterOps : List Op := [.tick 1, .createProcess { code := idling }, .runForTicks 4 1]

theorem round_robin_serves_second :
    let E := Interpreter.executionEngine
    let k := (machine E).run (wired fifoReplacement (.roundRobin 2) 16 id 4 1) turnOps
    let calls := laterOps.flatMap Op.unrolled
    ∃ n op, calls[n]? = some op ∧ (∀ m ≤ n, 2 ∈ ((machine E).run k (calls.take m)).ready) ∧
      ((machine E).run k (calls.take n)).Serves 2 op :=
  round_robin_serves fifoReplacement 16 id 4 1 2 turnOps laterOps 2 (by decide +kernel)
    (by decide +kernel) (by decide +kernel) (by decide +kernel)

end Kernel
end Contur
