import Contur.RoundRobinTurns

/-!
# What an operation does to a block

Every operation of the scheduler changes the blocks of processes by state changes at its
own tick, in the order of the source. Only the way into a queue writes to a block besides,
and what it writes is the estimate of the next burst.
-/

namespace Contur.Scheduler
open Function (update)

variable {s : Scheduler} {pid : ProcessId} {now : Tick} {a b : Pcb}

inductive StateStep (now : Tick) : Pcb → Pcb → Prop where
  | same (pcb : Pcb) : StateStep now pcb pcb
  | change {a b : Pcb} {newState : ProcessState} (h : a.setState newState now = some b) :
      StateStep now a b
  | restart {a b c : Pcb} (hready : a.setState .ready now = some b)
      (hrunning : b.setState .running now = some c) : StateStep now a c

inductive BlockStep (now : Tick) : Pcb → Pcb → Prop where
  | state {a b : Pcb} (h : StateStep now a b) : BlockStep now a b
  | admitted {a b : Pcb} {prediction : Option Tick} (h : a.setState .ready now = some b) :
      BlockStep now a (estimate prediction b)

theorem StateStep.keys (h : StateStep now a b) :
    b.priority = a.priority ∧ b.timing.remainingBurst = a.timing.remainingBurst ∧
      b.timing.estimatedBurst = a.timing.estimatedBurst := by
  cases h with
  | same => exact ⟨rfl, rfl, rfl⟩
  | change hset => exact Pcb.setState_keys hset
  | restart hset hset' =>
    obtain ⟨hpriority, hremaining, hestimated⟩ := Pcb.setState_keys hset
    obtain ⟨hpriority', hremaining', hestimated'⟩ := Pcb.setState_keys hset'
    exact ⟨hpriority'.trans hpriority, hremaining'.trans hremaining, hestimated'.trans hestimated⟩

theorem BlockStep.of_update (h : BlockStep now (s.pcbs pid) b) (p : ProcessId) :
    BlockStep now (s.pcbs p) (update s.pcbs pid b p) := by
  by_cases hp : p = pid
  · subst p
    rw [Function.update_self]
    exact h
  · rw [Function.update_of_ne hp]
    exact .state (.same _)

theorem StateStep.of_update (h : StateStep now (s.pcbs pid) b) (p : ProcessId) :
    StateStep now (s.pcbs p) (update s.pcbs pid b p) := by
  by_cases hp : p = pid
  · subst p
    rw [Function.update_self]
    exact h
  · rw [Function.update_of_ne hp]
    exact .same _

theorem startOn_stateStep (s : Scheduler) (lane : ℕ) (candidate : ProcessId) (now : Tick)
    (p : ProcessId) : StateStep now (s.pcbs p) ((s.startOn lane candidate now).2.pcbs p) := by
  rcases s.startOn_cases lane candidate now with ⟨-, t, pcb, heq, hset, hpcbs, -⟩ | ⟨-, heq⟩
  · rw [heq, hpcbs]
    exact StateStep.of_update (.change hset) p
  · rw [heq]
    exact .same _

theorem selectNextForLane_stateStep (s : Scheduler) (lane : ℕ) (now : Tick) (p : ProcessId) :
    StateStep now (s.pcbs p) ((s.selectNextForLane lane now).2.pcbs p) := by
  have hselect := selectNextForLane_eq s lane now
  cases hchoice : s.choice lane now with
  | refused =>
    rw [hchoice] at hselect
    obtain ⟨code, heq⟩ := hselect
    rw [heq]
    exact .same _
  | keeps running =>
    rw [hchoice] at hselect
    rw [show s.selectNextForLane lane now = (.ok running, s) from hselect]
    exact .same _
  | starts candidate =>
    rw [hchoice] at hselect
    rw [hselect.1]
    exact startOn_stateStep s lane candidate now p
  | replaces running candidate =>
    rw [hchoice] at hselect
    rcases preempt_cases s lane running now with
      ⟨-, t, pcb, hpreempt, hset, hpcbs, -, -⟩ | ⟨-, hpreempt⟩
    · rw [hselect.2.2 t hpreempt]
      rcases t.startOn_cases lane candidate now with ⟨-, t', pcb', heq, hset', hpcbs', -⟩ | ⟨-, heq⟩
      · rw [heq, hpcbs', hpcbs]
        rw [hpcbs] at hset'
        by_cases hcandidate : candidate = running
        · subst candidate
          rw [Function.update_self] at hset'
          rw [Function.update_idem]
          exact StateStep.of_update (.restart hset hset') p
        · rw [Function.update_of_ne hcandidate] at hset'
          by_cases hp : p = candidate
          · subst p
            rw [Function.update_self]
            exact .change hset'
          · rw [Function.update_of_ne hp]
            exact StateStep.of_update (.change hset) p
      · rw [heq, hpcbs]
        exact StateStep.of_update (.change hset) p
    · rw [hselect.2.1 _ _ hpreempt, pcbs_recordRunningBurst]
      exact .same _

theorem stealNextForLane_stateStep (s : Scheduler) (lane : ℕ) (now : Tick) (p : ProcessId) :
    StateStep now (s.pcbs p) ((s.stealNextForLane lane now).2.pcbs p) := by
  have hselect : ∀ t : Scheduler, t.pcbs = s.pcbs →
      StateStep now (s.pcbs p) ((t.selectNextForLane lane now).2.pcbs p) := by
    intro t ht
    rw [← ht]
    exact selectNextForLane_stateStep t lane now p
  unfold stealNextForLane
  split_ifs
  · exact .same _
  split
  · exact .same _
  split
  · exact .same _
  · exact hselect _ rfl

theorem enqueueToLane_block (s : Scheduler) (pid : ProcessId) (lane : ℕ) (now : Tick)
    (p : ProcessId) : BlockStep now (s.pcbs p) ((s.enqueueToLane pid lane now).2.pcbs p) := by
  simp only [enqueueToLane]
  split_ifs
  any_goals exact .state (.same _)
  split
  · exact .state (.same _)
  · next pcb hset => exact BlockStep.of_update (.admitted hset) p

theorem blockOn_stateStep (s : Scheduler) (lane : ℕ) (pid : ProcessId) (now : Tick)
    (p : ProcessId) :
    StateStep now (s.pcbs p) ((s.blockOn lane pid now).2.pcbs p) := by
  unfold blockOn
  dsimp only
  rw [pcbs_recordRunningBurst]
  split
  · rw [pcbs_recordRunningBurst]
    exact .same _
  · next pcb hset => exact StateStep.of_update (.change hset) p

theorem blockRunning_stateStep (s : Scheduler) (now : Tick) (p : ProcessId) :
    StateStep now (s.pcbs p) ((s.blockRunning now).2.pcbs p) := by
  unfold blockRunning
  split
  · exact .same _
  split
  · exact blockOn_stateStep s _ _ now p
  · exact .same _

theorem blockProcess_stateStep (s : Scheduler) (pid : ProcessId) (now : Tick) (p : ProcessId) :
    StateStep now (s.pcbs p) ((s.blockProcess pid now).2.pcbs p) := by
  unfold blockProcess
  split_ifs
  · split
    · exact blockOn_stateStep s _ pid now p
    split
    · exact .same _
    split
    · exact .same _
    · next pcb hset => exact StateStep.of_update (.change hset) p
  · exact .same _

theorem unblock_stateStep (s : Scheduler) (pid : ProcessId) (now : Tick) (p : ProcessId) :
    StateStep now (s.pcbs p) ((s.unblock pid now).2.pcbs p) := by
  unfold unblock
  split_ifs
  · split
    · exact .same _
    · next pcb hset => exact StateStep.of_update (.change hset) p
  · exact .same _

theorem terminate_stateStep (s : Scheduler) (pid : ProcessId) (now : Tick) (p : ProcessId) :
    StateStep now (s.pcbs p) ((s.terminate pid now).2.pcbs p) := by
  unfold terminate
  split_ifs with hmem
  · cases s.findRunningLane pid with
    | none =>
      dsimp only
      split
      · exact .same _
      · next pcb hset => exact StateStep.of_update (.change hset) p
    | some lane =>
      dsimp only
      rw [pcbs_recordRunningBurst]
      split
      · exact .same _
      · next pcb hset => exact StateStep.of_update (.change hset) p
  · exact .same _

theorem exec_stateStep {op : Op} {t : Tick} (htick : op.tick = some t)
    (hop : ∀ pid lane, op ≠ .enqueue pid t ∧ op ≠ .enqueueToLane pid lane t) (s : Scheduler)
    (p : ProcessId) : StateStep t (s.pcbs p) ((machine.next s op).pcbs p) := by
  cases op with
  | enqueue pid _ =>
    obtain rfl := Option.some.inj htick
    exact absurd rfl (hop pid 0).1
  | enqueueToLane pid laneIndex _ =>
    obtain rfl := Option.some.inj htick
    exact absurd rfl (hop pid laneIndex).2
  | dequeue _ => cases htick
  | configureLanes _ => cases htick
  | setPolicy _ => cases htick
  | _ =>
    obtain rfl := Option.some.inj htick
    first
      | exact selectNextForLane_stateStep s _ _ p
      | exact stealNextForLane_stateStep s _ _ p
      | exact blockRunning_stateStep s _ p
      | exact blockProcess_stateStep s _ _ p
      | exact unblock_stateStep s _ _ p
      | exact terminate_stateStep s _ _ p

theorem exec_block {op : Op} {t : Tick} (htick : op.tick = some t) (s : Scheduler)
    (p : ProcessId) : BlockStep t (s.pcbs p) ((machine.next s op).pcbs p) := by
  cases op with
  | enqueue pid _ =>
    obtain rfl := Option.some.inj htick
    exact enqueueToLane_block s pid 0 _ p
  | enqueueToLane pid laneIndex _ =>
    obtain rfl := Option.some.inj htick
    exact enqueueToLane_block s pid laneIndex _ p
  | _ => exact .state (exec_stateStep htick (by simp) s p)

theorem pcbs_of_tick_eq_none {op : Op} (htick : op.tick = none) (s : Scheduler) :
    (machine.next s op).pcbs = s.pcbs := by
  cases op with
  | dequeue pid =>
    change (s.dequeue pid).2.pcbs = s.pcbs
    unfold dequeue
    split_ifs <;> rfl
  | configureLanes laneCount =>
    change (s.configureLanes laneCount).2.pcbs = s.pcbs
    unfold configureLanes
    split_ifs <;> rfl
  | setPolicy policy => cases policy <;> rfl
  | _ => cases htick

end Contur.Scheduler
