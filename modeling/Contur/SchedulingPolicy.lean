import Contur.MinElement
import Contur.Process
import Contur.Rounding

/-!
# Scheduling policies

A policy sees snapshots of the ready processes and the current tick. The seven
policies of the source choose the least or the greatest snapshot in an order of
their own; what the rest of the system relies on is only that the choice comes
from the queue (`Selects`). Response ratios are numbers of type `double` in the source;
beside that policy stands the one that compares the quotients without rounding.
-/

namespace Contur
open Extremum

structure SchedulingProcessSnapshot where
  pid : ProcessId
  arrivalTime : Tick
  lastStateChange : Tick
  estimatedBurst : Tick
  remainingBurst : Tick
  totalWaitTime : Tick
  effectivePriority : ℤ
  nice : ℤ
  deriving DecidableEq, Repr

def toSnapshot (pid : ProcessId) (pcb : Pcb) : SchedulingProcessSnapshot where
  pid := pid
  arrivalTime := pcb.timing.arrivalTime
  lastStateChange := pcb.timing.lastStateChange
  estimatedBurst := pcb.timing.estimatedBurst
  remainingBurst := pcb.timing.remainingBurst
  totalWaitTime := pcb.timing.totalWaitTime
  effectivePriority := pcb.priority.effective
  nice := pcb.priority.nice

structure SchedulingPolicy where
  selectNext : List SchedulingProcessSnapshot → Tick → ProcessId
  shouldPreempt : SchedulingProcessSnapshot → SchedulingProcessSnapshot → Tick → Bool

def SchedulingPolicy.Selects (policy : SchedulingPolicy) : Prop :=
  ∀ queue now, queue ≠ [] → ∃ process ∈ queue, policy.selectNext queue now = process.pid

def selectMin (less : SchedulingProcessSnapshot → SchedulingProcessSnapshot → Bool)
    (queue : List SchedulingProcessSnapshot) : ProcessId :=
  match minElement less queue with
  | none => invalidPid
  | some process => process.pid

def selectMax (less : SchedulingProcessSnapshot → SchedulingProcessSnapshot → Bool)
    (queue : List SchedulingProcessSnapshot) : ProcessId :=
  match maxElement less queue with
  | none => invalidPid
  | some process => process.pid

def lessBy (key : SchedulingProcessSnapshot → ℕ) (a b : SchedulingProcessSnapshot) : Bool :=
  if key a ≠ key b then key a < key b else a.pid < b.pid

def fcfsPolicy : SchedulingPolicy where
  selectNext queue _ := selectMin (lessBy (·.arrivalTime)) queue
  shouldPreempt _ _ _ := false

def serviceTime (process : SchedulingProcessSnapshot) : Tick :=
  if process.estimatedBurst = 0 then 1 else process.estimatedBurst

def spnPolicy : SchedulingPolicy where
  selectNext queue _ := selectMin (lessBy serviceTime) queue
  shouldPreempt _ _ _ := false

def remaining (process : SchedulingProcessSnapshot) : Tick :=
  if 0 < process.remainingBurst then process.remainingBurst
  else if 0 < process.estimatedBurst then process.estimatedBurst
  else 1

def srtPolicy : SchedulingPolicy where
  selectNext queue _ := selectMin (lessBy remaining) queue
  shouldPreempt running candidate _ := remaining candidate < remaining running

def roundRobinPolicy (timeSlice : ℕ) : SchedulingPolicy where
  selectNext queue _ := selectMin (lessBy (·.lastStateChange)) queue
  shouldPreempt running _ now :=
    (if timeSlice = 0 then 1 else timeSlice) ≤ tickSub now running.lastStateChange

def betterPriority (lhs rhs : SchedulingProcessSnapshot) : Bool :=
  if lhs.effectivePriority ≠ rhs.effectivePriority then
    lhs.effectivePriority < rhs.effectivePriority
  else if lhs.nice ≠ rhs.nice then lhs.nice < rhs.nice
  else lhs.pid < rhs.pid

def priorityPolicy : SchedulingPolicy where
  selectNext queue _ := selectMin betterPriority queue
  shouldPreempt running candidate _ := betterPriority candidate running

/-- The conversion of a tick to `double`, which has 53 significant digits. -/
def toDouble (n : ℕ) : ℕ := Rounding.nearest 53 n 1

/-- `(wait + service) / service` in doubles. The quotient is at least one, so that it is a multiple
of `2⁻⁵²`, and is counted in these units. -/
def doubleResponse (process : SchedulingProcessSnapshot) : ℕ :=
  let service := toDouble (serviceTime process)
  let wait := toDouble process.totalWaitTime
  Rounding.nearest 53 (toDouble (wait + service) * 2 ^ 52) service

def lessDoubleResponse (a b : SchedulingProcessSnapshot) : Bool :=
  if doubleResponse a ≠ doubleResponse b then doubleResponse a < doubleResponse b
  else b.pid < a.pid

/-- The policy as the source has it. -/
def hrrnDoublePolicy : SchedulingPolicy where
  selectNext queue _ := selectMax lessDoubleResponse queue
  shouldPreempt _ _ _ := false

def lessResponse (a b : SchedulingProcessSnapshot) : Bool :=
  let lhs := (a.totalWaitTime + serviceTime a) * serviceTime b
  let rhs := (b.totalWaitTime + serviceTime b) * serviceTime a
  if lhs ≠ rhs then lhs < rhs else b.pid < a.pid

/-- The policy with quotients that are not rounded. -/
def hrrnPolicy : SchedulingPolicy where
  selectNext queue _ := selectMax lessResponse queue
  shouldPreempt _ _ _ := false

/-- A negative level is a huge one after the conversion to an unsigned size. -/
def priorityToLevel (process : SchedulingProcessSnapshot) (levelCount : ℕ) : ℕ :=
  let level := (process.effectivePriority % 2 ^ 64).toNat
  if levelCount = 0 then 0 else if levelCount ≤ level then levelCount - 1 else level

def mlfqLess (levelCount : ℕ) (a b : SchedulingProcessSnapshot) : Bool :=
  let levelA := priorityToLevel a levelCount
  let levelB := priorityToLevel b levelCount
  if levelA ≠ levelB then levelA < levelB else lessBy (·.lastStateChange) a b

def mlfqSlices (levelTimeSlices : List ℕ) : List ℕ :=
  (if levelTimeSlices.isEmpty then [1] else levelTimeSlices).map fun slice =>
    if slice = 0 then 1 else slice

def mlfqPolicy (levelTimeSlices : List ℕ) : SchedulingPolicy where
  selectNext queue _ := selectMin (mlfqLess (mlfqSlices levelTimeSlices).length) queue
  shouldPreempt running candidate now :=
    let slices := mlfqSlices levelTimeSlices
    let runningLevel := priorityToLevel running slices.length
    if priorityToLevel candidate slices.length < runningLevel then true
    else slices.getD runningLevel 1 ≤ tickSub now running.lastStateChange

theorem selectMin_mem {less : SchedulingProcessSnapshot → SchedulingProcessSnapshot → Bool}
    {queue : List SchedulingProcessSnapshot} (h : queue ≠ []) :
    ∃ process ∈ queue, selectMin less queue = process.pid := by
  obtain ⟨process, hp⟩ := exists_minElement less h
  exact ⟨process, minElement_mem hp, by simp [selectMin, hp]⟩

theorem selectMax_mem {less : SchedulingProcessSnapshot → SchedulingProcessSnapshot → Bool}
    {queue : List SchedulingProcessSnapshot} (h : queue ≠ []) :
    ∃ process ∈ queue, selectMax less queue = process.pid := by
  obtain ⟨process, hp⟩ := exists_maxElement less h
  exact ⟨process, maxElement_mem hp, by simp [selectMax, hp]⟩

inductive PolicyKind where
  | fcfs
  | spn
  | srt
  | roundRobin (timeSlice : ℕ)
  | priority
  | hrrn
  | hrrnDouble
  | mlfq (levelTimeSlices : List ℕ)

def PolicyKind.policy : PolicyKind → SchedulingPolicy
  | .fcfs => fcfsPolicy
  | .spn => spnPolicy
  | .srt => srtPolicy
  | .roundRobin timeSlice => roundRobinPolicy timeSlice
  | .priority => priorityPolicy
  | .hrrn => hrrnPolicy
  | .hrrnDouble => hrrnDoublePolicy
  | .mlfq levelTimeSlices => mlfqPolicy levelTimeSlices

theorem PolicyKind.selects (kind : PolicyKind) : kind.policy.Selects := by
  intro queue now h
  cases kind with
  | hrrn => exact selectMax_mem h
  | hrrnDouble => exact selectMax_mem h
  | _ => exact selectMin_mem h

end Contur
