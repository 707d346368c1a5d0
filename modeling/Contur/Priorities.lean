import Mathlib.Data.Nat.Notation
import Mathlib.Logic.Function.Basic
import Contur.Types

/-!
# Inherited priorities

Mutexes and semaphores keep two maps from processes to priority levels: the base
priorities as they were registered and the effective ones. To recompute them, all
effective priorities are set to the base, the highest one among the waiting processes is
found and every process in possession of the resource is raised to it. A process that
was never registered has the normal priority.

The two maps are functions. A loop over one of the hash maps does the same to every
entry and each turn touches its own entry only, so it is a function of the entry.
-/

namespace Contur
open Function (update)

inductive PriorityLevel where
  | realtime | high | aboveNormal | normal | belowNormal | low | idle
  deriving DecidableEq, Repr

/-- The value of the enumeration, smaller for more urgent levels. -/
def PriorityLevel.value : PriorityLevel → ℕ
  | .realtime => 0
  | .high => 1
  | .aboveNormal => 2
  | .normal => 3
  | .belowNormal => 4
  | .low => 5
  | .idle => 6

def isHigherPriority (lhs rhs : PriorityLevel) : Bool := lhs.value < rhs.value

structure Priorities where
  basePriorityByPid : ProcessId → Option PriorityLevel := fun _ => none
  effectivePriorityByPid : ProcessId → Option PriorityLevel := fun _ => none

namespace Priorities

def ensurePriorityRegistered (ps : Priorities) (pid : ProcessId) : Priorities :=
  if pid = invalidPid then ps
  else
    let base := (ps.basePriorityByPid pid).getD .normal
    let effective := (ps.effectivePriorityByPid pid).getD base
    { basePriorityByPid := update ps.basePriorityByPid pid (some base)
      effectivePriorityByPid := update ps.effectivePriorityByPid pid (some effective) }

def resetEffective (ps : Priorities) : Priorities :=
  { ps with effectivePriorityByPid := fun pid =>
      (ps.basePriorityByPid pid).or (ps.effectivePriorityByPid pid) }

/-- An entry of the effective priorities; a missing one is made with the value `0`. -/
def effectiveAt (ps : Priorities) (pid : ProcessId) : PriorityLevel :=
  (ps.effectivePriorityByPid pid).getD .realtime

def highestWaiterPriority (ps : Priorities) (highest : Option PriorityLevel) :
    List ProcessId → Priorities × Option PriorityLevel
  | [] => (ps, highest)
  | waiter :: waitQueue =>
    let ps := ps.ensurePriorityRegistered waiter
    let waiterPriority := ps.effectiveAt waiter
    match highest with
    | none => highestWaiterPriority ps (some waiterPriority) waitQueue
    | some level =>
      highestWaiterPriority ps
        (some (if isHigherPriority waiterPriority level then waiterPriority else level)) waitQueue

def raise (ps : Priorities) (level : PriorityLevel) (pid : ProcessId) : Priorities :=
  let ps := ps.ensurePriorityRegistered pid
  if isHigherPriority level (ps.effectiveAt pid) then
    { ps with effectivePriorityByPid := update ps.effectivePriorityByPid pid (some level) }
  else ps

def raiseAll (ps : Priorities) (level : PriorityLevel) (holds : ProcessId → Bool) : Priorities where
  basePriorityByPid pid :=
    if holds pid then (ps.raise level pid).basePriorityByPid pid else ps.basePriorityByPid pid
  effectivePriorityByPid pid :=
    if holds pid then (ps.raise level pid).effectivePriorityByPid pid
    else ps.effectivePriorityByPid pid

def setBase (ps : Priorities) (pid : ProcessId) (level : PriorityLevel) : Priorities where
  basePriorityByPid := update ps.basePriorityByPid pid (some level)
  effectivePriorityByPid := update ps.effectivePriorityByPid pid (some level)

def effectivePriority (ps : Priorities) (pid : ProcessId) : PriorityLevel :=
  match ps.effectivePriorityByPid pid with
  | some level => level
  | none => (ps.basePriorityByPid pid).getD .normal

def basePriority (ps : Priorities) (pid : ProcessId) : PriorityLevel :=
  (ps.basePriorityByPid pid).getD .normal

end Priorities
end Contur
