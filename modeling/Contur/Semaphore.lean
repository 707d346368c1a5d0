import Contur.Priorities
import Contur.Transition

/-!
# Semaphores

A semaphore has a number of free permits, a count of permits for each holder and a queue
of processes that have been refused. A release gives the permit to the front of the queue
or makes it free, whether or not the caller holds one; only at the maximal count is it
refused. The effective priorities are recomputed at the exits of the calls, but not where
a refused `tryAcquire` ends.
-/

namespace Contur
open Function (update)
open Transition

structure Semaphore where
  count : ℕ
  maxCount : ℕ
  waitQueue : List ProcessId := []
  holderCounts : ProcessId → Option ℕ := fun _ => none
  priorities : Priorities := {}

namespace Semaphore

def init (initialCount maxCount : ℕ) : Semaphore where
  count := min initialCount (max 1 maxCount)
  maxCount := max 1 maxCount

def ensurePriorityRegistered (s : Semaphore) (pid : ProcessId) : Semaphore :=
  { s with priorities := s.priorities.ensurePriorityRegistered pid }

def holds (s : Semaphore) (pid : ProcessId) : Bool := (s.holderCounts pid).getD 0 != 0

def recomputePriorities (s : Semaphore) : Semaphore :=
  let ps := s.priorities.resetEffective
  if s.waitQueue.isEmpty then { s with priorities := ps }
  else
    match ps.highestWaiterPriority none s.waitQueue with
    | (ps, none) => { s with priorities := ps }
    | (ps, some level) => { s with priorities := ps.raiseAll level s.holds }

def grant (s : Semaphore) (pid : ProcessId) : Semaphore :=
  { s with holderCounts := update s.holderCounts pid (some ((s.holderCounts pid).getD 0 + 1)) }

/-- One permit less for the process, if it has an entry, which is removed at zero. -/
def giveBack (s : Semaphore) (pid : ProcessId) : Semaphore :=
  match s.holderCounts pid with
  | none => s
  | some held =>
    let held := if held > 0 then held - 1 else held
    { s with holderCounts := update s.holderCounts pid (if held = 0 then none else some held) }

def acquire (s : Semaphore) (pid : ProcessId) : Result Unit × Semaphore :=
  if pid = invalidPid then (.error .invalidPid, s)
  else
    let s := s.ensurePriorityRegistered pid
    if s.count > 0 then
      (.ok (), ({ s with count := s.count - 1 }.grant pid).recomputePriorities)
    else
      let s := if pid ∈ s.waitQueue then s else { s with waitQueue := s.waitQueue ++ [pid] }
      (.error .resourceBusy, s.recomputePriorities)

def release (s : Semaphore) (pid : ProcessId) : Result Unit × Semaphore :=
  if pid = invalidPid then (.error .invalidPid, s)
  else
    let s := (s.ensurePriorityRegistered pid).giveBack pid
    match s.waitQueue with
    | next :: waitQueue =>
      let s := { s with waitQueue := waitQueue }.ensurePriorityRegistered next
      (.ok (), (s.grant next).recomputePriorities)
    | [] =>
      if s.count ≥ s.maxCount then (.error .invalidState, s.recomputePriorities)
      else (.ok (), { s with count := s.count + 1 }.recomputePriorities)

def tryAcquire (s : Semaphore) (pid : ProcessId) : Result Unit × Semaphore :=
  if pid = invalidPid then (.error .invalidPid, s)
  else
    let s := s.ensurePriorityRegistered pid
    if s.count = 0 then (.error .resourceBusy, s)
    else (.ok (), ({ s with count := s.count - 1 }.grant pid).recomputePriorities)

def registerProcessPriority (s : Semaphore) (pid : ProcessId) (basePriority : PriorityLevel) :
    Result Unit × Semaphore :=
  if pid = invalidPid then (.error .invalidPid, s)
  else (.ok (), { s with priorities := s.priorities.setBase pid basePriority }.recomputePriorities)

def effectivePriority (s : Semaphore) (pid : ProcessId) : PriorityLevel :=
  s.priorities.effectivePriority pid

def basePriority (s : Semaphore) (pid : ProcessId) : PriorityLevel := s.priorities.basePriority pid

inductive Op where
  | acquire (pid : ProcessId)
  | tryAcquire (pid : ProcessId)
  | release (pid : ProcessId)
  | registerProcessPriority (pid : ProcessId) (basePriority : PriorityLevel)
  deriving DecidableEq, Repr

def exec (s : Semaphore) : Op → Result Unit × Semaphore
  | .acquire pid => s.acquire pid
  | .tryAcquire pid => s.tryAcquire pid
  | .release pid => s.release pid
  | .registerProcessPriority pid level => s.registerProcessPriority pid level

def machine : Machine Semaphore Op (Result Unit) := ⟨exec⟩

end Semaphore
end Contur
