import Contur.Priorities
import Contur.Transition

/-!
# Mutexes

A mutex has an owner, who may take it several times, and a queue of processes that have
been refused. The last release of the owner hands the mutex over to the front of the
queue. The effective priorities are recomputed at the exits of the calls, but not where a
repeated `acquire` of the owner or a refused `tryAcquire` ends.
-/

namespace Contur
open Transition

structure Mutex where
  owner : Option ProcessId := none
  recursionDepth : ℕ := 0
  waitQueue : List ProcessId := []
  priorities : Priorities := {}

namespace Mutex

def ensurePriorityRegistered (s : Mutex) (pid : ProcessId) : Mutex :=
  { s with priorities := s.priorities.ensurePriorityRegistered pid }

def recomputePriorities (s : Mutex) : Mutex :=
  let ps := s.priorities.resetEffective
  match s.owner with
  | none => { s with priorities := ps }
  | some owner =>
    if s.waitQueue.isEmpty then { s with priorities := ps }
    else
      match ps.highestWaiterPriority none s.waitQueue with
      | (ps, none) => { s with priorities := ps }
      | (ps, some level) => { s with priorities := ps.raise level owner }

def acquire (s : Mutex) (pid : ProcessId) : Result Unit × Mutex :=
  if pid = invalidPid then (.error .invalidPid, s)
  else
    let s := s.ensurePriorityRegistered pid
    match s.owner with
    | none => (.ok (), { s with owner := some pid, recursionDepth := 1 }.recomputePriorities)
    | some owner =>
      if owner = pid then (.ok (), { s with recursionDepth := s.recursionDepth + 1 })
      else
        let s := if pid ∈ s.waitQueue then s else { s with waitQueue := s.waitQueue ++ [pid] }
        (.error .resourceBusy, s.recomputePriorities)

def release (s : Mutex) (pid : ProcessId) : Result Unit × Mutex :=
  match s.owner with
  | none => (.error .invalidState, s)
  | some owner =>
    if owner ≠ pid then (.error .permissionDenied, s)
    else if s.recursionDepth > 1 then
      (.ok (), { s with recursionDepth := s.recursionDepth - 1 }.recomputePriorities)
    else
      match s.waitQueue with
      | [] => (.ok (), { s with owner := none, recursionDepth := 0 }.recomputePriorities)
      | next :: waitQueue =>
        (.ok (), { s with
          owner := some next, recursionDepth := 1, waitQueue := waitQueue }.recomputePriorities)

def tryAcquire (s : Mutex) (pid : ProcessId) : Result Unit × Mutex :=
  if pid = invalidPid then (.error .invalidPid, s)
  else
    let s := s.ensurePriorityRegistered pid
    match s.owner with
    | none => (.ok (), { s with owner := some pid, recursionDepth := 1 }.recomputePriorities)
    | some owner =>
      if owner = pid then
        (.ok (), { s with recursionDepth := s.recursionDepth + 1 }.recomputePriorities)
      else (.error .resourceBusy, s)

def registerProcessPriority (s : Mutex) (pid : ProcessId) (basePriority : PriorityLevel) :
    Result Unit × Mutex :=
  if pid = invalidPid then (.error .invalidPid, s)
  else (.ok (), { s with priorities := s.priorities.setBase pid basePriority }.recomputePriorities)

def effectivePriority (s : Mutex) (pid : ProcessId) : PriorityLevel :=
  s.priorities.effectivePriority pid

def basePriority (s : Mutex) (pid : ProcessId) : PriorityLevel := s.priorities.basePriority pid

inductive Op where
  | acquire (pid : ProcessId)
  | tryAcquire (pid : ProcessId)
  | release (pid : ProcessId)
  | registerProcessPriority (pid : ProcessId) (basePriority : PriorityLevel)
  deriving DecidableEq, Repr

def exec (s : Mutex) : Op → Result Unit × Mutex
  | .acquire pid => s.acquire pid
  | .tryAcquire pid => s.tryAcquire pid
  | .release pid => s.release pid
  | .registerProcessPriority pid level => s.registerProcessPriority pid level

def machine : Machine Mutex Op (Result Unit) := ⟨exec⟩

end Mutex
end Contur
